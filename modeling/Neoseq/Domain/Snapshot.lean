import Neoseq.Domain.Property

/-! What readers of a graph are handed: pages and tags with their outlines. -/

namespace Neoseq.Domain

/-- The schema of the documents that this build writes. -/
def schemaVersion : Nat := 9

def supportsDocumentSchema (version : Nat) : Bool := 7 ≤ version && version ≤ 9

inductive OutlineOwner where
  | page (id : PageId)
  | tag (id : TagId)

/-- Pages come before tags, and each kind is in the order of its ids. -/
def OutlineOwner.rank : OutlineOwner → Bool ×ₗ String
  | .page id => toLex (false, id.asStr)
  | .tag id => toLex (true, id.asStr)

theorem OutlineOwner.rank_injective : Function.Injective OutlineOwner.rank := by
  rintro (a | a) (b | b) h
  · exact congrArg _ (OpaqueString.ext (congrArg Prod.snd (toLex.injective h)))
  · exact nomatch congrArg Prod.fst (toLex.injective h)
  · exact nomatch congrArg Prod.fst (toLex.injective h)
  · exact congrArg _ (OpaqueString.ext (congrArg Prod.snd (toLex.injective h)))

instance : LinearOrder OutlineOwner := LinearOrder.lift' _ OutlineOwner.rank_injective

structure PageReferenceSpan where
  start : Nat
  stop : Nat
  index : Nat
  pageId : PageId
  deriving DecidableEq

inductive BlockSnapshot where
  | mk (id : BlockId) (markdown : String) (pageReferences : List PageReferenceSpan)
    (properties : PropertyBag) (tags : List TagId) (children : List BlockSnapshot)

namespace BlockSnapshot

def id : BlockSnapshot → BlockId
  | mk id .. => id

def markdown : BlockSnapshot → String
  | mk _ markdown .. => markdown

def pageReferences : BlockSnapshot → List PageReferenceSpan
  | mk _ _ pageReferences .. => pageReferences

def properties : BlockSnapshot → PropertyBag
  | mk _ _ _ properties .. => properties

def tags : BlockSnapshot → List TagId
  | mk _ _ _ _ tags _ => tags

end BlockSnapshot

structure PageSnapshot where
  id : PageId
  title : String
  properties : PropertyBag
  tags : List TagId
  blocks : List BlockSnapshot

structure TagSnapshot where
  id : TagId
  name : String
  properties : PropertyBag
  defaults : PropertyBag
  blocks : List BlockSnapshot

end Neoseq.Domain
