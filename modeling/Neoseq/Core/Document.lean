import Neoseq.Collections.BTreeMap
import Neoseq.Core.Command
import Neoseq.Document.Stored
import Neoseq.Domain.Order
import Neoseq.Forest.Level
import Neoseq.Outline.Levels

/-! The document a replica edits: entity records with their property bags, tag
references and outlines, and the default queries of the graph. A document holds
what a validated one can hold. The three homes of records are one map, since an
id lives in one of them; a map container that was never created is an empty one. -/

namespace Neoseq.Core
open Domain Document Collections Content Forest

/-- The errors a command is refused with. -/
inductive CoreError where
  | wrongGraph (expected actual : GraphId)
  | pageNotFound (page : PageId)
  | pageDeleted (page : PageId)
  | tagNotFound (tag : TagId)
  | tagDeleted (tag : TagId)
  | invalidBatch (message : String)
  | pageNameConflict (name : String) (existing : PageId)
  | tagNameConflict (name : String) (existing : TagId)
  | emptyName (entity : String)
  | blockNotFound (block : BlockId)
  | firstSiblingIndent
  | rootBlockOutdent
  | invalidHierarchy (message : String)
  | textTooLong
  | property (error : PropertyError)
  | propertyEncoding
  /-- A refusal of the container library. -/
  | loro
  | snapshotGraphMismatch
  | cloneTargetMatchesSource
  | unsupportedSchema (version : Int)
  deriving DecidableEq

/-- What the core asks of the libraries it is built on. -/
structure Host where
  codec : Codec
  /-- The JSON text of a value, in whose order the values of a set are listed. -/
  encode : PropertyValue → String
  encodeColumns : List QueryViewColumn → String
  encodeOptions : QueryViewOptions → String
  encodePlanState : StoredPlanState → String
  /-- The text of the error for a plan that has no source. -/
  planError : QueryPlan → String
  /-- `str::to_lowercase`. -/
  toLowercase : String → String
  /-- `char::is_whitespace`. -/
  isWhitespace : Char → Bool
  /-- The id derived from the digest of a graph and a date. -/
  journalId : GraphId → LocalDate → PageId
  /-- The text of `fragment_entity_id`, which ends in a digest. -/
  fragmentEntityId : String → GraphId → GraphId → String → String
  /-- The length of the JSON text of a fragment. -/
  fragmentSize : OutlineFragment → Nat
  /-- Whether a text is the text of a tree id. -/
  isTreeId : BlockId → Bool
  /-- How many values a `usize` has. -/
  usizeCount : Nat := 2 ^ 64

/-- The ids of new tree nodes. Up to its capacity a replica draws an id that no
node has. -/
structure IdSource where
  next : List BlockId → BlockId
  capacity : Nat
  fresh : ∀ known, known.length < capacity → next known ∉ known

/-! ## Property bags -/

structure StoredPropertyShape where
  valueType : PropertyType
  cardinality : Cardinality
  deriving Repr, DecidableEq

/-- One field of a bag: its shape, and its `single`, `set` and `document` slots. -/
structure StoredField where
  shape : StoredPropertyShape
  single : Option PropertyValue := none
  members : Option (List PropertyValue) := none
  document : Option LoroMap := none

/-- The registry allows `key` this shape. -/
def StoredPropertyShape.Suits (shape : StoredPropertyShape) (key : PropertyKey) : Prop :=
  validatePropertyShape key shape.valueType shape.cardinality = .ok ()

/-- Every field has a shape that its key may have. -/
structure Bag where
  fields : BTreeMap PropertyKey StoredField
  suits : ∀ key field, fields.get key = some field → field.shape.Suits key

namespace Bag

def empty : Bag := ⟨∅, fun _ _ h => nomatch h⟩

instance : EmptyCollection Bag := ⟨empty⟩

def get (bag : Bag) (key : PropertyKey) : Option StoredField := bag.fields.get key

/-- `bag_contains_key`. -/
def contains (bag : Bag) (key : PropertyKey) : Bool := (bag.get key).isSome

def insert (bag : Bag) (key : PropertyKey) (field : StoredField) (h : field.shape.Suits key) :
    Bag where
  fields := bag.fields.insert key field
  suits k f hk := by
    rw [BTreeMap.get_insert] at hk
    split at hk
    · next he =>
      subst he
      exact Option.some.inj hk ▸ h
    · exact bag.suits k f hk

def remove (bag : Bag) (key : PropertyKey) : Bag where
  fields := bag.fields.remove key
  suits k f hk := by
    rw [BTreeMap.get_remove] at hk
    split at hk
    · cases hk
    · exact bag.suits k f hk

theorem ext {bag bag' : Bag} (h : ∀ key, bag.get key = bag'.get key) : bag = bag' := by
  obtain ⟨fields, suits⟩ := bag
  obtain ⟨fields', suits'⟩ := bag'
  obtain rfl : fields = fields' := BTreeMap.ext h
  rfl
@[simp] theorem get_empty (key : PropertyKey) : (∅ : Bag).get key = none := rfl

theorem get_insert (bag : Bag) (key key' : PropertyKey) (field : StoredField)
    (h : field.shape.Suits key) :
    (bag.insert key field h).get key' = if key' = key then some field else bag.get key' :=
  BTreeMap.get_insert ..

theorem get_remove (bag : Bag) (key key' : PropertyKey) :
    (bag.remove key).get key' = if key' = key then none else bag.get key' :=
  BTreeMap.get_remove ..

end Bag

/-! ## Outlines -/

/-- What the metadata map of a tree node holds. -/
structure BlockMeta where
  content : List Piece := []
  properties : Bag := ∅
  tagRefs : BTreeSet TagId := ∅

/-- A tree container: the nodes that are not deleted, every node there ever was,
and the metadata of each. -/
structure Outline where
  tree : Forest BlockId
  known : List BlockId
  metas : BlockId → BlockMeta
  nodup : tree.labels.Nodup
  issued : ∀ b ∈ tree.labels, b ∈ known

namespace Outline

def empty : Outline := ⟨.nil, [], fun _ => {}, List.nodup_nil, fun _ h => nomatch h⟩

/-- The number of children of a node, of top-level nodes for `none`. -/
def count (o : Outline) (parent : Option BlockId) : Nat := ((row parent o.tree).getD []).length

theorem nodup_create {o : Outline} {b : BlockId} {parent : Option BlockId} (index : Nat)
    (hb : b ∉ o.known) (hp : ∀ p ∈ parent, p ∈ o.tree.labels) :
    (mapRow parent (insertAt (single b .nil) index) o.tree).labels.Perm (b :: o.tree.labels) ∧
      (mapRow parent (insertAt (single b .nil) index) o.tree).labels.Nodup := by
  obtain ⟨z, l, r, he, _, hm, _⟩ :=
    exists_insert (single b .nil) index o.nodup fun x hx => hp x hx
  have hperm := labels_perm_insert z l (single b .nil) r
  rw [← he, ← hm] at hperm
  refine ⟨hperm, hperm.nodup_iff.mpr (List.nodup_cons.mpr ⟨fun h => hb (o.issued b h), o.nodup⟩)⟩

/-- A node that was never there becomes a child without children. -/
def createAt (o : Outline) (b : BlockId) (parent : Option BlockId) (index : Nat) :
    Except CoreError Outline :=
  if h : b ∉ o.known ∧ (∀ p ∈ parent, p ∈ o.tree.labels) ∧ index ≤ o.count parent then
    .ok
      { tree := mapRow parent (insertAt (single b .nil) index) o.tree
        known := b :: o.known
        metas := fun x => if x = b then {} else o.metas x
        nodup := (nodup_create index h.1 h.2.1).2
        issued := fun x hx => by
          rw [(nodup_create index h.1 h.2.1).1.mem_iff, List.mem_cons] at hx
          exact List.mem_cons.mpr (hx.imp_right (o.issued x)) }
  else .error .loro

/-- Another tree of the same nodes. -/
def rearrange (o : Outline) (tree : Forest BlockId) (h : tree.labels.Perm o.tree.labels) :
    Outline :=
  { o with
    tree := tree
    nodup := h.nodup_iff.mpr o.nodup
    issued := fun b hb => o.issued b (h.mem_iff.mp hb) }

def movTo (o : Outline) (b : BlockId) (parent : Option BlockId) (index : Nat) :
    Except CoreError Outline :=
  if h : b ∈ o.tree.labels ∧ ∀ p ∈ parent, p ∈ o.tree.labels ∧ p ∉ subtree b o.tree then
    .ok (o.rearrange (moveAt b parent index o.tree)
      (labels_perm_moveAt ⟨h.1, fun x hx => h.2 x hx⟩ o.nodup))
  else .error .loro

def movAfter (o : Outline) (b anchor : BlockId) : Except CoreError Outline :=
  if h : b ∈ o.tree.labels ∧ anchor ∈ o.tree.labels ∧ anchor ∉ subtree b o.tree then
    .ok (o.rearrange (moveAfter b anchor o.tree)
      (labels_perm_moveAfter ⟨h.1, h.2.1, h.2.2⟩ o.nodup))
  else .error .loro

/-- The node and everything below it is deleted. -/
def delete (o : Outline) (b : BlockId) : Except CoreError Outline :=
  if b ∈ o.tree.labels then
    .ok
      { o with
        tree := prune b o.tree
        nodup := nodup_prune o.nodup
        issued := fun x hx => o.issued x ((prune_labels_sublist b o.tree).subset hx) }
  else .error .loro

def setMeta (o : Outline) (b : BlockId) (blockMeta : BlockMeta) : Outline :=
  { o with metas := fun x => if x = b then blockMeta else o.metas x }

end Outline

/-- The moves of an outline. -/
def outlineOps : Outline.TreeOps Outline BlockId CoreError where
  live := Outline.tree
  movTo := Outline.movTo
  movAfter := Outline.movAfter

/-! ## Records -/

/-- One entity. The records of the oldest schema have no `root` map of their own:
what stands in it stands in the record itself. -/
structure Record where
  kind : Option EntityKind
  name : Option String
  rooted : Bool
  content : Option String
  properties : Bag
  tagRefs : BTreeSet TagId
  defaults : Bag
  outline : Outline

/-- One entry of the default queries. -/
structure DefaultQueryEntry where
  title : Option String
  position : Option Int
  deleted : Option Bool
  document : Option LoroMap

structure GraphDoc where
  graphId : GraphId
  defaultQueries : BTreeMap DefaultQueryId DefaultQueryEntry
  entities : BTreeMap PageId Record

namespace GraphDoc

def setEntity (d : GraphDoc) (id : PageId) (record : Record) : GraphDoc :=
  { d with entities := d.entities.insert id record }

/-- Every tree node there ever was. -/
def known (d : GraphDoc) : List BlockId := d.entities.entries.flatMap fun e => e.2.outline.known

end GraphDoc

end Neoseq.Core
