import Neoseq.Core.Transition

/-! Outlines that are inserted or pasted: what an item list and a fragment must
satisfy, and which tags and pages of the graph a fragment's references stand for.
References that stand for none become new entities. -/

namespace Neoseq.Core
open Domain Document Collections Content

variable (host : Host)

def maxOutlineFragmentBytes : Nat := 4 * maxBlockTextBytes

def invalid {γ : Type} (message : String) : Except CoreError γ := .error (.invalidHierarchy message)

def fragmentError {γ : Type} (x : Except FragmentError γ) : Except CoreError γ :=
  x.mapError fun
    | .invalidHierarchy message => .invalidHierarchy message
    | .textTooLong => .textTooLong

/-! ## Item lists -/

/-- The loop of `validate_outline_items` over depths and texts. -/
def validateItemDepths (operation : String) :
    List (Nat × Text) → (previousDepth totalText : Nat) → Except CoreError Unit
  | [], _, _ => .ok ()
  | (depth, markdown) :: rest, previousDepth, totalText => do
    if depth > previousDepth + 1 then invalid ("outline " ++ operation ++ " skips a depth")
    validateText markdown maxBlockTextBytes
    if totalText + utf8Len markdown > maxBlockTextBytes then
      invalid ("outline " ++ operation ++ " exceeds the text limit")
    validateItemDepths operation rest depth (totalText + utf8Len markdown)

def validateOutlineItems (items : List (Nat × Text)) (operation : String) :
    Except CoreError Unit := do
  if items.isEmpty then invalid ("outline " ++ operation ++ " requires at least one item")
  if items.length > Outline.maxStructuralTargets then
    invalid ("outline " ++ operation ++ " exceeds the block target limit")
  if items.head?.any fun item => item.1 != 0 then
    invalid ("outline " ++ operation ++ " must start at depth zero")
  validateItemDepths operation items 0 0

/-! ## Fragments -/

def validateFragmentTags : List OutlineFragmentTag → (seen : List TagId) → Except CoreError Unit
  | [], _ => .ok ()
  | tag :: rest, seen => do
    if tag.id ∈ seen then invalid "outline fragment contains a duplicate tag reference"
    validateEntityName host tag.name "tag"
    validateFragmentTags rest (tag.id :: seen)

def validateFragmentPages : List OutlineFragmentPage → (seen : List PageId) →
    Except CoreError Unit
  | [], _ => .ok ()
  | page :: rest, seen => do
    if page.id ∈ seen then invalid "outline fragment contains a duplicate page reference"
    if page.journalDate.isNone then validateEntityName host page.title "page"
    validateFragmentPages rest (page.id :: seen)

/-- What the items of a fragment have referred to so far. -/
structure FragmentScan where
  totalFields : Nat := 0
  referencedTags : List TagId := []
  referencedPages : List PageId := []

/-- A reference to a page of this graph needs no descriptor where the fragment is
of this graph. -/
def resolvesDirectly (d : GraphDoc) (fragment : OutlineFragment) (page : PageId) : Bool :=
  fragment.sourceGraphId == d.graphId && (d.requireLivePage page).toBool

def missingPageReference {γ : Type} (page : PageId) : Except CoreError γ :=
  invalid ("outline fragment page reference is missing: " ++ page.asStr)

def isQueryDocument (field : PropertyField) : Bool :=
  field.key.asStr == queryPropertyKey && field.cardinality == .single &&
    match field.values with
    | [.document _] => true
    | _ => false

/-- The pages a field refers to. -/
def fieldPages (field : PropertyField) : List PageId :=
  field.values.filterMap fun
    | .page id => some id
    | _ => none

def validateFragmentField (d : GraphDoc) (fragment : OutlineFragment) (field : PropertyField) :
    Except CoreError Unit := do
  if propertyCopyPolicy field.key ≠ .portable then
    invalid ("property is not portable: " ++ field.key.asStr)
  propertyError (validatePropertyWrite field.key .block)
  propertyError (validatePropertyField host.codec field)
  if field.valueType = .document ∧ !isQueryDocument field then
    invalid "outline fragment contains an unsupported document property"
  match (fieldPages field).find? fun page =>
      !resolvesDirectly d fragment page && !(fragment.pages.map (·.id)).contains page with
  | some page => missingPageReference page
  | none => return ()

def validateFragmentFields (d : GraphDoc) (fragment : OutlineFragment) :
    List PropertyField → Except CoreError Unit
  | [] => .ok ()
  | field :: rest => do
    validateFragmentField host d fragment field
    validateFragmentFields d fragment rest

/-- Each tag of an item is described, and named once. -/
def validateItemTags (fragment : OutlineFragment) :
    List TagId → (seen : List TagId) → Except CoreError Unit
  | [], _ => .ok ()
  | tag :: rest, seen => do
    if tag ∈ seen ∨ tag ∉ fragment.tags.map (·.id) then
      invalid ("outline fragment tag reference is missing or duplicated: " ++ tag.asStr)
    validateItemTags fragment rest (tag :: seen)

def validateFragmentItem (d : GraphDoc) (fragment : OutlineFragment) (scan : FragmentScan)
    (item : OutlineFragmentItem) : Except CoreError FragmentScan := do
  fragmentError (validateFragmentPageReferences item.markdown item.pageReferences)
  let references := item.pageReferences.map (·.pageId)
  match references.find? fun page => !(fragment.pages.map (·.id)).contains page with
  | some page => missingPageReference page
  | none => pure ()
  let totalFields := scan.totalFields + item.properties.fields.length
  if totalFields > Outline.maxStructuralTargets then
    invalid "outline paste exceeds the property limit"
  validateFragmentFields host d fragment item.properties.fields
  validateItemTags fragment item.tags []
  return {
    totalFields
    referencedTags := scan.referencedTags ++ item.tags
    referencedPages :=
      scan.referencedPages ++ references ++ item.properties.fields.flatMap fieldPages }

def validateOutlineFragment (d : GraphDoc) (fragment : OutlineFragment) :
    Except CoreError Unit := do
  if fragment.kind ≠ outlineFragmentKind ∨ fragment.version ≠ outlineFragmentVersion then
    invalid "unsupported outline fragment"
  validateOutlineItems (fragment.items.map fun item => (item.depth, item.markdown)) "paste"
  if fragment.tags.length > Outline.maxStructuralTargets ∨
      fragment.pages.length > Outline.maxStructuralTargets then
    invalid "outline paste exceeds the reference limit"
  if host.fragmentSize fragment > maxOutlineFragmentBytes then
    invalid "outline fragment exceeds the payload limit"
  validateFragmentTags host fragment.tags []
  validateFragmentPages host fragment.pages []
  let scan ← fragment.items.foldlM (validateFragmentItem host d fragment) {}
  if fragment.tags.any (fun tag => !scan.referencedTags.contains tag.id) ∨
      fragment.pages.any (fun page => !scan.referencedPages.contains page.id) then
    invalid "outline fragment contains an unused reference descriptor"

/-! ## Resolving references -/

/-- `base`, then `base-1` and so on. -/
def suffixed (base : String) (suffix : Nat) : String :=
  if suffix = 0 then base else base ++ "-" ++ toString suffix

/-- The first free id among the next candidates. -/
def freeFragmentId {kind : String} (base : String) (occupied : List String) (label : String) :
    (remaining suffix : Nat) → Except CoreError (OpaqueString kind)
  | 0, _ => invalid ("cannot allocate a copied " ++ label ++ " id")
  | remaining + 1, suffix =>
    match OpaqueString.new (suffixed base suffix) with
    | .error e => invalid e.message
    | .ok id =>
      if id.asStr ∈ occupied then freeFragmentId base occupied label remaining (suffix + 1)
      else .ok id

def freshFragmentId {kind : String} (d : GraphDoc) (fragment : OutlineFragment)
    (spaceName label source : String) (occupied : List String) :
    Except CoreError (OpaqueString kind) :=
  freeFragmentId (host.fragmentEntityId spaceName d.graphId fragment.sourceGraphId source) occupied
    label (Outline.maxStructuralTargets + 1) 0

def freshFragmentTagId (d : GraphDoc) (fragment : OutlineFragment) (source : TagId)
    (occupied : List String) : Except CoreError TagId :=
  freshFragmentId host d fragment "t-copy" "tag" source.asStr occupied

def freshFragmentPageId (d : GraphDoc) (fragment : OutlineFragment) (source : PageId)
    (occupied : List String) : Except CoreError PageId :=
  freshFragmentId host d fragment "p-copy" "page" source.asStr occupied

/-- Names to the ids that have them, and the ids that are taken. -/
structure Reservations (kind : String) where
  names : BTreeMap String (OpaqueString kind)
  occupied : List String

def Reservations.of {kind : String} (d : GraphDoc) (names : List (OpaqueString kind × String)) :
    Reservations kind where
  names := .ofEntries (names.map fun e => (canonicalEntityName host e.2, e.1))
  occupied := d.entities.entries.map fun e => e.1.asStr

def Reservations.reserve {kind : String} (r : Reservations kind) (id : OpaqueString kind)
    (name : String) : Reservations kind :=
  ⟨r.names.insert (canonicalEntityName host name) id, id.asStr :: r.occupied⟩

/-- The tags of a fragment, the new ones with their names in order. -/
structure ResolvedTags where
  tags : List (TagId × TagId) := []
  newTags : List (TagId × String) := []
  reservations : Reservations "tag id"

def resolveTag (d : GraphDoc) (fragment : OutlineFragment) (acc : ResolvedTags)
    (reference : OutlineFragmentTag) : Except CoreError ResolvedTags :=
  let resolved (target : TagId) : ResolvedTags :=
    { acc with tags := acc.tags ++ [(reference.id, target)] }
  if fragment.sourceGraphId = d.graphId ∧ (d.requireLiveTag reference.id).toBool then
    .ok (resolved reference.id)
  else
    match acc.reservations.names.get (canonicalEntityName host reference.name) with
    | some existing => .ok (resolved existing)
    | none => do
      let id ← freshFragmentTagId host d fragment reference.id acc.reservations.occupied
      ensureTagNameAvailable host d id reference.name
      return { resolved id with
        newTags := acc.newTags ++ [(id, reference.name)]
        reservations := acc.reservations.reserve host id reference.name }

/-- The pages of a fragment, the new ones with their descriptors in order. -/
structure ResolvedPages where
  pages : List (PageId × PageId) := []
  newPages : List (PageId × OutlineFragmentPage) := []
  reservations : Reservations "page id"

def resolvePage (d : GraphDoc) (fragment : OutlineFragment) (acc : ResolvedPages)
    (reference : OutlineFragmentPage) : Except CoreError ResolvedPages :=
  let resolved (target : PageId) : ResolvedPages :=
    { acc with pages := acc.pages ++ [(reference.id, target)] }
  if resolvesDirectly d fragment reference.id then .ok (resolved reference.id)
  else
    match reference.journalDate with
    | some date =>
      let id := journalPageId host d date
      if (d.requirePage id).toBool then .ok (resolved id)
      else .ok { resolved id with
        newPages := acc.newPages ++ [(id, reference)]
        reservations := { acc.reservations with
          occupied := id.asStr :: acc.reservations.occupied } }
    | none =>
      match acc.reservations.names.get (canonicalEntityName host reference.title) with
      | some existing => .ok (resolved existing)
      | none => do
        let id ← freshFragmentPageId host d fragment reference.id acc.reservations.occupied
        return { resolved id with
          newPages := acc.newPages ++ [(id, reference)]
          reservations := acc.reservations.reserve host id reference.title }

structure FragmentResolution where
  tags : List (TagId × TagId)
  pages : List (PageId × PageId)
  newTags : List (TagId × String)
  newPages : List (PageId × OutlineFragmentPage)

/-- A new tag takes its name and id from the pages too. -/
def reserveTags (newTags : List (TagId × String)) (r : Reservations "page id") :
    Reservations "page id" :=
  newTags.foldl (fun r e => r.reserve host e.1.cast e.2) r

def resolveOutlineFragment (d : GraphDoc) (fragment : OutlineFragment) :
    Except CoreError FragmentResolution := do
  let tags ← fragment.tags.foldlM (resolveTag host d fragment)
    { reservations := .of host d (liveTagNames host d) }
  let pages ← fragment.pages.foldlM (resolvePage host d fragment)
    { reservations := reserveTags host tags.newTags (.of host d (livePageNames host d)) }
  return ⟨tags.tags, pages.pages, tags.newTags, pages.newPages⟩

def resolveFragmentItem (resolution : FragmentResolution) (item : OutlineFragmentItem) :
    Except CoreError PlannedOutlineItem := do
  let content ← fragmentError
    (resolveFragmentContent (resolution.pages.lookup ·) item.markdown item.pageReferences)
  let properties := item.properties.fields.map fun field =>
    { field with values := field.values.map fun
        | .page source => .page ((resolution.pages.lookup source).getD source)
        | value => value }
  let tags ← (item.tags.map fun source => orElse (resolution.tags.lookup source)
    (.invalidHierarchy ("outline fragment tag reference is missing: " ++ source.asStr))).mapM id
  return ⟨item.depth, content, properties, tags⟩

/-- The entities a paste creates, pages first. -/
def FragmentResolution.dependencies (resolution : FragmentResolution) : List EntitySeed :=
  (resolution.newPages.map fun e =>
    match e.2.journalDate with
    | none => .regularPage e.1 e.2.title
    | some date => .journalPage e.1 date) ++
  resolution.newTags.map fun e => .tag e.1 e.2

/-! ## Replacing a block -/

/-- Whether a tag reference names a live entity. -/
def tagIsLive (d : GraphDoc) (tag : TagId) : Bool :=
  (d.entities.get tag.cast).any fun record => !record.properties.contains deletedAtKey

/-- A block that shows nothing of its own and holds nothing that a copy keeps. -/
def blockIsPlainEmpty (d : GraphDoc) (owner : OutlineOwner) (block : BlockId) :
    Except CoreError Bool := do
  let _ ← d.requireLiveOutlineOwner owner
  let o ← d.outline owner
  requireBlockIn o block
  let blockMeta := o.metas block
  let properties := (decodeBag host blockMeta.properties).retain fun f =>
    validatePropertyTarget f.key .block = .ok ()
  return blockMeta.content.isEmpty && !blockMeta.tagRefs.toList.any (tagIsLive d) &&
    o.count (some block) == 0 &&
    properties.fields.all fun f => propertyCopyPolicy f.key != .portable

end Neoseq.Core
