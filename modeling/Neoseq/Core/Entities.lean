import Neoseq.Content.Inline
import Neoseq.Core.Properties

/-! Finding entities and what they own, and the names they go by. Lookup does not
ask for the kind, so a tag is found as a page and a page as a tag; what admits a
command checks the kind where it matters. -/

namespace Neoseq.Domain

def PropertyBag.get (bag : PropertyBag) (key : PropertyKey) : Option PropertyField :=
  bag.fields.find? fun f => f.key = key

def PropertyBag.contains (bag : PropertyBag) (key : PropertyKey) : Bool := (bag.get key).isSome

/-- The first value of a field. -/
def PropertyBag.first (bag : PropertyBag) (key : PropertyKey) : Option PropertyValue :=
  (bag.get key).bind fun f => f.values.head?

def PropertyBag.retain (bag : PropertyBag) (p : PropertyField → Bool) : PropertyBag :=
  ⟨bag.fields.filter p, bag.sorted.sublist (List.filter_sublist.map _)⟩

end Neoseq.Domain

namespace Neoseq.Core
open Domain Document Collections Content

variable (host : Host)

def createdAtKey : PropertyKey := ⟨"builtin.created-at", by decide⟩
def updatedAtKey : PropertyKey := ⟨"builtin.updated-at", by decide⟩
def deletedAtKey : PropertyKey := ⟨"builtin.deleted-at", by decide⟩
def pageKindKey : PropertyKey := ⟨"builtin.page-kind", by decide⟩
def journalDateKey : PropertyKey := ⟨"builtin.journal-date", by decide⟩

def maxEntityNameBytes : Nat := 1024
def maxDefaultQueries : Nat := 8
def maxDefaultQueryTitle : Nat := 80

/-! ## Records -/

namespace Record

/-- `entities::kind`: a record of the oldest schema has no kind, and is a tag. -/
def entityKind (r : Record) : EntityKind := r.kind.getD (if r.rooted then .page else .tag)

/-- `entities::name`: the register, else the text it took the place of. -/
def entityName (r : Record) : Option String := r.name.or r.content

def setName (r : Record) (name : String) : Record :=
  { r with
    name := some name
    content := if r.rooted then r.content.map fun _ => "" else r.content }

end Record

namespace GraphDoc

def requirePage (d : GraphDoc) (id : PageId) : Except CoreError Record :=
  orElse (d.entities.get id) (.pageNotFound id)

def requireLivePage (d : GraphDoc) (id : PageId) : Except CoreError Record := do
  let page ← d.requirePage id
  if page.properties.contains deletedAtKey then throw (.pageDeleted id)
  return page

def requireTag (d : GraphDoc) (id : TagId) : Except CoreError Record :=
  orElse (d.entities.get id.cast) (.tagNotFound id)

def requireLiveTag (d : GraphDoc) (id : TagId) : Except CoreError Record := do
  let tag ← d.requireTag id
  if tag.properties.contains deletedAtKey then throw (.tagDeleted id)
  if tag.entityKind ≠ .tag then throw (.tagNotFound id)
  return tag

def requireOutlineOwner (d : GraphDoc) : OutlineOwner → Except CoreError Record
  | .page id => d.requirePage id
  | .tag id => d.requireTag id

def requireLiveOutlineOwner (d : GraphDoc) : OutlineOwner → Except CoreError Record
  | .page id => d.requireLivePage id
  | .tag id => d.requireLivePage id.cast

def outline (d : GraphDoc) (owner : OutlineOwner) : Except CoreError Outline :=
  (d.requireOutlineOwner owner).map Record.outline

end GraphDoc

def requireBlockIn (o : Outline) (block : BlockId) : Except CoreError Unit :=
  if block ∈ o.tree.labels then .ok () else .error (.blockNotFound block)

namespace GraphDoc

def requireBlock (d : GraphDoc) (owner : OutlineOwner) (block : BlockId) :
    Except CoreError Unit := do
  requireBlockIn (← d.outline owner) block

/-- The metadata of a block. -/
def blockMeta (d : GraphDoc) (owner : OutlineOwner) (block : BlockId) :
    Except CoreError BlockMeta := do
  let o ← d.outline owner
  requireBlockIn o block
  return o.metas block

def blockText (d : GraphDoc) (owner : OutlineOwner) (block : BlockId) :
    Except CoreError (List Piece) :=
  (d.blockMeta owner block).map BlockMeta.content

def blockBag (d : GraphDoc) (owner : OutlineOwner) (block : BlockId) : Except CoreError Bag :=
  (d.blockMeta owner block).map BlockMeta.properties

def pageProperties (d : GraphDoc) (id : PageId) : Except CoreError Bag :=
  (d.requirePage id).map Record.properties

def entityBag (d : GraphDoc) : EntityId → Except CoreError Bag
  | .page id => d.pageProperties id
  | .block owner id => d.blockBag owner id

def propertyOwnerBag (d : GraphDoc) : PropertyOwner → Except CoreError Bag
  | .page id => d.pageProperties id
  | .block owner id => d.blockBag owner id
  | .tag id => (d.requireTag id).map Record.properties
  | .tagDefault id => (d.requireTag id).map Record.defaults

def validateEntity (d : GraphDoc) : EntityId → Except CoreError Unit
  | .page id => (d.requirePage id).map fun _ => ()
  | .block owner id => d.requireBlock owner id

def validatePropertyOwner (d : GraphDoc) : PropertyOwner → Except CoreError Unit
  | .page id => (d.requirePage id).map fun _ => ()
  | .block owner id => d.requireBlock owner id
  | .tag id => (d.requireTag id).map fun _ => ()
  | .tagDefault id => (d.requireTag id).map fun _ => ()

end GraphDoc

def propertyOwnerTarget : PropertyOwner → PropertyTarget
  | .page _ => .page
  | .block .. => .block
  | .tag _ => .tagMetadata
  | .tagDefault _ => .tagDefault

def propertyError {γ : Type} (x : Except PropertyError γ) : Except CoreError γ :=
  x.mapError .property

def GraphDoc.validatePropertyAddress (d : GraphDoc) (owner : PropertyOwner) (key : PropertyKey) :
    Except CoreError Unit := do
  d.validatePropertyOwner owner
  propertyError (validatePropertyWrite key (propertyOwnerTarget owner))

def propertyOwnerFromEntity : EntityId → PropertyOwner
  | .page id => .page id
  | .block owner id => .block owner id

/-- `property_owner_from_query_owner`, and for the graph's own queries which one. -/
def propertyOwnerFromQueryOwner : QueryOwner → DefaultQueryId ⊕ PropertyOwner
  | .page id => .inr (.page id)
  | .block owner id => .inr (.block owner id)
  | .tag id => .inr (.tag id)
  | .graphDefault id => .inl id

/-! ## Names -/

/-- The words in lower case, one space between them. -/
def canonicalEntityName (value : String) : String :=
  " ".intercalate <| (value.toList.splitOnP host.isWhitespace).filterMap fun word =>
    if word.isEmpty then none else some (host.toLowercase (String.ofList word))

def validateName (value entity : String) : Except CoreError Unit :=
  if (canonicalEntityName host value).isEmpty then .error (.emptyName entity) else .ok ()

def validateText (value : Text) (max : Nat) : Except CoreError Unit :=
  if utf8Len value > max then .error .textTooLong
  else if value.contains pageReferenceChar then
    .error (.invalidHierarchy "text contains the reserved page-reference atom")
  else .ok ()

def validateEntityName (value entity : String) : Except CoreError Unit := do
  validateText value.toList maxEntityNameBytes
  validateName host value entity

structure PageDirectoryEntry where
  id : PageId
  title : String
  journalDate : Option LocalDate
  deleted : Bool

/-- The directory entry of `project_page_header`. Whether a tag is deleted is read
from its stored fields, for a page from those that can be read. -/
def projectPageHeader (id : PageId) (page : Record) : PageDirectoryEntry :=
  let title := page.entityName.getD ""
  match page.entityKind with
  | .tag => ⟨id, title, none, page.properties.contains deletedAtKey⟩
  | .page =>
    let properties := (decodeBag host page.properties).retain fun f =>
      validatePropertyTarget f.key .page = .ok () ∨
        validatePropertyTarget f.key .tagMetadata = .ok ()
    let journalDate := match properties.first journalDateKey with
      | some (.date date) => some date
      | _ => none
    ⟨id, (journalDate.map LocalDate.asStr).getD title, journalDate,
      properties.contains deletedAtKey⟩

def pageDirectory (d : GraphDoc) : List PageDirectoryEntry :=
  d.entities.entries.map fun e => projectPageHeader host e.1 e.2

/-- The regular pages and the tags that are not deleted. -/
def livePageNames (d : GraphDoc) : List (PageId × String) :=
  ((pageDirectory host d).filter fun entry => !entry.deleted && entry.journalDate.isNone).map
    fun entry => (entry.id, entry.title)

def liveTagNames (d : GraphDoc) : List (TagId × String) :=
  d.entities.entries.filterMap fun e =>
    if e.2.entityKind = .tag ∧ !(decodeBag host e.2.properties).contains deletedAtKey then
      e.2.entityName.map fun name => (e.1.cast, name)
    else none

def ensurePageNameAvailable (d : GraphDoc) (pageId : PageId) (name : String) :
    Except CoreError Unit :=
  match (livePageNames host d).find? fun e =>
      decide (e.1 ≠ pageId ∧ canonicalEntityName host e.2 = canonicalEntityName host name) with
  | some e => .error (.pageNameConflict name e.1)
  | none => .ok ()

def ensureTagNameAvailable (d : GraphDoc) (tagId : TagId) (name : String) :
    Except CoreError Unit :=
  (ensurePageNameAvailable host d tagId.cast name).mapError fun
    | .pageNameConflict name existing => .tagNameConflict name existing.cast
    | error => error

/-! ## Journals -/

def isJournalPage (properties : PropertyBag) : Bool :=
  decide ((properties.get pageKindKey).map PropertyField.values = some [.string "journal"])

/-- The journal of a date, wherever it came from, and where there is none the id
that a new one gets. -/
def journalPageId (d : GraphDoc) (date : LocalDate) : PageId :=
  ((d.entities.entries.find? fun e =>
    let fields := decodeBag host e.2.properties
    isJournalPage fields &&
      decide ((fields.get journalDateKey).map PropertyField.values = some [.date date])).map
    Prod.fst).getD (host.journalId d.graphId date)

/-! ## Default queries -/

def missingDefaultQuery (id : DefaultQueryId) : CoreError :=
  .invalidHierarchy ("default query does not exist: " ++ id.asStr)

def GraphDoc.requireDefaultQuery (d : GraphDoc) (id : DefaultQueryId) :
    Except CoreError DefaultQueryEntry := do
  let entry ← orElse (d.defaultQueries.get id) (missingDefaultQuery id)
  if entry.deleted ≠ some false then throw (missingDefaultQuery id)
  return entry

structure StoredDefaultQuery where
  id : DefaultQueryId
  title : String
  position : Nat
  document : LoroMap

/-- One entry of the default queries, `none` where it is deleted. -/
def storedDefaultQuery (id : DefaultQueryId) (entry : DefaultQueryEntry) :
    Except CoreError (Option StoredDefaultQuery) := do
  let issue (text : String) : CoreError :=
    .invalidHierarchy ("default query " ++ id.asStr ++ " " ++ text)
  let deleted ← orElse entry.deleted (issue "tombstone is missing")
  if deleted then return none
  let title ← orElse entry.title (issue "title is missing")
  if title.length > maxDefaultQueryTitle then throw (issue "title is too long")
  let position ← orElse (entry.position.bind u32FromI64) (issue "position is invalid")
  let document ← orElse entry.document (issue "document is missing")
  return some ⟨id, title, position, document⟩

/-- The default queries that are not deleted, by position and then by id. -/
def storedDefaultQueries (d : GraphDoc) : Except CoreError (List StoredDefaultQuery) := do
  let stored ← (d.defaultQueries.entries.map fun e => storedDefaultQuery e.1 e.2).mapM id
  return (stored.filterMap id).insertionSort fun a b =>
    a.position < b.position ∨ (a.position = b.position ∧ a.id ≤ b.id)

structure DefaultQuerySnapshot where
  id : DefaultQueryId
  title : String
  position : Nat
  document : PropertyDocument

/-- The first default queries; every one of them has to be readable. -/
def graphSettingsSnapshot (d : GraphDoc) : Except CoreError (List DefaultQuerySnapshot) := do
  let stored ← storedDefaultQueries d
  let queries ← (stored.map fun query => do
    let document ← decodeQueryDocument host query.document
    return (⟨query.id, query.title, query.position, document⟩ : DefaultQuerySnapshot)).mapM id
  return queries.take maxDefaultQueries

def validateDefaultQueryTitle (value : String) : Except CoreError Unit :=
  if value.length > maxDefaultQueryTitle then .error .textTooLong else .ok ()

/-! ## Query owners -/

namespace GraphDoc

def validateQueryOwner (d : GraphDoc) (owner : QueryOwner) : Except CoreError Unit :=
  match propertyOwnerFromQueryOwner owner with
  | .inl id => (d.requireDefaultQuery id).map fun _ => ()
  | .inr property => d.validatePropertyAddress property queryKey

def requireQueryDocumentForOwner (d : GraphDoc) (owner : QueryOwner) : Except CoreError LoroMap :=
  match propertyOwnerFromQueryOwner owner with
  | .inl id => do
    let entry ← d.requireDefaultQuery id
    orElse entry.document (.invalidHierarchy "default query document is missing")
  | .inr property => do requireQueryDocument (← d.propertyOwnerBag property)

def queryDocument (d : GraphDoc) (owner : QueryOwner) : Except CoreError PropertyDocument := do
  decodeQueryDocument host (← d.requireQueryDocumentForOwner owner)

def queryDocumentIfPresent (d : GraphDoc) (owner : QueryOwner) :
    Except CoreError (Option PropertyDocument) :=
  match propertyOwnerFromQueryOwner owner with
  | .inl _ => (d.queryDocument host owner).map some
  | .inr property => do
    let bag ← d.propertyOwnerBag property
    if !bag.contains queryKey then return none
    let document ← requireQueryDocument bag
    return some (← decodeQueryDocument host document)

end GraphDoc

end Neoseq.Core
