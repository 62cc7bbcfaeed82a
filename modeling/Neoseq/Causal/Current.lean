import Neoseq.Causal.Validate
import Neoseq.Collections.BTreeMap

/-! What a replica requires of a document beyond the stored contract: its readers can
project every query document and every default query, and every live entity that
goes by a name has one. -/

namespace Neoseq.Causal
open Domain Document Neoseq.Core Content Collections

variable (host : Storage)

/-! ## Query documents -/

def queryDocumentFromBag (bag : LoroMap) : Option LoroMap := do
  let field ← (bag.get queryKey.asStr).bind Stored.intoMap
  let shape ← (storedPropertyShape host field queryKey.asStr).toOption
  guard (shape.valueType = .document ∧ shape.cardinality = .single)
  (field.get "document").bind Stored.intoMap

/-- The bags of a record whose query documents are read: its properties, the
defaults of a tag, and the properties of its blocks. -/
def queryBags (record : LoroMap) : List LoroMap :=
  (((root record).get "properties").bind Stored.intoMap).toList ++
    ((record.get "defaults").bind Stored.intoMap).toList ++
    (((record.get "outline").bind Stored.intoTree).getD []).filterMap fun node =>
      (node.data.get "properties").bind Stored.intoMap

/-- The query documents outside the settings. Their order decides only which of them
is reported first. -/
def storedQueryDocuments (doc : LoroDoc) : List LoroMap :=
  homes.flatMap fun home => (doc.records home).flatMap fun e =>
    match e.2.intoMap with
    | some record => (queryBags record).filterMap (queryDocumentFromBag host)
    | none => []

def validateCurrentQueryDocuments (doc : LoroDoc) : Except CoreError Unit :=
  checkAll (fun document => do
    let _ ← (projectQueryDocument host.codec document).mapError .invalidHierarchy)
    (storedQueryDocuments host doc)

/-! ## Default queries -/

def defaultQueriesMap (doc : LoroDoc) : Except CoreError LoroMap := do
  refuse (mapI64 doc.graphSettings "schema_version" ≠ some graphSettingsSchemaVersion)
    (.invalidHierarchy "graph settings schema is missing or unsupported")
  orElse ((doc.graphSettings.get "default_queries").bind Stored.intoMap)
    (.invalidHierarchy "graph default queries map is missing")

/-- The slots of an entry of the default queries. -/
def defaultQueryEntry (entry : LoroMap) : DefaultQueryEntry where
  title := mapString entry "title"
  position := mapI64 entry "position"
  deleted := mapBool entry "deleted"
  document := (entry.get "document").bind Stored.intoMap

/-- One step of the walk over the default queries, `none` where one is deleted. -/
def scanDefaultQuery (e : String × Stored) : Except CoreError (Option StoredDefaultQuery) := do
  let id ← (OpaqueString.new e.1 : Except IdError DefaultQueryId).mapError
    fun error => CoreError.invalidHierarchy error.message
  let entry ← orElse e.2.intoMap
    (.invalidHierarchy ("default query " ++ e.1 ++ " is not a map"))
  storedDefaultQuery id (defaultQueryEntry entry)

/-- Default queries are shown by position, and by id where positions tie. -/
def queryBefore (left right : StoredDefaultQuery) : Prop :=
  left.position < right.position ∨
    (left.position = right.position ∧ left.id.asStr ≤ right.id.asStr)

instance : DecidableRel queryBefore := fun left right => by
  unfold queryBefore
  infer_instance

def storedDefaultQueries (doc : LoroDoc) : Except CoreError (List StoredDefaultQuery) := do
  let queries ← defaultQueriesMap doc
  let stored ← (queries.map scanDefaultQuery).mapM id
  return (stored.filterMap id).insertionSort queryBefore

def projectDefaultQuery (query : StoredDefaultQuery) : Except CoreError DefaultQuerySnapshot := do
  let projection ← (projectQueryDocument host.codec query.document).mapError .invalidHierarchy
  return ⟨query.id, query.title, query.position, projection.document⟩

/-- The first default queries, and the ids of the others; every one of them has to be
readable. -/
def projectGraphSettings (doc : LoroDoc) :
    Except CoreError (List DefaultQuerySnapshot × List DefaultQueryId) := do
  let stored ← storedDefaultQueries doc
  let queries ← (stored.map (projectDefaultQuery host)).mapM id
  return (queries.take maxDefaultQueries,
    (queries.drop maxDefaultQueries).map DefaultQuerySnapshot.id)

def validateCurrentGraphSettings (doc : LoroDoc) : Except CoreError Unit := do
  let _ ← projectGraphSettings host doc

def verifySchema (doc : LoroDoc) (graphId : GraphId) : Except CoreError Unit := do
  validateCausalDocument host doc graphId
  validateCurrentGraphSettings host doc
  validateCurrentQueryDocuments host doc

/-! ## Bags as a replica reads them -/

/-- A member of a set, nothing where it is not under its own digest. -/
def decodeMember (key : PropertyKey) (shape : StoredPropertyShape) (e : String × Stored) :
    Option PropertyValue := do
  let encoded ← e.2.intoString
  let value ← host.decodeValue encoded
  guard (value.propertyType = shape.valueType ∧
    validateProperty host.codec key value .set = .ok () ∧ host.memberSlot value = e.1)
  return value

/-- The values of a field, nothing where it is quarantined. -/
def decodePayload (stored : LoroMap) (key : PropertyKey) (shape : StoredPropertyShape) :
    Option (List PropertyValue) :=
  match shape.valueType, shape.cardinality with
  | .document, _ =>
    ((stored.get "document").bind Stored.intoMap).map fun document =>
      decodeDocument host.toHost document
  | _, .single =>
    match stored.get "single" with
    | none => some []
    | some value => do
      let encoded ← value.intoString
      let value ← host.decodeValue encoded
      guard (value.propertyType = shape.valueType ∧
        validateProperty host.codec key value .single = .ok ())
      return [value]
  | _, .set => do
    let values ← (stored.get "set").bind Stored.intoMap
    values.mapM (decodeMember host key shape)

/-- One slot of a bag, nothing where it is quarantined. -/
def decodeSlot (e : String × Stored) : Option PropertyField := do
  let key ← (PropertyKey.new e.1).toOption
  let stored ← e.2.intoMap
  let shape ← (storedPropertyShape host stored e.1).toOption
  guard (validatePropertyShape key shape.valueType shape.cardinality = .ok ())
  let payload ← payloadKey shape
  guard (∀ slot ∈ keys stored, slot = "shape" ∨ slot = payload)
  let values ← decodePayload host stored key shape
  checkedField host.toHost ⟨key, shape.valueType, shape.cardinality, values⟩

/-- The readable fields of a bag. -/
def decodeBag (bag : LoroMap) : List PropertyField := bag.filterMap (decodeSlot host)

/-- `project_bag_child`: a bag that is missing reads as an empty one. -/
def projectBagChild (parent : LoroMap) (name : String) : List PropertyField :=
  match (parent.get name).bind Stored.intoMap with
  | some bag => decodeBag host bag
  | none => []

def fieldAt (fields : List PropertyField) (key : PropertyKey) : Option PropertyField :=
  fields.find? fun f => f.key = key

/-! ## Names -/

/-- `bag_contains_key` on the properties of an entity. -/
def storedDeleted (record : LoroMap) : Bool :=
  match ((root record).get "properties").bind Stored.intoMap with
  | some bag => (bag.get deletedAtKey.asStr).isSome
  | none => false

/-- The directory entry of `project_page_header`. Whether a tag is deleted is read
from its stored fields, for a page from those that can be read. -/
def projectPageHeader (id : PageId) (page : LoroMap) : PageDirectoryEntry :=
  let title := (name page).getD ""
  match kind page with
  | .tag => ⟨id, title, none, storedDeleted page⟩
  | .page =>
    let properties := (projectBagChild host (root page) "properties").filter fun f =>
      validatePropertyTarget f.key .page = .ok () ∨
        validatePropertyTarget f.key .tagMetadata = .ok ()
    let journalDate := match (fieldAt properties journalDateKey).bind fun f => f.values.head? with
      | some (.date date) => some date
      | _ => none
    ⟨id, (journalDate.map LocalDate.asStr).getD title, journalDate,
      (fieldAt properties deletedAtKey).isSome⟩

/-- The records of all homes, home by home. -/
def entries (doc : LoroDoc) : List (String × Stored) := homes.flatMap doc.records

/-- One record of the directory, nothing where it cannot be read. -/
def directoryEntry (e : String × Stored) : Option (PageId × PageDirectoryEntry) := do
  let id ← (OpaqueString.new e.1 : Except IdError PageId).toOption
  let page ← e.2.intoMap
  return (id, projectPageHeader host id page)

/-- The directory by id; an id that came before is overwritten. -/
def pageDirectory (doc : LoroDoc) : BTreeMap PageId PageDirectoryEntry :=
  ((entries doc).filterMap (directoryEntry host)).foldl
    (fun directory e => directory.insert e.1 e.2) ∅

def livePageNames (doc : LoroDoc) : List (PageId × String) :=
  ((pageDirectory host doc).entries.filter fun e => !e.2.deleted && e.2.journalDate.isNone).map
    fun e => (e.1, e.2.title)

/-- The name of a live tag. -/
def tagSummary (e : String × Stored) : Option (TagId × String) := do
  let id ← (OpaqueString.new e.1 : Except IdError TagId).toOption
  let tag ← e.2.intoMap
  guard (kind tag = .tag)
  let tagName ← name tag
  guard (fieldAt (projectBagChild host (root tag) "properties") deletedAtKey = none)
  return (id, tagName)

def tagSummaries (doc : LoroDoc) : BTreeMap TagId String :=
  ((entries doc).filterMap (tagSummary host)).foldl
    (fun summaries e => summaries.insert e.1 e.2) ∅

def liveTagNames (doc : LoroDoc) : List (TagId × String) := (tagSummaries host doc).entries

def validateEntityNames (doc : LoroDoc) : Except CoreError Unit := do
  checkAll (fun e => validateName host.toHost e.2 "page") (livePageNames host doc)
  checkAll (fun e => validateName host.toHost e.2 "tag") (liveTagNames host doc)

end Neoseq.Causal
