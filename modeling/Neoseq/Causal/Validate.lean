import Neoseq.Causal.Document

/-! Validation of the stored document: what every replica and the server require of
the containers, without projecting them. -/

namespace Neoseq.Causal
open Domain Document Neoseq.Core Content

variable (host : Storage)

def graphSettingsSchemaVersion : Int := 1

/-! ## Query documents -/

/-- The register of the plan, and before it the pair of older slots. -/
def decodeQueryPlanState (definition : LoroMap) (label : String) :
    Except CoreError (Option QueryPlan) :=
  match definition.get queryPlanStateKey with
  | some value => do
    let encoded ← orElse value.intoString
      (.invalidHierarchy (label ++ " query plan state is invalid"))
    let state ← orElse (host.codec.planState encoded)
      (.invalidHierarchy (label ++ " query plan state is invalid"))
    match state with
    | .raw => return none
    | .built version plan =>
      refuse (version ≠ queryPlanStateVersion)
        (.invalidHierarchy (label ++ " query plan storage version is unsupported"))
      (plan.validate host.codec).mapError (CoreError.property ∘ .query)
      return some plan
  | none =>
    match definition.get "plan_version", definition.get "plan" with
    | none, none => .ok none
    | some (.i64 version), some (.string payload) => do
      let version ← orElse (u32FromI64 version)
        (.invalidHierarchy (label ++ " query plan version is invalid"))
      (QueryPlan.validate host.codec ⟨version, payload⟩).mapError (CoreError.property ∘ .query)
      return some ⟨version, payload⟩
    | _, _ => .error (.invalidHierarchy (label ++ " query plan is incomplete or invalid"))

def validateQueryDefinition (definition : LoroMap) (label : String) : Except CoreError Unit := do
  refuse (mapString definition "language" ≠ some queryLanguage)
    (.invalidHierarchy (label ++ " query language is invalid"))
  let _ ← requiredChildText definition "source" (label ++ " query source")
  let _ ← decodeQueryPlanState host definition label

/-- One turn of the loop over the views. -/
def validateQueryView (views : LoroMap) (label rawId : String) : Except CoreError Unit := do
  let viewLabel := label ++ " view " ++ rawId
  let _ ← (OpaqueString.new rawId : Except IdError QueryViewId).mapError fun _ =>
    CoreError.invalidHierarchy (label ++ " view id is invalid: " ++ rawId)
  let view ← requiredMap (views.get rawId) viewLabel
  let deleted ← orElse (mapBool view "deleted")
    (.invalidHierarchy (viewLabel ++ " tombstone is invalid"))
  match deleted with
  | true => return
  | false =>
    let _ ← orElse (mapString view "name") (.invalidHierarchy (viewLabel ++ " name is invalid"))
    refuse (mapString view "kind" ≠ some "table" ∧ mapString view "kind" ≠ some "list")
      (.invalidHierarchy (viewLabel ++ " kind is invalid"))
    let _ ← orElse (mapU32 view "position")
      (.invalidHierarchy (viewLabel ++ " position is invalid"))
    let columns ← orElse (mapString view "columns")
      (.invalidHierarchy (viewLabel ++ " columns are invalid"))
    let _ ← orElse (host.codec.columns columns)
      (.invalidHierarchy (viewLabel ++ " columns are invalid"))
    let _ ← orElse (mapString view "options")
      (.invalidHierarchy (viewLabel ++ " options are invalid"))
    let definition ← requiredChildMap view "definition" (viewLabel ++ " definition")
    validateQueryDefinition host definition viewLabel

def validateQueryDocument (document : LoroMap) (label : String) : Except CoreError Unit := do
  refuse (mapString document "schema" ≠ some queryDocumentSchema ∨
      mapU32 document "version" ≠ some queryDocumentVersion)
    (.invalidHierarchy (label ++ " header is missing or unsupported"))
  let defaultView ← orElse (mapString document "default_view_id")
    (.invalidHierarchy (label ++ " default view is invalid"))
  let _ ← (OpaqueString.new defaultView : Except IdError QueryViewId).mapError fun _ =>
    CoreError.invalidHierarchy (label ++ " default view is invalid")
  let views ← requiredChildMap document "views" (label ++ " views")
  checkAll (validateQueryView host views label) (keys views)

/-! ## Property bags -/

def storedPropertyShape (field : LoroMap) (label : String) :
    Except CoreError StoredPropertyShape := do
  let encoded ← orElse (mapString field "shape")
    (.invalidHierarchy (label ++ " shape is missing or invalid"))
  orElse (host.decodeShape encoded) (.invalidHierarchy (label ++ " shape is invalid"))

def validateStoredPropertyValue (value : Stored) (key : PropertyKey) (shape : StoredPropertyShape)
    (label : String) : Except CoreError PropertyValue := do
  let encoded ← orElse value.intoString
    (.invalidHierarchy (label ++ " value is not an atomic string"))
  let value ← orElse (host.decodeValue encoded) (.invalidHierarchy (label ++ " value is invalid"))
  refuse (value.propertyType ≠ shape.valueType)
    (.invalidHierarchy (label ++ " value type does not match its shape"))
  (validateProperty host.codec key value shape.cardinality).mapError .property
  return value

/-- The slot of a field that holds its values, none for a set of documents. -/
def payloadKey (shape : StoredPropertyShape) : Option String :=
  match shape.valueType, shape.cardinality with
  | .document, .single => some "document"
  | .document, .set => none
  | _, .single => some "single"
  | _, .set => some "set"

/-- What the slot of a field holds. -/
def validatePayload (field : LoroMap) (key : PropertyKey) (shape : StoredPropertyShape)
    (label : String) : Except CoreError Unit :=
  match shape.valueType, shape.cardinality with
  | .document, _ => do
    let document ← requiredChildMap field "document" label
    validateQueryDocument host document label
  | _, .single =>
    match field.get "single" with
    | some value => do
      let _ ← validateStoredPropertyValue host value key shape label
    | none => .ok ()
  | _, .set => do
    let values ← requiredChildMap field "set" label
    checkAll (fun member => do
      let value ← orElse (values.get member)
        (.invalidHierarchy (label ++ " member disappeared during validation"))
      let decoded ← validateStoredPropertyValue host value key shape label
      refuse (member ≠ host.memberSlot decoded)
        (.invalidHierarchy (label ++ " member identity is invalid"))) (keys values)

/-- One turn of the loop over the fields of a bag. -/
def validateField (properties : LoroMap) (owner rawKey : String) : Except CoreError Unit := do
  let key ← (PropertyKey.new rawKey).mapError fun _ =>
    CoreError.invalidHierarchy (owner ++ ": property key is invalid: " ++ rawKey)
  let label := owner ++ ": property " ++ rawKey
  let field ← requiredMap (properties.get rawKey) label
  let shape ← storedPropertyShape host field label
  (validatePropertyShape key shape.valueType shape.cardinality).mapError .property
  let payload ← orElse (payloadKey shape)
    (.invalidHierarchy (label ++ " document cardinality is invalid"))
  checkAll (fun slot => refuse (slot ≠ "shape" ∧ slot ≠ payload)
    (.invalidHierarchy (label ++ " contains an invalid slot: " ++ slot))) (keys field)
  validatePayload host field key shape label

def validatePropertyBag (properties : LoroMap) (owner : String) : Except CoreError Unit :=
  checkAll (validateField host properties owner) (keys properties)

def validateSingleStringProperty (properties : LoroMap) (key : PropertyKey) (required : Bool)
    (owner : String) : Except CoreError (Option String) :=
  let label := owner ++ ": property " ++ key.asStr
  match (properties.get key.asStr).bind Stored.intoMap with
  | none => if required then .error (.invalidHierarchy (label ++ " is missing")) else .ok none
  | some field => do
    let shape ← storedPropertyShape host field label
    refuse (shape.valueType ≠ .string ∨ shape.cardinality ≠ .single)
      (.invalidHierarchy (label ++ " shape is invalid"))
    let encoded ← orElse (mapString field "single")
      (.invalidHierarchy (label ++ " value is missing"))
    let value ← orElse (host.decodeValue encoded) .propertyEncoding
    (validateProperty host.codec key value .single).mapError .property
    match value with
    | .string value => return some value
    | _ => .error (.invalidHierarchy (label ++ " value is invalid"))

/-- Whether the lifecycle says that the entity is deleted. -/
def validateLifecycle (properties : LoroMap) (deletable : Bool) (owner : String) :
    Except CoreError Bool := do
  let _ ← validateSingleStringProperty host properties createdAtKey true owner
  let _ ← validateSingleStringProperty host properties updatedAtKey true owner
  let deletedAt ← validateSingleStringProperty host properties deletedAtKey false owner
  refuse (deletedAt.isSome = true ∧ deletable = false)
    (.invalidHierarchy (owner ++ ": block lifecycle is invalid"))
  return deletedAt.isSome

/-! ## Records -/

def validateEntityName (value entity : String) (requireNonempty enforceAtomicLimit : Bool) :
    Except CoreError Unit := do
  refuse (pageReferenceChar ∈ value.toList)
    (.invalidHierarchy (entity ++ " name contains the reserved page-reference atom"))
  refuse (enforceAtomicLimit = true ∧ maxEntityNameBytes < value.utf8ByteSize) .textTooLong
  refuse (requireNonempty = true ∧ (canonicalEntityName host.toHost value).isEmpty = true)
    (.emptyName entity)

def validateTagReferences (tagRefs : LoroMap) (owner : String) : Except CoreError Unit :=
  checkAll (fun rawId => do
    let _ ← (OpaqueString.new rawId : Except IdError TagId).mapError fun _ =>
      CoreError.invalidHierarchy (owner ++ ": tag reference identity is invalid")
    refuse (mapBool tagRefs rawId ≠ some true)
      (.invalidHierarchy (owner ++ ": tag reference value is invalid"))) (keys tagRefs)

/-- The kind register and the defaults that any home may carry after a conversion. -/
def validateEntityFields (record : LoroMap) : Except CoreError Unit := do
  let issue := CoreError.invalidHierarchy "invalid document kind or defaults"
  refuse ((record.get "kind").isSome = true ∧ mapString record "kind" ≠ some "page" ∧
    mapString record "kind" ≠ some "tag") issue
  match record.get "defaults" with
  | none => return
  | some value =>
    let bag ← (requiredMap (some value) "document defaults").mapError fun _ => issue
    (validatePropertyBag host bag "document defaults").mapError fun _ => issue

/-- The name register of a page. -/
def pageRegister (page : LoroMap) (label : String) : Except CoreError (Option String) :=
  match page.get "name" with
  | none => .ok none
  | some (.string name) => .ok (some name)
  | some _ => .error (.invalidHierarchy (label ++ " name is invalid"))

/-- A page record without its blocks; returns its outline. -/
def validatePageHeader (pageId : PageId) (page : LoroMap) :
    Except CoreError (List (TreeNode LoroMap)) := do
  let label := "page " ++ pageId.asStr
  let root ← requiredChildMap page "root" (label ++ " root")
  let text ← requiredChildText root "content" (label ++ " title")
  let register ← pageRegister page label
  let properties ← requiredChildMap root "properties" (label ++ " properties")
  let tagRefs ← requiredChildMap root "tag_refs" (label ++ " tag references")
  validateTagReferences tagRefs label
  validatePropertyBag host properties (label ++ " properties")
  let deleted ← validateLifecycle host properties true label
  let pageKind ← validateSingleStringProperty host properties pageKindKey true label
  refuse (pageKind ≠ some "regular" ∧ pageKind ≠ some "journal")
    (.invalidHierarchy (label ++ " kind is invalid"))
  let requireName := !deleted && pageKind == some "regular"
  match register with
  | some name => validateEntityName host name "page" requireName true
  | none => pure ()
  -- beside a register the text is an emptied leftover that still may not hold an atom
  validateEntityName host (text.intoText.getD "") "page" (register.isNone && requireName) false
  requiredChildTree page "outline" (label ++ " outline")

/-- A tag record without its blocks; returns its outline. -/
def validateTagHeader (tagId : TagId) (tag : LoroMap) :
    Except CoreError (List (TreeNode LoroMap)) := do
  let label := "tag " ++ tagId.asStr
  let name ← orElse (mapString tag "name")
    (.invalidHierarchy (label ++ " name is missing or invalid"))
  let properties ← requiredChildMap tag "properties" (label ++ " properties")
  let defaults ← requiredChildMap tag "defaults" (label ++ " defaults")
  validatePropertyBag host properties (label ++ " properties")
  validatePropertyBag host defaults (label ++ " defaults")
  let deleted ← validateLifecycle host properties true label
  validateEntityName host name "tag" (!deleted) true
  requiredChildTree tag "outline" (label ++ " outline")

/-! ## Blocks -/

/-- One segment of a block text: plain text without the reserved character, or the
reserved character marked with a document that is there. -/
def validateSegment (doc : LoroDoc) (owner : String) : TextDelta → Except CoreError Unit
  | .insert insert (some (.string raw)) => do
    let pageId ← (OpaqueString.new raw : Except IdError PageId).mapError fun _ =>
      CoreError.invalidHierarchy (owner ++ ": page reference has an invalid identity")
    refuse (doc.contains pageId = false ∨ ∃ c ∈ insert, c ≠ pageReferenceChar)
      (.invalidHierarchy (owner ++ ": page reference atom is invalid"))
  | .insert _ (some .other) =>
    .error (.invalidHierarchy (owner ++ ": page reference identity is not a string"))
  | .insert insert none =>
    refuse (pageReferenceChar ∈ insert)
      (.invalidHierarchy (owner ++ ": unmarked page reference atom"))
  | .retain | .delete =>
    .error (.invalidHierarchy (owner ++ ": block content contains a non-insert delta"))

def validateInlinePageReferences (doc : LoroDoc) (text : Stored) (owner : String) :
    Except CoreError Unit :=
  checkAll (validateSegment doc owner) (text.intoDelta.getD [])

/-- A node whose deletion outlived its metadata is let pass. -/
def validateOutlineNode (doc : LoroDoc) (outline : List (TreeNode LoroMap)) (owner : String)
    (id : TreeId) : Except CoreError Unit := do
  let node ← orElse (outline.find? fun n => n.id = id) .loro
  if node.data.isEmpty && node.deleted then .ok ()
  else do
    let label := owner ++ ": block " ++ id.asStr
    let content ← requiredChildText node.data "content" (label ++ " content")
    let properties ← requiredChildMap node.data "properties" (label ++ " properties")
    let tagRefs ← requiredChildMap node.data "tag_refs" (label ++ " tag references")
    validatePropertyBag host properties (label ++ " properties")
    let _ ← validateLifecycle host properties false label
    validateTagReferences tagRefs label
    validateInlinePageReferences doc content owner

/-! ## Documents -/

/-- `Homes::require_single`. -/
def requireSingle (doc : LoroDoc) (rawId : String) : Except CoreError Unit :=
  refuse (1 < (homes.filter fun home => ((doc.records home).get rawId).isSome).length)
    (.invalidHierarchy "document ID appears in multiple storage homes")

/-- The header of a record; returns the outline and how its blocks name it. -/
def validateHeader (home : Home) (rawId : String) (records : LoroMap) :
    Except CoreError (List (TreeNode LoroMap) × String) :=
  match home with
  | .tags => do
    let tagId ← (OpaqueString.new rawId : Except IdError TagId).mapError fun _ =>
      CoreError.invalidHierarchy ("tag id is invalid: " ++ rawId)
    let tag ← requiredMap (records.get rawId) ("tag " ++ tagId.asStr)
    validateEntityFields host tag
    let outline ← validateTagHeader host tagId tag
    return (outline, "tag:" ++ tagId.asStr)
  | _ => do
    let pageId ← (OpaqueString.new rawId : Except IdError PageId).mapError fun _ =>
      CoreError.invalidHierarchy ("page id is invalid: " ++ rawId)
    let page ← requiredMap (records.get rawId) ("page " ++ pageId.asStr)
    validateEntityFields host page
    let outline ← validatePageHeader host pageId page
    return (outline, "page:" ++ pageId.asStr)

/-- One record, with its blocks where `withOutline` says so. -/
def validateDocument (doc : LoroDoc) (home : Home) (rawId : String) (withOutline : Bool) :
    Except CoreError Unit := do
  let (outline, owner) ← validateHeader host home rawId (doc.records home)
  if withOutline then
    checkAll (validateOutlineNode host doc outline owner) (outline.map TreeNode.id)
  else .ok ()

/-! ## The graph -/

def validateMetadata (doc : LoroDoc) (graphId : GraphId) : Except CoreError Unit := do
  refuse (mapString doc.metadata "graph_id" ≠ some graphId.asStr) .snapshotGraphMismatch
  let stored := (mapI64 doc.metadata "schema_version").getD 0
  let schema ← orElse (u32FromI64 stored) (.unsupportedSchema stored)
  refuse (supportsDocumentSchema schema = false) (.unsupportedSchema stored)

/-- One turn of the loop over the default queries. -/
def validateDefaultQuery (queries : LoroMap) (rawId : String) : Except CoreError Unit := do
  let queryId ← (OpaqueString.new rawId : Except IdError DefaultQueryId).mapError fun _ =>
    CoreError.invalidHierarchy ("default query id is invalid: " ++ rawId)
  let label := "default query " ++ queryId.asStr
  let entry ← requiredMap (queries.get rawId) label
  let deleted ← orElse (mapBool entry "deleted")
    (.invalidHierarchy (label ++ " tombstone is invalid"))
  match deleted with
  | true => return
  | false =>
    let title ← orElse (mapString entry "title") (.invalidHierarchy (label ++ " title is invalid"))
    refuse (maxDefaultQueryTitle < title.length) (.invalidHierarchy (label ++ " title is too long"))
    let _ ← orElse (mapU32 entry "position")
      (.invalidHierarchy (label ++ " position is invalid"))
    let document ← requiredChildMap entry "document" (label ++ " document")
    validateQueryDocument host document (label ++ " document")

def validateGraphSettings (doc : LoroDoc) : Except CoreError Unit := do
  refuse (mapI64 doc.graphSettings "schema_version" ≠ some graphSettingsSchemaVersion)
    (.invalidHierarchy "graph settings schema is missing or unsupported")
  let queries ← requiredChildMap doc.graphSettings "default_queries" "graph default queries"
  checkAll (validateDefaultQuery host queries) (keys queries)

/-- The loop over one home. -/
def validateHome (doc : LoroDoc) (home : Home) : Except CoreError Unit :=
  checkAll (fun rawId => do
    requireSingle doc rawId
    validateDocument host doc home rawId true) (keys (doc.records home))

def validateCausalDocument (doc : LoroDoc) (graphId : GraphId) : Except CoreError Unit := do
  validateMetadata doc graphId
  checkAll (validateHome host doc) homes
  validateGraphSettings host doc

end Neoseq.Causal
