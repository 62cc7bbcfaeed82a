import Neoseq.Core.Document
import Neoseq.Document.QueryProjection
import Neoseq.Edit

/-! Writing and reading the stored form of properties. A field is created with its
shape and keeps it; a query document is written view by view, so it can be left
half written where a view is refused. -/

namespace Neoseq.Core
open Domain Document Collections

variable (host : Host)

/-! ## Fields -/

def freshField (shape : StoredPropertyShape) : StoredField :=
  match shape.valueType, shape.cardinality with
  | .document, _ => { shape := shape, document := some [] }
  | _, .set => { shape := shape, members := some [] }
  | _, .single => { shape := shape }

@[simp] theorem shape_freshField (shape : StoredPropertyShape) :
    (freshField shape).shape = shape := by
  unfold freshField
  split <;> rfl

def noPayload (key : PropertyKey) (slot : String) : CoreError :=
  .invalidHierarchy ("property field " ++ key.asStr ++ " has no valid " ++ slot ++ " payload")

def validatePropertyPayloadShape (field : StoredField) (key : PropertyKey) :
    Except CoreError Unit :=
  match field.shape.valueType, field.shape.cardinality with
  | .document, .single =>
    if field.document.isSome then .ok () else .error (noPayload key "document")
  | .document, .set => .error (.invalidHierarchy
      ("property field " ++ key.asStr ++ " has invalid document cardinality"))
  | _, .set => if field.members.isSome then .ok () else .error (noPayload key "set")
  | _, .single => .ok ()

/-- The bag with a field of this shape under the key, the one that is there or a
new one. -/
def ensurePropertyField (key : PropertyKey) (valueType : PropertyType)
    (cardinality : Cardinality) (bag : Bag) : Except CoreError Bag :=
  match h : validatePropertyShape key valueType cardinality with
  | .error e => .error (.property e)
  | .ok () =>
    if valueType = .document ∧ cardinality = .set then
      .error (.property (.wrongCardinality key.asStr .single .set))
    else
      match bag.get key with
      | some field =>
        -- that the registry allows the stored shape is `Bag.suits`
        if field.shape.valueType ≠ valueType then
          .error (.property (.wrongType key.asStr field.shape.valueType valueType))
        else if field.shape.cardinality ≠ cardinality then
          .error (.property (.wrongCardinality key.asStr field.shape.cardinality cardinality))
        else do
          validatePropertyPayloadShape field key
          return bag
      | none => .ok (bag.insert key (freshField ⟨valueType, cardinality⟩)
          ((shape_freshField _).symm ▸ h))

/-- Changes the slots of a stored field. -/
def Bag.modify (bag : Bag) (key : PropertyKey) (g : StoredField → StoredField)
    (hg : ∀ field, (g field).shape = field.shape) : Bag :=
  match h : bag.get key with
  | some field => bag.insert key (g field) ((hg field).symm ▸ bag.suits key field h)
  | none => bag

def setSingle (key : PropertyKey) (value : PropertyValue) (bag : Bag) : Except CoreError Bag := do
  let bag ← ensurePropertyField key value.propertyType .single bag
  return bag.modify key (fun field => { field with single := some value }) fun _ => rfl

/-- A member is stored under its digest, so once. -/
def addMember (members : List PropertyValue) (value : PropertyValue) : List PropertyValue :=
  if value ∈ members then members else members ++ [value]

def setRepeated (key : PropertyKey) (value : PropertyValue) (bag : Bag) :
    Except CoreError Bag := do
  let bag ← ensurePropertyField key value.propertyType .set bag
  return bag.modify key
    (fun field => { field with members := field.members.map (addMember · value) }) fun _ => rfl

def clearPropertyValues (key : PropertyKey) (bag : Bag) : Except CoreError Bag :=
  match bag.get key with
  | none => .ok bag
  | some field =>
    match field.shape.valueType, field.shape.cardinality with
    | .document, _ => .error (.property (.documentCommandRequired key.asStr))
    | _, .single => .ok (bag.modify key (fun field => { field with single := none }) fun _ => rfl)
    | _, .set =>
      if field.members.isSome then
        .ok (bag.modify key (fun field => { field with members := some [] }) fun _ => rfl)
      else .error (noPayload key "set")

def removePropertyField (key : PropertyKey) (bag : Bag) : Bag := bag.remove key

def removeRepeatedValue (key : PropertyKey) (value : PropertyValue) (bag : Bag) :
    Except CoreError Bag :=
  match bag.get key with
  | none => .ok bag
  | some field =>
    if field.shape.valueType ≠ value.propertyType ∨ field.shape.cardinality ≠ .set then .ok bag
    else if field.members.isSome then
      .ok (bag.modify key
        (fun field => { field with members := field.members.map (·.erase value) }) fun _ => rfl)
    else .error (noPayload key "set")

/-! ## Reading a bag -/

/-- A field whose values pass the checks, in the order of their encodings. -/
def checkedField (field : PropertyField) : Option PropertyField :=
  if validatePropertyField host.codec field = .ok () then
    some { field with
      values := field.values.insertionSort fun a b => host.encode a ≤ host.encode b }
  else none

/-- The value of a document field: nothing where it cannot be read. -/
def decodeDocument (document : LoroMap) : List PropertyValue :=
  match mapString document "schema", mapU32 document "version" with
  | some schema, some version =>
    if schema ≠ queryDocumentSchema ∨ version ≠ queryDocumentVersion then
      [.unsupportedDocument schema version]
    else
      match projectQueryDocument host.codec document with
      | .ok projection => [.document projection.document]
      | .error _ => []
  | _, _ => []

/-- One field of a decoded bag, `none` where it is quarantined. -/
def decodeField (key : PropertyKey) (stored : StoredField) : Option PropertyField :=
  let field (values : List PropertyValue) : PropertyField :=
    ⟨key, stored.shape.valueType, stored.shape.cardinality, values⟩
  let holds (value : PropertyValue) : Bool :=
    value.propertyType = stored.shape.valueType ∧
      validateProperty host.codec key value stored.shape.cardinality = .ok ()
  match stored.shape.valueType, stored.shape.cardinality with
  | .document, .set => none
  | .document, .single =>
    if stored.single.isSome ∨ stored.members.isSome then none
    else stored.document.bind fun document => checkedField host (field (decodeDocument host document))
  | _, .single =>
    if stored.members.isSome ∨ stored.document.isSome then none
    else
      match stored.single with
      | none => some (field [])
      | some value => if holds value then checkedField host (field [value]) else none
  | _, .set =>
    if stored.single.isSome ∨ stored.document.isSome then none
    else stored.members.bind fun members =>
      if members.all holds then checkedField host (field members) else none

theorem key_decodeField {key : PropertyKey} {stored : StoredField} {field : PropertyField}
    (h : decodeField host key stored = some field) : field.key = key := by
  have hc : ∀ {f : PropertyField}, checkedField host f = some field → field.key = f.key := by
    intro f hf
    unfold checkedField at hf
    split at hf
    · exact (Option.some.inj hf) ▸ rfl
    · cases hf
  unfold decodeField at h
  dsimp only at h
  split at h
  · cases h
  · split at h
    · cases h
    · obtain ⟨_, _, h⟩ := Option.bind_eq_some_iff.mp h
      exact hc h
  · split at h
    · cases h
    · split at h
      · exact (Option.some.inj h) ▸ rfl
      · split at h
        · exact hc h
        · cases h
  · split at h
    · cases h
    · obtain ⟨_, _, h⟩ := Option.bind_eq_some_iff.mp h
      split at h
      · exact hc h
      · cases h

def decodeEntries (entries : List (PropertyKey × StoredField)) : List PropertyField :=
  entries.filterMap fun e => decodeField host e.1 e.2

theorem sorted_decodeEntries {entries : List (PropertyKey × StoredField)}
    (h : (entries.map Prod.fst).Pairwise (· < ·)) :
    ((decodeEntries host entries).map fun f => f.key.asStr).Pairwise (· < ·) := by
  rw [List.pairwise_map] at h ⊢
  rw [decodeEntries, List.pairwise_filterMap]
  refine h.imp fun {a b} hab f hf g hg => ?_
  rw [key_decodeField host hf, key_decodeField host hg]
  exact hab

/-- The readable fields of a bag, in key order. -/
def decodeBag (bag : Bag) : PropertyBag :=
  ⟨decodeEntries host bag.fields.entries, sorted_decodeEntries host bag.fields.sorted⟩

/-! ## Query documents -/

/-- A child map, empty where there is none. -/
def childMap (m : LoroMap) (key : String) : LoroMap := ((m.get key).bind Stored.intoMap).getD []

structure QueryViewPresentation where
  id : QueryViewId
  name : String
  kind : QueryViewKind
  position : Nat
  columns : List QueryViewColumn
  options : QueryViewOptions

def QueryViewPresentation.of (view : QueryView) : QueryViewPresentation :=
  ⟨view.id, view.name, view.kind, view.position, view.columns, view.options⟩

structure QueryViewWrite where
  presentation : QueryViewPresentation
  definition : Option QueryDefinition

/-- The stored form of a view, in `columns` and `options` as JSON. -/
def presented (presentation : QueryViewPresentation) (view : LoroMap) : LoroMap :=
  let kind := match presentation.kind with
    | .table => "table"
    | .list => "list"
  ((((view.insert "name" (.string presentation.name)).insert "kind" (.string kind)).insert
    "position" (.i64 presentation.position)).insert
    "columns" (.string (host.encodeColumns presentation.columns))).insert
    "options" (.string (host.encodeOptions presentation.options))

/-- Changes one stored view of a document. -/
def updateView (id : QueryViewId) (g : LoroMap → LoroMap) (document : LoroMap) : LoroMap :=
  let views := childMap document "views"
  document.insert "views" (.map (views.insert id.asStr (.map (g (childMap views id.asStr)))))

def writeQueryPlanState (plan : Option QueryPlan) (definition : LoroMap) : LoroMap :=
  let state := match plan with
    | none => StoredPlanState.raw
    | some plan => .built queryPlanStateVersion plan
  definition.insert queryPlanStateKey (.string (host.encodePlanState state))

def storedDefinition (snapshot : QueryDefinition) (definition : LoroMap) : LoroMap :=
  writeQueryPlanState host snapshot.plan
    ((definition.insert "language" (.string snapshot.language)).insert
      "source" (.text snapshot.source))

/-- Changes the definition of a stored view. -/
def updateDefinition (g : LoroMap → LoroMap) (view : LoroMap) : LoroMap :=
  view.insert "definition" (.map (g (childMap view "definition")))

def derivedQuerySource (plan : QueryPlan) : Except CoreError String := do
  let source ← orElse (host.codec.derivePlanSource plan)
    (.property (.query (.invalidDocument (host.planError plan))))
  if source.utf8ByteSize > maxQuerySourceBytes then throw .textTooLong
  return source

def normalizedQueryDefinition (snapshot : QueryDefinition) : Except CoreError QueryDefinition := do
  match snapshot.plan with
  | some plan => let _ ← derivedQuerySource host plan
  | none => pure ()
  return snapshot

def queryError {γ : Type} (x : Except QueryError γ) : Except CoreError γ :=
  x.mapError fun e => .property (.query e)

def normalizedQueryView (view : QueryView) : Except CoreError QueryView := do
  let definition ← normalizedQueryDefinition host view.definition
  queryError ({ view with definition := definition }.validate host.codec)
  return { view with definition := definition }

def normalizedQueryDocument (document : PropertyDocument) : Except CoreError PropertyDocument := do
  let views ← (document.views.map (normalizedQueryView host)).mapM id
  queryError ({ document with views := views }.validate host.codec)
  return { document with views := views }

/-- The write of a checked view, which cannot be refused. -/
def applyQueryViewWrite (viewWrite : QueryViewWrite) : LoroMap → LoroMap :=
  updateView viewWrite.presentation.id fun view =>
    let view := presented host viewWrite.presentation view
    match viewWrite.definition with
    | none => view
    | some definition =>
      updateDefinition (storedDefinition host definition) (view.insert "deleted" (.bool false))

/-- Writes a view and, where it is new, its definition, which can be refused once
the rest is written. -/
def putQueryView (view : QueryView) : Edit CoreError LoroMap Unit := do
  let created ← Edit.read fun document =>
    .ok ((childMap document "views").get view.id.asStr).isNone
  Edit.write (updateView view.id (presented host (.of view)))
  if created then
    Edit.write (updateView view.id fun stored =>
      updateDefinition (fun definition => definition) (stored.insert "deleted" (.bool false)))
    let definition ← Edit.read fun _ => normalizedQueryDefinition host view.definition
    Edit.write (updateView view.id (updateDefinition (storedDefinition host definition)))

def writeHeader (snapshot : PropertyDocument) (document : LoroMap) : LoroMap :=
  ((document.insert "schema" (.string snapshot.schema)).insert
    "version" (.i64 snapshot.version)).insert
    "default_view_id" (.string snapshot.defaultViewId.asStr)

def clearViews (document : LoroMap) : LoroMap := document.insert "views" (.map [])

def writeQueryDocumentMap (snapshot : PropertyDocument) : Edit CoreError LoroMap Unit := do
  Edit.read fun _ => queryError (snapshot.validate host.codec)
  Edit.write fun document => clearViews (writeHeader snapshot document)
  Edit.each (putQueryView host) snapshot.views

/-- The document of a normalized seed. -/
def writePreparedQueryDocument (snapshot : PropertyDocument) (document : LoroMap) : LoroMap :=
  snapshot.views.foldl
    (fun document view => applyQueryViewWrite host ⟨.of view, some view.definition⟩ document)
    (clearViews (writeHeader snapshot document))

def queryKey : PropertyKey := ⟨queryPropertyKey, by decide⟩

/-- The document slot of a field. -/
def Bag.document (key : PropertyKey) (bag : Bag) : LoroMap :=
  ((bag.get key).bind StoredField.document).getD []

def Bag.setDocument (key : PropertyKey) (document : LoroMap) (bag : Bag) : Bag :=
  bag.modify key (fun field => { field with document := some document }) fun _ => rfl

def writeQueryDocumentSnapshot (snapshot : PropertyDocument) : Edit CoreError Bag Unit := do
  Edit.update (ensurePropertyField queryKey .document .single)
  Edit.zoom (Bag.document queryKey) (Bag.setDocument queryKey)
    (writeQueryDocumentMap host snapshot)

/-- The values of a planned field are checked to be of its type; a document is
written view by view, another value whole. -/
def writePlannedProperty (field : PropertyField) : Edit CoreError Bag Unit := do
  Edit.update (ensurePropertyField field.key field.valueType field.cardinality)
  Edit.each (fun value =>
    match value with
    | .document document => writeQueryDocumentSnapshot host document
    | .unsupportedDocument schema version =>
      Edit.fail (.property (.query (.unsupportedDocument schema version)))
    | value =>
      match field.cardinality with
      | .single => Edit.update (setSingle field.key value)
      | .set => Edit.update (setRepeated field.key value)) field.values

def requireQueryDocument (bag : Bag) : Except CoreError LoroMap := do
  let field ← orElse (bag.get queryKey)
    (.property (.query (.invalidDocument "query document is missing")))
  if field.shape.valueType ≠ .document ∨ field.shape.cardinality ≠ .single then
    throw (.property (.query (.invalidDocument "query property shape is invalid")))
  orElse field.document (noPayload queryKey "document")

def decodeQueryDocument (document : LoroMap) : Except CoreError PropertyDocument :=
  match projectQueryDocument host.codec document with
  | .ok projection => .ok projection.document
  | .error message => .error (.invalidHierarchy message)

/-- The query document of a bag: a default one where there was none, else one that
can be read. -/
def ensureQueryDocument : Edit CoreError Bag Unit := do
  let created ← Edit.read fun bag => .ok (!bag.contains queryKey)
  Edit.update (ensurePropertyField queryKey .document .single)
  if created then
    Edit.zoom (Bag.document queryKey) (Bag.setDocument queryKey) do
      Edit.write (writeHeader (.defaultQuery ""))
      Edit.each (putQueryView host) (PropertyDocument.defaultQuery "").views
  else do
    let decoded ← Edit.read fun bag => do
      decodeQueryDocument host (← requireQueryDocument bag)
    Edit.read fun _ => queryError (decoded.validate host.codec)

def missingView : CoreError := .property (.query (.invalidDocument "query view does not exist"))

def requireQueryView (document : LoroMap) (viewId : QueryViewId) : Except CoreError LoroMap := do
  let view ← orElse ((childMap document "views").get viewId.asStr |>.bind Stored.intoMap)
    missingView
  if mapBool view "deleted" = some true then throw missingView
  return view

def requireQueryDefinition (document : LoroMap) (viewId : QueryViewId) :
    Except CoreError LoroMap := do
  let view ← requireQueryView document viewId
  orElse ((view.get "definition").bind Stored.intoMap)
    (.property (.query (.invalidDocument "query view definition is missing")))

/-- Changes the definition of a view that has one. -/
def editDefinition (viewId : QueryViewId) (g : LoroMap → LoroMap) (document : LoroMap) :
    Except CoreError LoroMap := do
  let _ ← requireQueryDefinition document viewId
  return updateView viewId (updateDefinition g) document

end Neoseq.Core
