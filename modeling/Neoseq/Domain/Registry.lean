import Neoseq.Domain.Property

/-! The property registry: which shape a built-in key has, what it may be written
on and by whom, and whether copying a block copies it. Keys outside the registry
are free in shape. -/

namespace Neoseq.Domain

def queryPropertyKey : String := "builtin.query"

inductive PropertyTarget where
  | page
  | block
  | tagMetadata
  | tagDefault
  deriving Repr, DecidableEq

inductive PropertyAccess where
  | user
  | core
  deriving Repr, DecidableEq

/-- `omitted` is the source's `Omit`. -/
inductive PropertyCopyPolicy where
  | portable
  | regenerate
  | omitted
  deriving Repr, DecidableEq

structure PropertyPlacement where
  target : PropertyTarget
  access : PropertyAccess
  deriving Repr, DecidableEq

inductive StringSpec where
  | any
  | suggested (values : List String)
  | oneOf (values : List String)
  deriving Repr, DecidableEq

inductive PropertyValueSpec where
  | number
  | string (spec : StringSpec)
  | page
  | checkbox
  | date
  | document (schema : String) (version : Nat)
  deriving Repr, DecidableEq

def PropertyValueSpec.propertyType : PropertyValueSpec → PropertyType
  | .number => .number
  | .string _ => .string
  | .page => .page
  | .checkbox => .checkbox
  | .date => .date
  | .document .. => .document

inductive PropertyShape where
  | single (value : PropertyValueSpec)
  | set (value : PropertyValueSpec)
  deriving Repr, DecidableEq

def PropertyShape.cardinality : PropertyShape → Cardinality
  | .single _ => .single
  | .set _ => .set

def PropertyShape.value : PropertyShape → PropertyValueSpec
  | .single value => value
  | .set value => value

structure PropertySpec where
  shape : PropertyShape
  placements : List PropertyPlacement
  copy : PropertyCopyPolicy
  deriving Repr, DecidableEq

def PropertySpec.access (spec : PropertySpec) (target : PropertyTarget) : Option PropertyAccess :=
  (spec.placements.find? fun placement => placement.target == target).map
    PropertyPlacement.access

def userOn (targets : List PropertyTarget) : List PropertyPlacement :=
  targets.map fun target => ⟨target, .user⟩

def coreOn (targets : List PropertyTarget) : List PropertyPlacement :=
  targets.map fun target => ⟨target, .core⟩

def userPageBlockTag : List PropertyPlacement := userOn [.page, .block, .tagMetadata]
def userPageBlockDefault : List PropertyPlacement := userOn [.page, .block, .tagDefault]
def userTag : List PropertyPlacement := userOn [.tagMetadata]
def userPageTag : List PropertyPlacement := userOn [.page, .tagMetadata]
def corePage : List PropertyPlacement := coreOn [.page]
def corePageTag : List PropertyPlacement := coreOn [.page, .tagMetadata]
def corePageBlockTag : List PropertyPlacement := coreOn [.page, .block, .tagMetadata]

def pageKinds : List String := ["regular", "journal"]
def tagColors : List String :=
  ["red", "orange", "green", "teal", "blue", "iris", "violet", "rose"]
def taskStatuses : List String := ["todo", "doing", "done", "cancelled"]
def taskPriorities : List String := ["low", "medium", "high"]

def registry : List (String × PropertySpec) := [
  (queryPropertyKey, ⟨.single (.document queryDocumentSchema queryDocumentVersion),
    userPageBlockTag, .portable⟩),
  ("builtin.favorite", ⟨.single .checkbox, userPageTag, .portable⟩),
  ("builtin.favorite-order", ⟨.single .number, userPageTag, .portable⟩),
  ("builtin.tag-group", ⟨.single (.string .any), userTag, .portable⟩),
  ("builtin.tag-order", ⟨.single .number, userTag, .portable⟩),
  ("builtin.tag-color", ⟨.single (.string (.suggested tagColors)), userTag, .portable⟩),
  ("builtin.tag-icon", ⟨.single (.string .any), userTag, .portable⟩),
  ("builtin.task-status",
    ⟨.single (.string (.suggested taskStatuses)), userPageBlockDefault, .portable⟩),
  ("builtin.task-scheduled", ⟨.single .date, userPageBlockDefault, .portable⟩),
  ("builtin.task-scheduled-time", ⟨.single (.string .any), userPageBlockDefault, .portable⟩),
  ("builtin.task-deadline", ⟨.single .date, userPageBlockDefault, .portable⟩),
  ("builtin.task-deadline-time", ⟨.single (.string .any), userPageBlockDefault, .portable⟩),
  ("builtin.task-repeat", ⟨.single (.string .any), userPageBlockDefault, .portable⟩),
  ("builtin.task-priority",
    ⟨.single (.string (.suggested taskPriorities)), userPageBlockDefault, .portable⟩),
  ("builtin.page-kind", ⟨.single (.string (.oneOf pageKinds)), corePage, .omitted⟩),
  ("builtin.journal-date", ⟨.single .date, corePage, .omitted⟩),
  ("builtin.created-at", ⟨.single (.string .any), corePageBlockTag, .regenerate⟩),
  ("builtin.updated-at", ⟨.single (.string .any), corePageBlockTag, .regenerate⟩),
  ("builtin.deleted-at", ⟨.single (.string .any), corePageTag, .omitted⟩)]

def definition (key : PropertyKey) : Option PropertySpec := List.lookup key.asStr registry

def propertyCopyPolicy (key : PropertyKey) : PropertyCopyPolicy :=
  match definition key with
  | some spec => spec.copy
  | none => if key.asStr.startsWith "user." then .portable else .omitted

/-- The errors of a property check; those of a query document are `QueryError`. -/
inductive PropertyError where
  | wrongType (key : String) (expected actual : PropertyType)
  | wrongCardinality (key : String) (expected actual : Cardinality)
  | invalidString (key value : String)
  | nonFiniteNumber
  | invalidTarget (key : String) (target : PropertyTarget)
  | coreManaged (key : String)
  | tooManySingleValues (key : String)
  | documentCommandRequired (key : String)
  | query (error : QueryError)
  deriving Repr, DecidableEq

variable (codec : Codec)

/-- The bound on sources, which a stored document may exceed. -/
def validateSources : List QueryView → Except QueryError Unit
  | [] => .ok ()
  | view :: rest =>
    if view.definition.source.utf8ByteSize > maxQuerySourceBytes then .error .stringTooLong
    else validateSources rest

def QueryView.validate (view : QueryView) : Except QueryError Unit := do
  view.validateStructure codec
  validateSources [view]

def PropertyDocument.validate (document : PropertyDocument) : Except QueryError Unit := do
  document.validateStructure codec
  validateSources document.views

def PropertyValue.validateShape (value : PropertyValue) : Except PropertyError Unit :=
  match value with
  | .number value => if value.isFinite then .ok () else .error .nonFiniteNumber
  | .string value =>
    if value.utf8ByteSize > 65536 then .error (.query .stringTooLong) else .ok ()
  | .document value => (value.validate codec).mapError .query
  | .unsupportedDocument schema version => .error (.query (.unsupportedDocument schema version))
  | _ => .ok ()

def validatePropertyShape (key : PropertyKey) (valueType : PropertyType)
    (cardinality : Cardinality) : Except PropertyError Unit :=
  match definition key with
  | none => .ok ()
  | some item =>
    if valueType ≠ item.shape.value.propertyType then
      .error (.wrongType key.asStr item.shape.value.propertyType valueType)
    else if cardinality ≠ item.shape.cardinality then
      .error (.wrongCardinality key.asStr item.shape.cardinality cardinality)
    else .ok ()

/-- What the registry asks of a value beyond its type. -/
def PropertyValueSpec.check (spec : PropertyValueSpec) (key : PropertyKey)
    (value : PropertyValue) : Except PropertyError Unit :=
  match spec, value with
  | .string (.oneOf allowed), .string value =>
    if allowed.contains value then .ok () else .error (.invalidString key.asStr value)
  | .document schema version, .document snapshot =>
    if snapshot.schema ≠ schema ∨ snapshot.version ≠ version then
      .error (.query (.unsupportedDocument snapshot.schema snapshot.version))
    else (snapshot.validate codec).mapError .query
  | .document .., .unsupportedDocument schema version =>
    .error (.query (.unsupportedDocument schema version))
  | _, _ => .ok ()

def validateProperty (key : PropertyKey) (value : PropertyValue) (cardinality : Cardinality) :
    Except PropertyError Unit := do
  value.validateShape codec
  match definition key with
  | none => return ()
  | some item =>
    validatePropertyShape key value.propertyType cardinality
    item.shape.value.check codec key value

/-- The loop over the values of a field. -/
def validateValues (field : PropertyField) : List PropertyValue → Except PropertyError Unit
  | [] => .ok ()
  | value :: rest =>
    if value.propertyType ≠ field.valueType then
      .error (.wrongType field.key.asStr field.valueType value.propertyType)
    else do
      validateProperty codec field.key value field.cardinality
      validateValues field rest

def validatePropertyField (field : PropertyField) : Except PropertyError Unit := do
  validatePropertyShape field.key field.valueType field.cardinality
  if field.cardinality = .single ∧ field.values.length > 1 then
    throw (.tooManySingleValues field.key.asStr)
  validateValues codec field field.values

def validatePropertyTarget (key : PropertyKey) (target : PropertyTarget) :
    Except PropertyError Unit :=
  let valid : Bool := match definition key with
    | none => key.asStr.startsWith "builtin." || target != .tagMetadata
    | some item => (item.access target).isSome
  if valid then .ok () else .error (.invalidTarget key.asStr target)

def validatePropertyWrite (key : PropertyKey) (target : PropertyTarget) :
    Except PropertyError Unit := do
  validatePropertyTarget key target
  match definition key with
  | some item =>
    if item.access target = some .core then throw (.coreManaged key.asStr)
  | none => if key.asStr.startsWith "builtin." then throw (.coreManaged key.asStr)

end Neoseq.Domain
