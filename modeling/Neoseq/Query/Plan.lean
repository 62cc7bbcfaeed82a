import Neoseq.Domain.Registry
import Neoseq.Query.TextIndex

/-! The grammar of the product's query builder and what `validate` asks of a plan:
which fields a subject has, which operators a field, and which operands an operator. -/

namespace Neoseq.Query
open Domain

def queryPlanVersion : Nat := 2
def planLimitMax : Nat := 1000
def planAnyOfMax : Nat := 32
def planMaxConditions : Nat := 64
def planMaxDepth : Nat := 4
def planMaxNodes : Nat := 256
def planMaxColumns : Nat := 128

def invalidPlan (message : String) : QueryError := .invalidPlan message

/-- A bound on results within `1..=PLAN_LIMIT_MAX`. -/
structure PlanLimit where
  get : Nat
  valid : 1 ≤ get ∧ get ≤ planLimitMax
  deriving DecidableEq

def PlanLimit.new (value : Nat) : Except QueryError PlanLimit :=
  if h : 1 ≤ value ∧ value ≤ planLimitMax then .ok ⟨value, h⟩
  else .error (invalidPlan "plan limit is out of range")

inductive PlanSubject where
  | block | page | tag
  deriving Repr, DecidableEq

inductive PlanField where
  | content
  | property (key : String)
  | tag
  | page
  | ancestor
  | siblingIndex
  deriving Repr, DecidableEq

inductive PlanOperator where
  | contains | notContains | startsWith | endsWith | equals | notEquals | anyOf
  | lt | lte | gt | gte | between | isTrue | isFalse | isSet | isEmpty
  deriving Repr, DecidableEq

inductive RelativeDateUnit where
  | day | week | month
  deriving Repr, DecidableEq

structure PlanRelativeDate where
  unit : RelativeDateUnit
  offset : Int32
  deriving DecidableEq

inductive PlanValue where
  | text (value : String)
  | number (value : F64)
  | date (value : String)
  | relative (value : PlanRelativeDate)
  | page (value : String)
  | tag (value : String)
  | list (values : List String)
  deriving DecidableEq

inductive PlanMatch where
  | all | any | none
  deriving Repr, DecidableEq

inductive PlanNode where
  | condition (id : String) (field : PlanField) (op : PlanOperator)
      (value value2 : Option PlanValue)
  | group (id : String) (mode : PlanMatch) (children : List PlanNode)

inductive PlanColumnSource where
  | subject
  | content
  | page
  | property (key : String)
  | tags
  | parent
  | siblingIndex
  deriving Repr, DecidableEq

structure PlanColumn where
  id : String
  source : PlanColumnSource
  label : Option String
  deriving Repr, DecidableEq

/-- The grain has one value, so it is left out. -/
structure BuiltQueryPlan where
  version : Nat
  subject : PlanSubject
  whereClause : PlanNode
  columns : List PlanColumn
  limit : PlanLimit

/-! ## Fields and operators -/

inductive FieldType where
  | string | choice | number | checkbox | date | page | tag | integer
  /-- A property only the graph defines. -/
  | graph
  deriving Repr, DecidableEq

def FieldType.ofSpec : PropertyValueSpec → FieldType
  | .number => .number
  | .checkbox => .checkbox
  | .date => .date
  | .page => .page
  | .string (.suggested _) | .string (.oneOf _) => .choice
  | .string .any | .document _ _ => .string

def fieldType : PlanField → FieldType
  | .content => .string
  | .tag => .tag
  | .page | .ancestor => .page
  | .siblingIndex => .integer
  | .property key =>
    (((PropertyKey.new key).toOption.bind definition).map fun spec =>
      FieldType.ofSpec spec.shape.value).getD .graph

def FieldType.operators : FieldType → List PlanOperator
  | .checkbox => [.isTrue, .isFalse, .isSet, .isEmpty]
  | .number | .integer =>
    [.equals, .notEquals, .gt, .gte, .lt, .lte, .between, .isSet, .isEmpty]
  | .date => [.equals, .notEquals, .lt, .lte, .gt, .gte, .between, .isSet, .isEmpty]
  | .page | .tag | .choice => [.equals, .notEquals, .anyOf, .isSet, .isEmpty]
  | .graph =>
    [.contains, .notContains, .equals, .notEquals, .startsWith, .endsWith, .anyOf, .gt, .gte,
      .lt, .lte, .between, .isTrue, .isFalse, .isSet, .isEmpty]
  | .string =>
    [.contains, .notContains, .equals, .notEquals, .startsWith, .endsWith, .anyOf, .isSet,
      .isEmpty]

def operatorsFor (field : PlanField) : List PlanOperator := (fieldType field).operators

/-- A graph-defined property has no declared type, so a condition on it compares as
the type of its own value. -/
def graphValueFits (op : PlanOperator) (value : PlanValue) : Bool :=
  match op with
  | .contains | .notContains | .startsWith | .endsWith =>
    match value with
    | .text _ => true
    | _ => false
  | .gt | .gte | .lt | .lte | .between =>
    match value with
    | .number _ | .date _ | .relative _ => true
    | _ => false
  | _ => true

def PlanValue.isList : PlanValue → Bool
  | .list _ => true
  | _ => false

def FieldType.matches : FieldType → PlanValue → Bool
  | .string, .list _ | .choice, .list _ | .page, .list _ | .tag, .list _ | .graph, .list _ => true
  | _, .list _ => false
  | .graph, .tag _ => false
  | .graph, _ => true
  | .string, .text _ | .choice, .text _ => true
  | .number, .number _ | .integer, .number _ => true
  | .date, .date _ | .date, .relative _ => true
  | .page, .page _ => true
  | .tag, .tag _ => true
  | _, _ => false

def valueMatchesField (field : PlanField) (value : PlanValue) : Bool :=
  (fieldType field).matches value

def invalidScalar : PlanValue → Bool
  | .number value => !value.isFinite
  | .date value => !validDate value
  | _ => false

/-! ## Validation -/

/-- `PropertyKey::new(key.clone())` for its error only. -/
def validateKey (key : String) : Except QueryError Unit :=
  match PropertyKey.new key with
  | .ok _ => .ok ()
  | .error e => .error (invalidPlan e.message)

def PlanSubject.hasField : PlanSubject → PlanField → Bool
  | .block, _ => true
  | .page, .content | .page, .property _ | .page, .tag => true
  | .tag, .content | .tag, .property _ => true
  | _, _ => false

def validateField (subject : PlanSubject) (field : PlanField) : Except QueryError Unit :=
  if !subject.hasField field then
    .error (invalidPlan "field is not available for the plan subject")
  else
    match field with
    | .property key => validateKey key
    | _ => .ok ()

def PlanSubject.hasColumn : PlanSubject → PlanColumnSource → Bool
  | .block, _ => true
  | .page, .subject | .page, .content | .page, .property _ | .page, .tags => true
  | .tag, .subject | .tag, .content | .tag, .property _ => true
  | _, _ => false

def validateColumnSource (subject : PlanSubject) (source : PlanColumnSource) :
    Except QueryError Unit :=
  if !subject.hasColumn source then
    .error (invalidPlan "column source is not available for the plan subject")
  else
    match source with
    | .property key => validateKey key
    | _ => .ok ()

def PlanOperator.takesValue : PlanOperator → Bool
  | .isSet | .isEmpty | .isTrue | .isFalse => false
  | _ => true

def PlanOperator.isBetween (op : PlanOperator) : Bool := op == .between
def PlanOperator.isAnyOf (op : PlanOperator) : Bool := op == .anyOf

def tooManyMembers : Option PlanValue → Bool
  | some (.list values) => decide (values.length > planAnyOfMax)
  | _ => false

/-- The checks on a condition's field, operator and operands, in the source's order. -/
def validateCondition (subject : PlanSubject) (field : PlanField) (op : PlanOperator)
    (value value2 : Option PlanValue) : Except QueryError Unit := do
  validateField subject field
  if !(operatorsFor field).contains op then
    throw (invalidPlan "operator is not valid for its field")
  if fieldType field == .graph && (value.any (!graphValueFits op ·) ||
      value2.any (!graphValueFits op ·)) then
    throw (invalidPlan "value type is not valid for its operator")
  if op.takesValue != value.isSome then
    throw (invalidPlan "operator and value shape disagree")
  if op.isBetween != value2.isSome then
    throw (invalidPlan "between requires exactly two values")
  if op.isAnyOf != value.any PlanValue.isList then
    throw (invalidPlan "any_of requires a list value")
  if !op.isAnyOf && value.any PlanValue.isList then
    throw (invalidPlan "only any_of accepts a list value")
  if tooManyMembers value then
    throw (invalidPlan "any_of has too many values")
  if value2.any PlanValue.isList then
    throw (invalidPlan "a range bound must be a scalar")
  if value.any (!valueMatchesField field ·) || value2.any (!valueMatchesField field ·) then
    throw (invalidPlan "value type is not valid for its field")
  if value.any invalidScalar || value2.any invalidScalar then
    throw (invalidPlan "plan contains an invalid scalar")

/-- The counters of one validation. -/
structure PlanCounts where
  nodes : Nat
  conditions : Nat
  deriving Repr, DecidableEq

def countNode (counts : PlanCounts) : Except QueryError PlanCounts :=
  let nodes := counts.nodes + 1
  if nodes > planMaxNodes then .error (invalidPlan "plan has too many nodes")
  else .ok { counts with nodes := nodes }

def countCondition (counts : PlanCounts) : Except QueryError PlanCounts :=
  let conditions := counts.conditions + 1
  if conditions > planMaxConditions then .error (invalidPlan "plan has too many conditions")
  else .ok { counts with conditions := conditions }

mutual

def validateNode (subject : PlanSubject) (depth : Nat) (counts : PlanCounts) :
    PlanNode → Except QueryError PlanCounts
  | .condition id field op value value2 => do
    let counts ← countNode counts
    if id.isEmpty then throw (invalidPlan "condition id must not be empty")
    let counts ← countCondition counts
    validateCondition subject field op value value2
    return counts
  | .group id _ children => do
    let counts ← countNode counts
    if id.isEmpty then throw (invalidPlan "group id must not be empty")
    if depth ≥ planMaxDepth then throw (invalidPlan "plan groups are nested too deeply")
    validateNodes subject (depth + 1) counts children

def validateNodes (subject : PlanSubject) (depth : Nat) (counts : PlanCounts) :
    List PlanNode → Except QueryError PlanCounts
  | [] => .ok counts
  | child :: rest => do
    let counts ← validateNode subject depth counts child
    validateNodes subject depth counts rest

end

def validateColumns (subject : PlanSubject) :
    List PlanColumn → (ids : List String) → Except QueryError Unit
  | [], _ => .ok ()
  | column :: rest, ids => do
    if column.id.isEmpty then throw (invalidPlan "column id must not be empty")
    validateColumnSource subject column.source
    if ids.contains column.id then throw (invalidPlan "column ids must be unique")
    validateColumns subject rest (column.id :: ids)

def BuiltQueryPlan.validate (plan : BuiltQueryPlan) : Except QueryError Unit := do
  if plan.version ≠ queryPlanVersion then
    throw (invalidPlan ("unsupported plan version: " ++ toString plan.version))
  if plan.columns.isEmpty || decide (plan.columns.length > planMaxColumns) then
    throw (invalidPlan "plan column count is out of range")
  validateColumns plan.subject plan.columns []
  match plan.whereClause with
  | .condition .. => throw (invalidPlan "the root where node must be a group")
  | .group .. =>
    let _ ← validateNode plan.subject 0 ⟨0, 0⟩ plan.whereClause
    return ()

end Neoseq.Query
