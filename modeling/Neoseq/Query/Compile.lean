import Neoseq.Query.RelativeDate
import Neoseq.Result
import Neoseq.Sparql.Algebra

/-! The lowering of a plan to the algebra. One compiler serves two callers: execution
writes the operands into the algebra, the stored source keeps a parameter for each. -/

namespace Neoseq.Query
open Domain Sparql

/-- What the libraries decide about texts: which of them are IRIs, with the error of
one that is not, and the decimal text of a double. -/
structure Lexical where
  checkIri : String → Except String Unit
  display : F64 → String

inductive OperandMode where
  | direct (graphId : GraphId) (today : LocalDate)
  | parameterized (next : Nat)

/-- The counters of a compilation. The subject and its variable never change, so they
are not state. -/
structure PlanCompiler where
  operands : OperandMode
  localSequence : Nat

abbrev Compile := StateT PlanCompiler (Except QueryError)

def subjectVariable : Variable := "q_subject"

/-- `q_p{next}`. -/
def parameter (next : Nat) : Variable := "q_p" ++ toString next

/-- `q_{prefix}{sequence}`. -/
def localName (start : String) (sequence : Nat) : Variable := "q_" ++ start ++ toString sequence

def named (lex : Lexical) (value : String) : Except QueryError String :=
  match lex.checkIri value with
  | .ok () => .ok value
  | .error e => .error (.invalidTerm e)

def namedNode (lex : Lexical) (name : String) : Except QueryError String := named lex (neoNs ++ name)

def propertyPredicate (lex : Lexical) (key : String) : Except QueryError String :=
  named lex (propertyNs ++ encodeComponent key)

def entityTerm (lex : Lexical) (graphId : GraphId) (kind id : String) : Except QueryError Term :=
  (named lex (entityIri graphId kind id)).map .namedNode

inductive FieldPredicate where
  | named (iri : String)
  | path (path : PropertyPathExpression)

def fieldPredicate (lex : Lexical) (field : PlanField) (subject : PlanSubject) :
    Except QueryError FieldPredicate :=
  match field with
  | .content =>
    (namedNode lex (if subject = .tag then "name" else "content")).map .named
  | .property key => (propertyPredicate lex key).map .named
  | .tag => (namedNode lex "tag").map .named
  | .page => (namedNode lex "page").map .named
  | .ancestor => (namedNode lex "parent").map fun iri => .path (.oneOrMore (.namedNode iri))
  | .siblingIndex => (namedNode lex "siblingIndex").map .named

def relation (subject : Variable) (predicate : FieldPredicate) (object : TermPattern) :
    GraphPattern :=
  match predicate with
  | .named iri => .bgp [⟨.var subject, .namedNode iri, object⟩]
  | .path path => .path (.var subject) path object

def emptyPattern : GraphPattern := .bgp []

def isEmpty : GraphPattern → Bool
  | .bgp patterns => patterns.isEmpty
  | _ => false

def join (left right : GraphPattern) : GraphPattern :=
  if isEmpty left then right
  else if isEmpty right then left
  else .join left right

def filter (inner : GraphPattern) (expression : Expression) : GraphPattern :=
  .filter expression inner

def lowercase (expression : Expression) : Expression := .functionCall .lCase [expression]

def lowercaseString (expression : Expression) : Expression :=
  lowercase (.functionCall .str [expression])

def equalsByTerm (field : PlanField) (value : PlanValue) : Bool :=
  match fieldType field, value with
  | .number, _ | .integer, _ => false
  | .graph, .number _ => false
  | _, _ => true

/-- An operand's term, where the operands are written into the algebra. -/
def operandTerm (lex : Lexical) (graphId : GraphId) (today : LocalDate) :
    PlanValue → Except QueryError Term
  | .text value => .ok (Term.simple value)
  | .number value => (named lex Xsd.double).map fun type => .literal (lex.display value) type none
  | .date value => (named lex Xsd.date).map fun type => .literal value type none
  | .relative value => do
    let date ← resolveRelativeDate value today
    let type ← named lex Xsd.date
    return .literal date type none
  | .page value => entityTerm lex graphId "page" value
  | .tag value => entityTerm lex graphId "tag" value
  | .list _ => .error (invalidPlan "list is not a scalar")

/-- `local(prefix)`. -/
def localVariable (start : String) : Compile Variable := fun c =>
  .ok (localName start (c.localSequence + 1), { c with localSequence := c.localSequence + 1 })

section Compiler

variable (lex : Lexical)

def scalarTerm (value : PlanValue) : Compile TermPattern := fun c =>
  match c.operands with
  | .parameterized next =>
    .ok (.var (parameter next), { c with operands := .parameterized (next + 1) })
  | .direct graphId today => (operandTerm lex graphId today value).map fun t => (.term t, c)

def scalarExpression (value : PlanValue) : Compile Expression := do
  match ← scalarTerm lex value with
  | .term (.namedNode iri) => return .namedNode iri
  | .term (.literal value datatype language) => return .literal (.literal value datatype language)
  | .var name => return .var name
  | .blankNode _ => throw (invalidPlan "plan value did not compile to a ground term")

/-- What a member of a list can name: of an untyped list, a text or a page. -/
def memberOperands (field : PlanField) (member : String) : List PlanValue :=
  match fieldType field with
  | .graph => [.text member, .page member]
  | .page => [.page member]
  | .tag => [.tag member]
  | _ => [.text member]

def listMember (field : PlanField) (member : String) : Compile (List Expression) :=
  (memberOperands field member).mapM (scalarExpression lex)

variable (subject : PlanSubject)

/-- The comparison of an operator with one operand, `none` for the operators that are
compiled otherwise. -/
def comparison (field : PlanField) (op : PlanOperator) (left right : Expression) :
    Option (Except QueryError Expression) :=
  match op with
  | .equals => some (.ok (.binary .equal left right))
  | .contains =>
    some (if field = .content then
      (named lex (neoNs ++ "matchesText")).map fun iri => .functionCall (.custom iri) [left, right]
    else .ok (.functionCall .contains [lowercaseString left, lowercase right]))
  | .startsWith => some (.ok (.functionCall .strStarts [lowercaseString left, lowercase right]))
  | .endsWith => some (.ok (.functionCall .strEnds [lowercaseString left, lowercase right]))
  | .lt => some (.ok (.binary .less left right))
  | .lte => some (.ok (.binary .lessOrEqual left right))
  | .gt => some (.ok (.binary .greater left right))
  | .gte => some (.ok (.binary .greaterOrEqual left right))
  | _ => none

def applyPresence (base : GraphPattern) (predicate : FieldPredicate) :
    Compile (GraphPattern × Bool) := do
  let value ← localVariable "v"
  return (join base (relation subjectVariable predicate (.var value)), true)

def applyMembers (base : GraphPattern) (field : PlanField) (predicate : FieldPredicate)
    (members : List String) : Compile (GraphPattern × Bool) := do
  let members := (members.filter fun member => !member.isEmpty).take planAnyOfMax
  let members := (← members.mapM (listMember lex field)).flatten
  if members.isEmpty then return (base, false)
  let bound ← localVariable "v"
  return (filter (join base (relation subjectVariable predicate (.var bound)))
    (.isIn (.var bound) members), true)

def applyComparison (base : GraphPattern) (field : PlanField) (predicate : FieldPredicate)
    (op : PlanOperator) (value : PlanValue) (value2 : Option PlanValue) :
    Compile (GraphPattern × Bool) := do
  let bound ← localVariable "v"
  let left := Expression.var bound
  let right ← scalarExpression lex value
  let matched := join base (relation subjectVariable predicate (.var bound))
  if op = .between then
    let upper ← scalarExpression lex (value2.getD value)
    return (filter matched (.binary .and (.binary .greaterOrEqual left right)
      (.binary .lessOrEqual left upper)), true)
  match comparison lex field op left right with
  | some expression => return (filter matched (← liftM expression), true)
  | none => return (base, false)

def applyPositiveCondition (base : GraphPattern) (field : PlanField) (op : PlanOperator)
    (value value2 : Option PlanValue) : Compile (GraphPattern × Bool) := do
  let predicate ← liftM (fieldPredicate lex field subject)
  if op = .isTrue ∨ op = .isFalse then
    return (join base
      (relation subjectVariable predicate (.term (Term.ofBool (op = .isTrue)))), true)
  if op = .isSet then return ← applyPresence base predicate
  match value with
  | none => return (base, false)
  | some value =>
    if op = .anyOf then
      match value with
      | .list members => applyMembers lex base field predicate members
      | _ => return (base, false)
    else if op = .equals ∧ equalsByTerm field value then
      let object ← scalarTerm lex value
      return (join base (relation subjectVariable predicate object), true)
    else applyComparison lex base field predicate op value value2

/-- The operator that a negative one denies. -/
def PlanOperator.positive : PlanOperator → Option PlanOperator
  | .notContains => some .contains
  | .notEquals => some .equals
  | .isEmpty => some .isSet
  | _ => none

/-- "Is not" and "does not contain" compare a value, so a subject without one is not a
match; only "has no value" asks for absence. -/
def applyCondition (base : GraphPattern) (field : PlanField) (op : PlanOperator)
    (value value2 : Option PlanValue) : Compile (GraphPattern × Bool) :=
  match op.positive with
  | some positive => do
    let (branch, changed) ←
      applyPositiveCondition lex subject emptyPattern field positive value value2
    if !changed then return (base, false)
    let expression := Expression.unary .not (.exists branch)
    if positive ≠ .isSet then
      let (present, _) ← applyPositiveCondition lex subject emptyPattern field .isSet none none
      return (filter base (.binary .and (.exists present) expression), true)
    else return (filter base expression, true)
  | none => applyPositiveCondition lex subject base field op value value2

def anyBranch : List Expression → Option Expression
  | [] => none
  | first :: rest => some (rest.foldl (.binary .or) first)

/-- A group whose children are alternatives, or their denial. -/
def applyAlternatives (base : GraphPattern) (mode : PlanMatch) (branches : List Expression) :
    GraphPattern × Bool :=
  match anyBranch branches with
  | none => (base, false)
  | some expression =>
    (filter base (if mode = .none then .unary .not expression else expression), true)

mutual

def applyNode (base : GraphPattern) : PlanNode → Compile (GraphPattern × Bool)
  | .condition _ field op value value2 => applyCondition lex subject base field op value value2
  | .group _ .all children => applyAll base false children
  | .group _ mode children => do
    return applyAlternatives base mode (← applyBranches children)

def applyAll (pattern : GraphPattern) (changed : Bool) :
    List PlanNode → Compile (GraphPattern × Bool)
  | [] => return (pattern, changed)
  | child :: rest => do
    let (next, childChanged) ← applyNode pattern child
    applyAll next (changed || childChanged) rest

def applyBranches : List PlanNode → Compile (List Expression)
  | [] => return []
  | child :: rest => do
    let (branch, changed) ← applyNode emptyPattern child
    let branches ← applyBranches rest
    return if changed then .exists branch :: branches else branches

end

def PlanSubject.class : PlanSubject → String
  | .block => "Block"
  | .page => "Page"
  | .tag => "Tag"

/-- `LogicalQuery::select`, ordered by the subject, distinct and limited. -/
def selectSubjects (pattern : GraphPattern) (limit : Nat) : Sparql.Query :=
  .select none (.slice (.distinct (.project
    (.orderBy pattern [.asc (.var subjectVariable)]) [subjectVariable])) 0 (some limit))

def compilePlan (plan : BuiltQueryPlan) : Compile Sparql.Query := do
  let subjectType ← liftM (named lex (neoNs ++ subject.class))
  let type ← liftM (named lex rdfType)
  let root := GraphPattern.bgp [⟨.var subjectVariable, .namedNode type, .term (.namedNode subjectType)⟩]
  let (pattern, _) ← applyNode lex subject root plan.whereClause
  return selectSubjects pattern plan.limit.get

end Compiler

/-! ## The two compilations -/

/-- `PlanCompiler::direct(..).compile(plan)`. -/
def compileDirect (lex : Lexical) (graphId : GraphId) (today : LocalDate) (plan : BuiltQueryPlan) :
    Except QueryError Sparql.Query :=
  (compilePlan lex plan.subject plan ⟨.direct graphId today, 0⟩).map Prod.fst

/-- `PlanCompiler::parameterized(..).compile(plan)`. -/
def compileParameterized (lex : Lexical) (plan : BuiltQueryPlan) :
    Except QueryError Sparql.Query :=
  (compilePlan lex plan.subject plan ⟨.parameterized 0, 0⟩).map Prod.fst

def BuiltQueryPlan.compile (lex : Lexical) (plan : BuiltQueryPlan) (graphId : GraphId)
    (today : LocalDate) : Except QueryError Sparql.Query := do
  plan.validate
  compileDirect lex graphId today plan

/-! ## The derived source -/

def derivedSourceProvenance : String := "# neoseq:query-plan="

/-- `fnv1a32` over the bytes of a text. -/
def fnv1a32 (bytes : List UInt8) : UInt32 :=
  bytes.foldl (fun hash byte => (hash ^^^ byte.toUInt32) * 0x01000193) 0x811c9dc5

/-- `{hash:08x}`. -/
def hex8 (hash : UInt32) : String := String.ofList ((Nat.toDigits 16 hash.toNat).leftpad 8 '0')

/-- How a payload reads as a plan, and how an algebra is written as SPARQL. -/
structure PlanText where
  decode : String → Except String BuiltQueryPlan
  toSparql : Sparql.Query → String

def derivePlanSource (codec : Codec) (lex : Lexical) (text : PlanText) (plan : Domain.QueryPlan) :
    Except QueryError String := do
  (plan.validate codec).mapError fun e => invalidPlan e.message
  let typed ← (text.decode plan.payload).mapError invalidPlan
  refuse (typed.version ≠ plan.version)
    (invalidPlan "plan envelope and payload versions disagree")
  typed.validate
  let logical ← compileParameterized lex typed
  return derivedSourceProvenance ++ toString plan.version ++ ";fnv1a32=" ++
    hex8 (fnv1a32 plan.payload.toUTF8.data.toList) ++ "\n" ++ text.toSparql logical ++ "\n"

end Neoseq.Query
