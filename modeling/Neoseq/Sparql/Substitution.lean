import Neoseq.Sparql.Algebra

/-! Ground terms for variables of the algebra, and the variables of a form in the
order a reader meets them: what a filter is applied to stands before the filter. -/

namespace Neoseq.Sparql
open Neoseq.Query (Term)

def Expression.ofTerm : Term → Expression
  | .namedNode iri => .namedNode iri
  | .literal value datatype language => .literal (.literal value datatype language)

def TermPattern.substitute (σ : Variable → Option Term) : TermPattern → TermPattern
  | .term t => .term t
  | .blankNode id => .blankNode id
  | .var name => (σ name).elim (.var name) .term

/-- A predicate takes IRIs only, so a literal leaves it as it is. -/
def NamedNodePattern.substitute (σ : Variable → Option Term) : NamedNodePattern → NamedNodePattern
  | .namedNode iri => .namedNode iri
  | .var name =>
    match σ name with
    | some (.namedNode iri) => .namedNode iri
    | _ => .var name

def TriplePattern.substitute (σ : Variable → Option Term) (t : TriplePattern) : TriplePattern where
  subject := t.subject.substitute σ
  predicate := t.predicate.substitute σ
  object := t.object.substitute σ

mutual

/-- Names that a form binds or projects stay. -/
def GraphPattern.substitute (σ : Variable → Option Term) : GraphPattern → GraphPattern
  | .bgp patterns => .bgp (patterns.map (TriplePattern.substitute σ))
  | .path subject p object => .path (subject.substitute σ) p (object.substitute σ)
  | .join left right => .join (left.substitute σ) (right.substitute σ)
  | .leftJoin left right none => .leftJoin (left.substitute σ) (right.substitute σ) none
  | .leftJoin left right (some expr) =>
    .leftJoin (left.substitute σ) (right.substitute σ) (some (expr.substitute σ))
  | .lateral left right => .lateral (left.substitute σ) (right.substitute σ)
  | .filter expr inner => .filter (expr.substitute σ) (inner.substitute σ)
  | .union left right => .union (left.substitute σ) (right.substitute σ)
  | .graph name inner => .graph (name.substitute σ) (inner.substitute σ)
  | .extend inner name expr => .extend (inner.substitute σ) name (expr.substitute σ)
  | .minus left right => .minus (left.substitute σ) (right.substitute σ)
  | .values names bindings => .values names bindings
  | .orderBy inner exprs => .orderBy (inner.substitute σ) (substituteOrders σ exprs)
  | .project inner names => .project (inner.substitute σ) names
  | .distinct inner => .distinct (inner.substitute σ)
  | .reduced inner => .reduced (inner.substitute σ)
  | .slice inner start length => .slice (inner.substitute σ) start length
  | .group inner names aggregates =>
    .group (inner.substitute σ) names (substituteAggregates σ aggregates)
  | .service name inner silent => .service (name.substitute σ) (inner.substitute σ) silent

def Expression.substitute (σ : Variable → Option Term) : Expression → Expression
  | .namedNode iri => .namedNode iri
  | .literal literal => .literal literal
  | .var name => (σ name).elim (.var name) .ofTerm
  | .binary operator left right => .binary operator (left.substitute σ) (right.substitute σ)
  | .unary operator inner => .unary operator (inner.substitute σ)
  | .isIn left right => .isIn (left.substitute σ) (substituteAll σ right)
  | .exists pattern => .exists (pattern.substitute σ)
  | .bound name => .bound name
  | .ite condition left right =>
    .ite (condition.substitute σ) (left.substitute σ) (right.substitute σ)
  | .coalesce expressions => .coalesce (substituteAll σ expressions)
  | .functionCall function arguments => .functionCall function (substituteAll σ arguments)

def substituteAll (σ : Variable → Option Term) : List Expression → List Expression
  | [] => []
  | e :: rest => e.substitute σ :: substituteAll σ rest

def substituteOrders (σ : Variable → Option Term) : List OrderExpression → List OrderExpression
  | [] => []
  | .asc e :: rest => .asc (e.substitute σ) :: substituteOrders σ rest
  | .desc e :: rest => .desc (e.substitute σ) :: substituteOrders σ rest

def substituteAggregates (σ : Variable → Option Term) :
    List (Variable × AggregateExpression) → List (Variable × AggregateExpression)
  | [] => []
  | (name, .countSolutions distinct) :: rest =>
    (name, .countSolutions distinct) :: substituteAggregates σ rest
  | (name, .functionCall function expr distinct) :: rest =>
    (name, .functionCall function (expr.substitute σ) distinct) :: substituteAggregates σ rest

end

def Query.substitute (σ : Variable → Option Term) : Query → Query
  | .select dataset pattern => .select dataset (pattern.substitute σ)
  | .construct template dataset pattern =>
    .construct (template.map (TriplePattern.substitute σ)) dataset (pattern.substitute σ)
  | .describe dataset pattern => .describe dataset (pattern.substitute σ)
  | .ask dataset pattern => .ask dataset (pattern.substitute σ)

/-! ## Occurrences -/

def TermPattern.variables : TermPattern → List Variable
  | .var name => [name]
  | .term _ | .blankNode _ => []

def NamedNodePattern.variables : NamedNodePattern → List Variable
  | .var name => [name]
  | .namedNode _ => []

def TriplePattern.variables (t : TriplePattern) : List Variable :=
  t.subject.variables ++ t.predicate.variables ++ t.object.variables

mutual

def GraphPattern.variables : GraphPattern → List Variable
  | .bgp patterns => patterns.flatMap TriplePattern.variables
  | .path subject _ object => subject.variables ++ object.variables
  | .join left right | .lateral left right | .union left right | .minus left right =>
    left.variables ++ right.variables
  | .leftJoin left right none => left.variables ++ right.variables
  | .leftJoin left right (some expr) => left.variables ++ right.variables ++ expr.variables
  | .filter expr inner => inner.variables ++ expr.variables
  | .graph name inner | .service name inner _ => name.variables ++ inner.variables
  | .extend inner name expr => inner.variables ++ expr.variables ++ [name]
  | .values names _ => names
  | .orderBy inner exprs => inner.variables ++ orderVariables exprs
  | .project inner names => inner.variables ++ names
  | .distinct inner | .reduced inner | .slice inner _ _ => inner.variables
  | .group inner names aggregates => inner.variables ++ names ++ aggregateVariables aggregates

def Expression.variables : Expression → List Variable
  | .namedNode _ | .literal _ => []
  | .var name | .bound name => [name]
  | .binary _ left right => left.variables ++ right.variables
  | .unary _ inner => inner.variables
  | .isIn left right => left.variables ++ variablesOf right
  | .exists pattern => pattern.variables
  | .ite condition left right => condition.variables ++ left.variables ++ right.variables
  | .coalesce expressions => variablesOf expressions
  | .functionCall _ arguments => variablesOf arguments

def variablesOf : List Expression → List Variable
  | [] => []
  | e :: rest => e.variables ++ variablesOf rest

def orderVariables : List OrderExpression → List Variable
  | [] => []
  | .asc e :: rest | .desc e :: rest => e.variables ++ orderVariables rest

def aggregateVariables : List (Variable × AggregateExpression) → List Variable
  | [] => []
  | (name, .countSolutions _) :: rest => name :: aggregateVariables rest
  | (name, .functionCall _ expr _) :: rest => expr.variables ++ name :: aggregateVariables rest

end

def Query.variables : Query → List Variable
  | .select _ pattern | .describe _ pattern | .ask _ pattern => pattern.variables
  | .construct template _ pattern =>
    pattern.variables ++ template.flatMap TriplePattern.variables

theorem variablesOf_append (es fs : List Expression) :
    variablesOf (es ++ fs) = variablesOf es ++ variablesOf fs := by
  induction es with
  | nil => rfl
  | cons e es ih => simp only [List.cons_append, variablesOf, ih, List.append_assoc]

theorem substituteAll_append (σ : Variable → Option Term) (es fs : List Expression) :
    substituteAll σ (es ++ fs) = substituteAll σ es ++ substituteAll σ fs := by
  induction es with
  | nil => rfl
  | cons e es ih => simp only [List.cons_append, substituteAll, ih]

end Neoseq.Sparql
