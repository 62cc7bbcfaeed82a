import Neoseq.Query.Rdf
import Neoseq.Syntax.Tree

/-! The SPARQL algebra of the query engine. The binary and the unary operators of
expressions are one constructor each, with the operator as data. -/

namespace Neoseq.Sparql
open Query (Term)

abbrev Variable := String

inductive TermPattern where
  | term (term : Term)
  | blankNode (id : String)
  | var (name : Variable)
  deriving Repr, DecidableEq

inductive NamedNodePattern where
  | namedNode (iri : String)
  | var (name : Variable)
  deriving Repr, DecidableEq

structure TriplePattern where
  subject : TermPattern
  predicate : NamedNodePattern
  object : TermPattern
  deriving Repr, DecidableEq

inductive PropertyPathExpression where
  | namedNode (iri : String)
  | reverse (inner : PropertyPathExpression)
  | sequence (left right : PropertyPathExpression)
  | alternative (left right : PropertyPathExpression)
  | zeroOrMore (inner : PropertyPathExpression)
  | oneOrMore (inner : PropertyPathExpression)
  | zeroOrOne (inner : PropertyPathExpression)
  | negatedPropertySet (iris : List String)
  deriving Repr, DecidableEq

inductive Function where
  | str | lang | langMatches | datatype | iri | bNode | rand | abs | ceil | floor | round
  | concat | subStr | strLen | replace | uCase | lCase | encodeForUri | contains | strStarts
  | strEnds | strBefore | strAfter | year | month | day | hours | minutes | seconds | timezone
  | tz | now | uuid | strUuid | md5 | sha1 | sha256 | sha384 | sha512 | strLang | strDt | isIri
  | isBlank | isLiteral | isNumeric | regex
  | custom (iri : String)
  deriving Repr, DecidableEq

inductive BinaryOperator where
  | or | and | equal | sameTerm | greater | greaterOrEqual | less | lessOrEqual
  | add | subtract | multiply | divide
  deriving Repr, DecidableEq

inductive UnaryOperator where
  | plus | minus | not
  deriving Repr, DecidableEq

inductive AggregateFunction where
  | count | sum | avg | min | max | sample
  | groupConcat (separator : Option String)
  | custom (iri : String)
  deriving Repr, DecidableEq

mutual

inductive GraphPattern where
  | bgp (patterns : List TriplePattern)
  | path (subject : TermPattern) (path : PropertyPathExpression) (object : TermPattern)
  | join (left right : GraphPattern)
  | leftJoin (left right : GraphPattern) (expression : Option Expression)
  | lateral (left right : GraphPattern)
  | filter (expr : Expression) (inner : GraphPattern)
  | union (left right : GraphPattern)
  | graph (name : NamedNodePattern) (inner : GraphPattern)
  | extend (inner : GraphPattern) (name : Variable) (expression : Expression)
  | minus (left right : GraphPattern)
  | values (names : List Variable) (bindings : List (List (Option Term)))
  | orderBy (inner : GraphPattern) (expression : List OrderExpression)
  | project (inner : GraphPattern) (names : List Variable)
  | distinct (inner : GraphPattern)
  | reduced (inner : GraphPattern)
  | slice (inner : GraphPattern) (start : Nat) (length : Option Nat)
  | group (inner : GraphPattern) (names : List Variable)
      (aggregates : List (Variable × AggregateExpression))
  | service (name : NamedNodePattern) (inner : GraphPattern) (silent : Bool)

inductive Expression where
  | namedNode (iri : String)
  | literal (literal : Term)
  | var (name : Variable)
  | binary (operator : BinaryOperator) (left right : Expression)
  | unary (operator : UnaryOperator) (inner : Expression)
  | isIn (left : Expression) (right : List Expression)
  | exists (pattern : GraphPattern)
  | bound (name : Variable)
  | ite (condition left right : Expression)
  | coalesce (expressions : List Expression)
  | functionCall (function : Function) (arguments : List Expression)

inductive OrderExpression where
  | asc (expression : Expression)
  | desc (expression : Expression)

inductive AggregateExpression where
  | countSolutions (distinct : Bool)
  | functionCall (name : AggregateFunction) (expr : Expression) (distinct : Bool)

end

/-- The graphs that `FROM` and `FROM NAMED` select. -/
structure QueryDataset where
  default : List String
  named : Option (List String)
  deriving Repr, DecidableEq

inductive Query where
  | select (dataset : Option QueryDataset) (pattern : GraphPattern)
  | construct (template : List TriplePattern) (dataset : Option QueryDataset)
      (pattern : GraphPattern)
  | describe (dataset : Option QueryDataset) (pattern : GraphPattern)
  | ask (dataset : Option QueryDataset) (pattern : GraphPattern)

def OrderExpression.expression : OrderExpression → Expression
  | .asc e | .desc e => e

def AggregateExpression.argument : AggregateExpression → Option Expression
  | .countSolutions _ => none
  | .functionCall _ e _ => some e

def Query.pattern : Query → GraphPattern
  | .select _ p | .construct _ _ p | .describe _ p | .ask _ p => p

/-! ## The algebra as a tree -/

inductive Node where
  | pattern (pattern : GraphPattern)
  | expression (expression : Expression)
  | path (path : PropertyPathExpression)

namespace Node

def ofPattern : GraphPattern → List Node
  | .bgp _ | .values _ _ => []
  | .path _ p _ => [.path p]
  | .join l r | .lateral l r | .union l r | .minus l r => [.pattern l, .pattern r]
  | .leftJoin l r e => .pattern l :: .pattern r :: e.toList.map .expression
  | .filter e inner => [.pattern inner, .expression e]
  | .graph _ inner | .service _ inner _ => [.pattern inner]
  | .extend inner _ e => [.pattern inner, .expression e]
  | .orderBy inner es => .pattern inner :: es.map fun o => .expression o.expression
  | .project inner _ | .distinct inner | .reduced inner | .slice inner _ _ => [.pattern inner]
  | .group inner _ aggregates =>
    .pattern inner :: aggregates.filterMap fun a => a.2.argument.map .expression

def ofExpression : Expression → List Node
  | .namedNode _ | .literal _ | .var _ | .bound _ => []
  | .binary _ l r => [.expression l, .expression r]
  | .unary _ e => [.expression e]
  | .isIn l es => .expression l :: es.map .expression
  | .exists p => [.pattern p]
  | .ite c l r => [.expression c, .expression l, .expression r]
  | .coalesce es | .functionCall _ es => es.map .expression

def ofPath : PropertyPathExpression → List Node
  | .namedNode _ | .negatedPropertySet _ => []
  | .reverse p | .zeroOrMore p | .oneOrMore p | .zeroOrOne p => [.path p]
  | .sequence l r | .alternative l r => [.path l, .path r]

/-- The direct parts of a node, of any sort. -/
def children : Node → List Node
  | .pattern p => ofPattern p
  | .expression e => ofExpression e
  | .path p => ofPath p

theorem sizeOf_argument {a : AggregateExpression} {e : Expression} (h : a.argument = some e) :
    sizeOf e < sizeOf a := by
  cases a with
  | countSolutions => cases h
  | functionCall n f d => cases h; simp only [AggregateExpression.functionCall.sizeOf_spec]; omega

theorem sizeOf_ofPattern {p : GraphPattern} {b : Node} (h : b ∈ ofPattern p) :
    sizeOf b < 1 + sizeOf p := by
  cases p with
  | orderBy inner es =>
    obtain h | h := List.mem_cons.mp h
    · subst h; simp; omega
    · obtain ⟨o, ho, rfl⟩ := List.mem_map.mp h
      have hs := List.sizeOf_lt_of_mem ho
      cases o <;> simp [OrderExpression.expression] at hs ⊢ <;> omega
  | group inner names aggregates =>
    obtain h | h := List.mem_cons.mp h
    · subst h; simp; omega
    · obtain ⟨⟨v, a⟩, ha, h⟩ := List.mem_filterMap.mp h
      obtain ⟨e, he, rfl⟩ := Option.map_eq_some_iff.mp h
      have hs := List.sizeOf_lt_of_mem ha
      have : sizeOf e < sizeOf a := sizeOf_argument he
      simp at hs ⊢; omega
  | leftJoin l r e =>
    cases e <;> simp [ofPattern] at h <;> rcases h with rfl | rfl | rfl <;> simp <;> omega
  | bgp | values => cases h
  | path | graph | service | project | distinct | reduced | slice =>
    obtain rfl := List.mem_singleton.mp h
    simp <;> omega
  | join l r | lateral l r | union l r | minus l r | filter e i | extend i v e =>
    simp only [ofPattern, List.mem_cons, List.not_mem_nil, or_false] at h
    rcases h with rfl | rfl
    all_goals simp
    all_goals omega

theorem sizeOf_ofExpression {e : Expression} {b : Node} (h : b ∈ ofExpression e) :
    sizeOf b < 1 + sizeOf e := by
  have list : ∀ {es : List Expression} {n : Nat}, sizeOf es ≤ n →
      b ∈ es.map Node.expression → sizeOf b < 1 + n := by
    intro es n hn h
    obtain ⟨f, hf, rfl⟩ := List.mem_map.mp h
    have hs := List.sizeOf_lt_of_mem hf
    simp; omega
  cases e with
  | isIn l es =>
    obtain h | h := List.mem_cons.mp h
    · subst h; simp; omega
    · exact list (by simp) h
  | coalesce es | functionCall f es => exact list (by simp) h
  | namedNode | literal | var | bound => cases h
  | unary | «exists» =>
    obtain rfl := List.mem_singleton.mp h
    simp
  | binary o l r =>
    simp only [ofExpression, List.mem_cons, List.not_mem_nil, or_false] at h
    rcases h with rfl | rfl
    · simp; omega
    · simp
  | ite c l r =>
    simp only [ofExpression, List.mem_cons, List.not_mem_nil, or_false] at h
    rcases h with rfl | rfl | rfl <;> simp <;> omega

theorem sizeOf_ofPath {p : PropertyPathExpression} {b : Node} (h : b ∈ ofPath p) :
    sizeOf b < 1 + sizeOf p := by
  cases p with
  | namedNode | negatedPropertySet => cases h
  | reverse | zeroOrMore | oneOrMore | zeroOrOne =>
    obtain rfl := List.mem_singleton.mp h
    simp
  | sequence l r | alternative l r =>
    simp only [ofPath, List.mem_cons, List.not_mem_nil, or_false] at h
    rcases h with rfl | rfl
    · simp; omega
    · simp

theorem sizeOf_child (a : Node) : ∀ b ∈ children a, sizeOf b < sizeOf a := by
  intro b h
  cases a with
  | pattern p => simpa using sizeOf_ofPattern h
  | expression e => simpa using sizeOf_ofExpression h
  | path p => simpa using sizeOf_ofPath h

/-- The algebra as a tree. -/
def tree : Syntax.Tree Node where
  children := children
  wellFounded := Subrelation.wf (fun {b a} h => sizeOf_child a b h) (measure sizeOf).wf

end Node

end Neoseq.Sparql
