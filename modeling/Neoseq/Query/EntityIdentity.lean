import Neoseq.Collections.BTreeMap
import Neoseq.Sparql.Algebra

/-! Page and tag syntax shares one stable IRI of the document: tag IRIs become
page IRIs in the algebra, never in literals. A form that validation rejects has
no normalization; reaching one is `none`. -/

namespace Neoseq.Query
open Collections Sparql

inductive RdfTerm where
  | iri (value : String)
  | literal (value datatype : String) (language : Option String)
  deriving Repr, DecidableEq

namespace EntityIdentity

/-- `str::strip_prefix`. -/
def stripPrefix (start value : String) : Option String :=
  if start.toList <+: value.toList then
    some (String.ofList (value.toList.drop start.toList.length))
  else none

/-- `str::split_once` at a character. -/
def splitOnce (c : Char) (value : String) : Option (String × String) :=
  match value.toList.span (· ≠ c) with
  | (_, []) => none
  | (left, _ :: right) => some (String.ofList left, String.ofList right)

def canonicalIri (value : String) : String :=
  let canonical := do
    let rest ← stripPrefix entityNs value
    let (graph, rest) ← splitOnce ':' rest
    let id ← stripPrefix "tag:" rest
    return entityNs ++ graph ++ ":page:" ++ id
  canonical.getD value

def term : Term → Term
  | .namedNode iri => .namedNode (canonicalIri iri)
  | .literal value datatype language => .literal value datatype language

def termPattern : TermPattern → TermPattern
  | .term t => .term (term t)
  | .blankNode id => .blankNode id
  | .var name => .var name

def triplePattern (triple : TriplePattern) : TriplePattern where
  subject := termPattern triple.subject
  predicate := match triple.predicate with
    | .namedNode iri => .namedNode (canonicalIri iri)
    | .var name => .var name
  object := termPattern triple.object

def path : PropertyPathExpression → PropertyPathExpression
  | .namedNode iri => .namedNode (canonicalIri iri)
  | .reverse inner => .reverse (path inner)
  | .zeroOrMore inner => .zeroOrMore (path inner)
  | .oneOrMore inner => .oneOrMore (path inner)
  | .zeroOrOne inner => .zeroOrOne (path inner)
  | .sequence left right => .sequence (path left) (path right)
  | .alternative left right => .alternative (path left) (path right)
  | .negatedPropertySet iris => .negatedPropertySet (iris.map canonicalIri)

mutual

def expression : Expression → Option Expression
  | .namedNode iri => some (.namedNode (canonicalIri iri))
  | .exists inner => return .exists (← pattern inner)
  | .binary operator left right => return .binary operator (← expression left) (← expression right)
  | .unary operator inner => return .unary operator (← expression inner)
  | .ite condition left right =>
    return .ite (← expression condition) (← expression left) (← expression right)
  | .isIn left values => return .isIn (← expression left) (← expressions values)
  | .coalesce values => return .coalesce (← expressions values)
  | .functionCall function values => return .functionCall function (← expressions values)
  | .literal literal => some (.literal literal)
  | .var name => some (.var name)
  | .bound name => some (.bound name)

def pattern : GraphPattern → Option GraphPattern
  | .bgp patterns => some (.bgp (patterns.map triplePattern))
  | .path subject p object => some (.path (termPattern subject) (path p) (termPattern object))
  | .values names bindings => some (.values names (bindings.map (List.map (Option.map term))))
  | .join left right => return .join (← pattern left) (← pattern right)
  | .lateral left right => return .lateral (← pattern left) (← pattern right)
  | .union left right => return .union (← pattern left) (← pattern right)
  | .minus left right => return .minus (← pattern left) (← pattern right)
  | .leftJoin left right none => return .leftJoin (← pattern left) (← pattern right) none
  | .leftJoin left right (some expr) =>
    return .leftJoin (← pattern left) (← pattern right) (some (← expression expr))
  | .filter expr inner => do
    let inner ← pattern inner
    return .filter (← expression expr) inner
  | .project inner names => return .project (← pattern inner) names
  | .distinct inner => return .distinct (← pattern inner)
  | .reduced inner => return .reduced (← pattern inner)
  | .slice inner start length => return .slice (← pattern inner) start length
  | .extend inner name expr => return .extend (← pattern inner) name (← expression expr)
  | .orderBy inner exprs => return .orderBy (← pattern inner) (← orders exprs)
  | .group inner names aggregates =>
    return .group (← pattern inner) names (← arguments aggregates)
  | .graph _ _ | .service _ _ _ => none

def expressions : List Expression → Option (List Expression)
  | [] => some []
  | value :: rest => return (← expression value) :: (← expressions rest)

def orders : List OrderExpression → Option (List OrderExpression)
  | [] => some []
  | .asc expr :: rest => return .asc (← expression expr) :: (← orders rest)
  | .desc expr :: rest => return .desc (← expression expr) :: (← orders rest)

def arguments :
    List (Variable × AggregateExpression) → Option (List (Variable × AggregateExpression))
  | [] => some []
  | (name, .countSolutions distinct) :: rest =>
    return (name, .countSolutions distinct) :: (← arguments rest)
  | (name, .functionCall function expr distinct) :: rest =>
    return (name, .functionCall function (← expression expr) distinct) :: (← arguments rest)

end

def normalizeBinding : RdfTerm → RdfTerm
  | .iri value => .iri (canonicalIri value)
  | .literal value datatype language => .literal value datatype language

def normalize (query : Sparql.Query) (bindings : BTreeMap String RdfTerm) :
    Option (Sparql.Query × BTreeMap String RdfTerm) := do
  let query ← match query with
    | .select dataset p => (pattern p).map (Sparql.Query.select dataset)
    | .ask dataset p => (pattern p).map (Sparql.Query.ask dataset)
    | .construct _ _ _ | .describe _ _ => none
  return (query, bindings.mapValues normalizeBinding)

/-! ## Where normalization is defined -/

/-- The forms that leave the default graph. -/
def isExternal : Node → Bool
  | .pattern (.graph _ _) | .pattern (.service _ _ _) => true
  | _ => false

/-- Normalization of a node of either sort that has one. -/
def Normalizes : Node → Prop
  | .pattern p => (pattern p).isSome
  | .expression e => (expression e).isSome
  | .path _ => True

theorem isSome_bind {γ δ : Type} {x : Option γ} {f : γ → Option δ} (hx : x.isSome)
    (hf : ∀ a, (f a).isSome) : (x >>= f).isSome := by
  obtain ⟨a, rfl⟩ := Option.isSome_iff_exists.mp hx
  exact hf a

theorem isSome_expressions {es : List Expression}
    (h : ∀ n ∈ es.map Node.expression, Normalizes n) : (expressions es).isSome := by
  induction es with
  | nil => rfl
  | cons e es ih =>
    have hes := ih fun n hn => h n (List.mem_cons_of_mem _ hn)
    exact isSome_bind (h _ (List.mem_cons_self ..)) fun _ => isSome_bind hes fun _ => rfl

theorem isSome_orders {es : List OrderExpression}
    (h : ∀ n ∈ es.map (fun o => Node.expression o.expression), Normalizes n) :
    (orders es).isSome := by
  induction es with
  | nil => rfl
  | cons o es ih =>
    have hes := ih fun n hn => h n (List.mem_cons_of_mem _ hn)
    have ho := h _ (List.mem_cons_self ..)
    cases o with
    | asc e | desc e => exact isSome_bind ho fun _ => isSome_bind hes fun _ => rfl

theorem isSome_arguments {l : List (Variable × AggregateExpression)}
    (h : ∀ n ∈ l.filterMap (fun a => a.2.argument.map Node.expression), Normalizes n) :
    (arguments l).isSome := by
  induction l with
  | nil => rfl
  | cons a l ih =>
    rw [List.filterMap_cons] at h
    match a with
    | (_, .countSolutions _) => exact isSome_bind (ih h) fun _ => rfl
    | (_, .functionCall _ e _) =>
      have hl := ih fun n hn => h n (List.mem_cons_of_mem _ hn)
      exact isSome_bind (h _ (List.mem_cons_self ..)) fun _ => isSome_bind hl fun _ => rfl

theorem normalizes_pattern {p : GraphPattern} (hp : isExternal (.pattern p) = false)
    (h : ∀ n ∈ Node.ofPattern p, Normalizes n) : (pattern p).isSome := by
  cases p with
  | bgp | path | values => rfl
  | graph | service => cases hp
  | join l r | lateral l r | union l r | minus l r =>
    have hl : (pattern l).isSome := h (.pattern l) (by simp [Node.ofPattern])
    have hr : (pattern r).isSome := h (.pattern r) (by simp [Node.ofPattern])
    exact isSome_bind hl fun _ => isSome_bind hr fun _ => rfl
  | leftJoin l r e =>
    have hl : (pattern l).isSome := h (.pattern l) (by simp [Node.ofPattern])
    have hr : (pattern r).isSome := h (.pattern r) (by simp [Node.ofPattern])
    cases e with
    | none => exact isSome_bind hl fun _ => isSome_bind hr fun _ => rfl
    | some e =>
      have he : (expression e).isSome := h (.expression e) (by simp [Node.ofPattern])
      exact isSome_bind hl fun _ => isSome_bind hr fun _ => isSome_bind he fun _ => rfl
  | filter e i | extend i v e =>
    have hi : (pattern i).isSome := h (.pattern i) (by simp [Node.ofPattern])
    have he : (expression e).isSome := h (.expression e) (by simp [Node.ofPattern])
    exact isSome_bind hi fun _ => isSome_bind he fun _ => rfl
  | project i _ | distinct i | reduced i | slice i _ _ =>
    have hi : (pattern i).isSome := h (.pattern i) (by simp [Node.ofPattern])
    exact isSome_bind hi fun _ => rfl
  | orderBy i os =>
    obtain ⟨hi, hos⟩ := List.forall_mem_cons.mp h
    exact isSome_bind hi fun _ => isSome_bind (isSome_orders hos) fun _ => rfl
  | group i _ as =>
    obtain ⟨hi, has⟩ := List.forall_mem_cons.mp h
    exact isSome_bind hi fun _ => isSome_bind (isSome_arguments has) fun _ => rfl

theorem normalizes_expression {e : Expression} (h : ∀ n ∈ Node.ofExpression e, Normalizes n) :
    (expression e).isSome := by
  cases e with
  | namedNode | literal | var | bound => rfl
  | binary _ l r =>
    have hl : (expression l).isSome := h (.expression l) (by simp [Node.ofExpression])
    have hr : (expression r).isSome := h (.expression r) (by simp [Node.ofExpression])
    exact isSome_bind hl fun _ => isSome_bind hr fun _ => rfl
  | unary _ i =>
    have hi : (expression i).isSome := h (.expression i) (by simp [Node.ofExpression])
    exact isSome_bind hi fun _ => rfl
  | «exists» p =>
    have hp : (pattern p).isSome := h (.pattern p) (by simp [Node.ofExpression])
    exact isSome_bind hp fun _ => rfl
  | ite c l r =>
    have hc : (expression c).isSome := h (.expression c) (by simp [Node.ofExpression])
    have hl : (expression l).isSome := h (.expression l) (by simp [Node.ofExpression])
    have hr : (expression r).isSome := h (.expression r) (by simp [Node.ofExpression])
    exact isSome_bind hc fun _ => isSome_bind hl fun _ => isSome_bind hr fun _ => rfl
  | isIn l es =>
    obtain ⟨hl, hes⟩ := List.forall_mem_cons.mp h
    exact isSome_bind hl fun _ => isSome_bind (isSome_expressions hes) fun _ => rfl
  | coalesce es | functionCall _ es => exact isSome_bind (isSome_expressions h) fun _ => rfl

/-- Algebra without external forms at any depth has a normalization. -/
theorem normalizes (n : Node) (h : ∀ m ∈ Node.tree.nodes n, isExternal m = false) :
    Normalizes n := by
  induction n using Node.tree.induction with
  | step n ih =>
    obtain ⟨hn, hchildren⟩ := Node.tree.forall_nodes.mp h
    have hparts : ∀ m ∈ Node.children n, Normalizes m := fun m hm => ih m hm (hchildren m hm)
    cases n with
    | pattern p => exact normalizes_pattern hn hparts
    | expression e => exact normalizes_expression hparts
    | path p => trivial

theorem isSome_normalize {query : Sparql.Query} {bindings : BTreeMap String RdfTerm}
    (hq : ∃ p, query = .select none p ∨ query = .ask none p)
    (h : ∀ m ∈ Node.tree.nodes (.pattern query.pattern), isExternal m = false) :
    (normalize query bindings).isSome := by
  have hp := normalizes _ h
  obtain ⟨p, rfl | rfl⟩ := hq
  all_goals
    refine isSome_bind ?_ fun _ => rfl
    rw [Option.isSome_map]
    exact hp

end EntityIdentity

end Neoseq.Query
