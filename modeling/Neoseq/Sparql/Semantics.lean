import Neoseq.Sparql.Solutions
import Neoseq.Sparql.Substitution

/-! The solutions of a pattern over a graph. What the algebra leaves to functions, to paths and
to other graphs, and the order in which it leaves rows, are given from outside. -/

namespace Neoseq.Sparql
open Neoseq.Query (Term Triple)
open Solutions

abbrev Solution := Mapping Variable Term

/-- What a pattern is evaluated over. -/
structure Interpretation where
  triples : Finset Triple
  /-- The value of an expression, unless it fails. -/
  value : Expression → Solution → Option Term
  /-- Whether the value of an expression is true. -/
  truth : Expression → Solution → Prop
  /-- Whether a custom function is true of its arguments. -/
  custom : String → List Term → Prop
  path : TermPattern → PropertyPathExpression → TermPattern → Multiset Solution
  /-- The solutions of the right side for one of the left side. -/
  lateral : GraphPattern → Solution → Multiset Solution
  graph : NamedNodePattern → GraphPattern → Multiset Solution
  service : NamedNodePattern → GraphPattern → Bool → Multiset Solution
  reduced : Multiset Solution → Multiset Solution
  /-- The rows of a slice, of those in some order that these expressions allow. -/
  slice : List OrderExpression → (start : Nat) → (length : Option Nat) → Multiset Solution →
    Multiset Solution
  group : List Variable → List (Variable × AggregateExpression) → Multiset Solution →
    Multiset Solution

/-! ## Basic graph patterns -/

/-- A blank node of a pattern stands for any term, like a variable that is not seen. -/
abbrev Name := Variable ⊕ String

def single (name : Name) (term : Term) : Mapping Name Term :=
  fun other => if other = name then some term else none

def matchTerm (pattern : TermPattern) (term : Term) : Option (Mapping Name Term) :=
  match pattern with
  | .term expected => if expected = term then some fun _ => none else none
  | .blankNode id => some (single (.inr id) term)
  | .var name => some (single (.inl name) term)

def matchPredicate (pattern : NamedNodePattern) (predicate : String) :
    Option (Mapping Name Term) :=
  match pattern with
  | .namedNode expected => if expected = predicate then some fun _ => none else none
  | .var name => some (single (.inl name) (.namedNode predicate))

section
open scoped Classical

noncomputable def matchTriple (pattern : TriplePattern) (triple : Triple) :
    Multiset (Mapping Name Term) :=
  match matchTerm pattern.subject (.namedNode triple.subject),
    matchPredicate pattern.predicate triple.predicate, matchTerm pattern.object triple.object with
  | some subject, some predicate, some object => join (join {subject} {predicate}) {object}
  | _, _, _ => 0

/-- The solutions over variables and blank nodes. -/
noncomputable def instances (triples : Finset Triple) : List TriplePattern →
    Multiset (Mapping Name Term)
  | [] => {fun _ => none}
  | pattern :: patterns =>
    join (triples.val.bind (matchTriple pattern)) (instances triples patterns)

def visible (σ : Mapping Name Term) : Solution := fun name => σ (.inl name)

noncomputable def bgp (triples : Finset Triple) (patterns : List TriplePattern) :
    Multiset Solution :=
  (instances triples patterns).map visible

/-! ## Patterns -/

/-- The row of a table, if its columns agree on a variable they share. -/
noncomputable def rowSolution : List Variable → List (Option Term) → Option Solution
  | name :: names, some term :: row =>
    (rowSolution names row).bind fun μ =>
      let first : Solution := fun other => if other = name then some term else none
      if Compatible first μ then some (merge first μ) else none
  | _ :: names, none :: row => rowSolution names row
  | _, _ => some fun _ => none

theorem rowSolution_single (name : Variable) (term : Term) :
    rowSolution [name] [some term] = some fun other => if other = name then some term else none := by
  have hempty (μ : Solution) : Compatible μ fun _ => none := fun _ _ _ _ h => nomatch h
  unfold rowSolution rowSolution
  dsimp only
  rw [Option.bind_some, if_pos (hempty _)]
  congr 1
  funext other
  exact Option.or_none

def ordering : GraphPattern → List OrderExpression
  | .orderBy inner expression => expression ++ ordering inner
  | .project inner _ | .distinct inner | .reduced inner | .slice inner _ _ => ordering inner
  | _ => []

namespace Interpretation

variable (I : Interpretation)

def term (μ : Solution) : Expression → Option Term
  | .namedNode iri => some (.namedNode iri)
  | .literal literal => some literal
  | .var name => μ name
  | e => I.value e μ

/-- Whether a filter passes a row. -/
def passes (μ : Solution) : Expression → Prop
  | .binary .and left right => passes μ left ∧ passes μ right
  | .functionCall (.custom function) arguments =>
    ∃ terms, arguments.mapM (I.term μ) = some terms ∧ I.custom function terms
  | e => I.truth e μ

/-- A variable that is bound already stays as it is. -/
def extended (name : Variable) (value : Option Term) (μ : Solution) : Solution :=
  fun other => (μ other).or (if other = name then value else none)

noncomputable def eval : GraphPattern → Multiset Solution
  | .bgp patterns => bgp I.triples patterns
  | .path subject path object => I.path subject path object
  | .join left right => join (eval left) (eval right)
  | .leftJoin left right none => leftJoin (fun _ => True) (eval left) (eval right)
  | .leftJoin left right (some expression) =>
    leftJoin (fun μ => I.passes μ expression) (eval left) (eval right)
  | .lateral left right => (eval left).bind fun μ => extensions (fun _ => True) (I.lateral right μ) μ
  | .filter expr inner => (eval inner).filter fun μ => I.passes μ expr
  | .union left right => eval left + eval right
  | .graph name inner => I.graph name inner
  | .extend inner name expression =>
    (eval inner).map fun μ => extended name (I.value expression μ) μ
  | .minus left right => minus (eval left) (eval right)
  | .values names bindings => (bindings.filterMap (rowSolution names) : List Solution)
  | .orderBy inner _ => eval inner
  | .project inner names => (eval inner).map fun μ name => if name ∈ names then μ name else none
  | .distinct inner => (eval inner).dedup
  | .reduced inner => I.reduced (eval inner)
  | .slice inner start length => I.slice (ordering inner) start length (eval inner)
  | .group inner names aggregates => I.group names aggregates (eval inner)
  | .service name inner silent => I.service name inner silent

end Interpretation

/-! ## What a basic graph pattern binds -/

variable {triples : Finset Triple} {pattern : TriplePattern} {triple : Triple}

theorem mem_matchTriple {τ : Mapping Name Term} (h : τ ∈ matchTriple pattern triple) :
    ∃ subject predicate object, matchTerm pattern.subject (.namedNode triple.subject) = some subject ∧
      matchPredicate pattern.predicate triple.predicate = some predicate ∧
      matchTerm pattern.object triple.object = some object ∧
      Compatible (merge subject predicate) object ∧ Compatible subject predicate ∧
      τ = merge (merge subject predicate) object := by
  unfold matchTriple at h
  split at h
  · next subject predicate object hsubject hpredicate hobject =>
    obtain ⟨first, hfirst, last, hlast, hcompatible, rfl⟩ := mem_join.mp h
    obtain ⟨left, hleft, right, hright, hcompatible', rfl⟩ := mem_join.mp hfirst
    obtain rfl := Multiset.mem_singleton.mp hleft
    obtain rfl := Multiset.mem_singleton.mp hright
    obtain rfl := Multiset.mem_singleton.mp hlast
    exact ⟨_, _, _, hsubject, hpredicate, hobject, hcompatible, hcompatible', rfl⟩
  · exact absurd h (Multiset.notMem_zero τ)

theorem matchTerm_var {pattern : TermPattern} {term : Term} {σ : Mapping Name Term}
    (h : matchTerm pattern term = some σ) (name : Variable) :
    (∃ a, σ (.inl name) = some a) ↔ name ∈ pattern.variables := by
  cases pattern with
  | term expected =>
    unfold matchTerm at h
    dsimp only at h
    split_ifs at h
    cases h
    simp [TermPattern.variables]
  | blankNode id =>
    cases h
    simp [TermPattern.variables, single]
  | var other =>
    cases h
    simp [TermPattern.variables, single]

theorem matchPredicate_var {pattern : NamedNodePattern} {predicate : String}
    {σ : Mapping Name Term} (h : matchPredicate pattern predicate = some σ) (name : Variable) :
    (∃ a, σ (.inl name) = some a) ↔ name ∈ pattern.variables := by
  cases pattern with
  | namedNode expected =>
    unfold matchPredicate at h
    dsimp only at h
    split_ifs at h
    cases h
    simp [NamedNodePattern.variables]
  | var other =>
    cases h
    simp [NamedNodePattern.variables, single]

theorem exists_merge_eq_some {V T : Type} {μ ν : Mapping V T} {v : V} :
    (∃ a, merge μ ν v = some a) ↔ (∃ a, μ v = some a) ∨ ∃ a, ν v = some a := by
  unfold merge
  cases μ v with
  | none => simp
  | some a => simp

theorem matchTriple_var {τ : Mapping Name Term} (h : τ ∈ matchTriple pattern triple)
    (name : Variable) : (∃ a, τ (.inl name) = some a) ↔ name ∈ pattern.variables := by
  obtain ⟨subject, predicate, object, hsubject, hpredicate, hobject, -, -, rfl⟩ := mem_matchTriple h
  rw [exists_merge_eq_some, exists_merge_eq_some, matchTerm_var hsubject, matchTerm_var hobject,
    matchPredicate_var hpredicate]
  simp [TriplePattern.variables, or_assoc]

/-- Every pattern is matched by a triple, and nothing else is bound. -/
theorem mem_instances {patterns : List TriplePattern} {σ : Mapping Name Term}
    (h : σ ∈ instances triples patterns) :
    (∀ pattern ∈ patterns, ∃ triple ∈ triples, ∃ τ ∈ matchTriple pattern triple, Extends σ τ) ∧
      ∀ name a, σ name = some a → ∃ pattern ∈ patterns, ∃ triple ∈ triples,
        ∃ τ ∈ matchTriple pattern triple, τ name = some a := by
  induction patterns generalizing σ with
  | nil =>
    rw [instances, Multiset.mem_singleton] at h
    subst h
    exact ⟨nofun, nofun⟩
  | cons pattern patterns ih =>
    rw [instances] at h
    obtain ⟨τ, hτ, rest, hrest, hcompatible, rfl⟩ := mem_join.mp h
    obtain ⟨triple, htriple, hmatch⟩ := Multiset.mem_bind.mp hτ
    obtain ⟨hall, honly⟩ := ih hrest
    refine ⟨List.forall_mem_cons.mpr ⟨⟨triple, htriple, τ, hmatch, extends_merge_left τ rest⟩, ?_⟩, ?_⟩
    · intro other hother
      obtain ⟨triple', htriple', τ', hmatch', hextends⟩ := hall other hother
      exact ⟨triple', htriple', τ', hmatch', hcompatible.extends_merge_right.trans hextends⟩
    · intro name a ha
      rcases merge_eq_some.mp ha with ha | ⟨-, ha⟩
      · exact ⟨pattern, List.mem_cons_self, triple, htriple, τ, hmatch, ha⟩
      · obtain ⟨other, hother, hfound⟩ := honly name a ha
        exact ⟨other, List.mem_cons_of_mem _ hother, hfound⟩

theorem mem_bgp_var {patterns : List TriplePattern} {μ : Solution} (h : μ ∈ bgp triples patterns)
    (name : Variable) :
    (∃ a, μ name = some a) ↔ name ∈ patterns.flatMap TriplePattern.variables := by
  obtain ⟨σ, hσ, rfl⟩ := Multiset.mem_map.mp h
  obtain ⟨hall, honly⟩ := mem_instances hσ
  rw [List.mem_flatMap]
  constructor
  · rintro ⟨a, ha⟩
    obtain ⟨pattern, hpattern, triple, -, τ, hmatch, hname⟩ := honly (.inl name) a ha
    exact ⟨pattern, hpattern, (matchTriple_var hmatch name).mp ⟨a, hname⟩⟩
  · rintro ⟨pattern, hpattern, hname⟩
    obtain ⟨triple, -, τ, hmatch, hextends⟩ := hall pattern hpattern
    obtain ⟨a, ha⟩ := (matchTriple_var hmatch name).mpr hname
    exact ⟨a, hextends _ a ha⟩

def pairSolution (subject : Variable) (a : Term) (object : Variable) (b : Term) : Solution :=
  fun name => if name = subject then some a else if name = object then some b else none

/-- The solutions of one pattern that asks for both ends of a predicate. -/
theorem mem_bgp_pair {subject object : Variable} (hne : subject ≠ object) {predicate : String}
    {μ : Solution} :
    μ ∈ bgp triples [⟨.var subject, .namedNode predicate, .var object⟩] ↔
      ∃ triple ∈ triples, triple.predicate = predicate ∧
        μ = pairSolution subject (.namedNode triple.subject) object triple.object := by
  have hshown (triple : Triple) :
      visible (merge (merge (merge (single (.inl subject) (.namedNode triple.subject))
        fun _ => none) (single (.inl object) triple.object)) fun _ => none) =
        pairSolution subject (.namedNode triple.subject) object triple.object := by
    funext name
    by_cases hsubject : name = subject
    · simp [visible, merge, single, pairSolution, hsubject, hne]
    · by_cases hobject : name = object <;>
        simp [visible, merge, single, pairSolution, hsubject, hobject, hne.symm]
  constructor
  · intro h
    obtain ⟨σ, hσ, rfl⟩ := Multiset.mem_map.mp h
    rw [instances, instances] at hσ
    obtain ⟨τ, hτ, rest, hrest, -, rfl⟩ := mem_join.mp hσ
    obtain rfl := Multiset.mem_singleton.mp hrest
    obtain ⟨triple, htriple, hmatch⟩ := Multiset.mem_bind.mp hτ
    obtain ⟨a, b, c, ha, hb, hc, -, -, rfl⟩ := mem_matchTriple hmatch
    cases ha
    cases hc
    unfold matchPredicate at hb
    dsimp only at hb
    split_ifs at hb with hpredicate
    cases hb
    exact ⟨triple, htriple, hpredicate.symm, hshown triple⟩
  · rintro ⟨triple, htriple, rfl, rfl⟩
    have hends : Compatible (merge (single (.inl subject) (.namedNode triple.subject))
        fun _ => none) (single (.inl object) triple.object) := by
      intro name a b ha hb
      rcases merge_eq_some.mp ha with ha | ⟨-, ha⟩
      · unfold single at ha hb
        split_ifs at ha hb with hleft hright
        exact absurd (Sum.inl.inj (hleft.symm.trans hright)) hne
      · cases ha
    refine Multiset.mem_map.mpr ⟨_, ?_, hshown triple⟩
    rw [instances, instances]
    refine mem_join.mpr ⟨_, ?_, _, Multiset.mem_singleton_self _, nofun, rfl⟩
    refine Multiset.mem_bind.mpr ⟨triple, htriple, ?_⟩
    unfold matchTriple matchTerm matchPredicate
    dsimp only
    rw [if_pos rfl]
    refine mem_join.mpr ⟨_, ?_, _, Multiset.mem_singleton_self _, hends, rfl⟩
    exact mem_join.mpr ⟨_, Multiset.mem_singleton_self _, _, Multiset.mem_singleton_self _, nofun,
      rfl⟩

end

end Neoseq.Sparql
