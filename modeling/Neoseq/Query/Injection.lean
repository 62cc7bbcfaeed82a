import Neoseq.Sparql.Semantics

/-! Tables that are joined to a query. A table goes down into the required side of OPTIONAL and
MINUS and into both sides of UNION, which is a join above them only where the table says nothing
that the other side may settle. -/

namespace Neoseq.Query
open Solutions Sparql

/-- Joins a table to the group pattern it constrains. -/
def injectValues (names : List Variable) (rows : List (List (Option Term))) :
    GraphPattern → GraphPattern
  | .filter expr inner => .filter expr (injectValues names rows inner)
  | .extend inner name expression => .extend (injectValues names rows inner) name expression
  | .orderBy inner expression => .orderBy (injectValues names rows inner) expression
  | .project inner names' => .project (injectValues names rows inner) names'
  | .distinct inner => .distinct (injectValues names rows inner)
  | .reduced inner => .reduced (injectValues names rows inner)
  | .slice inner start length => .slice (injectValues names rows inner) start length
  | .group inner names' aggregates => .group (injectValues names rows inner) names' aggregates
  | .leftJoin left right expression => .leftJoin (injectValues names rows left) right expression
  | .minus left right => .minus (injectValues names rows left) right
  | .union left right => .union (injectValues names rows left) (injectValues names rows right)
  | .bgp patterns => .join (.values names rows) (.bgp patterns)
  | .path subject path object => .join (.values names rows) (.path subject path object)
  | .join left right => .join (.values names rows) (.join left right)
  | .lateral left right => .join (.values names rows) (.lateral left right)
  | .graph name inner => .join (.values names rows) (.graph name inner)
  | .values names' rows' => .join (.values names rows) (.values names' rows')
  | .service name inner silent => .join (.values names rows) (.service name inner silent)

/-! ## Patterns without expressions -/

/-- The patterns of triples, joins, OPTIONAL, MINUS and UNION. -/
inductive Plain : GraphPattern → Prop
  | bgp (patterns : List TriplePattern) : Plain (.bgp patterns)
  | join {left right : GraphPattern} : Plain left → Plain right → Plain (.join left right)
  | leftJoin {left right : GraphPattern} : Plain left → Plain right →
    Plain (.leftJoin left right none)
  | minus {left right : GraphPattern} : Plain left → Plain right → Plain (.minus left right)
  | union {left right : GraphPattern} : Plain left → Plain right → Plain (.union left right)

/-- The patterns a table passes on its way down, from the pattern itself on. -/
def descents : GraphPattern → List GraphPattern
  | .leftJoin left right expression => .leftJoin left right expression :: descents left
  | .minus left right => .minus left right :: descents left
  | .union left right => .union left right :: (descents left ++ descents right)
  | pattern => [pattern]

theorem self_mem_descents (pattern : GraphPattern) : pattern ∈ descents pattern := by
  cases pattern <;> exact List.mem_cons_self

theorem Plain.descent {pattern inner : GraphPattern} (h : Plain pattern)
    (hinner : inner ∈ descents pattern) : Plain inner := by
  induction h with
  | bgp patterns =>
    rw [List.mem_singleton.mp hinner]
    exact .bgp patterns
  | join hleft hright =>
    rw [List.mem_singleton.mp hinner]
    exact .join hleft hright
  | leftJoin hleft hright ihl _ =>
    rcases List.mem_cons.mp hinner with rfl | hinner
    · exact .leftJoin hleft hright
    · exact ihl hinner
  | minus hleft hright ihl _ =>
    rcases List.mem_cons.mp hinner with rfl | hinner
    · exact .minus hleft hright
    · exact ihl hinner
  | union hleft hright ihl ihr =>
    rcases List.mem_cons.mp hinner with rfl | hinner
    · exact .union hleft hright
    · rcases List.mem_append.mp hinner with hinner | hinner
      · exact ihl hinner
      · exact ihr hinner

variable {I : Interpretation} {names : List Variable} {row : List (Option Term)} {ρ : Solution}

/-- A row of a table may go down through a pattern: at each OPTIONAL it strands no solution of
the required side, and at each MINUS the same solutions are removed with it and without. -/
def Placed (I : Interpretation) (ρ : Solution) : GraphPattern → Prop
  | .leftJoin left right _ => Placed I ρ left ∧
    ∀ μ ∈ I.eval left, Compatible ρ μ → ¬Stranded ρ (I.eval right) μ
  | .minus left right => Placed I ρ left ∧ ∀ μ ∈ I.eval left, Compatible ρ μ →
    (Removed (I.eval right) (merge ρ μ) ↔ Removed (I.eval right) μ)
  | .union left right => Placed I ρ left ∧ Placed I ρ right
  | _ => True

/-- The pattern with the table in it has the solutions of the join with the table. -/
def Joins (I : Interpretation) (names : List Variable) (row : List (Option Term))
    (pattern : GraphPattern) : Prop :=
  I.eval (injectValues names [row] pattern) = I.eval (.join (.values names [row]) pattern)

theorem eval_values_some (h : rowSolution names row = some ρ) :
    I.eval (.values names [row]) = {ρ} := by
  rw [Interpretation.eval, List.filterMap_cons_some h]
  rfl

theorem eval_values_none (h : rowSolution names row = none) :
    I.eval (.values names [row]) = 0 := by
  rw [Interpretation.eval, List.filterMap_cons_none h]
  rfl

theorem eval_join_values (h : rowSolution names row = some ρ) (pattern : GraphPattern) :
    I.eval (.join (.values names [row]) pattern) = Solutions.join {ρ} (I.eval pattern) := by
  rw [Interpretation.eval, eval_values_some h]

/-- Each step of the way down is a join exactly where the row may take it. -/
theorem joins_descents_iff (h : rowSolution names row = some ρ) {pattern : GraphPattern}
    (hplain : Plain pattern) :
    (∀ inner ∈ descents pattern, Joins I names row inner) ↔ Placed I ρ pattern := by
  induction hplain with
  | bgp patterns => exact iff_of_true (fun inner hinner => by rw [List.mem_singleton.mp hinner]; rfl) trivial
  | join => exact iff_of_true (fun inner hinner => by rw [List.mem_singleton.mp hinner]; rfl) trivial
  | @leftJoin left right hleft hright ihl _ =>
    rw [descents, List.forall_mem_cons, Placed, ← ihl, and_comm]
    refine and_congr_right fun hbelow => ?_
    have hjoined : I.eval (injectValues names [row] left) = Solutions.join {ρ} (I.eval left) :=
      (hbelow left (self_mem_descents left)).trans (eval_join_values h left)
    unfold Joins
    rw [eval_join_values h, injectValues, Interpretation.eval, Interpretation.eval, hjoined]
    exact leftJoin_join_row ρ _ _
  | @minus left right hleft hright ihl _ =>
    rw [descents, List.forall_mem_cons, Placed, ← ihl, and_comm]
    refine and_congr_right fun hbelow => ?_
    have hjoined : I.eval (injectValues names [row] left) = Solutions.join {ρ} (I.eval left) :=
      (hbelow left (self_mem_descents left)).trans (eval_join_values h left)
    unfold Joins
    rw [eval_join_values h, injectValues, Interpretation.eval, Interpretation.eval, hjoined]
    exact minus_join_row ρ _ _
  | @union left right hleft hright ihl ihr =>
    rw [descents, List.forall_mem_cons, List.forall_mem_append, Placed, ← ihl, ← ihr]
    refine and_iff_right_of_imp fun ⟨hbelow, hbelow'⟩ => ?_
    have hjoined : I.eval (injectValues names [row] left) = Solutions.join {ρ} (I.eval left) :=
      (hbelow left (self_mem_descents left)).trans (eval_join_values h left)
    have hjoined' : I.eval (injectValues names [row] right) = Solutions.join {ρ} (I.eval right) :=
      (hbelow' right (self_mem_descents right)).trans (eval_join_values h right)
    unfold Joins
    rw [eval_join_values h, injectValues, Interpretation.eval, Interpretation.eval, hjoined,
      hjoined', join_add]

/-- A table without solutions leaves none. -/
theorem joins_of_none (h : rowSolution names row = none) {pattern : GraphPattern}
    (hplain : Plain pattern) : Joins I names row pattern := by
  unfold Joins
  have hzero (inner : GraphPattern) : I.eval (.join (.values names [row]) inner) = 0 := by
    rw [Interpretation.eval, eval_values_none h, zero_join]
  rw [hzero]
  induction hplain with
  | bgp patterns => exact hzero _
  | join => exact hzero _
  | leftJoin _ _ ihl _ => rw [injectValues, Interpretation.eval, ihl, zero_leftJoin]
  | minus _ _ ihl _ => rw [injectValues, Interpretation.eval, ihl, zero_minus]
  | union _ _ ihl ihr =>
    rw [injectValues, Interpretation.eval, ihl, ihr]
    rfl

/-! ## Variables that keep a table in its place -/

/-- The variables that every solution binds. -/
def mustBind : GraphPattern → List Variable
  | .bgp patterns => patterns.flatMap TriplePattern.variables
  | .join left right => mustBind left ++ mustBind right
  | .leftJoin left _ _ | .minus left _ => mustBind left
  | .union left right => (mustBind left).filter fun name => decide (name ∈ mustBind right)
  | _ => []

/-- The variables that a solution may bind. -/
def mayBind : GraphPattern → List Variable
  | .bgp patterns => patterns.flatMap TriplePattern.variables
  | .join left right | .leftJoin left right _ | .union left right => mayBind left ++ mayBind right
  | .minus left _ => mayBind left
  | _ => []

theorem exists_of_mem_mustBind {pattern : GraphPattern} (hplain : Plain pattern) {μ : Solution}
    (hμ : μ ∈ I.eval pattern) {name : Variable} (hname : name ∈ mustBind pattern) :
    ∃ a, μ name = some a := by
  induction hplain generalizing μ with
  | bgp patterns => exact (mem_bgp_var hμ name).mpr hname
  | join hleft hright ihl ihr =>
    obtain ⟨left, hl, right, hr, hcompatible, rfl⟩ := mem_join.mp hμ
    rcases List.mem_append.mp hname with hname | hname
    · obtain ⟨a, ha⟩ := ihl hl hname
      exact ⟨a, extends_merge_left left right name a ha⟩
    · obtain ⟨a, ha⟩ := ihr hr hname
      exact ⟨a, hcompatible.extends_merge_right name a ha⟩
  | leftJoin hleft hright ihl ihr =>
    obtain ⟨left, hl, hextends⟩ := mem_leftJoin hμ
    obtain ⟨a, ha⟩ := ihl hl hname
    exact ⟨a, hextends name a ha⟩
  | minus hleft hright ihl ihr => exact ihl (mem_minus.mp hμ).1 hname
  | union hleft hright ihl ihr =>
    obtain ⟨hinLeft, hinRight⟩ := List.mem_filter.mp hname
    rcases Multiset.mem_add.mp hμ with hμ | hμ
    · exact ihl hμ hinLeft
    · exact ihr hμ (of_decide_eq_true hinRight)

theorem mem_mayBind {pattern : GraphPattern} (hplain : Plain pattern) {μ : Solution}
    (hμ : μ ∈ I.eval pattern) {name : Variable} {a : Term} (ha : μ name = some a) :
    name ∈ mayBind pattern := by
  induction hplain generalizing μ with
  | bgp patterns => exact (mem_bgp_var hμ name).mp ⟨a, ha⟩
  | join hleft hright ihl ihr =>
    obtain ⟨left, hl, right, hr, hcompatible, rfl⟩ := mem_join.mp hμ
    rcases merge_eq_some.mp ha with ha | ⟨-, ha⟩
    · exact List.mem_append_left _ (ihl hl ha)
    · exact List.mem_append_right _ (ihr hr ha)
  | leftJoin hleft hright ihl ihr =>
    rcases mem_leftJoin_cases hμ with hl | ⟨left, hl, right, hr, rfl⟩
    · exact List.mem_append_left _ (ihl hl ha)
    · rcases merge_eq_some.mp ha with ha | ⟨-, ha⟩
      · exact List.mem_append_left _ (ihl hl ha)
      · exact List.mem_append_right _ (ihr hr ha)
  | minus hleft hright ihl ihr => exact ihl (mem_minus.mp hμ).1 ha
  | union hleft hright ihl ihr =>
    rcases Multiset.mem_add.mp hμ with hμ | hμ
    · exact List.mem_append_left _ (ihl hμ ha)
    · exact List.mem_append_right _ (ihr hμ ha)

/-- What a row binds and an optional or removed side may bind, the required side binds too. -/
def Guarded (ρ : Solution) : GraphPattern → Prop
  | .leftJoin left right _ | .minus left right => Guarded ρ left ∧
    ∀ name a, ρ name = some a → name ∈ mayBind right → name ∈ mustBind left
  | .union left right => Guarded ρ left ∧ Guarded ρ right
  | _ => True

/-- A solution of the other side that goes with one of the required side goes with the row. -/
theorem compatible_of_guarded {left right : GraphPattern} (hleft : Plain left)
    (hright : Plain right)
    (hguard : ∀ name a, ρ name = some a → name ∈ mayBind right → name ∈ mustBind left)
    {μ ν : Solution} (hμ : μ ∈ I.eval left) (hν : ν ∈ I.eval right) (hρμ : Compatible ρ μ)
    (hμν : Compatible μ ν) : Compatible (merge ρ μ) ν := by
  refine (compatible_merge hρμ).mpr ⟨fun name a b ha hb => ?_, hμν⟩
  obtain ⟨c, hc⟩ := exists_of_mem_mustBind hleft hμ (hguard name a ha (mem_mayBind hright hν hb))
  exact (hρμ name a c ha hc).trans (hμν name c b hc hb)

theorem Guarded.placed (I : Interpretation) {pattern : GraphPattern} (hplain : Plain pattern)
    (h : Guarded ρ pattern) : Placed I ρ pattern := by
  induction hplain with
  | bgp patterns => trivial
  | join => trivial
  | leftJoin hleft hright ihl ihr =>
    obtain ⟨hbelow, hguard⟩ := h
    refine ⟨ihl hbelow, fun μ hμ hρμ hstranded => ?_⟩
    obtain ⟨⟨ν, hν, hμν⟩, hnone⟩ := hstranded
    exact hnone ⟨ν, hν, compatible_of_guarded hleft hright hguard hμ hν hρμ hμν⟩
  | minus hleft hright ihl ihr =>
    obtain ⟨hbelow, hguard⟩ := h
    refine ⟨ihl hbelow, fun μ hμ hρμ => exists_congr fun ν => and_congr_right fun hν => ?_⟩
    constructor
    · rintro ⟨hcompatible, name, a, b, ha, hb⟩
      refine ⟨((compatible_merge hρμ).mp hcompatible).2, name, ?_⟩
      rcases merge_eq_some.mp ha with ha | ⟨-, ha⟩
      · obtain ⟨c, hc⟩ :=
          exists_of_mem_mustBind hleft hμ (hguard name a ha (mem_mayBind hright hν hb))
        exact ⟨c, b, hc, hb⟩
      · exact ⟨a, b, ha, hb⟩
    · rintro ⟨hμν, name, a, b, ha, hb⟩
      exact ⟨compatible_of_guarded hleft hright hguard hμ hν hρμ hμν, name, a, b,
        hρμ.extends_merge_right name a ha, hb⟩
  | union hleft hright ihl ihr => exact ⟨ihl h.1, ihr h.2⟩

/-- A table with one row goes down as a join exactly where its row may take every step, and so
it does where the sides it passes by bind none of its variables on their own. -/
theorem injectValues_joins_iff (I : Interpretation) (names : List Variable)
    (row : List (Option Term)) {pattern : GraphPattern} (hplain : Plain pattern) :
    ((∀ inner ∈ descents pattern, Joins I names row inner) ↔
      ∀ ρ, rowSolution names row = some ρ → Placed I ρ pattern) ∧
    ((∀ ρ, rowSolution names row = some ρ → Placed I ρ pattern) → Joins I names row pattern) ∧
    ((∀ ρ, rowSolution names row = some ρ → Guarded ρ pattern) → Joins I names row pattern) := by
  have hsteps : (∀ inner ∈ descents pattern, Joins I names row inner) ↔
      ∀ ρ, rowSolution names row = some ρ → Placed I ρ pattern := by
    cases hrow : rowSolution names row with
    | none =>
      refine iff_of_true (fun inner hinner => ?_) nofun
      exact joins_of_none hrow (hplain.descent hinner)
    | some ρ =>
      rw [joins_descents_iff hrow hplain]
      exact ⟨fun h ρ' hρ' => Option.some.inj hρ' ▸ h, fun h => h ρ rfl⟩
  refine ⟨hsteps, fun h => hsteps.mpr h pattern (self_mem_descents pattern), fun h => ?_⟩
  exact hsteps.mpr (fun ρ hρ => (h ρ hρ).placed I hplain) pattern (self_mem_descents pattern)

/-! ## Where a table strands a solution -/

/-- A graph without anything outside its triples. -/
def plainInterpretation (triples : Finset Triple) : Interpretation where
  triples := triples
  value _ _ := none
  truth _ _ := False
  custom _ _ := False
  path _ _ _ := 0
  lateral _ _ := 0
  graph _ _ := 0
  service _ _ _ := 0
  reduced rows := rows
  slice _ _ _ rows := rows
  group _ _ rows := rows

def sampleTriples : Finset Triple :=
  {⟨"urn:a", "urn:name", .simple "a"⟩, ⟨"urn:a", "urn:tag", .simple "old"⟩}

/-- `?s <urn:name> ?n OPTIONAL { ?s <urn:tag> ?t }` -/
def samplePattern : GraphPattern :=
  .leftJoin (.bgp [⟨.var "s", .namedNode "urn:name", .var "n"⟩])
    (.bgp [⟨.var "s", .namedNode "urn:tag", .var "t"⟩]) none

theorem plain_samplePattern : Plain samplePattern := .leftJoin (.bgp _) (.bgp _)

/-- With `?t` bound to another tag, the table below the OPTIONAL leaves the name without a tag,
where the join above it leaves nothing. -/
theorem not_joins_sample : Plain samplePattern ∧
    ¬Joins (plainInterpretation sampleTriples) ["t"] [some (.simple "new")] samplePattern := by
  refine ⟨plain_samplePattern, fun hjoins => ?_⟩
  have hrow := rowSolution_single "t" (.simple "new")
  have hplaced := (joins_descents_iff hrow plain_samplePattern).mp fun inner hinner => by
    rcases List.mem_cons.mp hinner with rfl | hinner
    · exact hjoins
    · rw [List.mem_singleton.mp hinner]
      rfl
  have hname : pairSolution "s" (.namedNode "urn:a") "n" (.simple "a") ∈
      (plainInterpretation sampleTriples).eval
        (.bgp [⟨.var "s", .namedNode "urn:name", .var "n"⟩]) :=
    (mem_bgp_pair (by decide)).mpr ⟨⟨"urn:a", "urn:name", .simple "a"⟩, by decide, rfl, rfl⟩
  have htag : pairSolution "s" (.namedNode "urn:a") "t" (.simple "old") ∈
      (plainInterpretation sampleTriples).eval
        (.bgp [⟨.var "s", .namedNode "urn:tag", .var "t"⟩]) :=
    (mem_bgp_pair (by decide)).mpr ⟨⟨"urn:a", "urn:tag", .simple "old"⟩, by decide, rfl, rfl⟩
  refine hplaced.2 _ hname ?_ ⟨⟨_, htag, ?_⟩, ?_⟩
  · intro name a b ha hb
    unfold pairSolution at hb
    by_cases htagged : name = "t"
    · subst htagged
      cases hb
    · have hnone := (if_neg htagged).symm.trans ha
      cases hnone
  · intro name a b ha hb
    unfold pairSolution at ha hb
    split_ifs at ha hb with hsubject hobject htagged
    · exact Option.some.inj (ha.symm.trans hb)
    · exact absurd (hobject.symm.trans htagged) (by decide)
  · rintro ⟨ν, hν, hcompatible⟩
    obtain ⟨triple, htriple, hpredicate, rfl⟩ := (mem_bgp_pair (by decide)).mp hν
    have hold : triple.object = .simple "old" := by
      rcases Finset.mem_insert.mp htriple with rfl | htriple
      · exact absurd hpredicate (by decide)
      · rw [Finset.mem_singleton.mp htriple]
    have hsame := hcompatible "t" (.simple "new") triple.object rfl rfl
    rw [hold] at hsame
    exact absurd hsame (by decide)

/-- With `?s` bound, which the required side binds, the table goes down as a join. -/
theorem joins_sample : Joins (plainInterpretation sampleTriples) ["s"]
    [some (.namedNode "urn:a")] samplePattern := by
  refine (injectValues_joins_iff _ _ _ plain_samplePattern).2.2 fun ρ hρ => ⟨trivial, ?_⟩
  intro name a ha _
  rw [rowSolution_single] at hρ
  obtain rfl := Option.some.inj hρ
  by_cases hname : name = "s"
  · subst hname
    decide
  · have hnone := (if_neg hname).symm.trans ha
    cases hnone

end Neoseq.Query
