import Mathlib

/-! Bags of partial mappings and the operators that join, extend and remove them, over any
variables and terms. What happens to a row that is joined before such an operator and not
after it is told apart here, operator by operator. -/

namespace Neoseq.Solutions

variable {V T : Type}

/-- A solution: a term for some of the variables. -/
abbrev Mapping (V T : Type) := V → Option T

def Compatible (μ ν : Mapping V T) : Prop :=
  ∀ (v : V) (a b : T), μ v = some a → ν v = some b → a = b

def merge (μ ν : Mapping V T) : Mapping V T := fun v => (μ v).or (ν v)

/-- A variable that both mappings bind. -/
def Overlap (μ ν : Mapping V T) : Prop :=
  ∃ (v : V) (a b : T), μ v = some a ∧ ν v = some b

variable {μ ν ρ : Mapping V T}

theorem merge_assoc (μ ν ρ : Mapping V T) : merge (merge μ ν) ρ = merge μ (merge ν ρ) :=
  funext fun _ => Option.or_assoc

theorem Compatible.symm (h : Compatible μ ν) : Compatible ν μ :=
  fun v a b ha hb => (h v b a hb ha).symm

/-- A mapping says at least what another says. -/
def Extends (μ ν : Mapping V T) : Prop := ∀ (v : V) (a : T), ν v = some a → μ v = some a

theorem extends_merge_left (μ ν : Mapping V T) : Extends (merge μ ν) μ := by
  intro v a ha
  unfold merge
  rw [ha]
  rfl

theorem Compatible.extends_merge_right (h : Compatible μ ν) : Extends (merge μ ν) ν := by
  intro v b hb
  unfold merge
  cases ha : μ v with
  | none => exact hb
  | some a =>
    rw [h v a b ha hb]
    rfl

theorem Extends.trans {σ : Mapping V T} (h : Extends μ ν) (h' : Extends ν σ) : Extends μ σ :=
  fun v a ha => h v a (h' v a ha)

theorem Compatible.of_extends {μ' : Mapping V T} (h : Compatible μ ν) (hextends : Extends μ μ') :
    Compatible μ' ν :=
  fun v a b ha hb => h v a b (hextends v a ha) hb

theorem merge_eq_some {v : V} {a : T} : merge μ ν v = some a ↔
    μ v = some a ∨ (μ v = none ∧ ν v = some a) := by
  unfold merge
  cases μ v with
  | none => simp
  | some b => simp

/-- Two compatible mappings together are compatible with a third if both are. -/
theorem compatible_merge_left : Compatible (merge μ ν) ρ → Compatible μ ρ :=
  fun h => h.of_extends (extends_merge_left μ ν)

theorem compatible_merge (hμν : Compatible μ ν) :
    Compatible (merge μ ν) ρ ↔ Compatible μ ρ ∧ Compatible ν ρ := by
  refine ⟨fun h => ⟨compatible_merge_left h, h.of_extends hμν.extends_merge_right⟩, ?_⟩
  rintro ⟨hμ, hν⟩ v a b ha hb
  rcases merge_eq_some.mp ha with ha | ⟨-, ha⟩
  · exact hμ v a b ha hb
  · exact hν v a b ha hb

/-! ## Bags -/

section Bags
open scoped Classical

/-- What a mapping becomes when it is joined with a bag. -/
noncomputable def extensions (holds : Mapping V T → Prop) (B : Multiset (Mapping V T))
    (μ : Mapping V T) : Multiset (Mapping V T) :=
  (B.filter fun ν => Compatible μ ν ∧ holds (merge μ ν)).map (merge μ)

noncomputable def join (A B : Multiset (Mapping V T)) : Multiset (Mapping V T) :=
  A.bind (extensions (fun _ => True) B)

/-- A mapping that nothing extends is kept as it is. -/
noncomputable def optional (holds : Mapping V T → Prop) (B : Multiset (Mapping V T))
    (μ : Mapping V T) : Multiset (Mapping V T) :=
  if extensions holds B μ = 0 then {μ} else extensions holds B μ

noncomputable def leftJoin (holds : Mapping V T → Prop) (A B : Multiset (Mapping V T)) :
    Multiset (Mapping V T) :=
  A.bind (optional holds B)

/-- A mapping of the bag is compatible with this one and shares a variable with it. -/
def Removed (B : Multiset (Mapping V T)) (μ : Mapping V T) : Prop :=
  ∃ ν ∈ B, Compatible μ ν ∧ Overlap μ ν

noncomputable def minus (A B : Multiset (Mapping V T)) : Multiset (Mapping V T) :=
  A.filter fun μ => ¬Removed B μ

variable {A B : Multiset (Mapping V T)} {holds : Mapping V T → Prop}

theorem mem_extensions {σ : Mapping V T} : σ ∈ extensions holds B μ ↔
    ∃ ν ∈ B, Compatible μ ν ∧ holds (merge μ ν) ∧ merge μ ν = σ := by
  unfold extensions
  simp only [Multiset.mem_map, Multiset.mem_filter, and_assoc]

theorem mem_join {σ : Mapping V T} : σ ∈ join A B ↔
    ∃ μ ∈ A, ∃ ν ∈ B, Compatible μ ν ∧ merge μ ν = σ := by
  unfold join
  rw [Multiset.mem_bind]
  simp only [mem_extensions, true_and]

theorem extensions_eq_zero : extensions holds B μ = 0 ↔
    ¬∃ ν ∈ B, Compatible μ ν ∧ holds (merge μ ν) := by
  unfold extensions
  rw [Multiset.map_eq_zero, Multiset.filter_eq_nil]
  push Not
  rfl

theorem mem_leftJoin_cases {σ : Mapping V T} (h : σ ∈ leftJoin holds A B) :
    σ ∈ A ∨ ∃ μ ∈ A, ∃ ν ∈ B, merge μ ν = σ := by
  unfold leftJoin optional at h
  obtain ⟨μ, hμ, hσ⟩ := Multiset.mem_bind.mp h
  split_ifs at hσ
  · exact .inl (Multiset.mem_singleton.mp hσ ▸ hμ)
  · obtain ⟨ν, hν, -, -, rfl⟩ := mem_extensions.mp hσ
    exact .inr ⟨μ, hμ, ν, hν, rfl⟩

theorem mem_leftJoin {σ : Mapping V T} (h : σ ∈ leftJoin holds A B) :
    ∃ μ ∈ A, Extends σ μ := by
  rcases mem_leftJoin_cases h with hσ | ⟨μ, hμ, ν, -, rfl⟩
  · exact ⟨σ, hσ, fun _ _ h => h⟩
  · exact ⟨μ, hμ, extends_merge_left μ ν⟩

theorem mem_minus {σ : Mapping V T} : σ ∈ minus A B ↔ σ ∈ A ∧ ¬Removed B σ := by
  unfold minus
  exact Multiset.mem_filter

theorem join_add (A B C : Multiset (Mapping V T)) : join A (B + C) = join A B + join A C := by
  unfold join
  rw [← Multiset.bind_add]
  refine Multiset.bind_congr fun μ _ => ?_
  unfold extensions
  rw [Multiset.filter_add, Multiset.map_add]

theorem zero_join (B : Multiset (Mapping V T)) : join 0 B = 0 := Multiset.zero_bind _

theorem zero_leftJoin (B : Multiset (Mapping V T)) : leftJoin holds 0 B = 0 := Multiset.zero_bind _

theorem zero_minus (B : Multiset (Mapping V T)) : minus 0 B = 0 := Multiset.filter_zero _

/-! ## One row -/

/-- The mappings a row can be joined with. -/
noncomputable def fitting (ρ : Mapping V T) (A : Multiset (Mapping V T)) :
    Multiset (Mapping V T) :=
  A.filter (Compatible ρ)

theorem mem_fitting : μ ∈ fitting ρ A ↔ μ ∈ A ∧ Compatible ρ μ := Multiset.mem_filter

theorem extensions_true (B : Multiset (Mapping V T)) (μ : Mapping V T) :
    extensions (fun _ => True) B μ = (fitting μ B).map (merge μ) := by
  unfold extensions fitting
  simp only [and_true]

theorem join_row (ρ : Mapping V T) (A : Multiset (Mapping V T)) :
    join {ρ} A = (fitting ρ A).map (merge ρ) := by
  unfold join
  rw [Multiset.singleton_bind, extensions_true]

/-- A row that is joined with what a mapping becomes is joined with the mapping first. -/
theorem bind_fitting (ρ : Mapping V T) (A : Multiset (Mapping V T))
    (f : Mapping V T → Multiset (Mapping V T)) (hf : ∀ μ ∈ A, ∀ σ ∈ f μ, Extends σ μ) :
    (fitting ρ (A.bind f)).map (merge ρ) =
      (fitting ρ A).bind fun μ => (fitting ρ (f μ)).map (merge ρ) := by
  induction A using Multiset.induction with
  | empty => rfl
  | cons μ A ih =>
    have hrest := ih fun ν hν => hf ν (Multiset.mem_cons_of_mem hν)
    unfold fitting at hrest ⊢
    rw [Multiset.cons_bind, Multiset.filter_add, Multiset.map_add, hrest]
    by_cases hcompatible : Compatible ρ μ
    · rw [Multiset.filter_cons_of_pos _ hcompatible, Multiset.cons_bind]
    · rw [Multiset.filter_cons_of_neg _ hcompatible]
      have hnone : (f μ).filter (Compatible ρ) = 0 := by
        refine Multiset.filter_eq_nil.mpr fun σ hσ hρσ => hcompatible ?_
        exact (hρσ.symm.of_extends (hf μ (Multiset.mem_cons_self μ A) σ hσ)).symm
      rw [hnone, Multiset.map_zero, Multiset.zero_add]

/-- With a row joined before, a mapping is kept alone although it has an extension, where no
extension goes with the row. -/
def Stranded (ρ : Mapping V T) (B : Multiset (Mapping V T)) (μ : Mapping V T) : Prop :=
  (∃ ν ∈ B, Compatible μ ν) ∧ ¬∃ ν ∈ B, Compatible (merge ρ μ) ν

theorem optional_merge (hρμ : Compatible ρ μ) :
    optional (fun _ => True) B (merge ρ μ) =
      (fitting ρ (optional (fun _ => True) B μ)).map (merge ρ) +
        if Stranded ρ B μ then {merge ρ μ} else 0 := by
  by_cases hboth : ∃ ν ∈ B, Compatible (merge ρ μ) ν
  · have hone : ∃ ν ∈ B, Compatible μ ν := by
      obtain ⟨ν, hν, hcompatible⟩ := hboth
      exact ⟨ν, hν, ((compatible_merge hρμ).mp hcompatible).2⟩
    have hstranded : ¬Stranded ρ B μ := fun h => h.2 hboth
    have hleft : extensions (fun _ => True) B (merge ρ μ) ≠ 0 := by
      rw [Ne, extensions_eq_zero, not_not]
      exact hboth.imp fun ν h => ⟨h.1, h.2, trivial⟩
    have hright : extensions (fun _ => True) B μ ≠ 0 := by
      rw [Ne, extensions_eq_zero, not_not]
      exact hone.imp fun ν h => ⟨h.1, h.2, trivial⟩
    unfold optional
    rw [if_neg hleft, if_neg hright, if_neg hstranded, Multiset.add_zero, extensions_true,
      extensions_true]
    unfold fitting
    rw [Multiset.filter_map, Multiset.map_map, Multiset.filter_filter]
    refine Multiset.map_congr (Multiset.filter_congr fun ν _ => ?_) fun ν _ => merge_assoc ρ μ ν
    dsimp only [Function.comp]
    rw [compatible_merge hρμ]
    refine ⟨fun h => ⟨?_, h.2⟩, fun h => ⟨?_, h.2⟩⟩
    · exact ((compatible_merge h.2).mpr ⟨hρμ.symm, h.1.symm⟩).symm
    · exact ((compatible_merge h.2).mp h.1.symm).2.symm
  · have hleft : extensions (fun _ => True) B (merge ρ μ) = 0 := by
      rw [extensions_eq_zero]
      exact fun h => hboth (h.imp fun ν h => ⟨h.1, h.2.1⟩)
    by_cases hone : ∃ ν ∈ B, Compatible μ ν
    · have hright : extensions (fun _ => True) B μ ≠ 0 := by
        rw [Ne, extensions_eq_zero, not_not]
        exact hone.imp fun ν h => ⟨h.1, h.2, trivial⟩
      have hnone : fitting ρ (extensions (fun _ => True) B μ) = 0 := by
        refine Multiset.filter_eq_nil.mpr fun σ hσ hρσ => ?_
        obtain ⟨ν, hν, hμν, -, rfl⟩ := mem_extensions.mp hσ
        have hρν := ((compatible_merge hμν).mp hρσ.symm).2.symm
        exact hboth ⟨ν, hν, (compatible_merge hρμ).mpr ⟨hρν, hμν⟩⟩
      unfold optional
      rw [if_pos hleft, if_neg hright, if_pos ⟨hone, hboth⟩, hnone, Multiset.map_zero,
        Multiset.zero_add]
    · have hright : extensions (fun _ => True) B μ = 0 := by
        rw [extensions_eq_zero]
        exact fun h => hone (h.imp fun ν h => ⟨h.1, h.2.1⟩)
      have hstranded : ¬Stranded ρ B μ := fun h => hone h.1
      unfold optional fitting
      rw [if_pos hleft, if_pos hright, if_neg hstranded, Multiset.add_zero,
        Multiset.filter_singleton, if_pos hρμ]
      rfl

theorem mem_optional {σ : Mapping V T} (h : σ ∈ optional holds B μ) : Extends σ μ := by
  unfold optional at h
  split_ifs at h
  · rw [Multiset.mem_singleton.mp h]
    exact fun _ _ h => h
  · obtain ⟨ν, -, -, -, rfl⟩ := mem_extensions.mp h
    exact extends_merge_left μ ν

/-- A row may be joined before an optional part exactly where it strands no mapping. -/
theorem leftJoin_join_row (ρ : Mapping V T) (A B : Multiset (Mapping V T)) :
    leftJoin (fun _ => True) (join {ρ} A) B = join {ρ} (leftJoin (fun _ => True) A B) ↔
      ∀ μ ∈ A, Compatible ρ μ → ¬Stranded ρ B μ := by
  have hsum : leftJoin (fun _ => True) (join {ρ} A) B =
      join {ρ} (leftJoin (fun _ => True) A B) +
        (fitting ρ A).bind fun μ => if Stranded ρ B μ then {merge ρ μ} else 0 := by
    rw [join_row, join_row]
    unfold leftJoin
    rw [Multiset.bind_map, bind_fitting ρ A _ fun μ _ σ => mem_optional, ← Multiset.bind_add]
    exact Multiset.bind_congr fun μ hμ => optional_merge (mem_fitting.mp hμ).2
  rw [hsum, add_eq_left, Multiset.eq_zero_iff_forall_notMem]
  constructor
  · intro hnone μ hμ hcompatible hstranded
    refine hnone (merge ρ μ) (Multiset.mem_bind.mpr ⟨μ, mem_fitting.mpr ⟨hμ, hcompatible⟩, ?_⟩)
    rw [if_pos hstranded]
    exact Multiset.mem_singleton_self _
  · intro hall σ hσ
    obtain ⟨μ, hμ, hσ⟩ := Multiset.mem_bind.mp hσ
    obtain ⟨hmem, hcompatible⟩ := mem_fitting.mp hμ
    rw [if_neg (hall μ hmem hcompatible)] at hσ
    exact Multiset.notMem_zero σ hσ

/-- A row may be joined before a removal exactly where the same mappings are removed. -/
theorem minus_join_row (ρ : Mapping V T) (A B : Multiset (Mapping V T)) :
    minus (join {ρ} A) B = join {ρ} (minus A B) ↔
      ∀ μ ∈ A, Compatible ρ μ → (Removed B (merge ρ μ) ↔ Removed B μ) := by
  have hleft : minus (join {ρ} A) B =
      ((fitting ρ A).filter fun μ => ¬Removed B (merge ρ μ)).map (merge ρ) := by
    rw [join_row]
    unfold minus
    rw [Multiset.filter_map]
    rfl
  have hright : join {ρ} (minus A B) = ((fitting ρ A).filter fun μ => ¬Removed B μ).map (merge ρ) := by
    rw [join_row]
    unfold minus fitting
    rw [Multiset.filter_filter, Multiset.filter_filter]
    congr 1
    exact Multiset.filter_congr fun μ _ => and_comm
  rw [hleft, hright]
  constructor
  · intro heq μ hμ hcompatible
    have hmem := mem_fitting.mpr ⟨hμ, hcompatible⟩
    constructor
    · intro hremoved
      by_contra hkept
      have hin : merge ρ μ ∈ ((fitting ρ A).filter fun μ => ¬Removed B μ).map (merge ρ) :=
        Multiset.mem_map_of_mem _ (Multiset.mem_filter.mpr ⟨hmem, hkept⟩)
      rw [← heq] at hin
      obtain ⟨ν, hν, hsame⟩ := Multiset.mem_map.mp hin
      rw [← hsame] at hremoved
      exact (Multiset.mem_filter.mp hν).2 hremoved
    · intro hremoved
      by_contra hkept
      -- all that become this row are kept on the left, this one is not on the right
      have hcard := congrArg (fun rows => (rows.filter fun σ => merge ρ μ = σ).card) heq
      rw [Multiset.filter_map, Multiset.filter_map, Multiset.card_map, Multiset.card_map,
        Multiset.filter_filter, Multiset.filter_filter] at hcard
      refine Nat.ne_of_gt (Multiset.card_lt_card (lt_iff_le_and_ne.mpr ⟨?_, ?_⟩)) hcard
      · refine Multiset.monotone_filter_right _ fun ν h => ⟨h.1, ?_⟩
        show ¬Removed B (merge ρ ν)
        have hsame : merge ρ μ = merge ρ ν := h.1
        rw [← hsame]
        exact hkept
      · intro hbags
        have hin : μ ∈ (fitting ρ A).filter fun ν =>
            ((fun σ => merge ρ μ = σ) ∘ merge ρ) ν ∧ ¬Removed B (merge ρ ν) :=
          Multiset.mem_filter.mpr ⟨hmem, rfl, hkept⟩
        rw [← hbags] at hin
        exact (Multiset.mem_filter.mp hin).2.2 hremoved
  · intro hall
    congr 1
    refine Multiset.filter_congr fun μ hμ => not_congr ?_
    obtain ⟨hmem, hcompatible⟩ := mem_fitting.mp hμ
    exact hall μ hmem hcompatible

/-! ## Narrowed bags -/

/-- Mappings can be left out before they become others, where what they become is told apart
as they are. -/
theorem filter_bind_of_iff (A : Multiset (Mapping V T))
    (f : Mapping V T → Multiset (Mapping V T)) (keep : Mapping V T → Prop)
    (hf : ∀ μ ∈ A, ∀ σ ∈ f μ, (keep σ ↔ keep μ)) :
    (A.bind f).filter keep = (A.filter keep).bind f := by
  rw [Multiset.filter_bind, Multiset.bind_filter]
  refine Multiset.bind_congr fun μ hμ => ?_
  by_cases hkeep : keep μ
  · rw [if_pos hkeep]
    exact Multiset.filter_eq_self.mpr fun σ hσ => (hf μ hμ σ hσ).mpr hkeep
  · rw [if_neg hkeep]
    exact Multiset.filter_eq_nil.mpr fun σ hσ hkept => hkeep ((hf μ hμ σ hσ).mp hkept)

/-- A variable is one of some terms. -/
def Among (v : V) (terms : List T) (μ : Mapping V T) : Prop := ∃ a ∈ terms, μ v = some a

theorem Extends.among_iff {v : V} {terms : List T} (h : Extends μ ν) {a : T} (ha : ν v = some a) :
    Among v terms μ ↔ Among v terms ν := by
  unfold Among
  rw [h v a ha, ha]

/-- A mapping of one variable. -/
def only [DecidableEq V] (v : V) (a : T) : Mapping V T :=
  fun other => if other = v then some a else none

theorem fitting_only [DecidableEq V] {v : V} {a : T} (hbound : ∀ μ ∈ A, ∃ b, μ v = some b) :
    (fitting (only v a) A).map (merge (only v a)) = A.filter fun μ => μ v = some a := by
  have hfitting : fitting (only v a) A = A.filter fun μ => μ v = some a := by
    refine Multiset.filter_congr fun μ hμ => ⟨fun h => ?_, fun h w b c hb hc => ?_⟩
    · obtain ⟨b, hb⟩ := hbound μ hμ
      rw [hb, h v a b (if_pos rfl) hb]
    · unfold only at hb
      split_ifs at hb with hw
      cases hb
      rw [hw, h] at hc
      exact Option.some.inj hc
  rw [hfitting]
  refine (Multiset.map_congr rfl fun μ hμ => ?_).trans (Multiset.map_id _)
  funext w
  unfold merge only
  split_ifs with hw
  · rw [hw]
    exact (Multiset.mem_filter.mp hμ).2.symm
  · rfl

/-- A table of one variable that is bound anyway leaves the mappings that have one of its terms. -/
theorem join_only [DecidableEq V] {v : V} {terms : List T} (hnodup : terms.Nodup)
    (hbound : ∀ μ ∈ A, ∃ b, μ v = some b) :
    join (terms.map (only v) : List (Mapping V T)) A = A.filter (Among v terms) := by
  unfold join
  induction terms with
  | nil =>
    rw [List.map_nil, Multiset.coe_nil, Multiset.zero_bind]
    refine (Multiset.filter_eq_nil.mpr fun μ _ => ?_).symm
    rintro ⟨a, ha, -⟩
    cases ha
  | cons a terms ih =>
    obtain ⟨hnew, hnodup⟩ := List.nodup_cons.mp hnodup
    rw [List.map_cons, ← Multiset.cons_coe, Multiset.cons_bind, ih hnodup, extensions_true,
      fitting_only hbound, Multiset.filter_add_filter]
    have hnone : (A.filter fun μ => μ v = some a ∧ Among v terms μ) = 0 := by
      refine Multiset.filter_eq_nil.mpr fun μ _ h => ?_
      obtain ⟨hμ, b, hb, hb'⟩ := h
      exact hnew (Option.some.inj (hμ.symm.trans hb') ▸ hb)
    rw [hnone, Multiset.add_zero]
    refine Multiset.filter_congr fun μ _ => ?_
    unfold Among
    simp only [List.mem_cons, exists_eq_or_imp]

/-- Mappings that bind a variable are narrowed before or after others are joined to them. -/
theorem join_filter_among {v : V} {terms : List T} (B : Multiset (Mapping V T))
    (hbound : ∀ μ ∈ A, ∃ a, μ v = some a) :
    join B (A.filter (Among v terms)) = (join B A).filter (Among v terms) := by
  unfold join
  rw [Multiset.filter_bind]
  refine Multiset.bind_congr fun ρ _ => ?_
  rw [extensions_true, extensions_true, Multiset.filter_map]
  unfold fitting
  rw [Multiset.filter_comm, Multiset.filter_filter, Multiset.filter_filter]
  congr 1
  refine Multiset.filter_congr fun μ hμ => and_congr_left fun hcompatible => ?_
  obtain ⟨a, ha⟩ := hbound μ hμ
  exact (hcompatible.extends_merge_right.among_iff ha).symm

end Bags

end Neoseq.Solutions
