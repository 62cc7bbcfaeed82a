import Mathlib

/-! Comparators that are strict weak orderings of some values: what they are built from, and
what sorting by one gives. -/

namespace Neoseq.Collections

variable {α β : Type}

/-- Among the values of a kind nothing is before itself, and neither what comes before nor what
ties runs in a circle. -/
structure StrictWeakOn (S : α → Prop) (cmp : α → α → Ordering) : Prop where
  oriented : ∀ a b, S a → S b → cmp a b = (cmp b a).swap
  trans : ∀ a b c, S a → S b → S c →
    (cmp a b).isLE = true → (cmp b c).isLE = true → (cmp a c).isLE = true

namespace StrictWeakOn

variable {S S' : α → Prop} {cmp cmp' : α → α → Ordering}

theorem refl (h : StrictWeakOn S cmp) {a : α} (ha : S a) : cmp a a = .eq := by
  have hself := h.oriented a a ha ha
  cases hcmp : cmp a a with
  | eq => rfl
  | lt => rw [hcmp] at hself; cases hself
  | gt => rw [hcmp] at hself; cases hself

theorem eq_symm (h : StrictWeakOn S cmp) {a b : α} (ha : S a) (hb : S b) (heq : cmp a b = .eq) :
    cmp b a = .eq := by
  rw [h.oriented b a hb ha, heq]
  rfl

theorem lt_iff_gt (h : StrictWeakOn S cmp) {a b : α} (ha : S a) (hb : S b) :
    cmp a b = .lt ↔ cmp b a = .gt := by
  rw [h.oriented a b ha hb, Ordering.swap_eq_lt]

theorem isLE_of_not_lt (h : StrictWeakOn S cmp) {a b : α} (ha : S a) (hb : S b)
    (hlt : cmp a b ≠ .lt) : (cmp b a).isLE = true := by
  rw [h.oriented b a hb ha]
  cases hcmp : cmp a b with
  | lt => exact absurd hcmp hlt
  | eq => rfl
  | gt => rfl

theorem lt_of_lt_of_isLE (h : StrictWeakOn S cmp) {a b c : α} (ha : S a) (hb : S b) (hc : S c)
    (hab : cmp a b = .lt) (hbc : (cmp b c).isLE = true) : cmp a c = .lt := by
  by_contra hne
  have hba := h.trans b c a hb hc ha hbc (h.isLE_of_not_lt ha hc hne)
  rw [h.lt_iff_gt ha hb] at hab
  rw [hab] at hba
  cases hba

theorem lt_of_isLE_of_lt (h : StrictWeakOn S cmp) {a b c : α} (ha : S a) (hb : S b) (hc : S c)
    (hab : (cmp a b).isLE = true) (hbc : cmp b c = .lt) : cmp a c = .lt := by
  by_contra hne
  have hcb := h.trans c a b hc ha hb (h.isLE_of_not_lt ha hc hne) hab
  rw [h.lt_iff_gt hb hc] at hbc
  rw [hbc] at hcb
  cases hcb

theorem lt_trans (h : StrictWeakOn S cmp) {a b c : α} (ha : S a) (hb : S b) (hc : S c)
    (hab : cmp a b = .lt) (hbc : cmp b c = .lt) : cmp a c = .lt :=
  h.lt_of_lt_of_isLE ha hb hc hab (by rw [hbc]; rfl)

theorem eq_trans (h : StrictWeakOn S cmp) {a b c : α} (ha : S a) (hb : S b) (hc : S c)
    (hab : cmp a b = .eq) (hbc : cmp b c = .eq) : cmp a c = .eq := by
  have hac := h.trans a b c ha hb hc (by rw [hab]; rfl) (by rw [hbc]; rfl)
  have hca := h.trans c b a hc hb ha (by rw [h.eq_symm hb hc hbc]; rfl)
    (by rw [h.eq_symm ha hb hab]; rfl)
  rw [h.oriented c a hc ha] at hca
  cases hcmp : cmp a c with
  | eq => rfl
  | lt => rw [hcmp] at hca; cases hca
  | gt => rw [hcmp] at hac; cases hac

theorem mono (h : StrictWeakOn S cmp) (hS : ∀ a, S' a → S a) : StrictWeakOn S' cmp :=
  ⟨fun a b ha hb => h.oriented a b (hS a ha) (hS b hb),
    fun a b c ha hb hc => h.trans a b c (hS a ha) (hS b hb) (hS c hc)⟩

theorem congr (h : StrictWeakOn S cmp) (heq : ∀ a b, S a → S b → cmp' a b = cmp a b) :
    StrictWeakOn S cmp' := by
  refine ⟨fun a b ha hb => ?_, fun a b c ha hb hc => ?_⟩
  · rw [heq a b ha hb, heq b a hb ha]
    exact h.oriented a b ha hb
  · rw [heq a b ha hb, heq b c hb hc, heq a c ha hc]
    exact h.trans a b c ha hb hc

/-- The comparator the other way round. -/
theorem swap (h : StrictWeakOn S cmp) : StrictWeakOn S fun a b => (cmp a b).swap := by
  refine ⟨fun a b ha hb => by rw [h.oriented a b ha hb], fun a b c ha hb hc => ?_⟩
  rw [← h.oriented b a hb ha, ← h.oriented c b hc hb, ← h.oriented c a hc ha]
  exact fun hba hcb => h.trans c b a hc hb ha hcb hba

theorem comap {S : β → Prop} {cmp : β → β → Ordering} (h : StrictWeakOn S cmp) (f : α → β) :
    StrictWeakOn (fun a => S (f a)) fun a b => cmp (f a) (f b) :=
  ⟨fun a b ha hb => h.oriented (f a) (f b) ha hb,
    fun a b c ha hb hc => h.trans (f a) (f b) (f c) ha hb hc⟩

/-- Nothing is told apart. -/
theorem const : StrictWeakOn S fun _ _ => .eq :=
  ⟨fun _ _ _ _ => rfl, fun _ _ _ _ _ _ _ _ => rfl⟩

theorem isLE_then {o o' : Ordering} :
    (o.then o').isLE = true ↔ o = .lt ∨ (o = .eq ∧ o'.isLE = true) := by
  cases o <;> simp [Ordering.then]

/-- What ties by one comparator is told apart by another. -/
theorem andThen (h : StrictWeakOn S cmp) (h' : StrictWeakOn S cmp') :
    StrictWeakOn S fun a b => (cmp a b).then (cmp' a b) := by
  refine ⟨fun a b ha hb => ?_, fun a b c ha hb hc hab hbc => ?_⟩
  · rw [h.oriented a b ha hb, h'.oriented a b ha hb, Ordering.swap_then]
  · rw [isLE_then] at hab hbc ⊢
    rcases hab with hab | ⟨hab, hab'⟩
    · refine .inl (h.lt_of_lt_of_isLE ha hb hc hab ?_)
      rcases hbc with hbc | ⟨hbc, -⟩ <;> rw [hbc] <;> rfl
    · rcases hbc with hbc | ⟨hbc, hbc'⟩
      · exact .inl (h.lt_of_isLE_of_lt ha hb hc (by rw [hab]; rfl) hbc)
      · exact .inr ⟨h.eq_trans ha hb hc hab hbc, h'.trans a b c ha hb hc hab' hbc'⟩

/-- Classes that stand one behind the other, each ordered in itself. -/
theorem of_classes (k : α → Nat) (hclass : ∀ i, StrictWeakOn (fun a => S a ∧ k a = i) cmp)
    (hswap : ∀ a b, S a → S b → cmp a b = (cmp b a).swap)
    (hlt : ∀ a b, S a → S b → k a < k b → cmp a b = .lt) : StrictWeakOn S cmp := by
  refine ⟨hswap, fun a b c ha hb hc hab hbc => ?_⟩
  have hle {x y} (hx : S x) (hy : S y) (hxy : (cmp x y).isLE = true) : k x ≤ k y := by
    by_contra hk
    rw [hswap x y hx hy, hlt y x hy hx (Nat.lt_of_not_le hk)] at hxy
    cases hxy
  rcases Nat.lt_or_eq_of_le (hle ha hb hab) with hk | hk
  · rw [hlt a c ha hc (Nat.lt_of_lt_of_le hk (hle hb hc hbc))]
    rfl
  · rcases Nat.lt_or_eq_of_le (hle hb hc hbc) with hk' | hk'
    · rw [hlt a c ha hc (Nat.lt_of_le_of_lt (Nat.le_of_eq hk) hk')]
      rfl
    · exact (hclass (k c)).trans a b c ⟨ha, hk.trans hk'⟩ ⟨hb, hk'⟩ ⟨hc, rfl⟩ hab hbc

end StrictWeakOn

/-- Comparing by a key that is ordered. -/
theorem weak_compare {α β : Type} [LinearOrder β] (f : α → β) :
    StrictWeakOn (fun _ => True) fun a b => compare (f a) (f b) := by
  have hle (a b : α) : (compare (f a) (f b)).isLE = true ↔ f a ≤ f b := by
    rw [← compare_le_iff_le, Ordering.isLE_iff_ne_gt]
  refine ⟨fun a b _ _ => ?_, fun a b c _ _ _ => ?_⟩
  · rw [← cmp_eq_compare, ← cmp_eq_compare, cmp_swap]
  · rw [hle, hle, hle]
    exact le_trans

/-! ## Vectors -/

/-- Item by item; of two vectors that start alike the shorter one comes first. -/
def compareVectors (cmp : α → α → Ordering) : List α → List α → Ordering
  | [], [] => .eq
  | [], _ :: _ => .lt
  | _ :: _, [] => .gt
  | a :: as, b :: bs => (cmp a b).then (compareVectors cmp as bs)

theorem compareVectors_swap {cmp : α → α → Ordering} {as bs : List α}
    (h : ∀ a ∈ as, ∀ b ∈ bs, cmp a b = (cmp b a).swap) :
    compareVectors cmp as bs = (compareVectors cmp bs as).swap := by
  induction as generalizing bs with
  | nil => cases bs <;> rfl
  | cons a as ih =>
    cases bs with
    | nil => rfl
    | cons b bs =>
      have hrest := ih fun a ha b hb =>
        h a (List.mem_cons_of_mem _ ha) b (List.mem_cons_of_mem _ hb)
      rw [compareVectors, compareVectors, h a List.mem_cons_self b List.mem_cons_self, hrest,
        Ordering.swap_then]

/-- Two vectors that start alike are told apart by the items behind. -/
theorem compareVectors_append {cmp : α → α → Ordering} {pre pre' post post' : List α} {a b : α}
    (hpre : List.Forall₂ (fun x y => cmp x y = .eq) pre pre') (hne : cmp a b ≠ .eq) :
    compareVectors cmp (pre ++ a :: post) (pre' ++ b :: post') = cmp a b := by
  induction hpre with
  | nil =>
    show (cmp a b).then _ = _
    cases hcmp : cmp a b with
    | eq => exact absurd hcmp hne
    | lt => rfl
    | gt => rfl
  | cons hxy _ ih =>
    rw [List.cons_append, List.cons_append, compareVectors, hxy, Ordering.eq_then, ih]

/-- Two comparators agree on vectors, or behind a common start they tell two items apart in two
ways. -/
theorem compareVectors_eq_or (cmp cmp' : α → α → Ordering) (as bs : List α) :
    compareVectors cmp' as bs = compareVectors cmp as bs ∨
      ∃ pre a post pre' b post', as = pre ++ a :: post ∧ bs = pre' ++ b :: post' ∧
        List.Forall₂ (fun x y => cmp x y = .eq) pre pre' ∧ cmp' a b ≠ cmp a b := by
  induction as generalizing bs with
  | nil =>
    left
    cases bs <;> rfl
  | cons a as ih =>
    cases bs with
    | nil => exact .inl rfl
    | cons b bs =>
      by_cases hsame : cmp' a b = cmp a b
      · by_cases heq : cmp a b = .eq
        · rcases ih bs with hrest | ⟨pre, a', post, pre', b', post', rfl, rfl, hpre, hne⟩
          · left
            rw [compareVectors, compareVectors, hsame, hrest]
          · exact .inr ⟨a :: pre, a', post, b :: pre', b', post', rfl, rfl, .cons heq hpre, hne⟩
        · left
          have hcut (c : α → α → Ordering) (hc : c a b ≠ .eq) :
              compareVectors c (a :: as) (b :: bs) = c a b :=
            @compareVectors_append α c [] [] as bs a b .nil hc
          rw [hcut cmp' (hsame ▸ heq), hcut cmp heq, hsame]
      · exact .inr ⟨[], a, as, [], b, bs, rfl, rfl, .nil, hsame⟩

theorem StrictWeakOn.vectors {S : α → Prop} {cmp : α → α → Ordering} (h : StrictWeakOn S cmp) :
    StrictWeakOn (fun as => ∀ a ∈ as, S a) (compareVectors cmp) := by
  refine ⟨fun as bs has hbs => ?_, fun as => ?_⟩
  · exact compareVectors_swap fun a ha b hb => h.oriented a b (has a ha) (hbs b hb)
  · induction as with
    | nil =>
      intro bs cs _ _ _ _ _
      cases cs <;> rfl
    | cons a as ih =>
      intro bs cs has hbs hcs hab hbc
      cases bs with
      | nil => cases hab
      | cons b bs =>
        cases cs with
        | nil => cases hbc
        | cons c cs =>
          obtain ⟨ha, has⟩ := List.forall_mem_cons.mp has
          obtain ⟨hb, hbs⟩ := List.forall_mem_cons.mp hbs
          obtain ⟨hc, hcs⟩ := List.forall_mem_cons.mp hcs
          rw [compareVectors, isLE_then] at hab hbc ⊢
          rcases hab with hab | ⟨hab, hab'⟩
          · refine .inl (h.lt_of_lt_of_isLE ha hb hc hab ?_)
            rcases hbc with hbc | ⟨hbc, -⟩ <;> rw [hbc] <;> rfl
          · rcases hbc with hbc | ⟨hbc, hbc'⟩
            · exact .inl (h.lt_of_isLE_of_lt ha hb hc (by rw [hab]; rfl) hbc)
            · exact .inr ⟨h.eq_trans ha hb hc hab hbc, ih bs cs has hbs hcs hab' hbc'⟩

/-! ## Sorting -/

/-- The stable sort by a comparator. -/
def sortBy (cmp : α → α → Ordering) (l : List α) : List α :=
  l.mergeSort fun a b => (cmp a b).isLE

theorem sortBy_perm (cmp : α → α → Ordering) (l : List α) : (sortBy cmp l).Perm l :=
  List.mergeSort_perm l _

/-- Sorting values of a kind is sorting them as members of the list. -/
theorem sortBy_eq_map_attach (cmp : α → α → Ordering) (l : List α) :
    sortBy cmp l =
      (l.attach.mergeSort fun a b => (cmp a.1 b.1).isLE).map Subtype.val := by
  rw [List.map_mergeSort (s := fun a b => (cmp a b).isLE) fun _ _ _ _ => rfl,
    List.attach_map_subtype_val]
  rfl

section
variable {cmp : α → α → Ordering} {l : List α} (h : StrictWeakOn (· ∈ l) cmp)
include h

theorem StrictWeakOn.attach_trans (a b c : { x // x ∈ l }) :
    (cmp a.1 b.1).isLE = true → (cmp b.1 c.1).isLE = true → (cmp a.1 c.1).isLE = true :=
  h.trans a.1 b.1 c.1 a.2 b.2 c.2

theorem StrictWeakOn.attach_total (a b : { x // x ∈ l }) :
    ((cmp a.1 b.1).isLE || (cmp b.1 a.1).isLE) = true := by
  rw [h.oriented b.1 a.1 b.2 a.2]
  cases cmp a.1 b.1 <;> rfl

theorem StrictWeakOn.pairwise_sortBy : (sortBy cmp l).Pairwise fun a b => (cmp a b).isLE := by
  rw [sortBy_eq_map_attach, List.pairwise_map]
  exact List.pairwise_mergeSort h.attach_trans h.attach_total l.attach

/-- Sorting is stable: it leaves what is in order as it stands. -/
theorem StrictWeakOn.sublist_sortBy {k : List α} (hk : k.Sublist l)
    (hpair : k.Pairwise fun a b => (cmp a b).isLE) : k.Sublist (sortBy cmp l) := by
  rw [← List.attach_map_subtype_val l, List.sublist_map_iff] at hk
  obtain ⟨k', hk', rfl⟩ := hk
  rw [List.pairwise_map] at hpair
  rw [sortBy_eq_map_attach]
  exact (List.sublist_mergeSort h.attach_trans h.attach_total hpair hk').map _

end

/-! ## Where items stand -/

/-- An item stands before another one. -/
def Precedes (l : List α) (a b : α) : Prop := [a, b].Sublist l

theorem Precedes.mem_left {l : List α} {a b : α} (h : Precedes l a b) : a ∈ l :=
  h.subset List.mem_cons_self

theorem Precedes.mem_right {l : List α} {a b : α} (h : Precedes l a b) : b ∈ l :=
  h.subset (List.mem_cons_of_mem _ List.mem_cons_self)

theorem Precedes.ne {l : List α} (hn : l.Nodup) {a b : α} (h : Precedes l a b) : a ≠ b := by
  have hnodup := hn.sublist h
  rintro rfl
  simp at hnodup

theorem Precedes.asymm {l : List α} (hn : l.Nodup) {a b : α} (h : Precedes l a b) :
    ¬Precedes l b a := by
  intro h'
  induction l with
  | nil => cases h
  | cons c l ih =>
    obtain ⟨hc, hn⟩ := List.nodup_cons.mp hn
    cases h with
    | cons _ h =>
      cases h' with
      | cons _ h' => exact ih hn h h'
      | cons_cons _ h' => exact hc (Precedes.mem_right h)
    | cons_cons _ h =>
      cases h' with
      | cons _ h' => exact hc (Precedes.mem_right h')
      | cons_cons _ h' => exact hc (List.singleton_sublist.mp h)

theorem precedes_or {l : List α} {a b : α} (ha : a ∈ l) (hb : b ∈ l) (hne : a ≠ b) :
    Precedes l a b ∨ Precedes l b a := by
  induction l with
  | nil => cases ha
  | cons c l ih =>
    rcases List.mem_cons.mp ha with rfl | ha'
    · refine .inl (.cons_cons _ (List.singleton_sublist.mpr ?_))
      exact (List.mem_cons.mp hb).resolve_left hne.symm
    · rcases List.mem_cons.mp hb with rfl | hb'
      · exact .inr (.cons_cons _ (List.singleton_sublist.mpr ha'))
      · exact (ih ha' hb').imp (.cons _) (.cons _)

theorem pairwise_precedes (l : List α) : l.Pairwise (Precedes l) :=
  List.pairwise_iff_forall_sublist.mpr fun h => h

/-! ## Stability -/

section
variable {cmp : α → α → Ordering} {l : List α} (h : StrictWeakOn (· ∈ l) cmp)
include h

/-- Of two items in a sorted list the first one is before the other, or ties with it and stood
before it. -/
theorem StrictWeakOn.of_precedes_sortBy (hn : l.Nodup) {a b : α}
    (hab : Precedes (sortBy cmp l) a b) : cmp a b = .lt ∨ cmp a b = .eq ∧ Precedes l a b := by
  have hperm := sortBy_perm cmp l
  have ha : a ∈ l := hperm.mem_iff.mp hab.mem_left
  have hb : b ∈ l := hperm.mem_iff.mp hab.mem_right
  have hn' : (sortBy cmp l).Nodup := hperm.nodup_iff.mpr hn
  have hle := List.pairwise_iff_forall_sublist.mp h.pairwise_sortBy hab
  cases hcmp : cmp a b with
  | lt => exact .inl rfl
  | gt =>
    rw [hcmp] at hle
    cases hle
  | eq =>
    refine .inr ⟨rfl, (precedes_or ha hb (hab.ne hn')).resolve_right fun hba => ?_⟩
    refine hab.asymm hn' (h.sublist_sortBy hba ?_)
    simp [h.eq_symm ha hb hcmp]

/-- A permutation in which ties stand as they did is what sorting gives. -/
theorem StrictWeakOn.sortBy_eq (hn : l.Nodup) {k : List α} (hperm : k.Perm l)
    (hk : k.Pairwise fun a b => cmp a b = .lt ∨ cmp a b = .eq ∧ Precedes l a b) :
    sortBy cmp l = k := by
  have hsorted : (sortBy cmp l).Pairwise fun a b =>
      cmp a b = .lt ∨ cmp a b = .eq ∧ Precedes l a b :=
    List.pairwise_iff_forall_sublist.mpr fun hab => h.of_precedes_sortBy hn hab
  refine ((sortBy_perm cmp l).trans hperm.symm).eq_of_pairwise
    (fun a b ha hb hab hba => ?_) hsorted hk
  have ha : a ∈ l := (sortBy_perm cmp l).mem_iff.mp ha
  have hb : b ∈ l := hperm.mem_iff.mp hb
  rcases hab with hlt | ⟨heq, hab⟩
  · have hgt := (h.lt_iff_gt ha hb).mp hlt
    rcases hba with hlt' | ⟨heq', -⟩
    · rw [hgt] at hlt'
      cases hlt'
    · rw [hgt] at heq'
      cases heq'
  · rcases hba with hlt' | ⟨-, hba⟩
    · rw [h.eq_symm ha hb heq] at hlt'
      cases hlt'
    · exact absurd hba (hab.asymm hn)

theorem StrictWeakOn.filter_sortBy (hn : l.Nodup) (p : α → Bool) :
    (sortBy cmp l).filter p = sortBy cmp (l.filter p) := by
  have hmem : ∀ a, a ∈ l.filter p → a ∈ l := fun a ha => List.mem_of_mem_filter ha
  symm
  refine (h.mono hmem).sortBy_eq (hn.filter p) ((sortBy_perm cmp l).filter p) ?_
  refine List.pairwise_iff_forall_sublist.mpr fun {a b} hab => ?_
  have hab' : Precedes (sortBy cmp l) a b := List.Sublist.trans hab List.filter_sublist
  refine (h.of_precedes_sortBy hn hab').imp_right fun ⟨heq, hl⟩ => ⟨heq, ?_⟩
  have hpa : p a = true := (List.mem_filter.mp (Precedes.mem_left hab)).2
  have hpb : p b = true := (List.mem_filter.mp (Precedes.mem_right hab)).2
  have hfilter := List.Sublist.filter p hl
  simpa [Precedes, hpa, hpb] using hfilter

end

/-- What sorting gives once items have changed: those that are told apart by now, and those that
compare as they did and stood in order already. -/
theorem sortBy_map_eq {cmp : α → α → Ordering} {cmp' : β → β → Ordering} {l : List α} {f : α → β}
    (h : StrictWeakOn (· ∈ l) cmp) (h' : StrictWeakOn (· ∈ l.map f) cmp') (hn : (l.map f).Nodup)
    {k : List α} (hperm : k.Perm l)
    (hk : k.Pairwise fun a b => cmp' (f a) (f b) = .lt ∨
      cmp' (f a) (f b) = cmp a b ∧ Precedes (sortBy cmp l) a b) :
    sortBy cmp' (l.map f) = k.map f := by
  refine h'.sortBy_eq hn (hperm.map f) (List.pairwise_map.mpr (hk.imp fun {a b} hab => ?_))
  rcases hab with hlt | ⟨hsame, hab⟩
  · exact .inl hlt
  · rw [hsame]
    refine (h.of_precedes_sortBy hn.of_map hab).imp_right fun ⟨heq, hl⟩ => ⟨heq, ?_⟩
    exact hl.map f

end Neoseq.Collections
