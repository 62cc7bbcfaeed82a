import Neoseq.Forest.Level

/-! The last labels of an ordered forest, level by level, and grafts: trees that go after the
children of a label. A graft onto the spine adds its labels at the end of the pre-order. -/

namespace Neoseq.Forest
variable {α : Type}

/-- The last label of the top row, the last child of that, and so on down. -/
def spine : Forest α → List α
  | nil => []
  | node a k nil => a :: spine k
  | node _ _ (node b k r) => spine (node b k r)

theorem spine_append_node (l : Forest α) (b : α) (k : Forest α) :
    spine (l ++ node b k nil) = b :: spine k := by
  induction l with
  | nil => rfl
  | node a k' r _ ih =>
    cases r with
    | nil => rfl
    | node a' k'' r' => exact ih

theorem spine_subset (f : Forest α) : spine f ⊆ labels f := by
  induction f using spine.induct with
  | case1 => exact List.Subset.refl _
  | case2 a k ih =>
    intro x hx
    rw [spine] at hx
    rw [labels_node, labels_nil, List.append_nil]
    exact List.cons_subset_cons a ih hx
  | case3 a k b k' r ih =>
    intro x hx
    rw [labels_node]
    exact List.mem_cons_of_mem _ (List.mem_append_right _ (ih hx))

/-- Every label of the spine ends the row of the one above it. -/
theorem spine_length_le (f : Forest α) : (spine f).length ≤ (labels f).length := by
  induction f using spine.induct with
  | case1 => exact Nat.le_refl _
  | case2 a k ih =>
    rw [spine]
    simpa using ih
  | case3 a k b k' r ih =>
    rw [spine, labels_node a, List.length_cons, List.length_append]
    omega

variable [DecidableEq α]

/-! ## Grafts -/

/-- The trees `g` after the children of `t`. -/
def graft (t : α) (g : Forest α) : Forest α → Forest α := mapUnder t (· ++ g)

theorem graft_nil (t : α) (f : Forest α) : graft t nil f = f := by
  unfold graft
  induction f with
  | nil => rfl
  | node a k r ihk ihr => rw [mapUnder, append_nil, ihk, ihr, ite_self]

theorem graft_append (t : α) (g g' f : Forest α) :
    graft t (g ++ g') f = graft t g' (graft t g f) := by
  unfold graft
  induction f with
  | nil => rfl
  | node a k r ihk ihr =>
    rw [mapUnder, mapUnder]
    split
    · next h => rw [mapUnder, if_pos h, append_assoc]
    · next h => rw [mapUnder, if_neg h, ihk, ihr]

/-- An insertion at the end of the row of `t` is a graft. -/
theorem mapUnder_insertAt_end {t : α} {f : Forest α} (g : Forest α)
    (hn : (labels f).Nodup) {i : Nat} (hi : (roots (under t f)).length ≤ i) :
    mapUnder t (insertAt g i) f = graft t g f := by
  by_cases ht : t ∈ labels f
  · obtain ⟨z, l, k, r, rfl⟩ := exists_plug ht
    have hrow (φ : Forest α → Forest α) : mapUnder t φ (plug z (l ++ node t k r)) =
        plug z (l ++ node t (φ k) r) := by
      have h := mapRow_plug (z := ⟨l, t, r⟩ :: z) (g := k) φ hn
      exact h
    rw [under_split hn] at hi
    unfold graft
    rw [hrow, hrow, insertAt_end g hi]
  · unfold graft
    rw [mapUnder_of_not_mem ht, mapUnder_of_not_mem ht]

theorem roots_graft (t : α) (g f : Forest α) : roots (graft t g f) = roots f := by
  unfold graft
  induction f with
  | nil => rfl
  | node a k r _ ih =>
    rw [mapUnder]
    split
    · rfl
    · rw [roots_node, ih, roots_node]

theorem labels_perm_graft {t : α} {f : Forest α} (g : Forest α) (ht : t ∈ labels f)
    (hn : (labels f).Nodup) : (labels (graft t g f)).Perm (labels g ++ labels f) := by
  obtain ⟨z, l, k, r, rfl⟩ := exists_plug ht
  have h := mapRow_plug (z := ⟨l, t, r⟩ :: z) (g := k) (· ++ g) hn
  have hgraft : graft t g (plug z (l ++ node t k r)) = plug (⟨l, t, r⟩ :: z) (k ++ (g ++ nil)) := by
    rw [append_nil]
    exact h
  rw [hgraft]
  refine (labels_perm_insert _ k g nil).trans ?_
  rw [append_nil]
  rfl

/-- What is grafted onto the spine comes last. -/
theorem labels_graft {t : α} {f : Forest α} (g : Forest α) (ht : t ∈ spine f)
    (hn : (labels f).Nodup) : labels (graft t g f) = labels f ++ labels g := by
  unfold graft
  induction f using spine.induct with
  | case1 => cases ht
  | case2 a k ih =>
    rw [labels_node, labels_nil, List.append_nil, List.nodup_cons] at hn
    rw [spine, List.mem_cons] at ht
    rw [mapUnder]
    split
    · simp
    · next hne =>
      have hk := ih (ht.resolve_left (Ne.symm hne)) hn.2
      rw [labels_node, hk]
      simp [mapUnder]
  | case3 a k b k' r ih =>
    rw [labels_node, List.nodup_cons, List.nodup_append, List.mem_append, not_or] at hn
    obtain ⟨⟨_, ha⟩, _, hr, hd⟩ := hn
    have htr : t ∈ labels (node b k' r) := spine_subset _ ht
    have hne : a ≠ t := fun he => ha (he ▸ htr)
    have htk : t ∉ labels k := fun h => hd t h t htr rfl
    rw [mapUnder, if_neg hne, mapUnder_of_not_mem htk, labels_node, ih ht hr, labels_node a,
      List.cons_append, List.append_assoc]

theorem parentIn_graft {t : α} {f : Forest α} (g : Forest α) (ht : t ∈ labels f)
    (hn : (labels f).Nodup) {x : α} (hx : x ∉ labels g ∨ x ∉ labels f) (p : Option α) :
    parentIn p x (graft t g f) = (parentIn p x f).or (parentIn (some t) x g) := by
  unfold graft
  induction f generalizing p with
  | nil => cases ht
  | node a k r ihk ihr =>
    rw [labels_node, List.nodup_cons, List.nodup_append, List.mem_append, not_or] at hn
    obtain ⟨⟨hak, har⟩, hk, hr, hd⟩ := hn
    rw [labels_node, List.mem_cons, List.mem_append, not_or, not_or] at hx
    rw [mapUnder]
    by_cases hat : a = t
    · subst hat
      rw [if_pos rfl, parentIn, parentIn]
      split
      · rfl
      · rw [parentIn_append, Option.or_assoc, Option.or_assoc]
        congr 1
        rcases hx with hx | hx
        · rw [parentIn_of_not_mem hx, Option.none_or, Option.or_none]
        · rw [parentIn_of_not_mem hx.2.2, Option.or_none, Option.none_or]
    · rw [if_neg hat, parentIn, parentIn]
      rw [labels_node, List.mem_cons] at ht
      have ht := List.mem_append.mp (ht.resolve_left (Ne.symm hat))
      split
      · rfl
      · rcases ht with htk | htr
        · have hr' : t ∉ labels r := fun h => hd t htk t h rfl
          have hxk : x ∉ labels g ∨ x ∉ labels k := hx.imp_right fun h => h.2.1
          rw [ihk htk hk hxk, mapUnder_of_not_mem hr', Option.or_assoc, Option.or_assoc]
          congr 1
          rcases hx with hx | hx
          · rw [parentIn_of_not_mem hx, Option.none_or, Option.or_none]
          · rw [parentIn_of_not_mem hx.2.2, Option.or_none, Option.none_or]
        · have hk' : t ∉ labels k := fun h => hd t h t htr rfl
          have hxr : x ∉ labels g ∨ x ∉ labels r := hx.imp_right fun h => h.2.2
          rw [mapUnder_of_not_mem hk', ihr htr hr hxr, Option.or_assoc]

/-- The roots of a row change their parent with its owner, and no other label does. -/
theorem parentIn_owner {x : α} {g : Forest α} (hn : (labels g).Nodup) (p q : Option α) :
    parentIn p x g = if x ∈ roots g then some p else parentIn q x g := by
  induction g with
  | nil => rfl
  | node a k r ihk ihr =>
    rw [labels_node, List.nodup_cons, List.nodup_append] at hn
    obtain ⟨_, hk, hr, hd⟩ := hn
    simp only [parentIn, roots_node, List.mem_cons]
    by_cases hax : a = x
    · rw [if_pos hax, if_pos (Or.inl hax.symm)]
    · rw [if_neg hax, if_neg hax, ihr hr]
      by_cases hxr : x ∈ roots r
      · have hxk : x ∉ labels k := fun h => hd x h x (mem_labels_of_mem_roots hxr) rfl
        rw [if_pos hxr, if_pos (Or.inr hxr), parentIn_of_not_mem hxk, Option.none_or]
      · have hnot : ¬(x = a ∨ x ∈ roots r) := fun h => h.elim (fun h => hax h.symm) hxr
        rw [if_neg hxr, if_neg hnot]

/-! ## Last children -/

/-- `y` is the last child of `x`. -/
def LastChild (f : Forest α) (x y : α) : Prop := (row (some x) f).bind List.getLast? = some y

/-- Below a label, the last child starts the spine. -/
theorem lastChild_iff {f : Forest α} (hn : (labels f).Nodup) {x y : α} (hx : x ∈ labels f) :
    LastChild f x y ↔ y ∈ labels f ∧ spine (under x f) = y :: spine (under y f) := by
  obtain ⟨z, l, k, r, rfl⟩ := exists_plug hx
  unfold LastChild
  rw [row, if_pos hx, under_split hn, Option.bind_some]
  constructor
  · intro h
    obtain ⟨m, ky, rfl⟩ := exists_last h
    have hsplit := under_split (z := ⟨l, x, r⟩ :: z) hn
    rw [plug_cons] at hsplit
    rw [spine_append_node, hsplit]
    exact ⟨by simp [labels_plug], rfl⟩
  · rintro ⟨_, hspine⟩
    cases hk : (roots k).getLast? with
    | none =>
      have hroots : roots k = [] := List.getLast?_eq_none_iff.mp hk
      cases k with
      | nil => cases hspine
      | node a k' r' => cases hroots
    | some y' =>
      obtain ⟨m, ky, rfl⟩ := exists_last hk
      rw [spine_append_node] at hspine
      rw [(List.cons.inj hspine).1]

theorem exists_lastChild {f : Forest α} {x : α} (hx : x ∈ labels f)
    (h : spine (under x f) ≠ []) : ∃ y, LastChild f x y := by
  unfold LastChild
  rw [row, if_pos hx, Option.bind_some]
  cases hroots : (roots (under x f)).getLast? with
  | some y => exact ⟨y, rfl⟩
  | none =>
    refine absurd ?_ h
    cases hu : under x f with
    | nil => rfl
    | node a k r =>
      rw [hu, roots_node, List.getLast?_eq_none_iff] at hroots
      cases hroots

/-- The labels from `x` down the last children are `x` and the spine below it. -/
theorem reach_lastChild_iff {f : Forest α} (hn : (labels f).Nodup) {x t : α}
    (hx : x ∈ labels f) :
    Relation.ReflTransGen (LastChild f) x t ↔ t ∈ x :: spine (under x f) := by
  constructor
  · intro h
    induction h using Relation.ReflTransGen.head_induction_on with
    | refl => exact List.mem_cons_self ..
    | head hstep _ ih =>
      obtain ⟨hy, hspine⟩ := (lastChild_iff hn hx).mp hstep
      rw [hspine]
      exact List.mem_cons_of_mem _ (ih hy)
  · intro h
    generalize hlen : (spine (under x f)).length = n
    induction n generalizing x with
    | zero =>
      rw [List.length_eq_zero_iff.mp hlen, List.mem_singleton] at h
      rw [h]
    | succ n ih =>
      rcases List.mem_cons.mp h with rfl | hm
      · exact Relation.ReflTransGen.refl
      · obtain ⟨y, hlast⟩ := exists_lastChild hx (List.ne_nil_of_mem hm)
        obtain ⟨hy, hspine⟩ := (lastChild_iff hn hx).mp hlast
        rw [hspine] at hm hlen
        exact Relation.ReflTransGen.head hlast (ih hy hm (Nat.succ.inj hlen))

/-! ## Rows before a tree -/

omit [DecidableEq α] in
theorem not_mem_of_before {z : List (Frame α)} {l g : Forest α} {t : α}
    (hn : (labels (plug z (l ++ g))).Nodup) (ht : t ∈ labels l) :
    t ∉ before z ∧ t ∉ after z ∧ t ∉ labels g ∧ (labels l).Nodup := by
  obtain ⟨hb, ha⟩ := not_mem_path hn (by simp [ht] : t ∈ labels (l ++ g))
  have h := nodup_of_plug hn
  rw [labels_append] at h
  obtain ⟨hl, _, hd⟩ := List.nodup_append.mp h
  exact ⟨hb, ha, fun hm => hd t ht t hm rfl, hl⟩

theorem under_before {z : List (Frame α)} {l g : Forest α} {t : α}
    (hn : (labels (plug z (l ++ g))).Nodup) (ht : t ∈ labels l) :
    under t (plug z (l ++ g)) = under t l := by
  obtain ⟨hb, ha, hg, _⟩ := not_mem_of_before hn ht
  rw [under_plug _ hb ha, under_append_left hg]

theorem row_before {z : List (Frame α)} {l g : Forest α} {t : α}
    (hn : (labels (plug z (l ++ g))).Nodup) (ht : t ∈ labels l) :
    row (some t) (plug z (l ++ g)) = some (roots (under t l)) := by
  rw [row, if_pos (by simp [labels_plug, ht]), under_before hn ht]

theorem under_graft {t : α} {f : Forest α} (g : Forest α) (ht : t ∈ labels f)
    (hn : (labels f).Nodup) : under t (graft t g f) = under t f ++ g := by
  obtain ⟨z, l, k, r, rfl⟩ := exists_plug ht
  have h := mapRow_plug (z := ⟨l, t, r⟩ :: z) (g := k) (· ++ g) hn
  obtain ⟨hb, ha, hl, _⟩ := split_not_mem hn (List.mem_cons_self ..)
  have hgraft : graft t g (plug z (l ++ node t k r)) = plug z (l ++ node t (k ++ g) r) := h
  rw [hgraft, under_split hn, under_plug _ hb ha, under_append_right hl, under, if_pos rfl]

/-! ## Moves to the spine -/

/-- The first child of `b` moves to the end of a row before `b`. -/
theorem moveAt_graft {z : List (Frame α)} {l k k' r : Forest α} {b c t : α} {i : Nat}
    (hn : (labels (plug z (l ++ node b (node c k k') r))).Nodup) (ht : t ∈ labels l)
    (hi : (roots (under t l)).length ≤ i) :
    Movable c (some t) (plug z (l ++ node b (node c k k') r)) ∧
      moveAt c (some t) i (plug z (l ++ node b (node c k k') r)) =
        plug z (graft t (single c k) l ++ node b k' r) := by
  have hsplit : plug z (l ++ node b (node c k k') r) =
      plug (⟨l, b, r⟩ :: z) (nil ++ node c k k') := rfl
  have hn' := hsplit ▸ hn
  obtain ⟨hbefore, hafter, hright, hl⟩ := not_mem_of_before hn ht
  refine ⟨⟨by simp [labels_plug], ?_⟩, ?_⟩
  · intro x hx
    obtain rfl := Option.some.inj hx
    refine ⟨by simp [labels_plug, ht], fun hm => ?_⟩
    rw [hsplit, subtree_split hn'] at hm
    have hsub := (split_not_mem hn' hm).1
    exact hsub (by simp [ht])
  · unfold moveAt
    rw [hsplit, under_split hn', prune_split hn']
    show mapUnder t _ (plug z (l ++ node b (nil ++ k') r)) = _
    have hright' : t ∉ labels (node b k' r) := by
      simp only [labels_node, List.mem_cons, List.mem_append] at hright ⊢
      tauto
    rw [nil_append, mapUnder_plug _ hbefore hafter, mapUnder_append_left hright',
      mapUnder_insertAt_end _ hl hi]

end Neoseq.Forest
