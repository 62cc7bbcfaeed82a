import Neoseq.Forest.Edit

/-! Changing the level of one tree. Raising a tree puts it after its parent and
hands it the siblings that followed it; lowering a tree appends it to the
children of the sibling before it. Neither changes the pre-order, and depths
change inside that tree only. Both are sequences of moves. -/

namespace Neoseq.Forest
variable {α : Type}

/-- `b` leaves the children of its parent `a`, with its later siblings. -/
inductive Raises (b : α) : Forest α → Forest α → Prop where
  | mk (z : List (Frame α)) (L : Forest α) (a : α) (l k r R : Forest α) :
    Raises b (plug (⟨L, a, R⟩ :: z) (l ++ node b k r))
      (plug z (L ++ node a l (node b (k ++ r) R)))

/-- `b` becomes the last child of the sibling `c` before it. -/
inductive Lowers (b c : α) : Forest α → Forest α → Prop where
  | mk (z : List (Frame α)) (l k' k r : Forest α) :
    Lowers b c (plug z (l ++ node c k' (node b k r)))
      (plug z (l ++ node c (k' ++ single b k) r))

theorem Raises.labels_eq {b : α} {f g : Forest α} (h : Raises b f g) : labels g = labels f := by
  obtain ⟨z, L, a, l, k, r, R⟩ := h
  simp [labels_plug]

theorem Lowers.labels_eq {b c : α} {f g : Forest α} (h : Lowers b c f g) :
    labels g = labels f := by
  obtain ⟨z, l, k', k, r⟩ := h
  simp [labels_plug]

/-! ## Depths -/

section Depths
variable [DecidableEq α]

/-- One level more for the labels that satisfy `p`. -/
def deepen (p : α → Bool) (x : α × Nat) : α × Nat := (x.1, if p x.1 then x.2 + 1 else x.2)

omit [DecidableEq α] in
theorem map_deepen_of_not {p : α → Bool} {l : List (α × Nat)}
    (h : ∀ x ∈ l.map Prod.fst, p x = false) : l.map (deepen p) = l := by
  rw [List.map_eq_iff]
  refine fun i => ?_
  cases hi : l[i]? with
  | none => rfl
  | some x =>
    have hx := h x.1 (List.mem_map_of_mem (List.mem_of_getElem? hi))
    simp [deepen, hx]

omit [DecidableEq α] in
theorem map_deepen_depths {p : α → Bool} {f : Forest α} (d : Nat)
    (h : ∀ x ∈ labels f, p x = true) : (depths d f).map (deepen p) = depths (d + 1) f := by
  rw [depths_succ]
  refine List.map_congr_left fun x hx => ?_
  have hp := h x.1 (map_fst_depths d f ▸ List.mem_map_of_mem hx)
  simp [deepen, hp]

omit [DecidableEq α] in
theorem map_fst_beforeDepths (d : Nat) (z : List (Frame α)) :
    (beforeDepths d z).map Prod.fst = before z := by
  induction z with
  | nil => rfl
  | cons t z ih => simp [beforeDepths, ih, map_fst_depths]

omit [DecidableEq α] in
theorem map_fst_afterDepths (d : Nat) (z : List (Frame α)) :
    (afterDepths d z).map Prod.fst = after z := by
  induction z with
  | nil => rfl
  | cons t z ih => simp [afterDepths, ih, map_fst_depths]

/-- Whether a label lies in the tree of `b`. -/
def inTree (b : α) (f : Forest α) (x : α) : Bool := (subtree b f).contains x

theorem inTree_split {z : List (Frame α)} {l k r : Forest α} {b x : α}
    (hn : (labels (plug z (l ++ node b k r))).Nodup) :
    inTree b (plug z (l ++ node b k r)) x = true ↔ x ∈ b :: labels k := by
  rw [inTree, subtree_split hn, List.contains_eq_mem, decide_eq_true_eq]

/-- The pre-order before a tree and after it, with depths. -/
def depthsBefore (z : List (Frame α)) (l : Forest α) : List (α × Nat) :=
  beforeDepths 0 z ++ depths z.length l

def depthsAfter (z : List (Frame α)) (r : Forest α) : List (α × Nat) :=
  depths z.length r ++ afterDepths 0 z

omit [DecidableEq α] in
theorem depths_split (z : List (Frame α)) (l k r : Forest α) (b : α) :
    depths 0 (plug z (l ++ node b k r)) =
      depthsBefore z l ++ ((b, z.length) :: depths (z.length + 1) k ++ depthsAfter z r) := by
  simp [depths_plug, depthsBefore, depthsAfter]

/-- One level more for a tree moves its own labels and none around it. -/
theorem map_deepen_split {z : List (Frame α)} {l k r : Forest α} {b : α} (d : Nat)
    (hn : (labels (plug z (l ++ node b k r))).Nodup) :
    (depthsBefore z l ++ ((b, d) :: depths (d + 1) k ++ depthsAfter z r)).map
        (deepen (inTree b (plug z (l ++ node b k r)))) =
      depthsBefore z l ++ ((b, d + 1) :: depths (d + 2) k ++ depthsAfter z r) := by
  have hout : ∀ x, x ∉ b :: labels k → inTree b (plug z (l ++ node b k r)) x = false :=
    fun x hx => by rw [← Bool.not_eq_true, inTree_split hn]; exact hx
  have hA : (depthsBefore z l).map Prod.fst = before z ++ labels l := by
    simp [depthsBefore, map_fst_beforeDepths, map_fst_depths]
  have hC : (depthsAfter z r).map Prod.fst = labels r ++ after z := by
    simp [depthsAfter, map_fst_afterDepths, map_fst_depths]
  have hb : deepen (inTree b (plug z (l ++ node b k r))) (b, d) = (b, d + 1) := by
    simp [deepen, (inTree_split hn).mpr (List.mem_cons_self ..)]
  rw [List.map_append, List.map_append, List.map_cons, hb, map_deepen_of_not, map_deepen_depths,
    map_deepen_of_not]
  · intro x hx
    refine hout x fun hm => ?_
    obtain ⟨_, h2, _, h4⟩ := split_not_mem hn hm
    rw [hC, List.mem_append] at hx
    exact hx.elim h4 h2
  · exact fun x hx => (inTree_split hn).mpr (List.mem_cons_of_mem _ hx)
  · intro x hx
    refine hout x fun hm => ?_
    obtain ⟨h1, _, h3, _⟩ := split_not_mem hn hm
    rw [hA, List.mem_append] at hx
    exact hx.elim h1 h3

/-- Raising lowers the depth of exactly the labels in the tree. -/
theorem Raises.depths_eq {b : α} {f g : Forest α} (h : Raises b f g) (hn : (labels f).Nodup) :
    depths 0 f = (depths 0 g).map (deepen (inTree b f)) := by
  obtain ⟨z, L, a, l, k, r, R⟩ := h
  have hg : depths 0 (plug z (L ++ node a l (node b (k ++ r) R))) =
      depthsBefore (⟨L, a, R⟩ :: z) l ++
        ((b, z.length) :: depths (z.length + 1) k ++ depthsAfter (⟨L, a, R⟩ :: z) r) := by
    simp [depths_plug, depthsBefore, depthsAfter, beforeDepths, afterDepths]
  rw [hg, map_deepen_split _ hn, depths_split]; rfl

/-- Lowering raises the depth of exactly the labels in the tree. -/
theorem Lowers.depths_eq {b c : α} {f g : Forest α} (h : Lowers b c f g)
    (hn : (labels f).Nodup) : depths 0 g = (depths 0 f).map (deepen (inTree b f)) := by
  obtain ⟨z, l, k', k, r⟩ := h
  have he : l ++ node c k' (node b k r) = (l ++ single c k') ++ node b k r := by
    simp [single]
  rw [he] at hn ⊢
  rw [depths_split z (l ++ single c k'), map_deepen_split _ hn]
  simp [depths_plug, depthsBefore, depthsAfter, single]

end Depths

/-! ## Other trees -/

section Others
variable [DecidableEq α]

theorem under_node_of_ne {a x : α} (k r : Forest α) (h : a ≠ x) :
    under x (node a k r) = under x k ++ under x r := by
  rw [under, if_neg h]

theorem under_append_congr {l g g' : Forest α} {x : α}
    (h : under x g = under x g') : under x (l ++ g) = under x (l ++ g') := by
  induction l with
  | nil => exact h
  | node a k r _ ih => rw [node_append, node_append, under, under, ih]

theorem under_plug_congr {z : List (Frame α)} {g g' : Forest α} {x : α}
    (ho : ∀ t ∈ z, t.owner ≠ x) (h : under x g = under x g') :
    under x (plug z g) = under x (plug z g') := by
  induction z generalizing g g' with
  | nil => exact h
  | cons t z ih =>
    refine ih (fun u hu => ho u (List.mem_cons_of_mem _ hu)) (under_append_congr ?_)
    rw [under, under, if_neg (ho t (List.mem_cons_self ..)),
      if_neg (ho t (List.mem_cons_self ..)), h]

/-- Raising a tree keeps every tree that neither holds it nor lies in it. -/
theorem Raises.under_eq {b x : α} {f g : Forest α} (h : Raises b f g) (hn : (labels f).Nodup)
    (hx : x ∉ subtree b f) (hb : b ∉ subtree x f) : under x g = under x f := by
  obtain ⟨z, L, a, l, k, r, R⟩ := h
  rw [subtree_split hn, List.mem_cons, not_or] at hx
  rw [mem_subtree_split_iff hn, not_or] at hb
  have ho : ∀ t ∈ (⟨L, a, R⟩ :: z : List (Frame α)), t.owner ≠ x := fun t ht he => hb.2 ⟨t, ht, he⟩
  refine (under_plug_congr (fun t ht => ho t (List.mem_cons_of_mem _ ht))
    (under_append_congr ?_)).symm
  have hax : a ≠ x := ho _ (List.mem_cons_self ..)
  rw [under_node_of_ne _ _ hax, under_node_of_ne _ _ hax, under_node_of_ne _ _ (Ne.symm hx.1),
    under_append_right hx.2]
  by_cases hl : x ∈ labels l
  · have hr := nodup_of_plug hn
    rw [labels_append, List.nodup_append] at hr
    have hnr : x ∉ labels (node b k r) := fun hm => hr.2.2 x hl x hm rfl
    have hxr : x ∉ labels r := fun hm => hnr (by simp [hm])
    rw [under_append_left hnr, under_of_not_mem hxr, nil_append]
  · rw [under_append_right hl, under_node_of_ne _ _ (Ne.symm hx.1), under_of_not_mem hx.2,
      under_of_not_mem hl, nil_append, nil_append]

/-- Lowering a tree keeps every other tree but those it lands in. -/
theorem Lowers.under_eq {b c x : α} {f g : Forest α} (h : Lowers b c f g)
    (hn : (labels f).Nodup) (hx : x ∉ subtree b f) (hb : b ∉ subtree x f) (hc : c ≠ x) :
    under x g = under x f := by
  obtain ⟨z, l, k', k, r⟩ := h
  have he : l ++ node c k' (node b k r) = (l ++ single c k') ++ node b k r := by
    simp [single]
  rw [he] at hn hx hb
  rw [subtree_split hn, List.mem_cons, not_or] at hx
  rw [mem_subtree_split_iff hn, not_or] at hb
  refine (under_plug_congr (fun t ht he => hb.2 ⟨t, ht, he⟩) (under_append_congr ?_)).symm
  have hs : x ∉ labels (single b k) := by simp [hx.1, hx.2]
  rw [under_node_of_ne _ _ hc, under_node_of_ne _ _ hc, under_node_of_ne _ _ (Ne.symm hx.1),
    under_append_left hs, under_of_not_mem hx.2, nil_append]

/-- Two trees that share a label are nested. -/
theorem subtree_laminar {b c x : α} {f : Forest α} (hn : (labels f).Nodup)
    (hx : x ∈ labels f) (hb : x ∈ subtree b f) (hc : x ∈ subtree c f) :
    b ∈ subtree c f ∨ c ∈ subtree b f := by
  obtain ⟨z, l, k, r, rfl⟩ := exists_plug hx
  have hb' := (mem_subtree_split_iff hn).mp hb
  have hc' := (mem_subtree_split_iff hn).mp hc
  rcases hb' with rfl | ⟨t, ht, rfl⟩
  · exact .inl hc
  rcases hc' with rfl | ⟨u, hu, rfl⟩
  · exact .inr hb
  obtain ⟨y, z, rfl⟩ := List.append_of_mem ht
  have hp : ∀ g, plug (y ++ t :: z) g = plug z (t.left ++ node t.owner (plug y g) t.right) :=
    fun g => by rw [plug_append, plug_cons]
  rcases List.mem_append.mp hu with hu | hu
  · obtain ⟨v, w, rfl⟩ := List.append_of_mem hu
    have hq : ∀ g, plug (v ++ u :: w ++ t :: z) g =
        plug (w ++ t :: z) (u.left ++ node u.owner (plug v g) u.right) := fun g => by
      rw [List.append_assoc, List.cons_append, plug_append, plug_cons]
    rw [hq] at hn ⊢
    exact .inr ((mem_subtree_split_iff hn).mpr (.inr ⟨t, by simp, rfl⟩))
  · rw [hp] at hn ⊢
    rcases List.mem_cons.mp hu with rfl | hu
    · exact .inl (List.mem_cons_self ..)
    · exact .inl ((mem_subtree_split_iff hn).mpr (.inr ⟨u, hu, rfl⟩))

omit [DecidableEq α] in
theorem Raises.mem_roots_iff {b x : α} {f g : Forest α} (h : Raises b f g) (hx : x ≠ b) :
    x ∈ roots g ↔ x ∈ roots f := by
  obtain ⟨z, L, a, l, k, r, R⟩ := h
  cases z with
  | nil => simp [hx]
  | cons t z => rw [plug_cons ⟨L, a, R⟩, roots_plug_cons t z]

end Others

/-! ## As moves -/

section Moves
variable [DecidableEq α]

omit [DecidableEq α] in
theorem insertAt_end (t : Forest α) {i : Nat} {g : Forest α} (h : (roots g).length ≤ i) :
    insertAt t i g = g ++ t := by
  induction g generalizing i with
  | nil => cases i <;> simp [insertAt]
  | node a k r _ ih =>
    cases i with
    | zero => simp at h
    | succ i => rw [insertAt, ih (by simpa using h), node_append]

theorem Lowers.movable {b c : α} {f g : Forest α} (h : Lowers b c f g) (hn : (labels f).Nodup) :
    Movable b (some c) f := by
  obtain ⟨z, l, k', k, r⟩ := h
  have he : l ++ node c k' (node b k r) = (l ++ single c k') ++ node b k r := by
    simp [single]
  refine ⟨by simp [labels_plug], ?_⟩
  intro x hc
  obtain rfl := Option.some.inj hc
  refine ⟨by simp [labels_plug], fun hx => ?_⟩
  rw [he] at hn hx
  rw [subtree_split hn] at hx
  exact (split_not_mem hn hx).2.2.1 (by simp)

/-- Lowering is a move to the end of the new row. -/
theorem Lowers.moveAt_eq {b c : α} {f g : Forest α} {i : Nat} (h : Lowers b c f g)
    (hn : (labels f).Nodup) (hi : (roots (under c f)).length ≤ i) :
    moveAt b (some c) i f = g := by
  obtain ⟨z, l, k', k, r⟩ := h
  have he : l ++ node c k' (node b k r) = (l ++ single c k') ++ node b k r := by
    simp [single]
  rw [under_split hn] at hi
  rw [he] at hn ⊢
  have hp := nodup_prune (b := b) hn
  rw [prune_split hn] at hp
  have hz : (l ++ single c k') ++ r = l ++ node c k' r := by simp [single]
  rw [moveAt, prune_split hn, under_split hn, hz]
  rw [hz] at hp
  exact (mapRow_plug (z := ⟨l, c, r⟩ :: z) _ hp).trans (by rw [insertAt_end _ hi, plug_cons])

/-- `b` may follow `x`: both are there and `x` is not in the tree of `b`. -/
structure Followable (b x : α) (f : Forest α) : Prop where
  mem : b ∈ labels f
  anchor : x ∈ labels f
  outside : x ∉ subtree b f

/-- The data of a legal move to a place after `x`. -/
theorem Followable.split {b x : α} {f : Forest α} (h : Followable b x f)
    (hn : (labels f).Nodup) :
    ∃ z l k r, prune b f = plug z (l ++ node x k r) ∧
      moveAfter b x f = plug z ((l ++ single x k) ++ (single b (under b f) ++ r)) := by
  have hx : x ∈ labels (prune b f) := (mem_labels_prune hn).mpr ⟨h.anchor, h.outside⟩
  obtain ⟨z, l, k, r, he⟩ := exists_plug hx
  refine ⟨z, l, k, r, he, ?_⟩
  rw [moveAfter, he, insertAfter_split _ (he ▸ nodup_prune hn)]

theorem labels_perm_moveAfter {b x : α} {f : Forest α} (h : Followable b x f)
    (hn : (labels f).Nodup) : (labels (moveAfter b x f)).Perm (labels f) := by
  obtain ⟨z, l, k, r, he, hm⟩ := h.split hn
  have hz : plug z ((l ++ single x k) ++ r) = prune b f := by rw [he]; simp [single]
  rw [hm]
  refine (labels_perm_insert z _ _ r).trans ?_
  rw [hz, labels_single]
  exact (labels_perm_prune hn h.mem).symm

/-- Below a sibling with children, lowering follows the last of them. -/
theorem Lowers.after_eq {b c x : α} {f g : Forest α} (h : Lowers b c f g)
    (hn : (labels f).Nodup) (hx : (roots (under c f)).getLast? = some x) :
    Followable b x f ∧ moveAfter b x f = g := by
  obtain ⟨z, l, k', k, r⟩ := h
  have he : l ++ node c k' (node b k r) = (l ++ single c k') ++ node b k r := by
    simp [single]
  rw [under_split hn] at hx
  obtain ⟨m, kx, rfl⟩ := exists_last hx
  rw [he] at hn ⊢
  have hp := nodup_prune (b := b) hn
  have hz : (l ++ single c (m ++ node x kx nil)) ++ r = l ++ node c (m ++ node x kx nil) r := by
    simp [single]
  rw [prune_split hn, hz] at hp
  refine ⟨⟨by simp [labels_plug], by simp [labels_plug], fun hm => ?_⟩, ?_⟩
  · rw [subtree_split hn] at hm
    exact (split_not_mem hn hm).2.2.1 (by simp)
  · rw [moveAfter, prune_split hn, under_split hn, hz]
    refine (insertAfter_split (z := ⟨l, c, r⟩ :: z) _ hp).trans ?_
    simp [single]

/-- The last child of `a` comes out right after `a`. -/
theorem leave_eq {z : List (Frame α)} {L l k R : Forest α} {a b : α}
    (hn : (labels (plug (⟨L, a, R⟩ :: z) (l ++ node b k nil))).Nodup) :
    let f := plug (⟨L, a, R⟩ :: z) (l ++ node b k nil)
    let g := plug z (L ++ node a l (node b k R))
    Movable b (ownerOf z) f ∧ moveAt b (ownerOf z) ((roots L).length + 1) f = g ∧
      Followable b a f ∧ moveAfter b a f = g := by
  have hp := nodup_prune (b := b) hn
  rw [prune_split hn, append_nil, plug_cons] at hp
  have hs : a ∉ subtree b (plug (⟨L, a, R⟩ :: z) (l ++ node b k nil)) := fun hm => by
    rw [subtree_split hn] at hm
    exact (split_not_mem hn hm).1 (by simp)
  refine ⟨⟨by simp [labels_plug], fun x hx => ?_⟩, ?_, ⟨by simp [labels_plug],
    by simp [labels_plug], hs⟩, ?_⟩
  · cases z with
    | nil => simp at hx
    | cons t z =>
      obtain rfl := Option.some.inj hx
      refine ⟨by simp [labels_plug], fun hm => ?_⟩
      rw [subtree_split hn] at hm
      exact (split_not_mem hn hm).1 (by simp)
  · rw [moveAt, prune_split hn, under_split hn, append_nil, plug_cons, mapRow_plug _ hp]
    have := insertAt_eq (single b k) (L ++ single a l) R
    simp only [roots_append, roots_single, List.length_append, List.length_cons,
      List.length_nil, append_assoc] at this
    exact congrArg (plug z) (by simpa [single] using this)
  · rw [moveAfter, prune_split hn, under_split hn, append_nil, plug_cons,
      insertAfter_split _ hp]
    simp [single]

/-- `b` is the first of its row. -/
def Leads (b : α) (f : Forest α) : Prop := ∃ q l, row q f = some (b :: l)

theorem leads_iff {b : α} {f : Forest α} :
    Leads b f ↔ ∃ q, (row q f).bind List.head? = some b := by
  refine ⟨fun ⟨q, l, h⟩ => ⟨q, by rw [h]; rfl⟩, fun ⟨q, h⟩ => ?_⟩
  obtain ⟨m, hm, hh⟩ := Option.bind_eq_some_iff.mp h
  cases m with
  | nil => cases hh
  | cons y ys =>
    obtain rfl := Option.some.inj hh
    exact ⟨q, ys, hm⟩

/-- Lowering keeps which of the other labels come first in their row. -/
theorem Lowers.head_iff {b c x : α} {f g : Forest α} (h : Lowers b c f g)
    (hn : (labels f).Nodup) (hx : x ≠ b) (q : Option α) :
    ((row q g).bind List.head? = some x) ↔ ((row q f).bind List.head? = some x) := by
  have hm := h.movable hn
  have hb : ∀ m, row q f = some m → m.head? ≠ some b := by
    obtain ⟨z, l, k', k, r⟩ := h
    have he : l ++ node c k' (node b k r) = (l ++ single c k') ++ node b k r := by
      simp [single]
    rw [he] at hn ⊢
    intro m hr hb
    have hq := (mem_row_iff hn).mp ⟨m, hr, List.mem_of_head? hb⟩
    obtain rfl := Option.some.inj ((parentIn_split hn).symm.trans hq)
    rw [row_owner hn] at hr
    obtain rfl := Option.some.inj hr
    have hl : b ∉ roots (l ++ single c k') := fun hm =>
      (split_not_mem hn (List.mem_cons_self ..)).2.2.1 (mem_labels_of_mem_roots hm)
    cases hl' : roots (l ++ single c k') with
    | nil => simp at hl'
    | cons y ys =>
      rw [roots_append, hl'] at hb
      obtain rfl := Option.some.inj hb
      exact hl (by simp [hl'])
  rw [← h.moveAt_eq hn (Nat.le_refl _), row_moveAt hm hn]
  cases hr : row q f with
  | none => simp
  | some m =>
    have hh := hb m hr
    have he : (m.erase b).head? = m.head? := by
      cases m with
      | nil => rfl
      | cons y ys =>
        have hy : y ≠ b := fun hy => hh (by rw [hy]; rfl)
        rw [List.erase_cons, if_neg (by simpa using hy)]; rfl
    simp only [Option.map_some, Option.bind_some]
    split
    · next hq =>
      subst hq
      rw [row, if_pos (hm.parent c rfl).1] at hr
      obtain rfl := Option.some.inj hr
      rw [Nat.min_eq_right (List.erase_sublist.length_le), List.insertIdx_length_self,
        ← he]
      cases (roots (under c f)).erase b with
      | nil => simpa using Ne.symm hx
      | cons y ys => simp
    · rw [he]

theorem Lowers.leads_iff {b c x : α} {f g : Forest α} (h : Lowers b c f g)
    (hn : (labels f).Nodup) (hx : x ≠ b) : Leads x g ↔ Leads x f := by
  rw [Forest.leads_iff, Forest.leads_iff]
  exact exists_congr (h.head_iff hn hx)

end Moves
end Neoseq.Forest
