import Neoseq.Forest.Basic

/-! Edits of an ordered forest: the subtree below a label, removing a tree,
changing one row, and the moves built from them. Each operation acts on one
row, so it commutes with `plug` away from the labels it names. The rows and
parents after a move are computed from those before it. -/

namespace Neoseq.Forest
variable {α : Type} [DecidableEq α]

/-- The children of the node labelled `b`. -/
def under (b : α) : Forest α → Forest α
  | nil => nil
  | node a k r => if a = b then k else under b k ++ under b r

/-- Removes the tree of `b`. -/
def prune (b : α) : Forest α → Forest α
  | nil => nil
  | node a k r => if a = b then r else node a (prune b k) (prune b r)

/-- Applies `φ` to the row of children of `p`. -/
def mapUnder (p : α) (φ : Forest α → Forest α) : Forest α → Forest α
  | nil => nil
  | node a k r => if a = p then node a (φ k) r else node a (mapUnder p φ k) (mapUnder p φ r)

/-- Applies `φ` to the row of `p`, the top row for `none`. -/
def mapRow (p : Option α) (φ : Forest α → Forest α) (f : Forest α) : Forest α :=
  match p with
  | none => φ f
  | some p => mapUnder p φ f

/-- Inserts the trees `t` at a position of a row, at its end if it is shorter. -/
def insertAt (t : Forest α) : Nat → Forest α → Forest α
  | 0, g => t ++ g
  | _ + 1, nil => t
  | i + 1, node a k r => node a k (insertAt t i r)

/-- Inserts the trees `t` after the tree of `x`. -/
def insertAfter (x : α) (t : Forest α) : Forest α → Forest α
  | nil => nil
  | node a k r =>
    if a = x then node a k (t ++ r) else node a (insertAfter x t k) (insertAfter x t r)

/-- The row of `p`: the top row, or the children of a node that is there. -/
def row (p : Option α) (f : Forest α) : Option (List α) :=
  match p with
  | none => some (roots f)
  | some q => if q ∈ labels f then some (roots (under q f)) else none

/-- The parent of `b`, where the top row belongs to `p`. -/
def parentIn (p : Option α) (b : α) : Forest α → Option (Option α)
  | nil => none
  | node a k r => if a = b then some p else (parentIn (some a) b k).or (parentIn p b r)

/-- The labels of the tree of `b`. -/
def subtree (b : α) (f : Forest α) : List α := b :: labels (under b f)

/-! ## Away from the label -/

theorem under_of_not_mem {b : α} {f : Forest α} (h : b ∉ labels f) : under b f = nil := by
  induction f with
  | nil => rfl
  | node a k r ihk ihr =>
    simp only [labels_node, List.mem_cons, List.mem_append, not_or] at h
    rw [under, if_neg (Ne.symm h.1), ihk h.2.1, ihr h.2.2, nil_append]

theorem prune_of_not_mem {b : α} {f : Forest α} (h : b ∉ labels f) : prune b f = f := by
  induction f with
  | nil => rfl
  | node a k r ihk ihr =>
    simp only [labels_node, List.mem_cons, List.mem_append, not_or] at h
    rw [prune, if_neg (Ne.symm h.1), ihk h.2.1, ihr h.2.2]

theorem mapUnder_of_not_mem {p : α} {φ : Forest α → Forest α} {f : Forest α}
    (h : p ∉ labels f) : mapUnder p φ f = f := by
  induction f with
  | nil => rfl
  | node a k r ihk ihr =>
    simp only [labels_node, List.mem_cons, List.mem_append, not_or] at h
    rw [mapUnder, if_neg (Ne.symm h.1), ihk h.2.1, ihr h.2.2]

theorem insertAfter_of_not_mem {x : α} {t f : Forest α} (h : x ∉ labels f) :
    insertAfter x t f = f := by
  induction f with
  | nil => rfl
  | node a k r ihk ihr =>
    simp only [labels_node, List.mem_cons, List.mem_append, not_or] at h
    rw [insertAfter, if_neg (Ne.symm h.1), ihk h.2.1, ihr h.2.2]

theorem parentIn_of_not_mem {p : Option α} {b : α} {f : Forest α} (h : b ∉ labels f) :
    parentIn p b f = none := by
  induction f generalizing p with
  | nil => rfl
  | node a k r ihk ihr =>
    simp only [labels_node, List.mem_cons, List.mem_append, not_or] at h
    rw [parentIn, if_neg (Ne.symm h.1), ihk h.2.1, ihr h.2.2]; rfl

theorem parentIn_isSome {p : Option α} {b : α} {f : Forest α} :
    (parentIn p b f).isSome ↔ b ∈ labels f := by
  induction f generalizing p with
  | nil => simp [parentIn]
  | node a k r ihk ihr =>
    by_cases hab : a = b
    · simp [parentIn, hab]
    · simp [parentIn, hab, Ne.symm hab, ihk, ihr]

/-! ## Rows side by side -/

theorem under_append_left {b : α} {l g : Forest α} (h : b ∉ labels g) :
    under b (l ++ g) = under b l := by
  induction l with
  | nil => exact under_of_not_mem h
  | node a k r _ ih => rw [node_append, under, under, ih]

theorem under_append_right {b : α} {l g : Forest α} (h : b ∉ labels l) :
    under b (l ++ g) = under b g := by
  induction l with
  | nil => rfl
  | node a k r _ ih =>
    simp only [labels_node, List.mem_cons, List.mem_append, not_or] at h
    rw [node_append, under, if_neg (Ne.symm h.1), under_of_not_mem h.2.1, nil_append, ih h.2.2]

theorem prune_append_right {b : α} {l g : Forest α} (h : b ∉ labels l) :
    prune b (l ++ g) = l ++ prune b g := by
  induction l with
  | nil => rfl
  | node a k r _ ih =>
    simp only [labels_node, List.mem_cons, List.mem_append, not_or] at h
    rw [node_append, prune, if_neg (Ne.symm h.1), prune_of_not_mem h.2.1, ih h.2.2, node_append]

theorem mapUnder_append_left {p : α} {φ : Forest α → Forest α} {l g : Forest α}
    (h : p ∉ labels g) : mapUnder p φ (l ++ g) = mapUnder p φ l ++ g := by
  induction l with
  | nil => exact mapUnder_of_not_mem h
  | node a k r _ ih =>
    rw [node_append, mapUnder, mapUnder]
    split
    · rfl
    · rw [ih, node_append]

theorem mapUnder_append_right {p : α} {φ : Forest α → Forest α} {l g : Forest α}
    (h : p ∉ labels l) : mapUnder p φ (l ++ g) = l ++ mapUnder p φ g := by
  induction l with
  | nil => rfl
  | node a k r _ ih =>
    simp only [labels_node, List.mem_cons, List.mem_append, not_or] at h
    rw [node_append, mapUnder, if_neg (Ne.symm h.1), mapUnder_of_not_mem h.2.1, ih h.2.2,
      node_append]

theorem insertAfter_append_right {x : α} {t l g : Forest α} (h : x ∉ labels l) :
    insertAfter x t (l ++ g) = l ++ insertAfter x t g := by
  induction l with
  | nil => rfl
  | node a k r _ ih =>
    simp only [labels_node, List.mem_cons, List.mem_append, not_or] at h
    rw [node_append, insertAfter, if_neg (Ne.symm h.1), insertAfter_of_not_mem h.2.1, ih h.2.2,
      node_append]

theorem parentIn_append (p : Option α) (b : α) (l g : Forest α) :
    parentIn p b (l ++ g) = (parentIn p b l).or (parentIn p b g) := by
  induction l with
  | nil => rfl
  | node a k r _ ih =>
    rw [node_append, parentIn, parentIn]
    split
    · rfl
    · rw [ih, Option.or_assoc]

omit [DecidableEq α] in
theorem insertAt_eq (t : Forest α) (l g : Forest α) :
    insertAt t (roots l).length (l ++ g) = l ++ (t ++ g) := by
  induction l with
  | nil => rfl
  | node a k r _ ih => simp [insertAt, ih]

omit [DecidableEq α] in
/-- Every insertion into a row splits it. -/
theorem exists_insertAt (t : Forest α) (i : Nat) (g : Forest α) :
    ∃ l r, g = l ++ r ∧ insertAt t i g = l ++ (t ++ r) ∧
      (roots l).length = min i (roots g).length := by
  induction i generalizing g with
  | zero => exact ⟨nil, g, rfl, by cases g <;> rfl, by simp⟩
  | succ i ih =>
    cases g with
    | nil => exact ⟨nil, nil, rfl, by simp [insertAt], by simp⟩
    | node a k r =>
      obtain ⟨l, r', rfl, hi, hl⟩ := ih r
      refine ⟨node a k l, r', rfl, by rw [insertAt, hi, node_append], ?_⟩
      simp only [roots_node, List.length_cons, hl]
      omega

/-! ## Positions -/

theorem under_plug {z : List (Frame α)} {b : α} (g : Forest α)
    (hb : b ∉ before z) (ha : b ∉ after z) : under b (plug z g) = under b g := by
  induction z generalizing g with
  | nil => rfl
  | cons t z ih =>
    simp only [before_cons, after_cons, List.mem_append, List.mem_singleton, not_or] at hb ha
    rw [plug_cons, ih _ hb.1 ha.2, under_append_right hb.2.1, under, if_neg (Ne.symm hb.2.2),
      under_of_not_mem ha.1, append_nil]

theorem prune_plug {z : List (Frame α)} {b : α} (g : Forest α)
    (hb : b ∉ before z) (ha : b ∉ after z) : prune b (plug z g) = plug z (prune b g) := by
  induction z generalizing g with
  | nil => rfl
  | cons t z ih =>
    simp only [before_cons, after_cons, List.mem_append, List.mem_singleton, not_or] at hb ha
    rw [plug_cons, ih _ hb.1 ha.2, prune_append_right hb.2.1, prune, if_neg (Ne.symm hb.2.2),
      prune_of_not_mem ha.1, plug_cons]

theorem mapUnder_plug {z : List (Frame α)} {p : α} {φ : Forest α → Forest α} (g : Forest α)
    (hb : p ∉ before z) (ha : p ∉ after z) :
    mapUnder p φ (plug z g) = plug z (mapUnder p φ g) := by
  induction z generalizing g with
  | nil => rfl
  | cons t z ih =>
    simp only [before_cons, after_cons, List.mem_append, List.mem_singleton, not_or] at hb ha
    rw [plug_cons, ih _ hb.1 ha.2, mapUnder_append_right hb.2.1, mapUnder,
      if_neg (Ne.symm hb.2.2), mapUnder_of_not_mem ha.1, plug_cons]

theorem insertAfter_plug {z : List (Frame α)} {x : α} {t : Forest α} (g : Forest α)
    (hb : x ∉ before z) (ha : x ∉ after z) :
    insertAfter x t (plug z g) = plug z (insertAfter x t g) := by
  induction z generalizing g with
  | nil => rfl
  | cons u z ih =>
    simp only [before_cons, after_cons, List.mem_append, List.mem_singleton, not_or] at hb ha
    rw [plug_cons, ih _ hb.1 ha.2, insertAfter_append_right hb.2.1, insertAfter,
      if_neg (Ne.symm hb.2.2), insertAfter_of_not_mem ha.1, plug_cons]

/-- Changing the row of the owner changes the row at the position. -/
theorem mapRow_plug {z : List (Frame α)} {g : Forest α} (φ : Forest α → Forest α)
    (hn : (labels (plug z g)).Nodup) : mapRow (ownerOf z) φ (plug z g) = plug z (φ g) := by
  cases z with
  | nil => rfl
  | cons t z =>
    obtain ⟨hb, ha, hl, _, _⟩ := owner_not_mem hn
    rw [ownerOf_cons, mapRow, plug_cons, mapUnder_plug _ hb ha, mapUnder_append_right hl,
      mapUnder, if_pos rfl, plug_cons]

theorem under_owner {t : Frame α} {z : List (Frame α)} {g : Forest α}
    (hn : (labels (plug (t :: z) g)).Nodup) : under t.owner (plug (t :: z) g) = g := by
  obtain ⟨hb, ha, hl, _, _⟩ := owner_not_mem hn
  rw [plug_cons, under_plug _ hb ha, under_append_right hl, under, if_pos rfl]

theorem row_owner {z : List (Frame α)} {g : Forest α} (hn : (labels (plug z g)).Nodup) :
    row (ownerOf z) (plug z g) = some (roots g) := by
  cases z with
  | nil => rfl
  | cons t z =>
    rw [ownerOf_cons, row, under_owner hn, if_pos (by simp [labels_plug])]

theorem parentIn_plug {z : List (Frame α)} {g : Forest α} {b : α}
    (hb : b ∉ before z) (hg : b ∈ labels g) :
    parentIn none b (plug z g) = parentIn (ownerOf z) b g := by
  induction z generalizing g with
  | nil => rfl
  | cons t z ih =>
    simp only [before_cons, List.mem_append, List.mem_singleton, not_or] at hb
    have hs := parentIn_isSome (p := some t.owner).mpr hg
    rw [plug_cons, ih hb.1 (by simp [hg]), parentIn_append, parentIn_of_not_mem hb.2.1,
      Option.none_or, parentIn, if_neg (Ne.symm hb.2.2), ownerOf_cons, Option.or_of_isSome hs]

theorem parentIn_plug_congr {z : List (Frame α)} {g g' : Forest α} {b : α}
    (h : ∀ p, parentIn p b g = parentIn p b g') (p : Option α) :
    parentIn p b (plug z g) = parentIn p b (plug z g') := by
  induction z generalizing g g' with
  | nil => exact h p
  | cons t z ih =>
    refine ih fun q => ?_
    rw [parentIn_append, parentIn_append, parentIn, parentIn, h]

theorem roots_under_append_congr {l g g' : Forest α} {q : α}
    (h : roots (under q g) = roots (under q g')) :
    roots (under q (l ++ g)) = roots (under q (l ++ g')) := by
  induction l with
  | nil => exact h
  | node a k r _ ih =>
    rw [node_append, node_append, under, under]
    split
    · rfl
    · rw [roots_append, roots_append, ih]

/-- The rows outside a position only depend on the labels at the top of what is
plugged in. -/
theorem roots_under_plug_congr {z : List (Frame α)} {g g' : Forest α} {q : α}
    (hr : roots g = roots g') (hu : roots (under q g) = roots (under q g')) :
    roots (under q (plug z g)) = roots (under q (plug z g')) := by
  induction z generalizing g g' with
  | nil => exact hu
  | cons t z ih =>
    refine ih (by simp) (roots_under_append_congr ?_)
    rw [under, under]
    split
    · exact hr
    · rw [roots_append, roots_append, hu]

/-- The same away from the owner, whatever the top of the row is. -/
theorem roots_under_plug_congr_of_ne {z : List (Frame α)} {g g' : Forest α} {q : α}
    (hq : some q ≠ ownerOf z) (hu : roots (under q g) = roots (under q g')) :
    roots (under q (plug z g)) = roots (under q (plug z g')) := by
  cases z with
  | nil => exact hu
  | cons t z =>
    have hne : t.owner ≠ q := fun h => hq (by rw [ownerOf_cons, h])
    rw [plug_cons, plug_cons]
    refine roots_under_plug_congr (by simp) (roots_under_append_congr ?_)
    rw [under, under, if_neg hne, if_neg hne, roots_append, roots_append, hu]

/-! ## Removing a tree -/

theorem under_split {z : List (Frame α)} {l k r : Forest α} {b : α}
    (hn : (labels (plug z (l ++ node b k r))).Nodup) :
    under b (plug z (l ++ node b k r)) = k := by
  obtain ⟨hb, ha, hl, _⟩ := split_not_mem hn (List.mem_cons_self ..)
  rw [under_plug _ hb ha, under_append_right hl, under, if_pos rfl]

theorem prune_split {z : List (Frame α)} {l k r : Forest α} {b : α}
    (hn : (labels (plug z (l ++ node b k r))).Nodup) :
    prune b (plug z (l ++ node b k r)) = plug z (l ++ r) := by
  obtain ⟨hb, ha, hl, _⟩ := split_not_mem hn (List.mem_cons_self ..)
  rw [prune_plug _ hb ha, prune_append_right hl, prune, if_pos rfl]

theorem parentIn_split {z : List (Frame α)} {l k r : Forest α} {b : α}
    (hn : (labels (plug z (l ++ node b k r))).Nodup) :
    parentIn none b (plug z (l ++ node b k r)) = some (ownerOf z) := by
  obtain ⟨hb, _, hl, _⟩ := split_not_mem hn (List.mem_cons_self ..)
  rw [parentIn_plug hb (by simp), parentIn_append, parentIn_of_not_mem hl, parentIn, if_pos rfl,
    Option.none_or]

theorem subtree_split {z : List (Frame α)} {l k r : Forest α} {b : α}
    (hn : (labels (plug z (l ++ node b k r))).Nodup) :
    subtree b (plug z (l ++ node b k r)) = b :: labels k := by
  rw [subtree, under_split hn]

theorem prune_labels_sublist (b : α) (f : Forest α) : (labels (prune b f)).Sublist (labels f) := by
  induction f with
  | nil => exact List.Sublist.slnil
  | node a k r ihk ihr =>
    rw [prune]
    split
    · exact (List.sublist_append_right _ _).cons _
    · exact (ihk.append ihr).cons_cons a

theorem nodup_prune {b : α} {f : Forest α} (hn : (labels f).Nodup) :
    (labels (prune b f)).Nodup := (prune_labels_sublist b f).nodup hn

theorem mem_labels_prune {b x : α} {f : Forest α} (hn : (labels f).Nodup) :
    x ∈ labels (prune b f) ↔ x ∈ labels f ∧ x ∉ subtree b f := by
  by_cases hb : b ∈ labels f
  · obtain ⟨z, l, k, r, rfl⟩ := exists_plug hb
    rw [prune_split hn, subtree_split hn]
    have hx := split_not_mem (x := x) hn
    simp only [labels_plug, labels_append, labels_node, List.mem_append, List.mem_cons] at hx ⊢
    tauto
  · rw [prune_of_not_mem hb, subtree, under_of_not_mem hb]
    simp only [labels_nil, List.mem_singleton]
    exact ⟨fun h => ⟨h, fun he => hb (he ▸ h)⟩, fun h => h.1⟩

/-- Removing a tree only takes its root out of one row. -/
theorem roots_under_prune {b q : α} {f : Forest α} (hn : (labels f).Nodup)
    (hq : q ∉ subtree b f) (ho : parentIn none b f ≠ some (some q)) :
    roots (under q (prune b f)) = roots (under q f) := by
  by_cases hb : b ∈ labels f
  · obtain ⟨z, l, k, r, rfl⟩ := exists_plug hb
    rw [subtree_split hn] at hq
    rw [prune_split hn]
    rw [parentIn_split hn] at ho
    refine roots_under_plug_congr_of_ne (fun h => ho (by rw [h])) (roots_under_append_congr ?_)
    simp only [List.mem_cons, not_or] at hq
    rw [under, if_neg (Ne.symm hq.1), under_of_not_mem hq.2, nil_append]
  · rw [prune_of_not_mem hb]

theorem mem_labels_of_mem_under {b x : α} {f : Forest α} (h : x ∈ labels (under b f)) :
    x ∈ labels f := by
  induction f with
  | nil => exact absurd h (by simp [under])
  | node a k r ihk ihr =>
    rw [under] at h
    simp only [labels_node, List.mem_cons, List.mem_append]
    split at h
    · exact .inr (.inl h)
    · rw [labels_append, List.mem_append] at h
      exact .inr (h.imp ihk ihr)

theorem not_mem_labels_prune {b : α} {f : Forest α} (hn : (labels f).Nodup) :
    b ∉ labels (prune b f) := fun h =>
  ((mem_labels_prune hn).mp h).2 (List.mem_cons_self ..)

/-- No label is its own descendant. -/
theorem not_mem_roots_under {b q : α} {f : Forest α} (hn : (labels f).Nodup)
    (hq : q ∈ subtree b f) : b ∉ roots (under q f) := by
  intro hm
  have hb : b ∈ labels f := mem_labels_of_mem_under (mem_labels_of_mem_roots hm)
  obtain ⟨z, l, k, r, rfl⟩ := exists_plug hb
  rw [subtree_split hn] at hq
  have hbk := split_not_mem_kids hn
  refine hbk ?_
  rcases List.mem_cons.mp hq with rfl | hk
  · rw [under_split hn] at hm
    exact mem_labels_of_mem_roots hm
  · obtain ⟨h1, h2, h3, h4⟩ := split_not_mem hn hq
    rw [under_plug _ h1 h2, under_append_right h3, under,
      if_neg (fun h : b = q => hbk (h ▸ hk)), under_of_not_mem h4, append_nil] at hm
    exact mem_labels_of_mem_under (mem_labels_of_mem_roots hm)

/-- A label is in the row of its parent and in no other. -/
theorem mem_row_iff {b : α} {q : Option α} {f : Forest α} (hn : (labels f).Nodup) :
    (∃ l, row q f = some l ∧ b ∈ l) ↔ parentIn none b f = some q := by
  constructor
  · rintro ⟨l, hl, hm⟩
    by_contra hne
    cases q with
    | none =>
      obtain rfl := Option.some.inj hl
      obtain ⟨z, l, k, r, rfl⟩ := exists_plug (mem_labels_of_mem_roots hm)
      rw [parentIn_split hn] at hne
      cases z with
      | nil => exact hne rfl
      | cons t z =>
        rw [roots_plug_cons t z _ (l ++ r), ← prune_split hn] at hm
        exact not_mem_labels_prune hn (mem_labels_of_mem_roots hm)
    | some q =>
      rw [row] at hl
      split at hl
      · obtain rfl := Option.some.inj hl
        by_cases hq : q ∈ subtree b f
        · exact not_mem_roots_under hn hq hm
        · rw [← roots_under_prune hn hq hne] at hm
          exact not_mem_labels_prune hn
            (mem_labels_of_mem_under (mem_labels_of_mem_roots hm))
      · cases hl
  · intro h
    have hb : b ∈ labels f := parentIn_isSome.mp (by rw [h]; rfl)
    obtain ⟨z, l, k, r, rfl⟩ := exists_plug hb
    rw [parentIn_split hn] at h
    obtain rfl := Option.some.inj h
    exact ⟨_, row_owner hn, by simp⟩

/-- The owners along a path are the ancestors of what is plugged in. -/
theorem mem_under_iff {z : List (Frame α)} {g : Forest α} {b c : α}
    (hn : (labels (plug z g)).Nodup) (hg : b ∈ labels g) (hr : b ∉ labels (under c g)) :
    b ∈ labels (under c (plug z g)) ↔ ∃ t ∈ z, t.owner = c := by
  induction z generalizing g with
  | nil => simpa using hr
  | cons t z ih =>
    by_cases hc : t.owner = c
    · subst hc
      rw [under_owner hn]
      exact ⟨fun _ => ⟨t, List.mem_cons_self .., rfl⟩, fun _ => hg⟩
    · have hr' := nodup_of_plug (by rwa [plug_cons] at hn)
      rw [labels_append, List.nodup_append] at hr'
      obtain ⟨_, hm, hd⟩ := hr'
      have hm' := (List.nodup_cons.mp hm).2
      have hl : b ∉ labels t.left := fun h => hd b h b (by simp [hg]) rfl
      have hR : b ∉ labels t.right := fun h => (List.nodup_append.mp hm').2.2 b hg b h rfl
      rw [plug_cons, ih (by rwa [plug_cons] at hn) (by simp [hg])]
      · simp only [List.mem_cons, exists_eq_or_imp, hc, false_or]
      · intro h
        by_cases hcl : c ∈ labels t.left
        · have hcn : c ∉ labels (node t.owner g t.right) := fun h => hd c hcl c h rfl
          rw [under_append_left hcn] at h
          exact hl (mem_labels_of_mem_under h)
        · rw [under_append_right hcl, under, if_neg hc, labels_append, List.mem_append] at h
          rcases h with h | h
          · exact hr h
          · exact hR (mem_labels_of_mem_under h)

theorem mem_under_split_iff {z : List (Frame α)} {l k r : Forest α} {b c : α}
    (hn : (labels (plug z (l ++ node b k r))).Nodup) :
    b ∈ labels (under c (plug z (l ++ node b k r))) ↔ ∃ t ∈ z, t.owner = c := by
  obtain ⟨_, _, hl, hr⟩ := split_not_mem hn (List.mem_cons_self ..)
  have hk := split_not_mem_kids hn
  refine mem_under_iff hn (by simp) fun h => ?_
  by_cases hc : c ∈ labels l
  · have hd := (List.nodup_append.mp (labels_append l _ ▸ nodup_of_plug hn)).2.2
    rw [under_append_left fun h => hd c hc c h rfl] at h
    exact hl (mem_labels_of_mem_under h)
  · rw [under_append_right hc, under] at h
    split at h
    · exact hk h
    · rw [labels_append, List.mem_append] at h
      exact h.elim (fun h => hk (mem_labels_of_mem_under h))
        (fun h => hr (mem_labels_of_mem_under h))

theorem mem_subtree_split_iff {z : List (Frame α)} {l k r : Forest α} {b c : α}
    (hn : (labels (plug z (l ++ node b k r))).Nodup) :
    b ∈ subtree c (plug z (l ++ node b k r)) ↔ b = c ∨ ∃ t ∈ z, t.owner = c := by
  rw [subtree, List.mem_cons, mem_under_split_iff hn]

theorem row_prune {b : α} {q : Option α} {f : Forest α} (hn : (labels f).Nodup)
    (hq : ∀ x, q = some x → x ∉ subtree b f) :
    row q (prune b f) = (row q f).map (·.erase b) := by
  by_cases hb : b ∈ labels f
  · by_cases ho : parentIn none b f = some q
    · obtain ⟨z, l, k, r, rfl⟩ := exists_plug hb
      rw [parentIn_split hn] at ho
      obtain rfl := Option.some.inj ho
      have hl : b ∉ roots l := fun h =>
        (split_not_mem hn (List.mem_cons_self ..)).2.2.1 (mem_labels_of_mem_roots h)
      rw [row_owner hn, prune_split hn, row_owner (by rw [← prune_split hn]; exact nodup_prune hn)]
      simp [List.erase_append_right _ hl]
    · have hm : ∀ l, row q f = some l → b ∉ l := fun l hl hm => ho ((mem_row_iff hn).mp ⟨l, hl, hm⟩)
      have hr : row q (prune b f) = row q f := by
        cases q with
        | none =>
          obtain ⟨z, l, k, r, rfl⟩ := exists_plug hb
          rw [prune_split hn, row, row]
          rw [parentIn_split hn] at ho
          cases z with
          | nil => exact absurd rfl ho
          | cons t z => exact congrArg some (roots_plug_cons t z _ _)
        | some q =>
          have hqs := hq q rfl
          rw [row, row, roots_under_prune hn hqs ho]
          simp only [mem_labels_prune hn, hqs, not_false_eq_true, and_true]
      rw [hr]
      cases hl : row q f with
      | none => rfl
      | some l => rw [Option.map_some, List.erase_of_not_mem (hm l hl)]
  · have hm : ∀ l, row q f = some l → b ∉ l := fun l hl hm => hb
      (parentIn_isSome.mp (by rw [(mem_row_iff hn).mp ⟨l, hl, hm⟩]; rfl))
    rw [prune_of_not_mem hb]
    cases hl : row q f with
    | none => rfl
    | some l => rw [Option.map_some, List.erase_of_not_mem (hm l hl)]

theorem parentIn_prune {b x : α} {f : Forest α} (hn : (labels f).Nodup)
    (hx : x ∉ subtree b f) : parentIn none x (prune b f) = parentIn none x f := by
  by_cases hb : b ∈ labels f
  · obtain ⟨z, l, k, r, rfl⟩ := exists_plug hb
    rw [subtree_split hn, List.mem_cons, not_or] at hx
    rw [prune_split hn]
    refine parentIn_plug_congr (fun p => ?_) none
    rw [parentIn_append, parentIn_append, parentIn, if_neg (Ne.symm hx.1),
      parentIn_of_not_mem hx.2, Option.none_or]
  · rw [prune_of_not_mem hb]

/-- Taking a tree out leaves the other labels in their order. -/
theorem labels_perm_prune {b : α} {f : Forest α} (hn : (labels f).Nodup) (hb : b ∈ labels f) :
    (labels f).Perm (subtree b f ++ labels (prune b f)) := by
  obtain ⟨z, l, k, r, rfl⟩ := exists_plug hb
  rw [subtree_split hn, prune_split hn]
  simp only [labels_plug, labels_append, labels_node]
  have h : (before z ++ (labels l ++ b :: (labels k ++ labels r) ++ after z)).Perm
      (b :: labels k ++ (before z ++ labels l) ++ (labels r ++ after z)) := by
    have := (@List.perm_append_comm α (before z ++ labels l) (b :: labels k)).append_right
      (labels r ++ after z)
    simpa [List.append_assoc] using this
  simpa [List.append_assoc] using h

/-! ## Inserting trees -/

omit [DecidableEq α] in
theorem insertIdx_length (l r : List α) (b : α) :
    (l ++ r).insertIdx l.length b = l ++ b :: r := by
  induction l with
  | nil => rfl
  | cons a l ih => simpa using ih

omit [DecidableEq α] in
/-- Every row is at some position. -/
theorem exists_row {p : Option α} {f : Forest α} (hp : ∀ x, p = some x → x ∈ labels f) :
    ∃ z g, f = plug z g ∧ ownerOf z = p := by
  cases p with
  | none => exact ⟨[], f, rfl, rfl⟩
  | some x =>
    obtain ⟨z, l, k, r, rfl⟩ := exists_plug (hp x rfl)
    exact ⟨⟨l, x, r⟩ :: z, k, rfl, rfl⟩

theorem mem_of_row {p : Option α} {f : Forest α} {l : List α} (h : row p f = some l) :
    ∀ x, p = some x → x ∈ labels f := by
  rintro x rfl
  rw [row] at h
  split at h
  · assumption
  · cases h

theorem length_row_le {p : Option α} {f : Forest α} {l : List α} (hn : (labels f).Nodup)
    (h : row p f = some l) : l.length ≤ (labels f).length := by
  obtain ⟨z, g, rfl, rfl⟩ := exists_row (mem_of_row h)
  rw [row_owner hn] at h
  obtain rfl := Option.some.inj h
  have := (roots_sublist g).length_le
  rw [labels_plug, List.length_append, List.length_append]
  omega

theorem nodup_row {p : Option α} {f : Forest α} {l : List α} (hn : (labels f).Nodup)
    (h : row p f = some l) : l.Nodup := by
  obtain ⟨z, g, rfl, rfl⟩ := exists_row (mem_of_row h)
  rw [row_owner hn] at h
  obtain rfl := Option.some.inj h
  exact (nodup_of_plug hn).sublist (roots_sublist g)

/-- Inserting into the row of `p` splits the forest there. -/
theorem exists_insert {p : Option α} {g : Forest α} (t : Forest α) (i : Nat)
    (hn : (labels g).Nodup) (hp : ∀ x, p = some x → x ∈ labels g) :
    ∃ z l r, g = plug z (l ++ r) ∧ ownerOf z = p ∧
      mapRow p (insertAt t i) g = plug z (l ++ (t ++ r)) ∧
      (roots l).length = min i (roots (l ++ r)).length := by
  obtain ⟨z, h, rfl, rfl⟩ := exists_row hp
  obtain ⟨l, r, rfl, hi, hl⟩ := exists_insertAt t i h
  exact ⟨z, l, r, rfl, rfl, by rw [mapRow_plug _ hn, hi], hl⟩

omit [DecidableEq α] in
theorem labels_perm_insert (z : List (Frame α)) (l t r : Forest α) :
    (labels (plug z (l ++ (t ++ r)))).Perm (labels t ++ labels (plug z (l ++ r))) := by
  simp only [labels_plug, labels_append]
  have := (@List.perm_append_comm α (before z ++ labels l) (labels t)).append_right
    (labels r ++ after z)
  simpa [List.append_assoc] using this

omit [DecidableEq α] in
theorem nodup_insert {z : List (Frame α)} {l t r : Forest α}
    (hn : (labels (plug z (l ++ r))).Nodup) (ht : (labels t).Nodup)
    (hd : ∀ x ∈ labels t, x ∉ labels (plug z (l ++ r))) :
    (labels (plug z (l ++ (t ++ r)))).Nodup := by
  rw [(labels_perm_insert z l t r).nodup_iff, List.nodup_append]
  exact ⟨ht, hn, fun a ha b hb he => hd a ha (he ▸ hb)⟩

theorem row_insert_of_ne {z : List (Frame α)} {l t r : Forest α} {q : Option α}
    (hq : q ≠ ownerOf z) (ht : ∀ x, q = some x → x ∉ labels t) :
    row q (plug z (l ++ (t ++ r))) = row q (plug z (l ++ r)) := by
  cases q with
  | none =>
    cases z with
    | nil => exact absurd rfl hq
    | cons u z => exact congrArg some (roots_plug_cons u z _ _)
  | some x =>
    have hx := ht x rfl
    have hm : x ∈ labels (plug z (l ++ (t ++ r))) ↔ x ∈ labels (plug z (l ++ r)) := by
      rw [(labels_perm_insert z l t r).mem_iff, List.mem_append]
      exact ⟨fun h => h.resolve_left hx, .inr⟩
    have hr : roots (under x (plug z (l ++ (t ++ r)))) = roots (under x (plug z (l ++ r))) :=
      roots_under_plug_congr_of_ne hq
        (roots_under_append_congr (by rw [under_append_right hx]))
    rw [row, row, hr]
    simp only [hm]

theorem row_insert_of_mem {z : List (Frame α)} {l t r : Forest α} {x : α}
    (hn : (labels (plug z (l ++ (t ++ r)))).Nodup) (hx : x ∈ labels t) :
    row (some x) (plug z (l ++ (t ++ r))) = row (some x) t := by
  have hg : x ∈ labels (l ++ (t ++ r)) := by simp [hx]
  obtain ⟨hb, ha⟩ := not_mem_path hn hg
  have hr := nodup_of_plug hn
  rw [labels_append, labels_append, List.nodup_append, List.nodup_append] at hr
  obtain ⟨_, ⟨_, _, hd⟩, hd'⟩ := hr
  have h1 : x ∉ labels l := fun h => hd' x h x (by simp [hx]) rfl
  have h2 : x ∉ labels r := fun h => hd x hx x h rfl
  rw [row, row, under_plug _ hb ha, under_append_right h1, under_append_left h2,
    if_pos hx, if_pos (by rw [labels_plug]; simp [hx])]

theorem parentIn_insert_of_not_mem {z : List (Frame α)} {l t r : Forest α} {x : α}
    (hx : x ∉ labels t) :
    parentIn none x (plug z (l ++ (t ++ r))) = parentIn none x (plug z (l ++ r)) := by
  refine parentIn_plug_congr (fun p => ?_) none
  rw [parentIn_append, parentIn_append, parentIn_append, parentIn_of_not_mem hx, Option.none_or]

theorem parentIn_insert_of_mem {z : List (Frame α)} {l t r : Forest α} {x : α}
    (hn : (labels (plug z (l ++ (t ++ r)))).Nodup) (hx : x ∈ labels t) :
    parentIn none x (plug z (l ++ (t ++ r))) = parentIn (ownerOf z) x t := by
  have hg : x ∈ labels (l ++ (t ++ r)) := by simp [hx]
  have hr := nodup_of_plug hn
  rw [labels_append, List.nodup_append] at hr
  have h1 : x ∉ labels l := fun h => hr.2.2 x h x (by simp [hx]) rfl
  rw [parentIn_plug (not_mem_path hn hg).1 hg, parentIn_append, parentIn_of_not_mem h1,
    Option.none_or, parentIn_append, Option.or_of_isSome (parentIn_isSome.mpr hx)]

theorem insertAfter_split {z : List (Frame α)} {l k r : Forest α} {x : α} (t : Forest α)
    (hn : (labels (plug z (l ++ node x k r))).Nodup) :
    insertAfter x t (plug z (l ++ node x k r)) = plug z ((l ++ single x k) ++ (t ++ r)) := by
  obtain ⟨hb, ha, hl, _⟩ := split_not_mem hn (List.mem_cons_self ..)
  rw [insertAfter_plug _ hb ha, insertAfter_append_right hl, insertAfter, if_pos rfl,
    append_assoc]; rfl

/-! ## Moves -/

/-- Moves the tree of `b` to a position of the row of `p`. -/
def moveAt (b : α) (p : Option α) (i : Nat) (f : Forest α) : Forest α :=
  mapRow p (insertAt (single b (under b f)) i) (prune b f)

/-- Moves the tree of `b` right after the tree of `x`. -/
def moveAfter (b x : α) (f : Forest α) : Forest α :=
  insertAfter x (single b (under b f)) (prune b f)

/-- `b` may become a child of `p`: both are there and `p` is not below `b`. -/
structure Movable (b : α) (p : Option α) (f : Forest α) : Prop where
  mem : b ∈ labels f
  parent : ∀ x, p = some x → x ∈ labels f ∧ x ∉ subtree b f

theorem parentIn_under {b x : α} {f : Forest α} (hn : (labels f).Nodup)
    (hx : x ∈ labels (under b f)) :
    parentIn none x f = parentIn (some b) x (under b f) := by
  by_cases hb : b ∈ labels f
  · obtain ⟨z, l, k, r, rfl⟩ := exists_plug hb
    rw [under_split hn] at hx ⊢
    obtain ⟨h1, h2, h3, h4⟩ := split_not_mem hn (List.mem_cons_of_mem _ hx)
    have hbx : b ≠ x := fun h => split_not_mem_kids hn (h ▸ hx)
    rw [parentIn_plug h1 (by simp [hx]), parentIn_append, parentIn_of_not_mem h3, parentIn,
      if_neg hbx, Option.none_or, Option.or_of_isSome (parentIn_isSome.mpr hx)]
  · rw [under_of_not_mem hb] at hx; simp at hx

theorem row_under {b x : α} {f : Forest α} (hn : (labels f).Nodup)
    (hb : b ∈ labels f) (hx : x ∈ subtree b f) :
    row (some x) f = row (some x) (single b (under b f)) := by
  obtain ⟨z, l, k, r, rfl⟩ := exists_plug hb
  rw [subtree_split hn] at hx
  rw [under_split hn]
  exact row_insert_of_mem (t := single b k) (r := r) hn (by simpa using hx)

/-- The data of a legal move: the forest around the new position. -/
theorem Movable.split {b : α} {p : Option α} {f : Forest α} (h : Movable b p f)
    (hn : (labels f).Nodup) (i : Nat) :
    ∃ z l r, prune b f = plug z (l ++ r) ∧ ownerOf z = p ∧
      moveAt b p i f = plug z (l ++ (single b (under b f) ++ r)) ∧
      (roots l).length = min i (roots (l ++ r)).length ∧
      (labels (plug z (l ++ (single b (under b f) ++ r)))).Nodup := by
  have hp : ∀ x, p = some x → x ∈ labels (prune b f) := fun x hx =>
    (mem_labels_prune hn).mpr (h.parent x hx)
  obtain ⟨z, l, r, he, ho, hm, hl⟩ := exists_insert (single b (under b f)) i (nodup_prune hn) hp
  refine ⟨z, l, r, he, ho, hm, hl, nodup_insert (he ▸ nodup_prune hn) ?_ ?_⟩
  · have := (labels_perm_prune hn h.mem).nodup_iff.mp hn
    rw [labels_single]
    exact (List.nodup_append.mp this).1
  · intro x hx
    rw [← he, mem_labels_prune hn]
    exact fun hm => hm.2 (by rwa [labels_single] at hx)

theorem labels_perm_moveAt {b : α} {p : Option α} {i : Nat} {f : Forest α}
    (h : Movable b p f) (hn : (labels f).Nodup) :
    (labels (moveAt b p i f)).Perm (labels f) := by
  obtain ⟨z, l, r, he, _, hm, _, _⟩ := h.split hn i
  rw [hm]
  refine (labels_perm_insert z l _ r).trans ?_
  rw [← he, labels_single]
  exact (labels_perm_prune hn h.mem).symm

/-- The rows after a move: the label leaves its row and enters the row of `p`. -/
theorem row_moveAt {b : α} {p q : Option α} {i : Nat} {f : Forest α}
    (h : Movable b p f) (hn : (labels f).Nodup) :
    row q (moveAt b p i f) = (row q f).map fun l =>
      if q = p then (l.erase b).insertIdx (min i (l.erase b).length) b else l.erase b := by
  obtain ⟨z, l, r, he, ho, hm, hl, hn'⟩ := h.split hn i
  rw [hm]
  by_cases hq : q = p
  · subst hq
    have hr := row_prune (q := q) hn fun x hx => (h.parent x hx).2
    rw [he, ← ho, row_owner (he ▸ nodup_prune hn)] at hr
    rw [← ho, row_owner hn']
    cases hf : row (ownerOf z) f with
    | none => rw [hf] at hr; cases hr
    | some l' =>
      rw [hf, Option.map_some, Option.some.injEq] at hr
      rw [Option.map_some, if_pos rfl, ← hr, ← hl]
      simp [insertIdx_length]
  · simp only [if_neg hq]
    by_cases hs : ∀ x, q = some x → x ∉ subtree b f
    · rw [← row_prune hn hs, he]
      exact row_insert_of_ne (ho ▸ hq) fun x hx => by rw [labels_single]; exact hs x hx
    · simp only [not_forall, not_not] at hs
      obtain ⟨x, rfl, hx⟩ := hs
      rw [row_insert_of_mem hn' (by rw [labels_single]; exact hx), ← row_under hn h.mem hx]
      cases hf : row (some x) f with
      | none => rfl
      | some l' =>
        rw [row] at hf
        split at hf
        · obtain rfl := Option.some.inj hf
          rw [Option.map_some, List.erase_of_not_mem (not_mem_roots_under hn hx)]
        · cases hf

theorem parentIn_moveAt {b x : α} {p : Option α} {i : Nat} {f : Forest α}
    (h : Movable b p f) (hn : (labels f).Nodup) :
    parentIn none x (moveAt b p i f) = if x = b then some p else parentIn none x f := by
  obtain ⟨z, l, r, he, ho, hm, _, hn'⟩ := h.split hn i
  rw [hm]
  by_cases hx : x ∈ subtree b f
  · rw [parentIn_insert_of_mem hn' (by rw [labels_single]; exact hx), ho, single, parentIn]
    split
    · rename_i hb; rw [if_pos hb.symm]
    · rename_i hb
      have hk := (List.mem_cons.mp hx).resolve_left (Ne.symm hb)
      rw [if_neg (Ne.symm hb), parentIn, Option.or_none, parentIn_under hn hk]
  · rw [parentIn_insert_of_not_mem (by rw [labels_single]; exact hx), ← he,
      parentIn_prune hn hx, if_neg fun hb => hx (by rw [hb]; exact List.mem_cons_self ..)]

end Neoseq.Forest
