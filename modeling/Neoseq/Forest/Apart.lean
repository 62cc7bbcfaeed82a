import Neoseq.Forest.Level

/-! Sets of trees none of which lies in another. The topmost labels of a request
are such a set, and raising or lowering all of its trees, one after another,
changes the depth of exactly the labels in them by one. -/

namespace Neoseq.Forest
variable {α : Type} [DecidableEq α]

/-- Labels of a forest whose trees are disjoint. -/
structure Apart (bs : List α) (f : Forest α) : Prop where
  nodup : bs.Nodup
  mem : ∀ b ∈ bs, b ∈ labels f
  apart : ∀ x ∈ bs, ∀ y ∈ bs, x ≠ y → x ∉ subtree y f

/-- The requested labels with no requested label above them, in document order. -/
def topmost (requested : List α) (f : Forest α) : List α :=
  (labels f).filter fun b =>
    requested.contains b && !requested.any fun c => (labels (under c f)).contains b

theorem mem_topmost {requested : List α} {f : Forest α} {b : α} :
    b ∈ topmost requested f ↔
      b ∈ labels f ∧ b ∈ requested ∧ ∀ c ∈ requested, b ∉ labels (under c f) := by
  simp [topmost]

theorem topmost_sublist (requested : List α) (f : Forest α) :
    (topmost requested f).Sublist (labels f) := List.filter_sublist

theorem apart_topmost {requested : List α} {f : Forest α} (hn : (labels f).Nodup) :
    Apart (topmost requested f) f where
  nodup := hn.sublist (topmost_sublist requested f)
  mem _ hb := (mem_topmost.mp hb).1
  apart x hx y hy hne hm := by
    have hu := (List.mem_cons.mp hm).resolve_left hne
    exact (mem_topmost.mp hx).2.2 y (mem_topmost.mp hy).2.1 hu

theorem Apart.tail {b : α} {bs : List α} {f : Forest α} (h : Apart (b :: bs) f) : Apart bs f where
  nodup := (List.nodup_cons.mp h.nodup).2
  mem x hx := h.mem x (List.mem_cons_of_mem _ hx)
  apart x hx y hy := h.apart x (List.mem_cons_of_mem _ hx) y (List.mem_cons_of_mem _ hy)

theorem Apart.perm {bs cs : List α} {f : Forest α} (h : Apart bs f) (hp : bs.Perm cs) :
    Apart cs f where
  nodup := hp.nodup_iff.mp h.nodup
  mem x hx := h.mem x (hp.mem_iff.mpr hx)
  apart x hx y hy := h.apart x (hp.mem_iff.mpr hx) y (hp.mem_iff.mpr hy)

theorem Apart.head {b x : α} {bs : List α} {f : Forest α} (h : Apart (b :: bs) f) (hx : x ∈ bs) :
    x ≠ b ∧ x ∉ subtree b f ∧ b ∉ subtree x f := by
  have hne : x ≠ b := fun he => (List.nodup_cons.mp h.nodup).1 (he ▸ hx)
  have hb : b ∈ b :: bs := List.mem_cons_self ..
  have hx' := List.mem_cons_of_mem b hx
  exact ⟨hne, h.apart x hx' b hb hne, h.apart b hb x hx' (Ne.symm hne)⟩

/-- Whether a label lies in one of the trees. -/
def inTrees (bs : List α) (f : Forest α) (x : α) : Bool := bs.any fun b => inTree b f x

theorem inTrees_iff {bs : List α} {f : Forest α} {x : α} :
    inTrees bs f x = true ↔ ∃ b ∈ bs, x ∈ subtree b f := by
  simp [inTrees, inTree]

theorem inTrees_perm {bs cs : List α} (hp : bs.Perm cs) (f : Forest α) :
    inTrees bs f = inTrees cs f := by
  funext x
  rw [Bool.eq_iff_iff, inTrees_iff, inTrees_iff]
  simp only [hp.mem_iff]

/-- The rest of the trees are the same after the first one has moved. -/
theorem Apart.step {b : α} {bs : List α} {f g : Forest α} (h : Apart (b :: bs) f)
    (hl : ∀ x ∈ bs, x ∈ labels g) (hu : ∀ x ∈ bs, under x g = under x f) :
    Apart bs g ∧ inTrees bs g = inTrees bs f := by
  have hs : ∀ x ∈ bs, subtree x g = subtree x f := fun x hx => by rw [subtree, hu x hx, subtree]
  refine ⟨⟨h.tail.nodup, hl, fun x hx y hy hne => ?_⟩, ?_⟩
  · rw [hs y hy]; exact h.tail.apart x hx y hy hne
  · funext x
    rw [Bool.eq_iff_iff, inTrees_iff, inTrees_iff]
    exact exists_congr fun y => and_congr_right fun hy => by rw [hs y hy]

/-- A label of one tree is in none of the others. -/
theorem Apart.disjoint {b x : α} {bs : List α} {f : Forest α} (h : Apart (b :: bs) f)
    (hn : (labels f).Nodup) (hx : x ∈ labels f) :
    ¬(inTree b f x = true ∧ inTrees bs f x = true) := by
  rintro ⟨hb, hbs⟩
  obtain ⟨y, hy, hxy⟩ := inTrees_iff.mp hbs
  rw [inTree, List.contains_eq_mem, decide_eq_true_eq] at hb
  obtain ⟨_, h1, h2⟩ := h.head hy
  exact (subtree_laminar hn hx hb hxy).elim h2 h1

/-! ## One tree after another -/

omit [DecidableEq α] in
theorem deepen_deepen {p q : α → Bool} {x : α × Nat} (h : ¬(p x.1 = true ∧ q x.1 = true)) :
    deepen q (deepen p x) = deepen (fun a => p a || q a) x := by
  cases hp : p x.1 <;> cases hq : q x.1 <;> simp_all [deepen]

omit [DecidableEq α] in
theorem deepen_comm (p q : α → Bool) (l : List (α × Nat)) :
    (l.map (deepen p)).map (deepen q) = (l.map (deepen q)).map (deepen p) := by
  rw [List.map_map, List.map_map]
  refine List.map_congr_left fun x _ => ?_
  cases hp : p x.1 <;> cases hq : q x.1 <;> simp [deepen, hp, hq]

theorem map_deepen_deepen {b : α} {bs : List α} {f g : Forest α} (h : Apart (b :: bs) f)
    (hn : (labels f).Nodup) (hl : labels g = labels f) :
    ((depths 0 g).map (deepen (inTree b f))).map (deepen (inTrees bs f)) =
      (depths 0 g).map (deepen (inTrees (b :: bs) f)) := by
  rw [List.map_map]
  refine List.map_congr_left fun x hx => ?_
  have hm : x.1 ∈ labels f := by
    rw [← hl, ← map_fst_depths 0]; exact List.mem_map_of_mem hx
  exact deepen_deepen (h.disjoint hn hm)

/-- Raising the trees of `bs`, one after another. -/
inductive RaisesAll : List α → Forest α → Forest α → Prop where
  | nil (f : Forest α) : RaisesAll [] f f
  | cons {b : α} {bs : List α} {f g h : Forest α} (first : Raises b f g)
    (rest : RaisesAll bs g h) : RaisesAll (b :: bs) f h

/-- Lowering the trees of `bs`, one after another. -/
inductive LowersAll : List α → Forest α → Forest α → Prop where
  | nil (f : Forest α) : LowersAll [] f f
  | cons {b c : α} {bs : List α} {f g h : Forest α} (first : Lowers b c f g)
    (rest : LowersAll bs g h) : LowersAll (b :: bs) f h

omit [DecidableEq α] in
theorem RaisesAll.labels_eq {bs : List α} {f g : Forest α} (h : RaisesAll bs f g) :
    labels g = labels f := by
  induction h with
  | nil => rfl
  | cons first _ ih => rw [ih, first.labels_eq]

omit [DecidableEq α] in
theorem LowersAll.labels_eq {bs : List α} {f g : Forest α} (h : LowersAll bs f g) :
    labels g = labels f := by
  induction h with
  | nil => rfl
  | cons first _ ih => rw [ih, first.labels_eq]

theorem Raises.apart {b : α} {bs : List α} {f g : Forest α} (h : Raises b f g)
    (ha : Apart (b :: bs) f) (hn : (labels f).Nodup) :
    Apart bs g ∧ inTrees bs g = inTrees bs f :=
  ha.step (fun x hx => h.labels_eq ▸ ha.tail.mem x hx) fun _ hx =>
    h.under_eq hn (ha.head hx).2.1 (ha.head hx).2.2

omit [DecidableEq α] in
theorem sublist_after {b : α} {bs u v : List α} (h : (b :: bs).Sublist (u ++ b :: v))
    (hb : b ∉ u) : bs.Sublist v := by
  induction u with
  | nil => exact List.cons_sublist_cons.mp h
  | cons a u ih =>
    rw [List.mem_cons, not_or] at hb
    cases h with
    | cons _ h => exact ih h hb.2
    | cons_cons => exact absurd rfl hb.1

omit [DecidableEq α] in
/-- In document order a tree never lands under a tree that is still to come. -/
theorem Lowers.sibling_ne {b c : α} {bs : List α} {f g : Forest α} (h : Lowers b c f g)
    (ho : (b :: bs).Sublist (labels f)) (hn : (labels f).Nodup) : ∀ x ∈ bs, c ≠ x := by
  rintro _ hx rfl
  obtain ⟨z, l, k', k, r⟩ := h
  have he : labels (plug z (l ++ node c k' (node b k r))) =
      (before z ++ labels l ++ c :: labels k') ++ b :: (labels k ++ labels r ++ after z) := by
    simp [labels_plug]
  rw [he] at ho hn
  obtain ⟨_, _, hd⟩ := List.nodup_append.mp hn
  have hs := sublist_after ho fun hb => hd b hb b (by simp) rfl
  exact hd c (by simp) c (List.mem_cons_of_mem _ (hs.subset hx)) rfl

theorem Lowers.apart {b c : α} {bs : List α} {f g : Forest α} (h : Lowers b c f g)
    (ha : Apart (b :: bs) f) (ho : (b :: bs).Sublist (labels f)) (hn : (labels f).Nodup) :
    Apart bs g ∧ inTrees bs g = inTrees bs f ∧ bs.Sublist (labels g) := by
  have hc := h.sibling_ne ho hn
  have hs := ha.step (fun x hx => h.labels_eq ▸ ha.tail.mem x hx) fun x hx =>
    h.under_eq hn (ha.head hx).2.1 (ha.head hx).2.2 (hc x hx)
  exact ⟨hs.1, hs.2, h.labels_eq ▸ (List.sublist_cons_self b bs).trans ho⟩

/-- Raising trees lowers the depths of exactly the labels in them. -/
theorem RaisesAll.depths_eq {bs : List α} {f g : Forest α} (h : RaisesAll bs f g)
    (ha : Apart bs f) (hn : (labels f).Nodup) :
    depths 0 f = (depths 0 g).map (deepen (inTrees bs f)) := by
  induction h with
  | nil f => exact (map_deepen_of_not fun _ _ => rfl).symm
  | cons first rest ih =>
    obtain ⟨hb, ht⟩ := first.apart ha hn
    rw [first.depths_eq hn, ih hb (first.labels_eq ▸ hn), ht, deepen_comm,
      map_deepen_deepen ha hn (rest.labels_eq.trans first.labels_eq)]

/-- Lowering trees raises the depths of exactly the labels in them. -/
theorem LowersAll.depths_eq {bs : List α} {f g : Forest α} (h : LowersAll bs f g)
    (ha : Apart bs f) (ho : bs.Sublist (labels f)) (hn : (labels f).Nodup) :
    depths 0 g = (depths 0 f).map (deepen (inTrees bs f)) := by
  induction h with
  | nil f => exact (map_deepen_of_not fun _ _ => rfl).symm
  | cons first rest ih =>
    obtain ⟨hb, ht, hs⟩ := first.apart ha ho hn
    rw [ih hb hs (first.labels_eq ▸ hn), ht, first.depths_eq hn, map_deepen_deepen ha hn rfl]

end Neoseq.Forest
