import Neoseq.Forest.Apart

/-! Moving several trees at once. A group move takes every tree out and puts
them back as one run; a run of single moves puts each tree after the one before
it. Both give the same forest, and its rows are the old rows with the moved
labels taken out and spliced in once. -/

namespace Neoseq.Forest
variable {α : Type} [DecidableEq α]

/-- Takes out the trees of `bs`. -/
def pruneAll : List α → Forest α → Forest α
  | [], f => f
  | b :: bs, f => pruneAll bs (prune b f)

/-- The trees of `bs` as one row. -/
def trees : List α → Forest α → Forest α
  | [], _ => nil
  | b :: bs, f => single b (under b f) ++ trees bs f

/-- Puts trees after `x`, or first in the row of `p`. -/
def place (p x : Option α) (t f : Forest α) : Forest α :=
  match x with
  | some x => insertAfter x t f
  | none => mapRow p (t ++ ·) f

/-- Moves the trees of `bs` as one run. -/
def moveGroup (bs : List α) (p x : Option α) (f : Forest α) : Forest α :=
  place p x (trees bs f) (pruneAll bs f)

/-- Moves one tree after `x`, or to the front of the row of `p`. -/
def moveNext (b : α) (p x : Option α) (f : Forest α) : Forest α :=
  match x with
  | some x => moveAfter b x f
  | none => moveAt b p 0 f

/-- Moves the trees of `bs` one by one, each after the one before it. -/
def moveRun : List α → Option α → Option α → Forest α → Forest α
  | [], _, _, f => f
  | b :: bs, p, x, f => moveRun bs p (some b) (moveNext b p x f)

theorem moveNext_eq (b : α) (p x : Option α) (f : Forest α) :
    moveNext b p x f = place p x (single b (under b f)) (prune b f) := by
  cases x <;> rfl

/-! ## Taking out and putting back commute -/

theorem prune_mapUnder {c p : α} {t : Forest α} (g : Forest α) (hc : c ≠ p) (ht : c ∉ labels t) :
    prune c (mapUnder p (t ++ ·) g) = mapUnder p (t ++ ·) (prune c g) := by
  induction g with
  | nil => rfl
  | node a k r ihk ihr =>
    by_cases hp : a = p
    · subst hp
      rw [mapUnder, if_pos rfl, prune, if_neg (Ne.symm hc), prune_append_right ht, prune,
        if_neg (Ne.symm hc), mapUnder, if_pos rfl]
    · by_cases ha : a = c
      · subst ha
        rw [mapUnder, if_neg hp, prune, if_pos rfl, prune, if_pos rfl]
      · rw [mapUnder, if_neg hp, prune, if_neg ha, ihk, ihr, prune, if_neg ha, mapUnder, if_neg hp]

theorem prune_insertAfter {c x : α} {t : Forest α} (g : Forest α) (hc : c ≠ x)
    (ht : c ∉ labels t) : prune c (insertAfter x t g) = insertAfter x t (prune c g) := by
  induction g with
  | nil => rfl
  | node a k r ihk ihr =>
    by_cases hx : a = x
    · subst hx
      rw [insertAfter, if_pos rfl, prune, if_neg (Ne.symm hc), prune_append_right ht, prune,
        if_neg (Ne.symm hc), insertAfter, if_pos rfl]
    · by_cases ha : a = c
      · subst ha
        rw [insertAfter, if_neg hx, prune, if_pos rfl, prune, if_pos rfl]
      · rw [insertAfter, if_neg hx, prune, if_neg ha, ihk, ihr, prune, if_neg ha, insertAfter,
          if_neg hx]

/-- A place next to which no tree of `c` is: neither `p` nor `x` lies in it. -/
structure Clear (c : α) (p x : Option α) (f : Forest α) : Prop where
  parent : ∀ q, p = some q → q ∉ subtree c f
  anchor : ∀ y, x = some y → y ∉ subtree c f

theorem prune_place {c : α} {p x : Option α} {t g f : Forest α} (h : Clear c p x f)
    (ht : c ∉ labels t) : prune c (place p x t g) = place p x t (prune c g) := by
  cases x with
  | some x =>
    exact prune_insertAfter g (fun he => h.anchor x rfl (he ▸ List.mem_cons_self ..)) ht
  | none =>
    cases p with
    | none => exact prune_append_right ht
    | some q =>
      exact prune_mapUnder g (fun he => h.parent q rfl (he ▸ List.mem_cons_self ..)) ht

theorem pruneAll_place {bs : List α} {p x : Option α} {t g f : Forest α}
    (h : ∀ c ∈ bs, Clear c p x f) (ht : ∀ c ∈ bs, c ∉ labels t) :
    pruneAll bs (place p x t g) = place p x t (pruneAll bs g) := by
  induction bs generalizing g with
  | nil => rfl
  | cons c bs ih =>
    rw [pruneAll, prune_place (h c (List.mem_cons_self ..)) (ht c (List.mem_cons_self ..)),
      ih (fun c hc => h c (List.mem_cons_of_mem _ hc))
        (fun c hc => ht c (List.mem_cons_of_mem _ hc)), pruneAll]

/-! ## Trees that stay intact -/

theorem under_prune {b c : α} {f : Forest α} (hb : b ∉ labels (under c f)) (hne : b ≠ c)
    (hc : c ∉ labels (under b f)) : under c (prune b f) = under c f := by
  induction f with
  | nil => rfl
  | node a k r ihk ihr =>
    by_cases ha : a = b
    · subst ha
      rw [under, if_pos rfl] at hc
      rw [prune, if_pos rfl, under_node_of_ne _ _ hne, under_of_not_mem hc, nil_append]
    · rw [under_node_of_ne _ _ ha, labels_append, List.mem_append, not_or] at hc
      rw [prune, if_neg ha]
      by_cases hac : a = c
      · subst hac
        rw [under, if_pos rfl] at hb
        rw [under, if_pos rfl, under, if_pos rfl, prune_of_not_mem hb]
      · rw [under_node_of_ne _ _ hac, labels_append, List.mem_append, not_or] at hb
        rw [under_node_of_ne _ _ hac, under_node_of_ne _ _ hac, ihk hb.1 hc.1, ihr hb.2 hc.2]

theorem under_insertAfter {c x : α} {t g : Forest α} (ht : c ∉ labels t) (hne : c ≠ x)
    (hx : x ∉ labels (under c g)) : under c (insertAfter x t g) = under c g := by
  induction g with
  | nil => rfl
  | node a k r ihk ihr =>
    by_cases ha : a = x
    · subst ha
      rw [insertAfter, if_pos rfl, under_node_of_ne _ _ (Ne.symm hne),
        under_node_of_ne _ _ (Ne.symm hne), under_append_right ht]
    · rw [insertAfter, if_neg ha]
      by_cases hac : a = c
      · subst hac
        rw [under, if_pos rfl] at hx
        rw [under, if_pos rfl, under, if_pos rfl, insertAfter_of_not_mem hx]
      · rw [under_node_of_ne _ _ hac, labels_append, List.mem_append, not_or] at hx
        rw [under_node_of_ne _ _ hac, under_node_of_ne _ _ hac, ihk hx.1, ihr hx.2]

theorem under_mapUnder {c p : α} {t g : Forest α} (ht : c ∉ labels t) (hne : c ≠ p)
    (hp : p ∉ labels (under c g)) : under c (mapUnder p (t ++ ·) g) = under c g := by
  induction g with
  | nil => rfl
  | node a k r ihk ihr =>
    by_cases ha : a = p
    · subst ha
      rw [mapUnder, if_pos rfl, under_node_of_ne _ _ (Ne.symm hne),
        under_node_of_ne _ _ (Ne.symm hne), under_append_right ht]
    · rw [mapUnder, if_neg ha]
      by_cases hac : a = c
      · subst hac
        rw [under, if_pos rfl] at hp
        rw [under, if_pos rfl, under, if_pos rfl, mapUnder_of_not_mem hp]
      · rw [under_node_of_ne _ _ hac, labels_append, List.mem_append, not_or] at hp
        rw [under_node_of_ne _ _ hac, under_node_of_ne _ _ hac, ihk hp.1, ihr hp.2]

theorem Clear.under_place {c : α} {p x : Option α} {t g : Forest α} (h : Clear c p x g)
    (ht : c ∉ labels t) : under c (place p x t g) = under c g := by
  cases x with
  | some x =>
    have hx := h.anchor x rfl
    rw [subtree, List.mem_cons, not_or] at hx
    exact under_insertAfter ht (Ne.symm hx.1) hx.2
  | none =>
    cases p with
    | none => exact under_append_right ht
    | some q =>
      have hq := h.parent q rfl
      rw [subtree, List.mem_cons, not_or] at hq
      exact under_mapUnder ht (Ne.symm hq.1) hq.2

/-! ## A run of moves is a group move -/

theorem insertAfter_insertAfter {b x : α} {k t g : Forest α} (hb : b ∉ labels g) :
    insertAfter b t (insertAfter x (single b k) g) = insertAfter x (single b k ++ t) g := by
  induction g with
  | nil => rfl
  | node a l r ihk ihr =>
    simp only [labels_node, List.mem_cons, List.mem_append, not_or] at hb
    by_cases hx : a = x
    · subst hx
      rw [insertAfter, if_pos rfl, insertAfter, if_neg (Ne.symm hb.1), insertAfter_of_not_mem hb.2.1,
        insertAfter, if_pos rfl]
      simp [single, insertAfter]
    · rw [insertAfter, if_neg hx, insertAfter, if_neg (Ne.symm hb.1), ihk hb.2.1, ihr hb.2.2,
        insertAfter, if_neg hx]

theorem insertAfter_mapUnder {b p : α} {k t g : Forest α} (hb : b ∉ labels g) :
    insertAfter b t (mapUnder p (single b k ++ ·) g) = mapUnder p ((single b k ++ t) ++ ·) g := by
  induction g with
  | nil => rfl
  | node a l r ihk ihr =>
    simp only [labels_node, List.mem_cons, List.mem_append, not_or] at hb
    by_cases hx : a = p
    · subst hx
      rw [mapUnder, if_pos rfl, insertAfter, if_neg (Ne.symm hb.1), insertAfter_of_not_mem hb.2.2,
        mapUnder, if_pos rfl]
      simp [single, insertAfter]
    · rw [mapUnder, if_neg hx, insertAfter, if_neg (Ne.symm hb.1), ihk hb.2.1, ihr hb.2.2,
        mapUnder, if_neg hx]

/-- The next trees go after the one that was just placed. -/
theorem place_place {b : α} {p x : Option α} {k t g : Forest α} (hb : b ∉ labels g) :
    place p (some b) t (place p x (single b k) g) = place p x (single b k ++ t) g := by
  cases x with
  | some x => exact insertAfter_insertAfter hb
  | none =>
    cases p with
    | some q => exact insertAfter_mapUnder hb
    | none => simp [place, mapRow, single, insertAfter]

theorem insertAfter_nil (x : α) (f : Forest α) : insertAfter x nil f = f := by
  induction f with
  | nil => rfl
  | node a k r ihk ihr => rw [insertAfter, ihk, ihr, nil_append, ite_self]

theorem mapUnder_nil (q : α) (f : Forest α) : mapUnder q (nil ++ ·) f = f := by
  induction f with
  | nil => rfl
  | node a k r ihk ihr => rw [mapUnder, ihk, ihr, nil_append, ite_self]

theorem place_nil (p x : Option α) (f : Forest α) : place p x nil f = f := by
  cases x with
  | some x => exact insertAfter_nil x f
  | none =>
    cases p with
    | none => rfl
    | some q => exact mapUnder_nil q f

/-- A place for the trees of `bs`: it is there, and in none of them. -/
structure Landing (bs : List α) (p x : Option α) (f : Forest α) : Prop where
  parent : ∀ q, p = some q → q ∈ labels f
  anchor : ∀ y, x = some y → y ∈ labels f
  clear : ∀ c ∈ bs, Clear c p x f

theorem Landing.movable {b : α} {bs : List α} {p : Option α} {f : Forest α}
    (h : Landing (b :: bs) p none f) (hb : b ∈ labels f) : Movable b p f :=
  ⟨hb, fun q hq => ⟨h.parent q hq, (h.clear b (List.mem_cons_self ..)).parent q hq⟩⟩

theorem Landing.followable {b x : α} {bs : List α} {p : Option α} {f : Forest α}
    (h : Landing (b :: bs) p (some x) f) (hb : b ∈ labels f) : Followable b x f :=
  ⟨hb, h.anchor x rfl, (h.clear b (List.mem_cons_self ..)).anchor x rfl⟩

theorem Landing.labels_perm {b : α} {bs : List α} {p x : Option α} {f : Forest α}
    (h : Landing (b :: bs) p x f) (hb : b ∈ labels f) (hn : (labels f).Nodup) :
    (labels (moveNext b p x f)).Perm (labels f) := by
  cases x with
  | none => exact labels_perm_moveAt (h.movable hb) hn
  | some x => exact labels_perm_moveAfter (h.followable hb) hn

theorem Apart.under_prune {b c : α} {bs : List α} {f : Forest α} (ha : Apart (b :: bs) f)
    (hc : c ∈ bs) : under c (prune b f) = under c f := by
  obtain ⟨hne, hcb, hbc⟩ := ha.head hc
  rw [subtree, List.mem_cons, not_or] at hcb hbc
  exact Forest.under_prune hbc.2 (Ne.symm hne) hcb.2

/-- The trees that are still to move do not change with the first one. -/
theorem Landing.under_eq {b c : α} {bs : List α} {p x : Option α} {f : Forest α}
    (h : Landing (b :: bs) p x f) (ha : Apart (b :: bs) f) (hc : c ∈ bs) :
    under c (moveNext b p x f) = under c f := by
  obtain ⟨_, hcb, _⟩ := ha.head hc
  have hp := ha.under_prune hc
  have hcl := h.clear c (List.mem_cons_of_mem _ hc)
  have hclear : Clear c p x (prune b f) := by
    refine ⟨fun q hq => ?_, fun y hy => ?_⟩
    · rw [subtree, hp]; exact hcl.parent q hq
    · rw [subtree, hp]; exact hcl.anchor y hy
  rw [moveNext_eq, hclear.under_place (by rwa [labels_single]), hp]

theorem trees_congr {bs : List α} {f g : Forest α} (h : ∀ c ∈ bs, under c g = under c f) :
    trees bs g = trees bs f := by
  induction bs with
  | nil => rfl
  | cons b bs ih =>
    rw [trees, trees, h b (List.mem_cons_self ..),
      ih fun c hc => h c (List.mem_cons_of_mem _ hc)]

/-- After the first tree has moved, the rest may follow it. -/
theorem Landing.step {b : α} {bs : List α} {p x : Option α} {f : Forest α}
    (h : Landing (b :: bs) p x f) (ha : Apart (b :: bs) f) (hn : (labels f).Nodup) :
    Apart bs (moveNext b p x f) ∧ Landing bs p (some b) (moveNext b p x f) := by
  have hb := ha.mem b (List.mem_cons_self ..)
  have hp := h.labels_perm hb hn
  have hs : ∀ c ∈ bs, subtree c (moveNext b p x f) = subtree c f := fun c hc => by
    rw [subtree, h.under_eq ha hc, subtree]
  refine ⟨(ha.step (fun c hc => hp.mem_iff.mpr (ha.tail.mem c hc))
    (fun c hc => h.under_eq ha hc)).1, fun q hq => hp.mem_iff.mpr (h.parent q hq), ?_, ?_⟩
  · rintro y hy
    obtain rfl := Option.some.inj hy
    exact hp.mem_iff.mpr hb
  · refine fun c hc => ⟨fun q hq => ?_, fun y hy => ?_⟩
    · rw [hs c hc]; exact (h.clear c (List.mem_cons_of_mem _ hc)).parent q hq
    · obtain rfl := Option.some.inj hy
      rw [hs c hc]; exact (ha.head hc).2.2

theorem mem_labels_pruneAll {bs : List α} {f : Forest α} {y : α}
    (h : y ∈ labels (pruneAll bs f)) : y ∈ labels f := by
  induction bs generalizing f with
  | nil => exact h
  | cons b bs ih => exact (prune_labels_sublist b f).subset (ih h)

theorem not_mem_pruneAll {b : α} {bs : List α} {f : Forest α} (hn : (labels f).Nodup) :
    b ∉ labels (pruneAll (b :: bs) f) := fun h =>
  not_mem_labels_prune hn (mem_labels_pruneAll h)

/-- Moving the trees one by one is moving them as one run. -/
theorem moveRun_eq {bs : List α} {p x : Option α} {f : Forest α} (h : Landing bs p x f)
    (ha : Apart bs f) (hn : (labels f).Nodup) : moveRun bs p x f = moveGroup bs p x f := by
  induction bs generalizing x f with
  | nil => exact (place_nil p x f).symm
  | cons b bs ih =>
    obtain ⟨ha', h'⟩ := h.step ha hn
    have hp := h.labels_perm (ha.mem b (List.mem_cons_self ..)) hn
    have hpr : pruneAll bs (moveNext b p x f) =
        place p x (single b (under b f)) (pruneAll (b :: bs) f) := by
      rw [moveNext_eq, pruneAll_place (fun c hc => h.clear c (List.mem_cons_of_mem _ hc)), pruneAll]
      intro c hc
      obtain ⟨hne, hcb, _⟩ := ha.head hc
      rw [labels_single]; exact hcb
    rw [moveRun, ih h' ha' (hp.nodup_iff.mpr hn), moveGroup, hpr,
      trees_congr fun c hc => h.under_eq ha hc, place_place (not_mem_pruneAll hn), moveGroup,
      trees]

/-! ## Rows and parents of a group move -/

theorem Apart.prune {b : α} {bs : List α} {f : Forest α} (ha : Apart (b :: bs) f)
    (hn : (labels f).Nodup) : Apart bs (prune b f) :=
  (ha.step (fun c hc => (mem_labels_prune hn).mpr ⟨ha.tail.mem c hc, (ha.head hc).2.1⟩)
    fun _ hc => ha.under_prune hc).1

theorem Apart.subtree_prune {b c : α} {bs : List α} {f : Forest α} (ha : Apart (b :: bs) f)
    (hc : c ∈ bs) : subtree c (Forest.prune b f) = subtree c f := by
  rw [subtree, ha.under_prune hc, subtree]

theorem nodup_pruneAll {bs : List α} {f : Forest α} (hn : (labels f).Nodup) :
    (labels (pruneAll bs f)).Nodup := by
  induction bs generalizing f with
  | nil => exact hn
  | cons b bs ih => exact ih (nodup_prune hn)

theorem mem_pruneAll_iff {bs : List α} {f : Forest α} {y : α} (ha : Apart bs f)
    (hn : (labels f).Nodup) :
    y ∈ labels (pruneAll bs f) ↔ y ∈ labels f ∧ ∀ b ∈ bs, y ∉ subtree b f := by
  induction bs generalizing f with
  | nil => simp [pruneAll]
  | cons b bs ih =>
    rw [pruneAll, ih (ha.prune hn) (nodup_prune hn), mem_labels_prune hn, List.forall_mem_cons,
      and_assoc]
    refine and_congr_right fun _ => and_congr_right fun _ => ?_
    exact forall₂_congr fun c hc => by rw [ha.subtree_prune hc]

/-- The moved labels leave every row outside the moved trees. -/
theorem row_pruneAll {bs : List α} {q : Option α} {f : Forest α} (ha : Apart bs f)
    (hn : (labels f).Nodup) (hq : ∀ x, q = some x → ∀ b ∈ bs, x ∉ subtree b f) :
    row q (pruneAll bs f) = (row q f).map (·.filter fun y => !bs.contains y) := by
  induction bs generalizing f with
  | nil => simp [pruneAll]
  | cons b bs ih =>
    have hq' : ∀ x, q = some x → ∀ c ∈ bs, x ∉ subtree c (prune b f) := fun x hx c hc => by
      rw [ha.subtree_prune hc]; exact hq x hx c (List.mem_cons_of_mem _ hc)
    rw [pruneAll, ih (ha.prune hn) (nodup_prune hn) hq',
      row_prune hn fun x hx => hq x hx b (List.mem_cons_self ..), Option.map_map]
    cases hr : row q f with
    | none => rfl
    | some l =>
      have hl := nodup_row hn hr
      simp only [Option.map_some, Function.comp_apply, hl.erase_eq_filter, List.filter_filter]
      refine congrArg some (List.filter_congr fun y _ => ?_)
      by_cases hy : y = b <;> simp [hy]

theorem parentIn_pruneAll {bs : List α} {y : α} {f : Forest α} (ha : Apart bs f)
    (hn : (labels f).Nodup) (hy : ∀ b ∈ bs, y ∉ subtree b f) :
    parentIn none y (pruneAll bs f) = parentIn none y f := by
  induction bs generalizing f with
  | nil => rfl
  | cons b bs ih =>
    have hy' : ∀ c ∈ bs, y ∉ subtree c (prune b f) := fun c hc => by
      rw [ha.subtree_prune hc]; exact hy c (List.mem_cons_of_mem _ hc)
    rw [pruneAll, ih (ha.prune hn) (nodup_prune hn) hy',
      parentIn_prune hn (hy b (List.mem_cons_self ..))]

theorem labels_perm_trees {bs : List α} {f : Forest α} (ha : Apart bs f)
    (hn : (labels f).Nodup) :
    (labels f).Perm (labels (trees bs f) ++ labels (pruneAll bs f)) := by
  induction bs generalizing f with
  | nil => exact List.Perm.refl _
  | cons b bs ih =>
    have h := ih (ha.prune hn) (nodup_prune hn)
    rw [trees_congr fun c hc => ha.under_prune hc] at h
    refine (labels_perm_prune hn (ha.mem b (List.mem_cons_self ..))).trans ?_
    rw [trees, labels_append, labels_single, List.append_assoc]
    exact h.append_left _

theorem roots_trees (bs : List α) (f : Forest α) : roots (trees bs f) = bs := by
  induction bs with
  | nil => rfl
  | cons b bs ih => rw [trees, roots_append, roots_single, ih]; rfl

theorem trees_append (bs cs : List α) (f : Forest α) :
    trees (bs ++ cs) f = trees bs f ++ trees cs f := by
  induction bs with
  | nil => rfl
  | cons b bs ih => rw [List.cons_append, trees, trees, ih, append_assoc]

theorem mem_labels_trees {bs : List α} {f : Forest α} {y : α} :
    y ∈ labels (trees bs f) ↔ ∃ b ∈ bs, y ∈ subtree b f := by
  induction bs with
  | nil => simp [trees]
  | cons b bs ih => rw [trees, labels_append, List.mem_append, labels_single, ih]; simp [subtree]

/-- Inside the moved trees nothing moves. -/
theorem row_trees {bs : List α} {f : Forest α} {y : α} (ha : Apart bs f) (hn : (labels f).Nodup)
    (hy : y ∈ labels (trees bs f)) : row (some y) (trees bs f) = row (some y) f := by
  obtain ⟨b, hb, hyb⟩ := mem_labels_trees.mp hy
  have hnt := (List.nodup_append.mp ((labels_perm_trees ha hn).nodup_iff.mp hn)).1
  obtain ⟨cs, ds, rfl⟩ := List.append_of_mem hb
  rw [trees_append, trees] at hnt ⊢
  rw [row_under hn (ha.mem b hb) hyb]
  exact row_insert_of_mem (z := []) hnt (by rwa [labels_single])

theorem parentIn_trees {bs : List α} {f : Forest α} {p : Option α} {y : α} (ha : Apart bs f)
    (hn : (labels f).Nodup) (hy : y ∈ labels (trees bs f)) :
    parentIn p y (trees bs f) = if y ∈ bs then some p else parentIn none y f := by
  induction bs with
  | nil => simp [trees] at hy
  | cons b bs ih =>
    rw [trees, parentIn_append]
    by_cases hyb : y ∈ subtree b f
    · rw [Option.or_of_isSome (parentIn_isSome.mpr (by rwa [labels_single])), single, parentIn]
      by_cases he : b = y
      · rw [if_pos he, if_pos (by simp [he])]
      · have hybs : y ∉ b :: bs := fun hm => by
          rcases List.mem_cons.mp hm with rfl | hm
          · exact he rfl
          · exact (ha.head hm).2.1 hyb
        have hu := (List.mem_cons.mp hyb).resolve_left (Ne.symm he)
        rw [if_neg he, if_neg hybs, parentIn, Option.or_none, parentIn_under hn hu]
    · have hne : y ≠ b := fun he => hyb (he ▸ List.mem_cons_self ..)
      have hyt : y ∈ labels (trees bs f) := by
        rw [trees, labels_append, List.mem_append, labels_single] at hy
        exact hy.resolve_left hyb
      rw [parentIn_of_not_mem (by rwa [labels_single]), Option.none_or, ih ha.tail hyt]
      simp [hne]

/-- Puts `run` after `x` in a row, or at its front. -/
def splice (x : Option α) (run l : List α) : List α :=
  let d := match x with
    | some x => l.idxOf x + 1
    | none => 0
  l.take d ++ run ++ l.drop d

theorem exists_place {p x : Option α} {g : Forest α} (t : Forest α) (hn : (labels g).Nodup)
    (hp : ∀ q, p = some q → q ∈ labels g)
    (hx : ∀ y, x = some y → parentIn none y g = some p) :
    ∃ z l r, g = plug z (l ++ r) ∧ ownerOf z = p ∧ place p x t g = plug z (l ++ (t ++ r)) ∧
      ∀ run, splice x run (roots (l ++ r)) = roots l ++ run ++ roots r := by
  cases x with
  | none =>
    obtain ⟨z, h, rfl, rfl⟩ := exists_row hp
    exact ⟨z, nil, h, rfl, rfl, mapRow_plug _ hn, fun run => by simp [splice]⟩
  | some y =>
    have hy := hx y rfl
    obtain ⟨z, l, k, r, rfl⟩ := exists_plug (parentIn_isSome.mp (by rw [hy]; rfl))
    obtain rfl := Option.some.inj ((parentIn_split hn).symm.trans hy)
    have hl : y ∉ roots l := fun hm =>
      (split_not_mem hn (List.mem_cons_self ..)).2.2.1 (mem_labels_of_mem_roots hm)
    refine ⟨z, l ++ single y k, r, by simp [single], rfl, insertAfter_split t hn, fun run => ?_⟩
    have hi : (roots l ++ y :: roots r).idxOf y = (roots l).length := by
      rw [List.idxOf_append_of_notMem hl, List.idxOf_cons_self, Nat.add_zero]
    have ht : (roots l).take ((roots l).length + 1) = roots l :=
      List.take_of_length_le (Nat.le_succ _)
    have hd : (roots l).drop ((roots l).length + 1) = [] :=
      List.drop_of_length_le (Nat.le_succ _)
    simp [splice, hi, List.take_append, List.drop_append, ht, hd]

/-- The forest of a group move around the place of the run. -/
theorem exists_moveGroup {bs : List α} {p x : Option α} {f : Forest α} (h : Landing bs p x f)
    (ha : Apart bs f) (hn : (labels f).Nodup)
    (hx : ∀ y, x = some y → parentIn none y f = some p) :
    ∃ z l r, pruneAll bs f = plug z (l ++ r) ∧ ownerOf z = p ∧
      moveGroup bs p x f = plug z (l ++ (trees bs f ++ r)) ∧
      (labels (plug z (l ++ (trees bs f ++ r)))).Nodup ∧
      ∀ run, splice x run (roots (l ++ r)) = roots l ++ run ++ roots r := by
  have hp : ∀ q, p = some q → q ∈ labels (pruneAll bs f) := fun q hq =>
    (mem_pruneAll_iff ha hn).mpr ⟨h.parent q hq, fun b hb => (h.clear b hb).parent q hq⟩
  have hx' : ∀ y, x = some y → parentIn none y (pruneAll bs f) = some p := fun y hy => by
    rw [parentIn_pruneAll ha hn fun b hb => (h.clear b hb).anchor y hy]; exact hx y hy
  obtain ⟨z, l, r, he, ho, hm, hs⟩ := exists_place (trees bs f) (nodup_pruneAll hn) hp hx'
  have hpt := labels_perm_trees ha hn
  rw [he] at hpt
  refine ⟨z, l, r, he, ho, hm, ?_, hs⟩
  exact (labels_perm_insert z l _ r).nodup_iff.mpr (hpt.nodup_iff.mp hn)

theorem labels_perm_moveGroup {bs : List α} {p x : Option α} {f : Forest α}
    (h : Landing bs p x f) (ha : Apart bs f) (hn : (labels f).Nodup)
    (hx : ∀ y, x = some y → parentIn none y f = some p) :
    (labels (moveGroup bs p x f)).Perm (labels f) := by
  obtain ⟨z, l, r, he, _, hm, _, _⟩ := exists_moveGroup h ha hn hx
  rw [hm]
  refine (labels_perm_insert z l _ r).trans ?_
  rw [← he]
  exact (labels_perm_trees ha hn).symm

theorem not_mem_row_of_trees {bs : List α} {y : α} {m : List α} {f : Forest α}
    (ha : Apart bs f) (hn : (labels f).Nodup) (hy : y ∈ labels (trees bs f))
    (hm : row (some y) f = some m) : ∀ c ∈ bs, c ∉ m := by
  intro c hc hcm
  obtain ⟨b, hb, hyb⟩ := mem_labels_trees.mp hy
  have hpc := (mem_row_iff hn).mp ⟨m, hm, hcm⟩
  obtain ⟨z, l, k, r, rfl⟩ := exists_plug (ha.mem c hc)
  have ho := Option.some.inj ((parentIn_split hn).symm.trans hpc)
  cases z with
  | nil => cases ho
  | cons t z =>
    obtain rfl := Option.some.inj ho
    have hcb : c ∈ subtree b (plug (t :: z) (l ++ node c k r)) := by
      rw [mem_subtree_split_iff hn]
      rw [plug_cons, mem_subtree_split_iff (by rwa [plug_cons] at hn)] at hyb
      rcases hyb with rfl | ⟨u, hu, rfl⟩
      · exact .inr ⟨t, List.mem_cons_self .., rfl⟩
      · exact .inr ⟨u, List.mem_cons_of_mem _ hu, rfl⟩
    by_cases hne : c = b
    · subst hne
      exact not_mem_roots_under hn hyb (by
        rw [row] at hm
        split at hm
        · obtain rfl := Option.some.inj hm; exact hcm
        · cases hm)
    · exact ha.apart c hc b hb hne hcb

/-- Every row after a group move: the moved labels are out of it, and in the
row of `p` they stand once, together and in order. -/
theorem row_moveGroup {bs : List α} {p x q : Option α} {f : Forest α}
    (h : Landing bs p x f) (ha : Apart bs f) (hn : (labels f).Nodup)
    (hx : ∀ y, x = some y → parentIn none y f = some p) :
    row q (moveGroup bs p x f) = (row q f).map fun l =>
      let m := l.filter fun y => !bs.contains y
      if q = p then splice x bs m else m := by
  obtain ⟨z, l, r, he, ho, hm, hn', hs⟩ := exists_moveGroup h ha hn hx
  rw [hm]
  by_cases hq : q = p
  · subst hq
    have hr := row_pruneAll (q := q) ha hn fun x hx b hb => (h.clear b hb).parent x hx
    rw [he, ← ho, row_owner (he ▸ nodup_pruneAll hn)] at hr
    rw [← ho, row_owner hn']
    cases hf : row (ownerOf z) f with
    | none => rw [hf] at hr; cases hr
    | some m =>
      rw [hf, Option.map_some, Option.some.injEq] at hr
      rw [Option.map_some, if_pos rfl, ← hr, hs]
      simp [roots_trees]
  · simp only [if_neg hq]
    by_cases ht : ∀ y, q = some y → y ∉ labels (trees bs f)
    · rw [row_insert_of_ne (ho ▸ hq) ht, ← he, row_pruneAll ha hn]
      exact fun y hy b hb hyb => ht y hy (mem_labels_trees.mpr ⟨b, hb, hyb⟩)
    · simp only [not_forall, not_not] at ht
      obtain ⟨y, rfl, hy⟩ := ht
      rw [row_insert_of_mem hn' hy, row_trees ha hn hy]
      cases hf : row (some y) f with
      | none => rfl
      | some m =>
        have hnm := not_mem_row_of_trees ha hn hy hf
        rw [Option.map_some, List.filter_eq_self.mpr]
        exact fun c hc => by simpa using fun hb => hnm c hb hc

theorem parentIn_moveGroup {bs : List α} {p x : Option α} {y : α} {f : Forest α}
    (h : Landing bs p x f) (ha : Apart bs f) (hn : (labels f).Nodup)
    (hx : ∀ y, x = some y → parentIn none y f = some p) :
    parentIn none y (moveGroup bs p x f) = if y ∈ bs then some p else parentIn none y f := by
  obtain ⟨z, l, r, he, ho, hm, hn', _⟩ := exists_moveGroup h ha hn hx
  rw [hm]
  by_cases hy : y ∈ labels (trees bs f)
  · rw [parentIn_insert_of_mem hn' hy, ho, parentIn_trees ha hn hy]
  · have hyb : ∀ b ∈ bs, y ∉ subtree b f := fun b hb hyb =>
      hy (mem_labels_trees.mpr ⟨b, hb, hyb⟩)
    have hybs : y ∉ bs := fun hm => hyb y hm (List.mem_cons_self ..)
    rw [parentIn_insert_of_not_mem hy, ← he, parentIn_pruneAll ha hn hyb, if_neg hybs]

/-- The moved trees arrive as they were. -/
theorem under_moveGroup {bs : List α} {p x : Option α} {b : α} {f : Forest α}
    (h : Landing bs p x f) (ha : Apart bs f) (hn : (labels f).Nodup)
    (hx : ∀ y, x = some y → parentIn none y f = some p) (hb : b ∈ bs) :
    under b (moveGroup bs p x f) = under b f := by
  obtain ⟨z, l, r, _, _, hm, hn', _⟩ := exists_moveGroup h ha hn hx
  obtain ⟨cs, ds, rfl⟩ := List.append_of_mem hb
  rw [trees_append, trees] at hn' hm
  rw [hm]
  have he : l ++ (trees cs f ++ (single b (under b f) ++ trees ds f) ++ r) =
      (l ++ trees cs f) ++ node b (under b f) (trees ds f ++ r) := by
    simp [single]
  rw [he] at hn' ⊢
  exact under_split hn'

end Neoseq.Forest
