import Neoseq.Forest.Apart
import Neoseq.Outline.Reparent

/-! Indent and outdent of a whole request. The plan succeeds exactly on the
requests it should, the projected forest keeps the pre-order and changes the
depth of exactly the requested trees, and applying the plan to the document's
tree produces the projected forest. The tree itself is a store with two moves;
what it promises about them is `TreeOps.Lawful`. -/

namespace Neoseq.Outline
open Forest OutlineState
variable {β : Type} [LinearOrder β]

/-! ## Normalized roots -/

/-- A request the planner accepts at all. -/
structure Acceptable (requested : List β) (f : Forest β) : Prop where
  nonempty : requested ≠ []
  bounded : requested.length ≤ maxStructuralTargets
  present : ∀ b ∈ requested, b ∈ f.labels

theorem find?_missing {f : Forest β} (hn : f.labels.Nodup) (requested : List β) :
    ((requested.insertionSort (· ≤ ·)).find? fun b => ((fromTree f).parents b).isNone) = none ↔
      ∀ b ∈ requested, b ∈ f.labels := by
  rw [List.find?_eq_none]
  simp only [List.mem_insertionSort, (represents_fromTree hn).parents, Option.isNone_iff_eq_none,
    ← Option.not_isSome_iff_eq_none, not_not, parentIn_isSome]

theorem roots_fromTree {f : Forest β} (hn : f.labels.Nodup) {requested : List β}
    (ha : Acceptable requested f) :
    (fromTree f).roots requested = .ok (topmost requested f) := by
  have hs := represents_fromTree hn
  have he : requested.isEmpty = false := by simpa using ha.nonempty
  have hl : ¬requested.length > maxStructuralTargets := Nat.not_lt.mpr ha.bounded
  rw [OutlineState.roots, he, if_neg hl, (find?_missing hn requested).mpr ha.present,
    fromTree_order]
  refine congrArg Except.ok (List.filter_congr fun b hb => ?_)
  have hanc : (fromTree f).hasRequestedAncestor b requested =
      requested.any fun c => (labels (under c f)).contains b := by
    rw [Bool.eq_iff_iff, hs.hasRequestedAncestor hb]; simp
  rw [hanc]

theorem acceptable_of_roots {f : Forest β} (hn : f.labels.Nodup) {requested rs : List β}
    (h : (fromTree f).roots requested = .ok rs) : Acceptable requested f := by
  rw [OutlineState.roots] at h
  split at h
  · cases h
  · next he =>
    split at h
    · cases h
    · next hl =>
      split at h
      · cases h
      · next hf =>
        exact ⟨by simpa using he, Nat.not_lt.mp hl, (find?_missing hn requested).mp hf⟩

theorem roots_ok_iff {f : Forest β} (hn : f.labels.Nodup) {requested rs : List β} :
    (fromTree f).roots requested = .ok rs ↔
      Acceptable requested f ∧ rs = topmost requested f := by
  constructor
  · intro h
    have ha := acceptable_of_roots hn h
    exact ⟨ha, Except.ok.inj (h.symm.trans (roots_fromTree hn ha))⟩
  · rintro ⟨ha, rfl⟩
    exact roots_fromTree hn ha

/-! ## All the blocks of a request -/

theorem Represents.indentRoots {s : OutlineState β} {f : Forest β} (hs : Represents s f)
    {bs : List β} (ha : Apart bs f) (ho : bs.Sublist f.labels) (hl : ∀ b ∈ bs, ¬Leads b f) :
    ∃ g steps s', LowersAll bs f g ∧ indentRoots bs s = .ok (steps, s') ∧
      Replays steps f g ∧ Represents s' g := by
  induction bs generalizing s f with
  | nil => exact ⟨f, [], s, .nil f, rfl, .nil f, hs⟩
  | cons b bs ih =>
    have hb := ha.mem b (List.mem_cons_self ..)
    obtain ⟨hlead, _⟩ | ⟨c, g, step, s₁, _, hlow, he, hmove, hs₁⟩ := hs.indent hb
    · exact absurd hlead (hl b (List.mem_cons_self ..))
    obtain ⟨ha', _, ho'⟩ := hlow.apart ha ho hs.nodup
    have hl' : ∀ x ∈ bs, ¬Leads x g := fun x hx => by
      rw [hlow.leads_iff hs.nodup (ha.head hx).1]
      exact hl x (List.mem_cons_of_mem _ hx)
    obtain ⟨h, steps, s₂, hall, hi, hr, hs₂⟩ := ih hs₁ ha' ho' hl'
    refine ⟨h, step :: steps, s₂, .cons hlow hall, ?_, .cons hmove hr, hs₂⟩
    rw [Outline.indentRoots, he]
    simp only [bind, Except.bind, hi]
    rfl

theorem Represents.not_leads_of_indentRoots {s : OutlineState β} {f : Forest β}
    (hs : Represents s f) {bs : List β} (ha : Apart bs f) (ho : bs.Sublist f.labels)
    {r : List (ReparentStep β) × OutlineState β} (h : Outline.indentRoots bs s = .ok r) :
    ∀ b ∈ bs, ¬Leads b f := by
  induction bs generalizing s f r with
  | nil => exact fun _ hb => nomatch hb
  | cons b bs ih =>
    have hb := ha.mem b (List.mem_cons_self ..)
    rw [Outline.indentRoots] at h
    obtain ⟨_, he⟩ | ⟨c, g, step, s₁, hnl, hlow, he, _, hs₁⟩ := hs.indent hb
    · rw [he] at h; cases h
    obtain ⟨ha', _, ho'⟩ := hlow.apart ha ho hs.nodup
    intro x hx
    rcases List.mem_cons.mp hx with rfl | hx
    · exact hnl
    rw [← hlow.leads_iff hs.nodup (ha.head hx).1]
    cases hi : Outline.indentRoots bs s₁ with
    | error e => rw [he] at h; simp only [bind, Except.bind, hi] at h; cases h
    | ok r' => exact ih hs₁ ha' ho' hi x hx

theorem Represents.outdentRoots {s : OutlineState β} {f : Forest β} (hs : Represents s f)
    {bs : List β} (ha : Apart bs f) (hr : ∀ b ∈ bs, b ∉ f.roots) :
    ∃ g steps s', RaisesAll bs f g ∧ outdentRoots bs s = .ok (steps, s') ∧
      Replays steps f g ∧ Represents s' g := by
  induction bs generalizing s f with
  | nil => exact ⟨f, [], s, .nil f, rfl, .nil f, hs⟩
  | cons b bs ih =>
    have hb := List.mem_cons_self (a := b) (l := bs)
    obtain ⟨g, first, s₁, hraise, he, hrep, hs₁⟩ := hs.outdent (ha.mem b hb) (hr b hb)
    have hr' : ∀ x ∈ bs, x ∉ g.roots := fun x hx => by
      rw [hraise.mem_roots_iff (ha.head hx).1]
      exact hr x (List.mem_cons_of_mem _ hx)
    obtain ⟨h, steps, s₂, hall, hi, hrest, hs₂⟩ := ih hs₁ (hraise.apart ha hs.nodup).1 hr'
    refine ⟨h, first ++ steps, s₂, .cons hraise hall, ?_, hrep.append hrest, hs₂⟩
    rw [Outline.outdentRoots, he]
    simp only [bind, Except.bind, hi]
    rfl

theorem Represents.not_root_of_outdentRoots {s : OutlineState β} {f : Forest β}
    (hs : Represents s f) {bs : List β} (ha : Apart bs f)
    {r : List (ReparentStep β) × OutlineState β} (h : Outline.outdentRoots bs s = .ok r) :
    ∀ b ∈ bs, b ∉ f.roots := by
  induction bs generalizing s f r with
  | nil => exact fun _ hb => nomatch hb
  | cons b bs ih =>
    rw [Outline.outdentRoots] at h
    have hb : b ∉ f.roots := fun hm => by rw [hs.outdent_root hm] at h; cases h
    obtain ⟨g, first, s₁, hraise, he, _, hs₁⟩ := hs.outdent (ha.mem b (List.mem_cons_self ..)) hb
    intro x hx
    rcases List.mem_cons.mp hx with rfl | hx
    · exact hb
    rw [← hraise.mem_roots_iff (ha.head hx).1]
    cases hi : Outline.outdentRoots bs s₁ with
    | error e => rw [he] at h; simp only [bind, Except.bind, hi] at h; cases h
    | ok r' => exact ih hs₁ (hraise.apart ha hs.nodup).1 hi x hx

/-! ## Replaying a plan -/

/-- The tree of a document: what is live in it, and the two moves it offers. -/
structure TreeOps (T β ε : Type) where
  live : T → Forest β
  movTo : T → β → Option β → Nat → Except ε T
  movAfter : T → β → β → Except ε T

/-- A legal move succeeds, and moves one tree with everything in it. -/
structure TreeOps.Lawful {T ε : Type} (ops : TreeOps T β ε) : Prop where
  movTo_first : ∀ t b p, (ops.live t).labels.Nodup → Movable b p (ops.live t) →
    ∃ t', ops.movTo t b p 0 = .ok t' ∧ ops.live t' = moveAt b p 0 (ops.live t)
  movAfter_next : ∀ t b x, (ops.live t).labels.Nodup → Followable b x (ops.live t) →
    ∃ t', ops.movAfter t b x = .ok t' ∧ ops.live t' = moveAfter b x (ops.live t)

variable {T ε : Type} {ops : TreeOps T β ε}

def TreeOps.applyReparentStep (ops : TreeOps T β ε) (t : T) (step : ReparentStep β) :
    Except ε T :=
  match step.destination with
  | .firstChild parent => ops.movTo t step.block (some parent) 0
  | .after anchor => ops.movAfter t step.block anchor

def TreeOps.applyReparentPlan (ops : TreeOps T β ε) (plan : ReparentPlan β) (t : T) :
    Except ε T :=
  plan.steps.foldlM ops.applyReparentStep t

theorem TreeOps.Lawful.step (hl : ops.Lawful) {t : T} {step : ReparentStep β} {g : Forest β}
    (hn : (ops.live t).labels.Nodup) (h : step.Moves (ops.live t) g) :
    ∃ t', ops.applyReparentStep t step = .ok t' ∧ ops.live t' = g ∧ g.labels.Nodup := by
  generalize hf : ops.live t = f at h
  cases h with
  | firstChild h =>
    subst hf
    obtain ⟨t', he, hg⟩ := hl.movTo_first t _ _ hn h
    exact ⟨t', he, hg, (labels_perm_moveAt h hn).nodup_iff.mpr hn⟩
  | after h =>
    subst hf
    obtain ⟨t', he, hg⟩ := hl.movAfter_next t _ _ hn h
    exact ⟨t', he, hg, (labels_perm_moveAfter h hn).nodup_iff.mpr hn⟩

theorem TreeOps.Lawful.replay (hl : ops.Lawful) {steps : List (ReparentStep β)} {t : T}
    {g : Forest β} (hn : (ops.live t).labels.Nodup) (h : Replays steps (ops.live t) g) :
    ∃ t', steps.foldlM ops.applyReparentStep t = .ok t' ∧ ops.live t' = g := by
  induction steps generalizing t with
  | nil =>
    cases h
    exact ⟨t, rfl, rfl⟩
  | cons step steps ih =>
    cases h with
    | cons first rest =>
      obtain ⟨t₁, he, rfl, hn₁⟩ := hl.step hn first
      obtain ⟨t₂, he₂, hg⟩ := ih hn₁ rest
      exact ⟨t₂, by rw [List.foldlM_cons, he]; exact he₂, hg⟩

/-- A forest as its own store: an illegal move is refused. -/
def forestOps : TreeOps (Forest β) β String where
  live f := f
  movTo f b p i :=
    if b ∈ f.labels ∧ ∀ x ∈ p, x ∈ f.labels ∧ x ∉ subtree b f then .ok (moveAt b p i f)
    else .error "move would create a cycle"
  movAfter f b x :=
    if b ∈ f.labels ∧ x ∈ f.labels ∧ x ∉ subtree b f then .ok (moveAfter b x f)
    else .error "move would create a cycle"

theorem forestOps_lawful : (forestOps : TreeOps (Forest β) β String).Lawful where
  movTo_first _ _ _ _ h := ⟨_, if_pos ⟨h.mem, fun x hx => h.parent x hx⟩, rfl⟩
  movAfter_next _ _ _ _ h := ⟨_, if_pos ⟨h.mem, h.anchor, h.outside⟩, rfl⟩

/-! ## Whole requests -/

theorem has_parent_iff {f : Forest β} (hn : f.labels.Nodup) {b : β} (hb : b ∈ f.labels) :
    (∃ p, f.parentIn none b = some (some p)) ↔ b ∉ f.roots := by
  obtain ⟨q, hq⟩ := Option.isSome_iff_exists.mp (parentIn_isSome (p := none).mpr hb)
  have hr : b ∈ f.roots ↔ q = none := by
    rw [← Option.some_inj (a := q), ← hq, ← mem_row_iff hn]
    simp [row]
  rw [hr, hq]
  cases q <;> simp

theorem plan_indent_blocks_eq {f : Forest β} (hn : f.labels.Nodup) {requested : List β}
    (ha : Acceptable requested f) (hl : ∀ b ∈ topmost requested f, ¬Leads b f) :
    ∃ g steps s', LowersAll (topmost requested f) f g ∧ Replays steps f g ∧ Represents s' g ∧
      planIndentBlocks (fromTree f) requested = .ok (⟨topmost requested f, steps⟩, s') := by
  obtain ⟨g, steps, s', hall, hi, hr, hs⟩ := (represents_fromTree hn).indentRoots
    (apart_topmost hn) (topmost_sublist requested f) hl
  refine ⟨g, steps, s', hall, hr, hs, ?_⟩
  simp only [planIndentBlocks, roots_fromTree hn ha, bind, Except.bind, hi]
  rfl

theorem plan_indent_blocks_ok {f : Forest β} (hn : f.labels.Nodup) {requested : List β}
    {r : ReparentPlan β × OutlineState β}
    (h : planIndentBlocks (fromTree f) requested = .ok r) :
    Acceptable requested f ∧ ∀ b ∈ topmost requested f, ¬Leads b f := by
  cases hr : (fromTree f).roots requested with
  | error e => simp only [planIndentBlocks, hr, bind, Except.bind] at h; cases h
  | ok rs =>
    obtain ⟨ha, rfl⟩ := (roots_ok_iff hn).mp hr
    refine ⟨ha, ?_⟩
    cases hi : Outline.indentRoots (topmost requested f) (fromTree f) with
    | error e => simp only [planIndentBlocks, hr, hi, bind, Except.bind] at h; cases h
    | ok _ =>
      exact (represents_fromTree hn).not_leads_of_indentRoots (apart_topmost hn)
        (topmost_sublist requested f) hi

theorem plan_outdent_blocks_eq {f : Forest β} (hn : f.labels.Nodup) {requested : List β}
    (ha : Acceptable requested f) (hr : ∀ b ∈ topmost requested f, b ∉ f.roots) :
    ∃ g steps s', RaisesAll (topmost requested f).reverse f g ∧ Replays steps f g ∧
      Represents s' g ∧
      planOutdentBlocks (fromTree f) requested = .ok (⟨topmost requested f, steps⟩, s') := by
  obtain ⟨g, steps, s', hall, hi, hrep, hs⟩ := (represents_fromTree hn).outdentRoots
    ((apart_topmost hn).perm (List.reverse_perm _).symm)
    (fun b hb => hr b (List.mem_reverse.mp hb))
  refine ⟨g, steps, s', hall, hrep, hs, ?_⟩
  simp only [planOutdentBlocks, roots_fromTree hn ha, bind, Except.bind, hi]
  rfl

theorem plan_outdent_blocks_ok {f : Forest β} (hn : f.labels.Nodup) {requested : List β}
    {r : ReparentPlan β × OutlineState β}
    (h : planOutdentBlocks (fromTree f) requested = .ok r) :
    Acceptable requested f ∧ ∀ b ∈ topmost requested f, b ∉ f.roots := by
  cases hr : (fromTree f).roots requested with
  | error e => simp only [planOutdentBlocks, hr, bind, Except.bind] at h; cases h
  | ok rs =>
    obtain ⟨ha, rfl⟩ := (roots_ok_iff hn).mp hr
    refine ⟨ha, ?_⟩
    cases hi : Outline.outdentRoots (topmost requested f).reverse (fromTree f) with
    | error e => simp only [planOutdentBlocks, hr, hi, bind, Except.bind] at h; cases h
    | ok _ =>
      have := (represents_fromTree hn).not_root_of_outdentRoots
        ((apart_topmost hn).perm (List.reverse_perm _).symm) hi
      exact fun b hb => this b (List.mem_reverse.mpr hb)

/-- Indenting a request: it succeeds exactly when the request is acceptable and
no root is the first of its row, and then the roots' trees sink by one level. -/
theorem indent_blocks_correct (hl : ops.Lawful) (t : T) (hn : (ops.live t).labels.Nodup)
    (requested : List β) :
    ((∃ r, planIndentBlocks (fromTree (ops.live t)) requested = .ok r) ↔
      Acceptable requested (ops.live t) ∧
        ∀ b ∈ topmost requested (ops.live t), ¬Leads b (ops.live t)) ∧
    ∀ plan s', planIndentBlocks (fromTree (ops.live t)) requested = .ok (plan, s') →
      ∃ g, Represents s' g ∧ g.labels = (ops.live t).labels ∧
        depths 0 g = (depths 0 (ops.live t)).map
          (deepen (inTrees (topmost requested (ops.live t)) (ops.live t))) ∧
        ∃ t', ops.applyReparentPlan plan t = .ok t' ∧ ops.live t' = g := by
  refine ⟨⟨fun ⟨_, h⟩ => plan_indent_blocks_ok hn h, fun ⟨ha, hb⟩ => ?_⟩, fun plan s' h => ?_⟩
  · obtain ⟨_, _, _, _, _, _, he⟩ := plan_indent_blocks_eq hn ha hb
    exact ⟨_, he⟩
  · obtain ⟨ha, hb⟩ := plan_indent_blocks_ok hn h
    obtain ⟨g, steps, s₁, hall, hrep, hs, he⟩ := plan_indent_blocks_eq hn ha hb
    obtain ⟨rfl, rfl⟩ := Prod.mk.inj (Except.ok.inj (he.symm.trans h))
    exact ⟨g, hs, hall.labels_eq,
      hall.depths_eq (apart_topmost hn) (topmost_sublist requested _) hn, hl.replay hn hrep⟩

/-- Two trees, the first with the children 2 and 3, and 4 below 3. -/
def sample : Forest Nat := node 1 (node 2 nil (node 3 (node 4 nil nil) nil)) (node 5 nil nil)

theorem indent_blocks_sample :
    ∃ plan s' g, planIndentBlocks (fromTree sample) [5, 3, 4] = .ok (plan, s') ∧
      Represents s' g ∧ depths 0 g = [(1, 0), (2, 1), (3, 2), (4, 3), (5, 1)] ∧
      forestOps.applyReparentPlan plan sample = .ok g := by
  obtain ⟨g, hs, _, hd, t', ht, rfl⟩ :=
    (indent_blocks_correct forestOps_lawful sample (by decide) [5, 3, 4]).2 _ _ rfl
  exact ⟨_, _, _, rfl, hs, hd.trans (by decide), ht⟩

/-- An empty request is refused although it has no root at all. -/
theorem indent_blocks_empty :
    ¬((∃ r, planIndentBlocks (fromTree sample) [] = .ok r) ↔
      ∀ b ∈ topmost [] sample, ¬Leads b sample) := by
  intro h
  obtain ⟨r, hr⟩ := h.mpr fun b hb => nomatch (show b ∈ [] from hb)
  cases hr

/-- Outdenting a request: it succeeds exactly when the request is acceptable and
every root has a parent, and then the roots' trees rise by one level. -/
theorem outdent_blocks_correct (hl : ops.Lawful) (t : T) (hn : (ops.live t).labels.Nodup)
    (requested : List β) :
    ((∃ r, planOutdentBlocks (fromTree (ops.live t)) requested = .ok r) ↔
      Acceptable requested (ops.live t) ∧
        ∀ b ∈ topmost requested (ops.live t),
          ∃ p, (ops.live t).parentIn none b = some (some p)) ∧
    ∀ plan s', planOutdentBlocks (fromTree (ops.live t)) requested = .ok (plan, s') →
      ∃ g, Represents s' g ∧ g.labels = (ops.live t).labels ∧
        depths 0 (ops.live t) = (depths 0 g).map
          (deepen (inTrees (topmost requested (ops.live t)) (ops.live t))) ∧
        ∃ t', ops.applyReparentPlan plan t = .ok t' ∧ ops.live t' = g := by
  have hp : (∀ b ∈ topmost requested (ops.live t),
      ∃ p, (ops.live t).parentIn none b = some (some p)) ↔
      ∀ b ∈ topmost requested (ops.live t), b ∉ (ops.live t).roots :=
    forall₂_congr fun b hb => has_parent_iff hn (mem_topmost.mp hb).1
  rw [hp]
  refine ⟨⟨fun ⟨_, h⟩ => plan_outdent_blocks_ok hn h, fun ⟨ha, hb⟩ => ?_⟩, fun plan s' h => ?_⟩
  · obtain ⟨_, _, _, _, _, _, he⟩ := plan_outdent_blocks_eq hn ha hb
    exact ⟨_, he⟩
  · obtain ⟨ha, hb⟩ := plan_outdent_blocks_ok hn h
    obtain ⟨g, steps, s₁, hall, hrep, hs, he⟩ := plan_outdent_blocks_eq hn ha hb
    obtain ⟨rfl, rfl⟩ := Prod.mk.inj (Except.ok.inj (he.symm.trans h))
    have hperm := List.reverse_perm (topmost requested (ops.live t))
    refine ⟨g, hs, hall.labels_eq, ?_, hl.replay hn hrep⟩
    rw [hall.depths_eq ((apart_topmost hn).perm hperm.symm) hn, inTrees_perm hperm]

theorem outdent_blocks_sample :
    ∃ plan s', planOutdentBlocks (fromTree sample) [4, 2] = .ok (plan, s') ∧
      Represents s' (node 1 nil (node 2 (node 3 nil (node 4 nil nil)) (node 5 nil nil))) ∧
      forestOps.applyReparentPlan plan sample =
        .ok (node 1 nil (node 2 (node 3 nil (node 4 nil nil)) (node 5 nil nil))) := by
  obtain ⟨g, hs, _, _, t', ht, rfl⟩ :=
    (outdent_blocks_correct forestOps_lawful sample (by decide) [4, 2]).2 _ _ rfl
  obtain rfl : node 1 nil (node 2 (node 3 nil (node 4 nil nil)) (node 5 nil nil)) = t' :=
    Except.ok.inj ht
  exact ⟨_, _, rfl, hs, ht⟩

/-- An empty request is refused although all of its roots have parents. -/
theorem outdent_blocks_empty :
    ¬((∃ r, planOutdentBlocks (fromTree sample) [] = .ok r) ↔
      ∀ b ∈ topmost [] sample, ∃ p, sample.parentIn none b = some (some p)) := by
  intro h
  obtain ⟨r, hr⟩ := h.mpr fun b hb => nomatch (show b ∈ [] from hb)
  cases hr

end Neoseq.Outline
