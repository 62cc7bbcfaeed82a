import Neoseq.Forest.Level
import Neoseq.Outline.Represents

/-! Indent and outdent of one block. On a representing state each is one change
of level of the forest, and the steps it emits make the same change when they
are replayed as single moves. -/

namespace Neoseq.Outline
open Forest OutlineState
variable {β : Type} [LinearOrder β]

/-- What a step does to a forest in which it is legal. -/
inductive ReparentStep.Moves : ReparentStep β → Forest β → Forest β → Prop where
  | firstChild {b p : β} {f : Forest β} (h : Movable b (some p) f) :
    Moves ⟨b, .firstChild p⟩ f (moveAt b (some p) 0 f)
  | after {b x : β} {f : Forest β} (h : Followable b x f) :
    Moves ⟨b, .after x⟩ f (moveAfter b x f)

/-- A step program whose steps are legal one after another. -/
inductive Replays : List (ReparentStep β) → Forest β → Forest β → Prop where
  | nil (f : Forest β) : Replays [] f f
  | cons {step : ReparentStep β} {steps : List (ReparentStep β)} {f g h : Forest β}
    (first : step.Moves f g) (rest : Replays steps g h) : Replays (step :: steps) f h

theorem Replays.append {xs ys : List (ReparentStep β)} {f g h : Forest β}
    (hx : Replays xs f g) (hy : Replays ys g h) : Replays (xs ++ ys) f h := by
  induction hx with
  | nil f => exact hy
  | cons first _ ih => exact .cons first (ih hy)

/-! ## Lowering one block -/

/-- The destination recorded for a block that becomes the last child. -/
def lastChild (parent : β) (anchor : Option β) : ReparentDestination β :=
  match anchor with
  | none => .firstChild parent
  | some anchor => .after anchor

theorem lowers_moves {b c : β} {f g : Forest β} (h : Lowers b c f g) (hn : f.labels.Nodup) :
    ReparentStep.Moves ⟨b, lastChild c (under c f).roots.getLast?⟩ f g := by
  cases hl : (under c f).roots.getLast? with
  | none =>
    have hz : (under c f).roots.length ≤ 0 := by simpa using hl
    rw [← h.moveAt_eq hn hz]
    exact .firstChild (h.movable hn)
  | some x =>
    obtain ⟨hf, he⟩ := h.after_eq hn hl
    rw [← he]
    exact .after hf

theorem Represents.lower {s : OutlineState β} {f g : Forest β} (hs : Represents s f)
    {b c : β} (h : Lowers b c f g) : ∃ s', s.moveOne b (some c) none = .ok s' ∧ Represents s' g := by
  obtain ⟨s', he, hr⟩ := hs.moveOne (h.movable hs.nodup) none
  have hc : c ∈ f.labels := ((h.movable hs.nodup).parent c rfl).1
  have hle : (under c f).roots.length ≤ slot f none :=
    length_row_le (p := some c) hs.nodup (by rw [row, if_pos hc])
  exact ⟨s', he, by rwa [h.moveAt_eq hs.nodup hle] at hr⟩

theorem idxOf?_split {l r : List β} {b : β} (h : b ∉ l) :
    (l ++ b :: r).idxOf? b = some l.length := by
  induction l with
  | nil => simp [List.idxOf?_cons]
  | cons a l ih =>
    rw [List.mem_cons, not_or] at h
    have := ih h.2
    simp only [List.cons_append, List.idxOf?_cons, this, List.length_cons]
    simp [Ne.symm h.1]

/-- What the maps hold around a block at a known position. -/
theorem Represents.at_split {s : OutlineState β} {z : List (Frame β)} {l k r : Forest β} {b : β}
    (hs : Represents s (plug z (l ++ node b k r))) :
    s.parents b = some (ownerOf z) ∧
      s.children (ownerOf z) = some (l.roots ++ b :: r.roots) ∧
      (l.roots ++ b :: r.roots).idxOf? b = some l.roots.length ∧
      s.children (some b) = some k.roots := by
  have hl : b ∉ l.roots := fun h =>
    (split_not_mem hs.nodup (List.mem_cons_self ..)).2.2.1 (mem_labels_of_mem_roots h)
  refine ⟨by rw [hs.parents, parentIn_split hs.nodup], ?_, idxOf?_split hl, ?_⟩
  · rw [hs.children, row_owner hs.nodup]; simp
  · rw [hs.children, row, if_pos (by simp [labels_plug]), under_split hs.nodup]

/-- Indenting fails on the first block of a row, and lowers any other block. -/
theorem Represents.indent {s : OutlineState β} {f : Forest β} (hs : Represents s f)
    {b : β} (hb : b ∈ f.labels) :
    (Leads b f ∧ s.indent b = .error .firstSiblingIndent) ∨
    ∃ c g step s', ¬Leads b f ∧ Lowers b c f g ∧ s.indent b = .ok (step, s') ∧
      step.Moves f g ∧ Represents s' g := by
  obtain ⟨z, l, k, r, rfl⟩ := exists_plug hb
  obtain ⟨hp, hc, hi, _⟩ := hs.at_split
  have hrow : row (ownerOf z) (plug z (l ++ node b k r)) = some (l.roots ++ b :: r.roots) := by
    rw [← hs.children, hc]
  cases hl : l.roots.getLast? with
  | none =>
    have hl' : l.roots = [] := by simpa using hl
    refine .inl ⟨⟨ownerOf z, r.roots, by rw [hrow, hl']; rfl⟩, ?_⟩
    simp only [OutlineState.indent, hp, hc, hi, orElse, bind, Except.bind, Option.getD_some,
      List.take_left', hl]
    rfl
  | some c =>
    obtain ⟨l, k', rfl⟩ := exists_last hl
    have he : (l ++ node c k' nil) ++ node b k r = l ++ node c k' (node b k r) := by simp
    have hlow : Lowers b c (plug z (l ++ node c k' (node b k r)))
      (plug z (l ++ node c (k' ++ single b k) r)) := .mk z l k' k r
    rw [he] at hs hrow ⊢
    have hkc := (Represents.at_split hs).2.2.2
    obtain ⟨s', hm, hr⟩ := hs.lower hlow
    have hstep := lowers_moves hlow hs.nodup
    rw [under_split hs.nodup] at hstep
    refine .inr ⟨c, _, ⟨b, lastChild c k'.roots.getLast?⟩, s', ?_, hlow, ?_, hstep, hr⟩
    · rintro ⟨q, m, hq⟩
      have hpq := (mem_row_iff hs.nodup).mp ⟨_, hq, List.mem_cons_self ..⟩
      have hz : s.parents b = some q := by rw [hs.parents, hpq]
      obtain rfl := Option.some.inj (hp.symm.trans hz)
      rw [hrow] at hq
      have hbl := (split_not_mem (by rw [he]; exact hs.nodup) (List.mem_cons_self ..)
        : b ∉ before z ∧ b ∉ after z ∧ b ∉ labels (l ++ node c k' nil) ∧ b ∉ labels r).2.2.1
      cases hl' : (l ++ node c k' nil).roots with
      | nil => simp at hl'
      | cons y ys =>
        rw [hl'] at hq
        obtain rfl := (List.cons.inj (Option.some.inj hq)).1
        exact hbl (mem_labels_of_mem_roots (by rw [hl']; exact List.mem_cons_self ..))
    · simp only [OutlineState.indent, hp, hc, hi, orElse, bind, Except.bind, Option.getD_some,
        List.take_left', hl, hkc, hm]
      cases k'.roots.getLast? <;> rfl

/-! ## Raising one block -/

/-- The followers of a block become its last children, one after another. -/
theorem Represents.adoptFollowers {s : OutlineState β} {z : List (Frame β)} {l k r : Forest β}
    {b : β} (hs : Represents s (plug z (l ++ node b k r))) :
    ∃ steps s', OutlineState.adoptFollowers b r.roots k.roots.getLast? s = .ok (steps, s') ∧
      Replays steps (plug z (l ++ node b k r)) (plug z (l ++ node b (k ++ r) nil)) ∧
      Represents s' (plug z (l ++ node b (k ++ r) nil)) := by
  induction r generalizing s k with
  | nil =>
    rw [append_nil]
    exact ⟨[], s, rfl, .nil _, hs⟩
  | node c kc r _ ih =>
    have hlow : Lowers c b (plug z (l ++ node b k (node c kc r)))
      (plug z (l ++ node b (k ++ single c kc) r)) := .mk z l k kc r
    obtain ⟨s₁, hm, hs₁⟩ := hs.lower hlow
    obtain ⟨steps, s₂, ha, hr, hs₂⟩ := ih hs₁
    have hmove := lowers_moves hlow hs.nodup
    rw [under_split hs.nodup] at hmove
    have hk : (k ++ single c kc) ++ r = k ++ node c kc r := by simp [single]
    have hlast : (k ++ single c kc).roots.getLast? = some c := by simp
    rw [hk] at hr hs₂
    rw [hlast] at ha
    refine ⟨⟨c, lastChild b k.roots.getLast?⟩ :: steps, s₂, ?_, .cons hmove hr, hs₂⟩
    simp only [roots_node, OutlineState.adoptFollowers, hm, bind, Except.bind, ha, lastChild]
    cases k.roots.getLast? <;> rfl

/-- A block of the top row cannot be outdented. -/
theorem Represents.outdent_root {s : OutlineState β} {f : Forest β} (hs : Represents s f)
    {b : β} (hb : b ∈ f.roots) : s.outdent b = .error .rootBlockOutdent := by
  have hp : f.parentIn none b = some none := (mem_row_iff hs.nodup).mp ⟨_, rfl, hb⟩
  simp [OutlineState.outdent, hs.parents, hp, orElse, bind, Except.bind]

/-- Outdenting any other block raises its tree. -/
theorem Represents.outdent {s : OutlineState β} {f : Forest β} (hs : Represents s f)
    {b : β} (hb : b ∈ f.labels) (hr : b ∉ f.roots) :
    ∃ g steps s', Raises b f g ∧ s.outdent b = .ok (steps, s') ∧ Replays steps f g ∧
      Represents s' g := by
  obtain ⟨z, l, k, r, rfl⟩ := exists_plug hb
  cases z with
  | nil => exact absurd (by simp) hr
  | cons t z =>
    obtain ⟨L, a, R⟩ := t
    obtain ⟨hp, hc, hi, hk⟩ := hs.at_split
    obtain ⟨hpa, hca, hia, _⟩ := Represents.at_split (z := z) (l := L) (r := R) hs
    obtain ⟨steps, s₁, ha, hrep, hs₁⟩ := hs.adoptFollowers
    obtain ⟨hmov, heq, hfol, heq'⟩ := leave_eq hs₁.nodup
    obtain ⟨s₂, hm, hs₂⟩ := hs₁.moveOne hmov (some (L.roots.length + 1))
    have hlast : ReparentStep.Moves ⟨b, .after a⟩ _ _ := .after hfol
    rw [slot, heq] at hs₂
    rw [heq'] at hlast
    refine ⟨_, steps ++ [⟨b, .after a⟩], s₂, .mk z L a l k r R, ?_,
      hrep.append (.cons hlast (.nil _)), hs₂⟩
    have hdrop : (l.roots ++ b :: r.roots).drop (l.roots.length + 1) = r.roots := by simp
    simp only [ownerOf_cons] at hp hc
    simp only [OutlineState.outdent, hp, Option.join_some, orElse, bind, Except.bind, hpa, hca,
      Option.bind_some, hia, hc, Option.getD_some, hi, hdrop, hk, ha, hm]
    rfl

end Neoseq.Outline
