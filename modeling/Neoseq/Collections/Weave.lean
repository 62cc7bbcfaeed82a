import Mathlib

/-! Runs of elements put between the segments of a sequence. `gathered` visits every
position and puts the runs of a position before its cell; `weave` goes from run to run.
Over ascending positions they agree. -/

namespace Neoseq.Collections

variable {α β : Type}

/-- The runs with their positions, from a start on. -/
def Ascending (stop : Nat) : Nat → List (Nat × List α) → Prop
  | start, [] => start ≤ stop
  | start, (place, _) :: runs => start ≤ place ∧ Ascending stop place runs

/-- The segments from `start` to `stop` with the runs at their positions. -/
def weave (segment : Nat → Nat → List α) (stop : Nat) : Nat → List (Nat × List α) → List α
  | start, [] => segment start stop
  | start, (place, run) :: runs => segment start place ++ run ++ weave segment stop place runs

def runsAt (runs : List (Nat × List α)) (place : Nat) : List α :=
  (runs.filter fun r => decide (r.1 = place)).flatMap Prod.snd

/-- The cells from one position to another. -/
def cells (cell : Nat → List α) (start stop : Nat) : List α :=
  (List.range' start (stop - start)).flatMap cell

def gathered (cell : Nat → List α) (runs : List (Nat × List α)) (start stop : Nat) : List α :=
  (List.range' start (stop - start)).flatMap fun i => runsAt runs i ++ cell i

theorem Ascending.le {stop start : Nat} {runs : List (Nat × List α)}
    (h : Ascending stop start runs) : start ≤ stop := by
  induction runs generalizing start with
  | nil => exact h
  | cons run runs ih => exact h.1.trans (ih h.2)

theorem Ascending.le_of_mem {stop start : Nat} {runs : List (Nat × List α)}
    (h : Ascending stop start runs) {run : Nat × List α} (hrun : run ∈ runs) : start ≤ run.1 := by
  induction runs generalizing start with
  | nil => cases hrun
  | cons first runs ih =>
    rcases List.mem_cons.mp hrun with rfl | hrun
    · exact h.1
    · exact h.1.trans (ih h.2 hrun)

theorem range'_append_of_le {a b c : Nat} (hab : a ≤ b) (hbc : b ≤ c) :
    List.range' a (c - a) = List.range' a (b - a) ++ List.range' b (c - b) := by
  have h := List.range'_append_1 (s := a) (m := b - a) (n := c - b)
  rw [show a + (b - a) = b by omega, show b - a + (c - b) = c - a by omega] at h
  exact h.symm

theorem cells_append (cell : Nat → List α) {a b c : Nat} (hab : a ≤ b) (hbc : b ≤ c) :
    cells cell a c = cells cell a b ++ cells cell b c := by
  unfold cells
  rw [range'_append_of_le hab hbc, List.flatMap_append]

theorem cells_self (cell : Nat → List α) (a : Nat) : cells cell a a = [] := by
  unfold cells
  rw [Nat.sub_self]
  rfl

theorem runsAt_cons (place : Nat) (run : List α) (runs : List (Nat × List α)) (i : Nat) :
    runsAt ((place, run) :: runs) i = if place = i then run ++ runsAt runs i else runsAt runs i := by
  unfold runsAt
  by_cases h : place = i
  · rw [List.filter_cons_of_pos (by simpa using h), List.flatMap_cons, if_pos h]
  · rw [List.filter_cons_of_neg (by simpa using h), if_neg h]

/-- Before the first run there are cells only. -/
theorem runsAt_eq_nil {stop start : Nat} {runs : List (Nat × List α)}
    (h : Ascending stop start runs) {i : Nat} (hi : i < start) : runsAt runs i = [] := by
  unfold runsAt
  rw [List.filter_eq_nil_iff.mpr, List.flatMap_nil]
  intro run hrun heq
  have hle := h.le_of_mem hrun
  have heq := of_decide_eq_true heq
  omega

theorem gathered_before {stop : Nat} {cell : Nat → List α} {runs : List (Nat × List α)}
    {start place : Nat} (h : Ascending stop place runs) :
    gathered cell runs start place = cells cell start place := by
  unfold gathered cells
  refine List.flatMap_congr fun i hi => ?_
  obtain ⟨hlow, hhigh⟩ := List.mem_range'_1.mp hi
  rw [runsAt_eq_nil h (by omega), List.nil_append]

theorem gathered_append {cell : Nat → List α} {runs : List (Nat × List α)} {a b c : Nat}
    (hab : a ≤ b) (hbc : b ≤ c) :
    gathered cell runs a c = gathered cell runs a b ++ gathered cell runs b c := by
  unfold gathered
  rw [range'_append_of_le hab hbc, List.flatMap_append]

/-- The first run comes before everything at its position. -/
theorem gathered_cons {cell : Nat → List α} {place stop : Nat} {run : List α}
    {runs : List (Nat × List α)} (h : place < stop) :
    gathered cell ((place, run) :: runs) place stop = run ++ gathered cell runs place stop := by
  unfold gathered
  rw [show stop - place = (stop - place - 1) + 1 by omega, List.range'_succ, List.flatMap_cons,
    List.flatMap_cons, runsAt_cons, if_pos rfl, List.append_assoc, List.append_assoc,
    List.append_assoc]
  congr 3
  refine List.flatMap_congr fun i hi => ?_
  have hi := (List.mem_range'_1.mp hi).1
  rw [runsAt_cons, if_neg (by omega)]

theorem gathered_eq_weave {cell : Nat → List α} {stop start : Nat} {runs : List (Nat × List α)}
    (h : Ascending stop start runs) :
    gathered cell runs start (stop + 1) = weave (cells cell) (stop + 1) start runs := by
  induction runs generalizing start with
  | nil =>
    unfold gathered weave cells
    rfl
  | cons first runs ih =>
    obtain ⟨place, run⟩ := first
    have hle : place ≤ stop := h.2.le
    have hfirst : Ascending stop place ((place, run) :: runs) := ⟨le_rfl, h.2⟩
    rw [gathered_append h.1 (show place ≤ stop + 1 by omega), gathered_before hfirst,
      gathered_cons (by omega), ih h.2]
    show _ = cells cell start place ++ run ++ _
    rw [List.append_assoc]

theorem weave_filter (p : α → Bool) (segment : Nat → Nat → List α) (stop start : Nat)
    (runs : List (Nat × List α)) :
    (weave segment stop start runs).filter p =
      weave (fun a b => (segment a b).filter p) stop start
        (runs.map fun r => (r.1, r.2.filter p)) := by
  induction runs generalizing start with
  | nil => rfl
  | cons first runs ih =>
    show List.filter p (_ ++ _ ++ weave segment stop first.1 runs) = _
    rw [List.filter_append, List.filter_append, ih]
    rfl

theorem infix_weave {segment : Nat → Nat → List α} {stop start : Nat}
    {runs : List (Nat × List α)} {run : Nat × List α} (h : run ∈ runs) :
    run.2 <:+: weave segment stop start runs := by
  induction runs generalizing start with
  | nil => cases h
  | cons first runs ih =>
    rcases List.mem_cons.mp h with rfl | h
    · exact List.infix_append _ _ _
    · exact (ih h).trans (List.suffix_append _ _).isInfix

/-- Weaves of the same runs, at corresponding positions between equal segments, are equal. -/
theorem weave_congr {segment segment' : Nat → Nat → List α} {stop stop' : Nat} (f : Nat → Nat)
    (corresponds : Nat → Nat → Prop)
    (hsegment : ∀ a b a' b', corresponds a a' → corresponds b b' → a ≤ b → a' ≤ b' →
      segment a b = segment' a' b')
    (hmap : ∀ a, a ≤ stop → corresponds a (f a)) (hmono : Monotone f)
    (hstop : corresponds stop stop') (hlast : ∀ a, a ≤ stop → f a ≤ stop')
    {start start' : Nat} (hstart : corresponds start start') {runs : List (Nat × List α)}
    (h : Ascending stop start runs)
    (hfirst : ∀ a, start ≤ a → a ≤ stop → start' ≤ f a) (hle : start' ≤ stop') :
    weave segment stop start runs =
      weave segment' stop' start' (runs.map fun r => (f r.1, r.2)) := by
  induction runs generalizing start start' with
  | nil => exact hsegment _ _ _ _ hstart hstop h hle
  | cons first runs ih =>
    obtain ⟨place, run⟩ := first
    have hplace : place ≤ stop := h.2.le
    have hrest := ih (hmap place hplace) h.2 (fun a ha _ => hmono ha) (hlast place hplace)
    have hhead := hsegment _ _ _ _ hstart (hmap place hplace) h.1 (hfirst place h.1 hplace)
    show segment start place ++ run ++ _ = segment' start' (f place) ++ run ++ _
    rw [hhead, hrest]

theorem flatMap_filter (p : β → Bool) (f : β → List α) (l : List β) :
    (l.filter p).flatMap f = l.flatMap fun b => if p b then f b else [] := by
  induction l with
  | nil => rfl
  | cons b l ih =>
    rw [List.filter_cons, List.flatMap_cons]
    by_cases h : p b
    · rw [if_pos h, if_pos h, List.flatMap_cons, ih]
    · rw [if_neg h, if_neg h, List.nil_append, ih]

end Neoseq.Collections
