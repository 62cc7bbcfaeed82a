import Mathlib

/-! Logs whose entries have ascending keys, cut at a key into the entries up to it and
those after it. -/

namespace Neoseq.Collections.Log

variable {α : Type} (key : α → Nat)

/-- Later entries have larger keys. -/
def Ordered (log : List α) : Prop := log.Pairwise fun a b => key a < key b

/-- The entries up to a key. -/
def upTo (log : List α) (n : Nat) : List α := log.filter fun a => decide (key a ≤ n)

/-- The entries after a key. -/
def after (log : List α) (n : Nat) : List α := log.filter fun a => decide (n < key a)

variable {key} {log : List α} {n m : Nat} {a : α}

theorem mem_upTo : a ∈ upTo key log n ↔ a ∈ log ∧ key a ≤ n := by
  unfold upTo
  rw [List.mem_filter, decide_eq_true_iff]

theorem mem_after : a ∈ after key log n ↔ a ∈ log ∧ n < key a := by
  unfold after
  rw [List.mem_filter, decide_eq_true_iff]

theorem Ordered.upTo (h : Ordered key log) (n : Nat) : Ordered key (upTo key log n) :=
  h.sublist List.filter_sublist

theorem Ordered.after (h : Ordered key log) (n : Nat) : Ordered key (after key log n) :=
  h.sublist List.filter_sublist

/-- A log falls into the part up to a key and the part after it. -/
theorem upTo_append_after (h : Ordered key log) (n : Nat) :
    upTo key log n ++ after key log n = log := by
  induction log with
  | nil => rfl
  | cons a rest ih =>
    obtain ⟨hfirst, hrest⟩ := List.pairwise_cons.mp h
    have ih := ih hrest
    unfold upTo after at ih ⊢
    by_cases ha : key a ≤ n
    · have hnot : ¬n < key a := by omega
      simp only [List.filter_cons, decide_eq_true ha, decide_eq_false hnot, if_true,
        Bool.false_eq_true, if_false, List.cons_append, ih]
    · -- from the first entry after the key on all are after it
      have hnone : rest.filter (fun b => decide (key b ≤ n)) = [] := by
        refine List.filter_eq_nil_iff.mpr fun b hb hle => ?_
        have hlt := hfirst b hb
        have hle := of_decide_eq_true hle
        omega
      rw [hnone, List.nil_append] at ih
      have ha' : n < key a := by omega
      simp only [List.filter_cons, decide_eq_false ha, decide_eq_true ha', if_true,
        Bool.false_eq_true, if_false, hnone, List.nil_append, ih]

theorem after_after (h : n ≤ m) : after key (after key log n) m = after key log m := by
  unfold after
  rw [List.filter_filter]
  refine List.filter_congr fun a _ => ?_
  rw [← Bool.decide_and]
  refine decide_eq_decide.mpr ⟨fun ha => ha.1, fun ha => ⟨ha, ?_⟩⟩
  omega

theorem upTo_upTo (h : n ≤ m) : upTo key (upTo key log m) n = upTo key log n := by
  unfold upTo
  rw [List.filter_filter]
  refine List.filter_congr fun a _ => ?_
  rw [← Bool.decide_and]
  refine decide_eq_decide.mpr ⟨fun ha => ha.1, fun ha => ⟨ha, ?_⟩⟩
  omega

theorem after_upTo : after key (upTo key log m) n = upTo key (after key log n) m := by
  unfold after upTo
  rw [List.filter_filter, List.filter_filter]
  refine List.filter_congr fun a _ => Bool.and_comm _ _

/-- What is filtered out before a key does not show after it. -/
theorem after_filter {p : Nat → Bool} (log : List α) (h : ∀ m, n < m → p m = true) :
    after key (log.filter fun a => p (key a)) n = after key log n := by
  unfold after
  rw [List.filter_filter]
  refine List.filter_congr fun a _ => ?_
  by_cases ha : n < key a
  · rw [h _ ha, Bool.and_true]
  · rw [decide_eq_false ha, Bool.false_and]

/-- Entries with the same key are the same. -/
theorem Ordered.eq_of_key {b : α} (h : Ordered key log) (ha : a ∈ log) (hb : b ∈ log)
    (heq : key a = key b) : a = b := by
  induction log with
  | nil => cases ha
  | cons first rest ih =>
    obtain ⟨hfirst, hrest⟩ := List.pairwise_cons.mp h
    rcases List.mem_cons.mp ha with rfl | ha'
    · rcases List.mem_cons.mp hb with rfl | hb'
      · rfl
      · have hlt := hfirst b hb'
        omega
    · rcases List.mem_cons.mp hb with rfl | hb'
      · have hlt := hfirst a ha'
        omega
      · exact ih hrest ha' hb'

theorem upTo_eq_self (h : ∀ a ∈ log, key a ≤ n) : upTo key log n = log :=
  List.filter_eq_self.mpr fun a ha => decide_eq_true (h a ha)

theorem upTo_snoc (log : List α) (h : n < key a) : upTo key (log ++ [a]) n = upTo key log n := by
  unfold upTo
  rw [List.filter_append, List.filter_cons_of_neg (by simpa using h), List.filter_nil,
    List.append_nil]

theorem after_snoc (log : List α) (h : n < key a) : after key (log ++ [a]) n = after key log n ++ [a] := by
  unfold after
  rw [List.filter_append]
  simp only [List.filter_cons, decide_eq_true h, if_true, List.filter_nil]

theorem Ordered.snoc (h : Ordered key log) (hlast : ∀ b ∈ log, key b < key a) :
    Ordered key (log ++ [a]) := by
  refine List.pairwise_append.mpr ⟨h, List.pairwise_singleton _ _, fun b hb c hc => ?_⟩
  rw [List.mem_singleton.mp hc]
  exact hlast b hb

/-- A prefix of an ordered log is the part up to a key between it and the rest. -/
theorem upTo_append {first rest : List α} (hfirst : ∀ a ∈ first, key a ≤ n)
    (hrest : ∀ a ∈ rest, n < key a) : upTo key (first ++ rest) n = first := by
  unfold upTo
  rw [List.filter_append, List.filter_eq_self.mpr fun a ha => decide_eq_true (hfirst a ha),
    List.filter_eq_nil_iff.mpr, List.append_nil]
  intro a ha hle
  have hlt := hrest a ha
  have hle := of_decide_eq_true hle
  omega

end Neoseq.Collections.Log
