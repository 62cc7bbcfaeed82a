import Mathlib

/-! What two lists have in common at their ends, by a loop from each end. -/

namespace Neoseq.Collections

variable {α : Type} [DecidableEq α]

/-- How many elements two lists share from their start on. -/
def sharedPrefix : List α → List α → Nat
  | a :: as, b :: bs => if a = b then sharedPrefix as bs + 1 else 0
  | _, _ => 0

theorem sharedPrefix_le (as bs : List α) :
    sharedPrefix as bs ≤ as.length ∧ sharedPrefix as bs ≤ bs.length := by
  induction as generalizing bs with
  | nil => exact ⟨Nat.zero_le _, Nat.zero_le _⟩
  | cons a as ih =>
    cases bs with
    | nil => exact ⟨Nat.zero_le _, Nat.zero_le _⟩
    | cons b bs =>
      obtain ⟨hleft, hright⟩ := ih bs
      rw [sharedPrefix, List.length_cons, List.length_cons]
      split_ifs <;> omega

theorem getElem?_sharedPrefix {as bs : List α} {i : Nat} (hi : i < sharedPrefix as bs) :
    as[i]? = bs[i]? := by
  induction as generalizing bs i with
  | nil => cases hi
  | cons a as ih =>
    cases bs with
    | nil => cases hi
    | cons b bs =>
      rw [sharedPrefix] at hi
      split_ifs at hi with hab
      · cases i with
        | zero => rw [List.getElem?_cons_zero, List.getElem?_cons_zero, hab]
        | succ i =>
          rw [List.getElem?_cons_succ, List.getElem?_cons_succ]
          exact ih (Nat.lt_of_succ_lt_succ hi)
      · cases hi

/-- The loop goes as far as the lists agree. -/
theorem le_sharedPrefix {as bs : List α} {n : Nat} (has : n ≤ as.length) (hbs : n ≤ bs.length)
    (hsame : ∀ i, i < n → as[i]? = bs[i]?) : n ≤ sharedPrefix as bs := by
  induction n generalizing as bs with
  | zero => exact Nat.zero_le _
  | succ n ih =>
    cases as with
    | nil => cases has
    | cons a as =>
      cases bs with
      | nil => cases hbs
      | cons b bs =>
        have hab : a = b := Option.some.inj (hsame 0 (Nat.succ_pos n))
        rw [sharedPrefix, if_pos hab]
        refine Nat.succ_le_succ (ih (Nat.le_of_succ_le_succ has) (Nat.le_of_succ_le_succ hbs) ?_)
        intro i hi
        exact hsame (i + 1) (Nat.succ_lt_succ hi)

/-- How many elements two lists share at their ends, after so many at their start. -/
def sharedSuffix (start : Nat) (as bs : List α) : Nat :=
  sharedPrefix (as.drop start).reverse (bs.drop start).reverse

theorem sharedSuffix_le (start : Nat) (as bs : List α) :
    sharedSuffix start as bs ≤ as.length - start ∧
      sharedSuffix start as bs ≤ bs.length - start := by
  have hle := sharedPrefix_le (as.drop start).reverse (bs.drop start).reverse
  rwa [List.length_reverse, List.length_reverse, List.length_drop, List.length_drop] at hle

theorem getElem?_drop_reverse {β : Type} {as : List β} {start i : Nat} (hi : i < as.length - start) :
    (as.drop start).reverse[i]? = as[as.length - 1 - i]? := by
  rw [List.getElem?_reverse (by rw [List.length_drop]; exact hi), List.getElem?_drop,
    List.length_drop]
  congr 1
  omega

/-- What lies behind both lists but the shared end is the same. -/
theorem getElem?_sharedSuffix {start : Nat} {as bs : List α} (i : Nat) :
    as[as.length - sharedSuffix start as bs + i]? =
      bs[bs.length - sharedSuffix start as bs + i]? := by
  obtain ⟨has, hbs⟩ := sharedSuffix_le start as bs
  by_cases hi : i < sharedSuffix start as bs
  · have hlt : sharedSuffix start as bs - 1 - i < sharedSuffix start as bs := by omega
    have hsame := getElem?_sharedPrefix hlt
    rw [getElem?_drop_reverse (by omega), getElem?_drop_reverse (by omega)] at hsame
    rwa [show as.length - 1 - (sharedSuffix start as bs - 1 - i) =
        as.length - sharedSuffix start as bs + i by omega,
      show bs.length - 1 - (sharedSuffix start as bs - 1 - i) =
        bs.length - sharedSuffix start as bs + i by omega] at hsame
  · rw [List.getElem?_eq_none (by omega), List.getElem?_eq_none (by omega)]

theorem le_sharedSuffix {start n : Nat} {as bs : List α} (has : n ≤ as.length - start)
    (hbs : n ≤ bs.length - start)
    (hsame : ∀ i, i < n → as[as.length - 1 - i]? = bs[bs.length - 1 - i]?) :
    n ≤ sharedSuffix start as bs := by
  refine le_sharedPrefix ?_ ?_ fun i hi => ?_
  · rw [List.length_reverse, List.length_drop]
    exact has
  · rw [List.length_reverse, List.length_drop]
    exact hbs
  · rw [getElem?_drop_reverse (by omega), getElem?_drop_reverse (by omega)]
    exact hsame i hi

end Neoseq.Collections
