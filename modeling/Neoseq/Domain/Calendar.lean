import Mathlib

/-! The proleptic Gregorian calendar, over all the years before and after the year one.
One day follows another by the lengths of the months; months are numbered from March on,
and days from the first of January 1970. -/

namespace Neoseq.Domain

/-! ## Steps between numbered things -/

/-- `b` is `n` steps after `a`, or `a` is `-n` steps after `b`. -/
def Away {α : Type*} (next : α → α) (n : ℤ) (a b : α) : Prop :=
  if 0 ≤ n then next^[n.toNat] a = b else next^[(-n).toNat] b = a

theorem number_iterate {α : Type*} {next : α → α} {number : α → ℤ}
    (hnext : ∀ a, number (next a) = number a + 1) (n : ℕ) (a : α) :
    number (next^[n] a) = number a + n := by
  induction n generalizing a with
  | zero => simp
  | succ n ih =>
    rw [Function.iterate_succ_apply, ih, hnext]
    push_cast
    omega

/-- Where each step adds one to a number that tells things apart, steps are differences. -/
theorem away_iff {α : Type*} {next : α → α} {number : α → ℤ}
    (hnext : ∀ a, number (next a) = number a + 1) (hinj : Function.Injective number) {n : ℤ}
    {a b : α} : Away next n a b ↔ number b = number a + n := by
  unfold Away
  split_ifs with h
  · rw [← hinj.eq_iff, number_iterate hnext, Int.toNat_of_nonneg h]
    exact eq_comm
  · rw [← hinj.eq_iff, number_iterate hnext, Int.toNat_of_nonneg (by omega)]
    omega

/-! ## Months -/

def Leap (year : ℤ) : Prop := year % 4 = 0 ∧ (year % 100 ≠ 0 ∨ year % 400 = 0)

instance (year : ℤ) : Decidable (Leap year) := inferInstanceAs (Decidable (_ ∧ _))

def monthLength (year month : ℤ) : ℤ :=
  if month = 2 then (if Leap year then 29 else 28)
  else if month = 4 ∨ month = 6 ∨ month = 9 ∨ month = 11 then 30
  else 31

theorem monthLength_bounds (year month : ℤ) :
    28 ≤ monthLength year month ∧ monthLength year month ≤ 31 := by
  unfold monthLength
  split_ifs <;> omega

/-- The days before a year that begins in March. -/
def yearBegin (year : ℤ) : ℤ := 365 * year + year / 4 - year / 100 + year / 400

theorem yearBegin_succ (year : ℤ) :
    yearBegin (year + 1) = yearBegin year + if Leap (year + 1) then 366 else 365 := by
  unfold yearBegin Leap
  split_ifs <;> omega

/-- The days before a month, numbered from the March of the year zero. -/
def monthBegin (index : ℤ) : ℤ := yearBegin (index / 12) + (153 * (index % 12) + 2) / 5

structure Month where
  year : ℤ
  month : ℤ
  month_range : 1 ≤ month ∧ month ≤ 12
  deriving DecidableEq

namespace Month

def next (m : Month) : Month :=
  if h : m.month < 12 then ⟨m.year, m.month + 1, by have := m.month_range; omega⟩
  else ⟨m.year + 1, 1, by decide⟩

def index (m : Month) : ℤ := 12 * m.year + m.month - 3

theorem index_next (m : Month) : m.next.index = m.index + 1 := by
  have := m.month_range
  unfold next index
  split_ifs
  · dsimp only
    omega
  · dsimp only
    omega

theorem index_injective : Function.Injective index := by
  rintro ⟨y, m, hm⟩ ⟨y', m', hm'⟩ h
  simp only [index] at h
  obtain rfl : y = y' := by omega
  obtain rfl : m = m' := by omega
  rfl

def ofIndex (index : ℤ) : Month := ⟨(index + 2) / 12, (index + 2) % 12 + 1, by omega⟩

theorem index_ofIndex (index : ℤ) : (ofIndex index).index = index := by
  unfold ofIndex Month.index
  dsimp only
  omega

/-- A month is as long as the calendar has it. -/
theorem monthBegin_succ (m : Month) :
    monthBegin (m.index + 1) = monthBegin m.index + monthLength m.year m.month := by
  obtain ⟨year, month, hlow, hhigh⟩ := m
  simp only [index]
  by_cases hlast : month = 2
  · -- February is last, so it has the leap day of the year that begins behind it
    subst hlast
    have hyear := yearBegin_succ (year - 1)
    rw [Int.sub_add_cancel] at hyear
    have hdiv : (12 * year + 2 - 3 + 1) / 12 = year := by omega
    have hdiv' : (12 * year + 2 - 3) / 12 = year - 1 := by omega
    have hmod : (12 * year + 2 - 3 + 1) % 12 = 0 := by omega
    have hmod' : (12 * year + 2 - 3) % 12 = 11 := by omega
    unfold monthBegin monthLength
    rw [hdiv, hdiv', hmod, hmod', hyear, if_pos rfl]
    split_ifs <;> omega
  · have hdiv : (12 * year + month - 3 + 1) / 12 = (12 * year + month - 3) / 12 := by omega
    have hstep : (153 * ((12 * year + month - 3 + 1) % 12) + 2) / 5 =
        (153 * ((12 * year + month - 3) % 12) + 2) / 5 + monthLength year month := by
      interval_cases month
      case «2» => exact absurd rfl hlast
      all_goals simp [monthLength] <;> omega
    unfold monthBegin
    rw [hdiv, hstep]
    omega

end Month

theorem strictMono_monthBegin : StrictMono monthBegin := by
  refine strictMono_int_of_lt_succ fun index => ?_
  have hstep := (Month.ofIndex index).monthBegin_succ
  have hlength := monthLength_bounds (Month.ofIndex index).year (Month.ofIndex index).month
  rw [Month.index_ofIndex] at hstep
  omega

/-- Every day is in a month. -/
theorem exists_monthBegin (n : ℤ) : ∃ index, monthBegin index ≤ n ∧ n < monthBegin (index + 1) := by
  have hzero : monthBegin 0 = 0 := by decide
  have hbound : ∀ index, monthBegin index ≤ n → index ≤ max n 0 := by
    intro index hle
    by_contra hlt
    have hpos : (0 : ℤ) ≤ index := by omega
    have hgrow : index ≤ monthBegin index := by
      unfold monthBegin yearBegin
      omega
    omega
  have hsome : ∃ index, monthBegin index ≤ n := by
    refine ⟨min n 0 - 12, ?_⟩
    unfold monthBegin yearBegin
    omega
  obtain ⟨index, hle, hmax⟩ := Int.exists_greatest_of_bdd ⟨_, hbound⟩ hsome
  refine ⟨index, hle, not_le.mp fun hnext => ?_⟩
  have := hmax (index + 1) hnext
  omega

/-! ## Days -/

structure Civil where
  year : ℤ
  month : ℤ
  day : ℤ
  month_range : 1 ≤ month ∧ month ≤ 12
  day_range : 1 ≤ day ∧ day ≤ monthLength year month
  deriving DecidableEq

namespace Civil

def toMonth (d : Civil) : Month := ⟨d.year, d.month, d.month_range⟩

def firstOf (m : Month) : Civil :=
  ⟨m.year, m.month, 1, m.month_range, le_refl 1,
    le_trans (by decide) (monthLength_bounds m.year m.month).1⟩

def next (d : Civil) : Civil :=
  if h : d.day < monthLength d.year d.month then
    ⟨d.year, d.month, d.day + 1, d.month_range, by have := d.day_range; omega⟩
  else firstOf d.toMonth.next

/-- The order of the calendar. -/
def Before (a b : Civil) : Prop :=
  a.year < b.year ∨ a.year = b.year ∧ (a.month < b.month ∨ a.month = b.month ∧ a.day < b.day)

/-- The days since the first of January 1970. -/
def number (d : Civil) : ℤ := monthBegin d.toMonth.index + d.day - 1 - 719468

theorem number_next (d : Civil) : d.next.number = d.number + 1 := by
  have hrange := d.day_range
  unfold next
  split_ifs with h
  · show monthBegin d.toMonth.index + (d.day + 1) - 1 - 719468 = _
    unfold number
    omega
  · show monthBegin d.toMonth.next.index + 1 - 1 - 719468 = _
    rw [Month.index_next, Month.monthBegin_succ]
    unfold number
    show _ + monthLength d.year d.month + 1 - 1 - 719468 = _
    omega

theorem number_lt_of_index {a b : Civil} (h : a.toMonth.index < b.toMonth.index) :
    a.number < b.number := by
  have hle : monthBegin (a.toMonth.index + 1) ≤ monthBegin b.toMonth.index :=
    strictMono_monthBegin.monotone (by omega)
  rw [Month.monthBegin_succ] at hle
  have ha : a.day ≤ monthLength a.toMonth.year a.toMonth.month := a.day_range.2
  have hb := b.day_range.1
  unfold number
  omega

theorem number_lt_of_before {a b : Civil} (h : a.Before b) : a.number < b.number := by
  obtain ⟨_, ha⟩ := a.month_range
  obtain ⟨hb, _⟩ := b.month_range
  rcases h with hyear | ⟨hyear, hmonth | ⟨hmonth, hday⟩⟩
  · refine number_lt_of_index ?_
    simp only [toMonth, Month.index]
    omega
  · refine number_lt_of_index ?_
    simp only [toMonth, Month.index]
    omega
  · simp only [number, toMonth, Month.index, hyear, hmonth]
    omega

theorem ext {a b : Civil} (hyear : a.year = b.year) (hmonth : a.month = b.month)
    (hday : a.day = b.day) : a = b := by
  cases a
  cases b
  subst hyear hmonth hday
  rfl

theorem eq_or_before (a b : Civil) : a = b ∨ a.Before b ∨ b.Before a := by
  by_cases h : a.Before b ∨ b.Before a
  · exact .inr h
  · simp only [Before] at h
    exact .inl (ext (by omega) (by omega) (by omega))

theorem number_injective : Function.Injective number := by
  intro a b h
  rcases eq_or_before a b with heq | hlt | hlt
  · exact heq
  · exact absurd (number_lt_of_before hlt) (by omega)
  · exact absurd (number_lt_of_before hlt) (by omega)

/-- Days are numbered in the order of the calendar. -/
theorem number_lt_number {a b : Civil} : a.number < b.number ↔ a.Before b := by
  refine ⟨fun h => ?_, number_lt_of_before⟩
  rcases eq_or_before a b with rfl | hlt | hlt
  · exact absurd h (lt_irrefl _)
  · exact hlt
  · exact absurd (number_lt_of_before hlt) (by omega)

theorem number_surjective : Function.Surjective number := by
  intro n
  obtain ⟨index, hle, hlt⟩ := exists_monthBegin (n + 719468)
  have hstep := (Month.ofIndex index).monthBegin_succ
  rw [Month.index_ofIndex] at hstep
  refine ⟨⟨(Month.ofIndex index).year, (Month.ofIndex index).month,
    n + 719468 - monthBegin index + 1, (Month.ofIndex index).month_range, by omega, by omega⟩, ?_⟩
  show monthBegin (Month.ofIndex index).index + (n + 719468 - monthBegin index + 1) - 1 - 719468 = n
  rw [Month.index_ofIndex]
  omega

/-- A date is so many days away where its number is greater by as many. -/
theorem away_next_iff {n : ℤ} {a b : Civil} : Away next n a b ↔ b.number = a.number + n :=
  away_iff number_next number_injective

/-- The fifth of January 1970, and the days whole weeks away from it. -/
def IsMonday (d : Civil) : Prop :=
  ∃ weeks : ℤ, Away next (7 * weeks) ⟨1970, 1, 5, by decide, by decide⟩ d

theorem isMonday_iff {d : Civil} : d.IsMonday ↔ (d.number + 3) % 7 = 0 := by
  have hanchor : (⟨1970, 1, 5, by decide, by decide⟩ : Civil).number = 4 := by decide
  unfold IsMonday
  simp only [away_next_iff, hanchor]
  constructor
  · rintro ⟨weeks, hweeks⟩
    omega
  · intro h
    exact ⟨(d.number + 3) / 7 - 1, by omega⟩

end Civil

end Neoseq.Domain
