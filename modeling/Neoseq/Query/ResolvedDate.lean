import Neoseq.Domain.Calendar
import Neoseq.Domain.Dates
import Neoseq.Query.RelativeDate

/-! What a relative date resolves to. The arithmetic of eras agrees with the calendar,
stays within 64 bits, and writes the dates that the check on dates takes. -/

namespace Neoseq.Query
open Domain

/-! ## Dates as they are written -/

theorem leftpad_toDigits {width n : Nat} (h : n < 10 ^ (width + 1)) :
    (Nat.toDigits 10 n).leftpad (width + 1) '0' = digits (width + 1) n := by
  induction width generalizing n with
  | zero =>
    have hlt : n < 10 := by omega
    rw [Nat.toDigits_of_lt_base hlt, digits, digits, Nat.mod_eq_of_lt hlt]
    rfl
  | succ width ih =>
    rw [Nat.pow_succ] at h
    rw [digits, ← ih (by omega)]
    by_cases hlt : n < 10
    · rw [Nat.toDigits_of_lt_base hlt, Nat.div_eq_of_lt hlt, Nat.mod_eq_of_lt hlt, Nat.toDigits_zero]
      simp only [List.leftpad, List.length_singleton, Nat.add_sub_cancel]
      rw [show '0' = Nat.digitChar 0 from rfl, List.replicate_succ']
    · rw [Nat.toDigits_of_base_le (by omega) (by omega)]
      simp only [List.leftpad, List.length_append, List.length_singleton, Nat.add_sub_add_right,
        List.append_assoc]

theorem padded_eq {width : Nat} {n : Nat} (h : n < 10 ^ (width + 1)) :
    padded (width + 1) n = String.ofList (digits (width + 1) n) := by
  unfold padded
  rw [Int.toNat_natCast, Nat.toString_eq_ofList_toDigits, String.toList_ofList, leftpad_toDigits h]

theorem formatDate_eq (date : CalendarDate) :
    formatDate date.year date.month date.day = .ok date.text := by
  obtain ⟨hyear, hmonth, hday⟩ := date.field_bounds
  have hrange := date.year_range
  have htext : padded 4 date.year ++ "-" ++ padded 2 date.month ++ "-" ++ padded 2 date.day =
      date.text := by
    rw [padded_eq hyear, padded_eq hmonth, padded_eq hday]
    refine String.toList_inj.mp ?_
    simp [CalendarDate.text, CalendarDate.spell, spelled]
  unfold formatDate
  rw [if_pos (by omega), htext]

/-! ## Eras -/

/-- The count of days by eras is that of the calendar. -/
theorem daysFromCivil_eq (d : Civil) : daysFromCivil d.year d.month d.day = d.number := by
  obtain ⟨hlow, hhigh⟩ := d.month_range
  unfold daysFromCivil Civil.number monthBegin yearBegin
  simp only [Civil.toMonth, Month.index]
  generalize d.year = year at *
  generalize d.month = month at *
  have hyear : (12 * year + month - 3) / 12 = year - if month ≤ 2 then 1 else 0 := by
    split_ifs <;> omega
  have hmonth : (12 * year + month - 3) % 12 = month + if month > 2 then -3 else 9 := by
    split_ifs <;> omega
  rw [hyear, hmonth]
  generalize (year - if month ≤ 2 then 1 else 0 : ℤ) = adjusted
  generalize (153 * (month + if month > 2 then -3 else 9) + 2) / 5 = before
  omega

/-- The year of an era by its centuries, its spans of four years and the years in them. -/
theorem yearOfEra_eq {c q k dayOfYear dayOfEra : ℤ} (hc : 0 ≤ c ∧ c ≤ 3) (hq : 0 ≤ q ∧ q ≤ 24)
    (hk : 0 ≤ k ∧ k ≤ 3) (hlow : 0 ≤ dayOfYear)
    (hhigh : dayOfYear ≤ 364 ∨ dayOfYear = 365 ∧ k = 3 ∧ (q < 24 ∨ c = 3))
    (hday : dayOfEra = 36524 * c + 1461 * q + 365 * k + dayOfYear) :
    (dayOfEra - dayOfEra / 1460 + dayOfEra / 36524 - dayOfEra / 146096) / 365 =
      100 * c + 4 * q + k := by
  have hfour : dayOfEra / 1460 = 25 * c + q + (24 * c + q + 365 * k + dayOfYear) / 1460 := by omega
  have hcentury : dayOfEra / 36524 = c + (1461 * q + 365 * k + dayOfYear) / 36524 := by omega
  -- the last day of an era is the only one that the greater divisors reach
  have hera : dayOfEra / 146096 = if dayOfEra = 146096 then 1 else 0 := by split_ifs <;> omega
  have hlast : (1461 * q + 365 * k + dayOfYear) / 36524 = if dayOfEra = 146096 then 1 else 0 := by
    split_ifs <;> omega
  have hbit : (24 * c + q + 365 * k + dayOfYear) / 1460 = 0 ∨
      (24 * c + q + 365 * k + dayOfYear) / 1460 = 1 := by omega
  rw [hfour, hcentury, hera, hlast]
  split_ifs <;> omega

theorem exists_parts_of_era {dayOfEra : ℤ} (hlow : 0 ≤ dayOfEra) (hhigh : dayOfEra ≤ 146096) :
    ∃ c q k dayOfYear : ℤ, (0 ≤ c ∧ c ≤ 3) ∧ (0 ≤ q ∧ q ≤ 24) ∧ (0 ≤ k ∧ k ≤ 3) ∧ 0 ≤ dayOfYear ∧
      (dayOfYear ≤ 364 ∨ dayOfYear = 365 ∧ k = 3 ∧ (q < 24 ∨ c = 3)) ∧
      dayOfEra = 36524 * c + 1461 * q + 365 * k + dayOfYear := by
  obtain ⟨c, hc, hrest⟩ : ∃ c : ℤ, (0 ≤ c ∧ c ≤ 3) ∧ 0 ≤ dayOfEra - 36524 * c ∧
      (dayOfEra - 36524 * c ≤ 36523 ∨ dayOfEra - 36524 * c = 36524 ∧ c = 3) := by
    by_cases hlast : dayOfEra = 146096
    · exact ⟨3, by omega, by omega⟩
    · exact ⟨dayOfEra / 36524, by omega, by omega⟩
  obtain ⟨q, hq⟩ : ∃ q, q = (dayOfEra - 36524 * c) / 1461 := ⟨_, rfl⟩
  obtain ⟨rest, hrest'⟩ : ∃ rest, rest = dayOfEra - 36524 * c - 1461 * q := ⟨_, rfl⟩
  by_cases hleap : rest = 1460
  · exact ⟨c, q, 3, 365, hc, by omega, by omega, by omega, by omega, by omega⟩
  · exact ⟨c, q, rest / 365, rest % 365, hc, by omega, by omega, by omega, by omega, by omega⟩

/-- The day of a year that begins in March, as the era has it. -/
theorem yearOfEra_of_day {year dayOfYear : ℤ} (hlow : 0 ≤ dayOfYear)
    (hhigh : dayOfYear < yearBegin (year + 1) - yearBegin year) :
    let dayOfEra := yearBegin year + dayOfYear - year / 400 * 146097
    (yearBegin year + dayOfYear) / 146097 = year / 400 ∧
    (dayOfEra - dayOfEra / 1460 + dayOfEra / 36524 - dayOfEra / 146096) / 365 =
      year - year / 400 * 400 ∧
    dayOfEra = 365 * (year - year / 400 * 400) + (year - year / 400 * 400) / 4 -
      (year - year / 400 * 400) / 100 + dayOfYear := by
  rw [yearBegin_succ, add_sub_cancel_left] at hhigh
  have hhigh' : dayOfYear ≤ 364 ∨ dayOfYear = 365 ∧ Leap (year + 1) := by
    split_ifs at hhigh with hleap
    · by_cases hle : dayOfYear ≤ 364
      · exact .inl hle
      · exact .inr ⟨by omega, hleap⟩
    · exact .inl (by omega)
  intro dayOfEra
  have hday : dayOfEra = 365 * (year - year / 400 * 400) + (year - year / 400 * 400) / 4 -
      (year - year / 400 * 400) / 100 + dayOfYear := by
    simp only [dayOfEra, yearBegin]
    omega
  refine ⟨?_, ?_, hday⟩
  · unfold yearBegin
    unfold Leap at hhigh'
    omega
  · have hyears : year - year / 400 * 400 =
        100 * (year % 400 / 100) + 4 * (year % 100 / 4) + year % 4 := by omega
    rw [hyears]
    refine yearOfEra_eq (by omega) (by omega) (by omega) hlow ?_ ?_
    · unfold Leap at hhigh'
      omega
    · rw [hday]
      omega

/-- The month and the day of a month by the day of a year that begins in March. -/
theorem month_of_day {year month before day : ℤ} (hmonth : 1 ≤ month ∧ month ≤ 12)
    (hday : 1 ≤ day ∧ day ≤ monthLength year month) (hbefore : before = (month + 9) % 12) :
    (5 * ((153 * before + 2) / 5 + day - 1) + 2) / 153 = before := by
  obtain ⟨hlow, hhigh⟩ := hmonth
  have hlength := (monthLength_bounds year month).2
  by_cases hlast : month = 2
  · have hfebruary : monthLength year month ≤ 29 := by
      rw [hlast, monthLength, if_pos rfl]
      split_ifs <;> omega
    omega
  · have hshort : (month = 4 ∨ month = 6 ∨ month = 9 ∨ month = 11) → monthLength year month = 30 := by
      intro h
      rw [monthLength, if_neg hlast, if_pos h]
    interval_cases month <;> omega

/-- Writing the day of a number is writing the date that has the number. -/
theorem formatDateFromDays_number (d : Civil) :
    formatDateFromDays d.number = formatDate d.year d.month d.day := by
  obtain ⟨hlow, hhigh⟩ := d.month_range
  have hday := d.day_range
  obtain ⟨before, hbefore⟩ : ∃ before, before = (d.month + 9) % 12 := ⟨_, rfl⟩
  obtain ⟨year, hyear⟩ : ∃ year, year = d.year - if d.month ≤ 2 then 1 else 0 := ⟨_, rfl⟩
  obtain ⟨dayOfYear, hdayOfYear⟩ : ∃ n, n = (153 * before + 2) / 5 + d.day - 1 := ⟨_, rfl⟩
  have hindex : d.toMonth.index = 12 * year + before := by
    simp only [Civil.toMonth, Month.index, hyear, hbefore]
    split_ifs <;> omega
  have hdiv : (12 * year + before) / 12 = year := by omega
  have hmod : (12 * year + before) % 12 = before := by omega
  have hnumber : d.number + 719468 = yearBegin year + dayOfYear := by
    unfold Civil.number monthBegin
    rw [hindex, hdiv, hmod]
    omega
  -- the year ends where the next March begins
  have hinside : dayOfYear < yearBegin (year + 1) - yearBegin year := by
    have hnext : monthBegin (d.toMonth.index + 1) ≤ monthBegin (12 * (year + 1)) :=
      strictMono_monthBegin.monotone (by omega)
    rw [Month.monthBegin_succ] at hnext
    have hbegin : monthBegin (12 * (year + 1)) = yearBegin (year + 1) := by
      unfold monthBegin
      rw [Int.mul_ediv_cancel_left _ (by decide), Int.mul_emod_right]
      omega
    have hmonth : monthBegin d.toMonth.index = yearBegin year + (153 * before + 2) / 5 := by
      unfold monthBegin
      rw [hindex, hdiv, hmod]
    have hlength : d.day ≤ monthLength d.toMonth.year d.toMonth.month := hday.2
    omega
  obtain ⟨hera, hyearOfEra, hdayOfEra⟩ := yearOfEra_of_day (by omega) hinside
  have hprime : (5 * dayOfYear + 2) / 153 = before := by
    rw [hdayOfYear]
    exact month_of_day ⟨hlow, hhigh⟩ hday hbefore
  have hrest : yearBegin year + dayOfYear - year / 400 * 146097 -
      (365 * (year - year / 400 * 400) + (year - year / 400 * 400) / 4 -
        (year - year / 400 * 400) / 100) = dayOfYear := by omega
  unfold formatDateFromDays
  simp only [hnumber, hera, hyearOfEra, hrest, hprime]
  have hmonth : before + (if before < 10 then 3 else -9) = d.month := by split_ifs <;> omega
  have hyears : year - year / 400 * 400 + year / 400 * 400 + (if d.month ≤ 2 then 1 else 0) =
      d.year := by
    rw [hyear]
    split_ifs <;> omega
  have hdays : dayOfYear - (153 * before + 2) / 5 + 1 = d.day := by omega
  rw [hmonth, hyears, hdays]

/-! ## The dates of today -/

theorem monthLength_natCast (year month : Nat) :
    monthLength year month = (daysInMonth year month : ℤ) := by
  unfold monthLength daysInMonth Leap
  dsimp only
  push_cast
  split_ifs <;> omega

def civilOf (date : CalendarDate) : Civil where
  year := date.year
  month := date.month
  day := date.day
  month_range := by
    have := date.month_range
    omega
  day_range := by
    have := date.day_range
    rw [monthLength_natCast]
    omega

/-- A date of the years that texts are written for. -/
def calendarOf (d : Civil) (h : 1 ≤ d.year ∧ d.year ≤ 9999) : CalendarDate where
  year := d.year.toNat
  month := d.month.toNat
  day := d.day.toNat
  year_range := by omega
  month_range := by
    have := d.month_range
    omega
  day_range := by
    have hday := d.day_range
    have hmonth := d.month_range
    have hlength := monthLength_natCast d.year.toNat d.month.toNat
    rw [Int.toNat_of_nonneg (by omega), Int.toNat_of_nonneg (by omega)] at hlength
    omega

theorem civilOf_calendarOf (d : Civil) (h : 1 ≤ d.year ∧ d.year ≤ 9999) :
    civilOf (calendarOf d h) = d := by
  have hmonth := d.month_range
  have hday := d.day_range
  exact Civil.ext (Int.toNat_of_nonneg (by omega)) (Int.toNat_of_nonneg (by omega))
    (Int.toNat_of_nonneg (by omega))

theorem before_civilOf (a b : CalendarDate) : (civilOf a).Before (civilOf b) ↔ a.Before b := by
  simp only [Civil.Before, CalendarDate.Before, civilOf, Int.ofNat_lt, Int.ofNat_inj]

/-- A local date is some spelling of a date of the calendar. -/
def Denotes (value : String) (date : CalendarDate) : Prop :=
  ∃ y m d : Bool, (y = true → date.year < 1000) ∧ (m = true → date.month < 10) ∧
    (d = true → date.day < 10) ∧ value.toList = date.spell y m d

theorem denotes_text (date : CalendarDate) : Denotes date.text date :=
  ⟨false, false, false, nofun, nofun, nofun, String.toList_ofList⟩

theorem exists_denotes (today : LocalDate) : ∃ date, Denotes today.asStr date := by
  obtain ⟨date, y, m, d, h⟩ :=
    validDateBytes_eq_true.mp (validDateBytes_of_validDate today.valid)
  exact ⟨date, y, m, d, h⟩

theorem parsePart_spelled {name : String} {sign : Bool} {width n : Nat} (hwidth : 2 ≤ width)
    (hhigh : width ≤ 9) (hn : n < 10 ^ width) (hsign : sign = true → n < 10 ^ (width - 1)) :
    parsePart name (spelled sign width n) = .ok n := by
  unfold parsePart
  rw [(parseU32_field (utf8Len_spelled sign (by omega) n) (by omega) hhigh).mpr
    ⟨sign, (spells_iff hwidth hn).mpr hsign, rfl⟩]

theorem parseDate_of_denotes {today : LocalDate} {date : CalendarDate}
    (h : Denotes today.asStr date) :
    parseDate today = .ok ((date.year : ℤ), (date.month : ℤ), (date.day : ℤ)) := by
  obtain ⟨y, m, d, hy, hm, hd, hvalue⟩ := h
  obtain ⟨hyear, hmonth, hday⟩ := date.field_bounds
  have hyears : today.asStr.toList.take 4 = spelled y 4 date.year := by
    rw [hvalue, CalendarDate.spell, List.take_left' (length_spelled y (by omega) _)]
  have hrest : today.asStr.toList.drop 5 =
      spelled m 2 date.month ++ '-' :: spelled d 2 date.day := by
    rw [hvalue, CalendarDate.spell, show 5 = 4 + 1 from rfl, ← List.drop_drop,
      List.drop_left' (length_spelled y (by omega) _)]
    rfl
  have hmonths : (today.asStr.toList.drop 5).take 2 = spelled m 2 date.month := by
    rw [hrest, List.take_left' (length_spelled m (by omega) _)]
  have hdays : (today.asStr.toList.drop 8).take 2 = spelled d 2 date.day := by
    rw [show 8 = 5 + (2 + 1) from rfl, ← List.drop_drop, ← List.drop_drop, hrest,
      List.drop_left' (length_spelled m (by omega) _)]
    show (spelled d 2 date.day).take 2 = _
    exact List.take_of_length_le (length_spelled d (by omega) _).le
  unfold parseDate
  simp only [hyears, hmonths, hdays]
  rw [parsePart_spelled (by omega) (by omega) hyear hy,
    parsePart_spelled (by omega) (by omega) hmonth hm,
    parsePart_spelled (by omega) (by omega) hday hd]
  rfl

/-- The number of the day, or the month, that a relative date stands for. -/
theorem resolveRelativeDate_of_denotes {relative : PlanRelativeDate} {today : LocalDate}
    {date : CalendarDate} (h : Denotes today.asStr date) :
    resolveRelativeDate relative today =
      match relative.unit with
      | .day => formatDateFromDays ((civilOf date).number + relative.offset.toInt)
      | .week => formatDateFromDays ((civilOf date).number - ((civilOf date).number + 3) % 7 +
          relative.offset.toInt * 7)
      | .month =>
        formatDate (((date.year : ℤ) * 12 + ((date.month : ℤ) - 1) + relative.offset.toInt) / 12)
          (((date.year : ℤ) * 12 + ((date.month : ℤ) - 1) + relative.offset.toInt) % 12 + 1) 1 := by
  unfold resolveRelativeDate
  rw [parseDate_of_denotes h, ← daysFromCivil_eq]
  rfl

/-! ## Machine integers -/

namespace Machine

/-- A result of `i64` arithmetic; `none` is the panic of an overflow. -/
def i64 (n : Int) : Option Int :=
  if -9223372036854775808 ≤ n ∧ n < 9223372036854775808 then some n else none

/-- A result of `u32` arithmetic. -/
def u32 (n : Int) : Option Int := if 0 ≤ n ∧ n < 4294967296 then some n else none

/-- `parse_date`, which checks its text once more; `none` is a panic. -/
def parseDate (value : String) : Option (Except QueryError (Int × Int × Int)) := do
  match newLocalDate value with
  | .panicked => none
  | .returned (.error error) => return .error (invalidPlan error.message)
  | .returned (.ok date) =>
    match parsePart "year" (← slice 0 4 date.asStr.toList) with
    | .error error => return .error error
    | .ok year =>
      match parsePart "month" (← slice 5 7 date.asStr.toList) with
      | .error error => return .error error
      | .ok month =>
        match parsePart "day" (← slice 8 10 date.asStr.toList) with
        | .error error => return .error error
        | .ok day => return .ok (year, month, day)

def daysFromCivil (year month day : Int) : Option Int := do
  let adjustedYear ← i64 (year - if month ≤ 2 then 1 else 0)
  let era := adjustedYear / 400
  let yearOfEra ← i64 (adjustedYear - (← i64 (era * 400)))
  let shiftedMonth ← i64 (month + if month > 2 then -3 else 9)
  let before := (← i64 ((← i64 (153 * shiftedMonth)) + 2)).tdiv 5
  let dayOfYear ← i64 ((← i64 (before + day)) - 1)
  let years ← i64 ((← i64 (yearOfEra * 365)) + yearOfEra.tdiv 4)
  let dayOfEra ← i64 ((← i64 (years - yearOfEra.tdiv 100)) + dayOfYear)
  i64 ((← i64 ((← i64 (era * 146097)) + dayOfEra)) - 719468)

def formatDateFromDays (days : Int) : Option (Except QueryError String) := do
  let shifted ← i64 (days + 719468)
  let era := shifted / 146097
  let dayOfEra ← i64 (shifted - (← i64 (era * 146097)))
  let spans ← i64 ((← i64 (dayOfEra - dayOfEra.tdiv 1460)) + dayOfEra.tdiv 36524)
  let yearOfEra := (← i64 (spans - dayOfEra.tdiv 146096)).tdiv 365
  let year ← i64 (yearOfEra + (← i64 (era * 400)))
  let years ← i64 ((← i64 (365 * yearOfEra)) + yearOfEra.tdiv 4)
  let dayOfYear ← i64 (dayOfEra - (← i64 (years - yearOfEra.tdiv 100)))
  let monthPrime := (← i64 ((← i64 (5 * dayOfYear)) + 2)).tdiv 153
  let before := (← i64 ((← i64 (153 * monthPrime)) + 2)).tdiv 5
  let day ← i64 ((← i64 (dayOfYear - before)) + 1)
  let month ← i64 (monthPrime + if monthPrime < 10 then 3 else -9)
  let year ← i64 (year + if month ≤ 2 then 1 else 0)
  return formatDate year month day

def resolveRelativeDate (relative : PlanRelativeDate) (today : LocalDate) :
    Option (Except QueryError String) := do
  match ← parseDate today.asStr with
  | .error error => return .error error
  | .ok (year, month, day) =>
    match relative.unit with
    | .day => formatDateFromDays (← i64 ((← daysFromCivil year month day) + relative.offset.toInt))
    | .week =>
      let days ← daysFromCivil year month day
      let weekdayFromMonday := (← i64 (days + 3)) % 7
      let weeks ← i64 (relative.offset.toInt * 7)
      formatDateFromDays (← i64 ((← i64 (days - weekdayFromMonday)) + weeks))
    | .month =>
      let monthIndex ← i64 ((← i64 (year * 12)) + (← u32 (month - 1)))
      let shifted ← i64 (monthIndex + relative.offset.toInt)
      let year := shifted / 12
      let month ← i64 (shifted % 12 + 1)
      return formatDate year month 1

theorem i64_eq {n : Int} (hlow : -9223372036854775808 ≤ n) (hhigh : n < 9223372036854775808) :
    i64 n = some n := if_pos ⟨hlow, hhigh⟩

theorem bind_i64 {α : Type} {n : Int} {f : Int → Option α} (hlow : -9223372036854775808 ≤ n)
    (hhigh : n < 9223372036854775808) : (i64 n >>= f) = f n := by
  rw [i64_eq hlow hhigh]
  rfl

theorem daysFromCivil_eq {year month day : Int} (hyear : 0 ≤ year ∧ year ≤ 9999)
    (hmonth : 1 ≤ month ∧ month ≤ 12) (hday : 1 ≤ day ∧ day ≤ 31) :
    daysFromCivil year month day = some (Query.daysFromCivil year month day) ∧
      -1000000 ≤ Query.daysFromCivil year month day ∧
      Query.daysFromCivil year month day ≤ 4000000 := by
  obtain ⟨adjusted, hadjusted⟩ : ∃ n, n = year - if month ≤ 2 then 1 else 0 := ⟨_, rfl⟩
  obtain ⟨shifted, hshifted⟩ : ∃ n, n = month + if month > 2 then -3 else 9 := ⟨_, rfl⟩
  have hrange : -1 ≤ adjusted ∧ adjusted ≤ 9999 := by split_ifs at hadjusted <;> omega
  have hrange' : 0 ≤ shifted ∧ shifted ≤ 11 := by split_ifs at hshifted <;> omega
  unfold daysFromCivil Query.daysFromCivil
  dsimp only
  rw [← hadjusted, ← hshifted]
  clear hadjusted hshifted hyear hmonth year month
  rw [bind_i64 (by omega) (by omega)]
  obtain ⟨era, hera⟩ : ∃ n, n = adjusted / 400 := ⟨_, rfl⟩
  rw [← hera, bind_i64 (by omega) (by omega)]
  obtain ⟨yearOfEra, hyearOfEra⟩ : ∃ n, n = adjusted - era * 400 := ⟨_, rfl⟩
  rw [← hyearOfEra]
  have hera' : -1 ≤ era ∧ era ≤ 25 := by omega
  have hyearOfEra' : 0 ≤ yearOfEra ∧ yearOfEra ≤ 399 := by omega
  clear hera hyearOfEra hrange adjusted
  have hfour : yearOfEra.tdiv 4 = yearOfEra / 4 := Int.tdiv_eq_ediv_of_nonneg (by omega)
  have hcentury : yearOfEra.tdiv 100 = yearOfEra / 100 := Int.tdiv_eq_ediv_of_nonneg (by omega)
  have hbefore : (153 * shifted + 2).tdiv 5 = (153 * shifted + 2) / 5 :=
    Int.tdiv_eq_ediv_of_nonneg (by omega)
  iterate 4 rw [bind_i64 (by omega) (by omega)]
  rw [hfour, hcentury, hbefore]
  iterate 8 rw [bind_i64 (by omega) (by omega)]
  rw [i64_eq (by omega) (by omega)]
  refine ⟨rfl, ?_, ?_⟩ <;> omega

theorem formatDateFromDays_eq {days : Int} (hlow : -100000000000 ≤ days)
    (hhigh : days ≤ 100000000000) :
    formatDateFromDays days = some (Query.formatDateFromDays days) := by
  unfold formatDateFromDays Query.formatDateFromDays
  rw [bind_i64 (by omega) (by omega)]
  dsimp only
  obtain ⟨shifted, hshifted⟩ : ∃ n, n = days + 719468 := ⟨_, rfl⟩
  rw [← hshifted]
  obtain ⟨era, hera⟩ : ∃ n, n = shifted / 146097 := ⟨_, rfl⟩
  rw [← hera, bind_i64 (by omega) (by omega)]
  obtain ⟨dayOfEra, hdayOfEra⟩ : ∃ n, n = shifted - era * 146097 := ⟨_, rfl⟩
  rw [← hdayOfEra, bind_i64 (by omega) (by omega)]
  have hera' : -1000000 ≤ era ∧ era ≤ 1000000 := by omega
  have hdayOfEra' : 0 ≤ dayOfEra ∧ dayOfEra ≤ 146096 := by omega
  clear hera hdayOfEra hshifted shifted hlow hhigh days
  have hfour : dayOfEra.tdiv 1460 = dayOfEra / 1460 := Int.tdiv_eq_ediv_of_nonneg (by omega)
  have hcentury : dayOfEra.tdiv 36524 = dayOfEra / 36524 := Int.tdiv_eq_ediv_of_nonneg (by omega)
  have hlast : dayOfEra.tdiv 146096 = dayOfEra / 146096 := Int.tdiv_eq_ediv_of_nonneg (by omega)
  rw [hfour, hcentury, hlast]
  iterate 3 rw [bind_i64 (by omega) (by omega)]
  rw [Int.tdiv_eq_ediv_of_nonneg (a := dayOfEra - dayOfEra / 1460 + dayOfEra / 36524 -
    dayOfEra / 146096) (by omega)]
  obtain ⟨yearOfEra, hyearOfEra⟩ : ∃ n, n = (dayOfEra - dayOfEra / 1460 + dayOfEra / 36524 -
    dayOfEra / 146096) / 365 := ⟨_, rfl⟩
  rw [← hyearOfEra]
  have hyears : 0 ≤ yearOfEra ∧ yearOfEra ≤ 399 := by omega
  have hyearDay : 365 * yearOfEra + yearOfEra / 4 - yearOfEra / 100 ≤ dayOfEra := by
    obtain ⟨c, q, k, dayOfYear, hc, hq, hk, hday, hday', heq⟩ :=
      exists_parts_of_era hdayOfEra'.1 hdayOfEra'.2
    have hspan : (100 * c + 4 * q + k) / 4 = 25 * c + q := by omega
    have hhundred : (100 * c + 4 * q + k) / 100 = c := by omega
    rw [hyearOfEra, yearOfEra_eq hc hq hk hday hday' heq, hspan, hhundred]
    omega
  clear hyearOfEra hfour hcentury hlast
  rw [Int.tdiv_eq_ediv_of_nonneg (a := yearOfEra) (b := 4) (by omega),
    Int.tdiv_eq_ediv_of_nonneg (a := yearOfEra) (b := 100) (by omega)]
  iterate 6 rw [bind_i64 (by omega) (by omega)]
  obtain ⟨dayOfYear, hdayOfYear⟩ : ∃ n, n = dayOfEra -
    (365 * yearOfEra + yearOfEra / 4 - yearOfEra / 100) := ⟨_, rfl⟩
  rw [← hdayOfYear]
  have hdays : 0 ≤ dayOfYear ∧ dayOfYear ≤ 146096 := by omega
  iterate 2 rw [bind_i64 (by omega) (by omega)]
  rw [Int.tdiv_eq_ediv_of_nonneg (a := 5 * dayOfYear + 2) (by omega)]
  obtain ⟨monthPrime, hmonthPrime⟩ : ∃ n, n = (5 * dayOfYear + 2) / 153 := ⟨_, rfl⟩
  rw [← hmonthPrime]
  have hmonths : 0 ≤ monthPrime ∧ monthPrime ≤ 5000 := by omega
  iterate 2 rw [bind_i64 (by omega) (by omega)]
  rw [Int.tdiv_eq_ediv_of_nonneg (a := 153 * monthPrime + 2) (by omega)]
  iterate 2 rw [bind_i64 (by omega) (by omega)]
  have hmonth : -9 ≤ monthPrime + (if monthPrime < 10 then 3 else -9 : Int) ∧
      monthPrime + (if monthPrime < 10 then 3 else -9 : Int) ≤ 5003 := by split_ifs <;> omega
  rw [bind_i64 (by omega) (by omega)]
  generalize monthPrime + (if monthPrime < 10 then 3 else -9 : Int) = month at hmonth ⊢
  have hyear : 0 ≤ (if month ≤ 2 then 1 else 0 : Int) ∧ (if month ≤ 2 then 1 else 0 : Int) ≤ 1 := by
    split_ifs <;> omega
  rw [bind_i64 (by omega) (by omega)]
  rfl

theorem parseDate_eq {today : LocalDate} {date : CalendarDate} (h : Denotes today.asStr date) :
    parseDate today.asStr = some (.ok ((date.year : ℤ), (date.month : ℤ), (date.day : ℤ))) := by
  obtain ⟨y, m, d, hy, hm, hd, hvalue⟩ := h
  obtain ⟨hyear, hmonth, hday⟩ := date.field_bounds
  have hhyphen : '-'.utf8Size = 1 := rfl
  have hyears := utf8Len_spelled y (by omega : 1 ≤ 4) date.year
  have hmonths := utf8Len_spelled m (by omega : 1 ≤ 2) date.month
  have hdays := utf8Len_spelled d (by omega : 1 ≤ 2) date.day
  have hslice₁ : slice 0 4 today.asStr.toList = some (spelled y 4 date.year) :=
    slice_at [] _ _ hvalue Content.utf8Len_nil (by rw [hyears])
  have hslice₂ : slice 5 7 today.asStr.toList = some (spelled m 2 date.month) :=
    slice_at (spelled y 4 date.year ++ ['-']) _ ('-' :: spelled d 2 date.day)
      (by simp [hvalue, CalendarDate.spell]) (by simp [hyears, hhyphen]) (by rw [hmonths])
  have hslice₃ : slice 8 10 today.asStr.toList = some (spelled d 2 date.day) :=
    slice_at (spelled y 4 date.year ++ '-' :: (spelled m 2 date.month ++ ['-'])) _ []
      (by simp [hvalue, CalendarDate.spell]) (by simp [hyears, hmonths, hhyphen]) (by rw [hdays])
  obtain ⟨local', hlocal⟩ := newLocalDate_ok.mpr (validDateBytes_eq_true.mpr
    ⟨date, y, m, d, hy, hm, hd, hvalue⟩)
  have hsame : local'.asStr = today.asStr := by
    unfold newLocalDate at hlocal
    split at hlocal
    · cases hlocal
    · rw [← Except.ok.inj (Outcome.returned.inj hlocal)]
    · cases hlocal
  unfold parseDate
  simp only [hlocal, hsame, hslice₁, hslice₂, hslice₃, Option.bind_eq_bind, Option.bind_some,
    parsePart_spelled (by omega) (by omega) hyear hy,
    parsePart_spelled (by omega) (by omega) hmonth hm,
    parsePart_spelled (by omega) (by omega) hday hd]
  rfl

theorem offset_bounds (relative : PlanRelativeDate) :
    -2147483648 ≤ relative.offset.toInt ∧ relative.offset.toInt < 2147483648 := by
  have hlow := relative.offset.le_toInt
  have hhigh := relative.offset.toInt_lt
  omega

/-- No step overflows, so the machine computes what the integers give. -/
theorem resolveRelativeDate_eq (relative : PlanRelativeDate) (today : LocalDate) :
    resolveRelativeDate relative today = some (Query.resolveRelativeDate relative today) := by
  obtain ⟨date, hdate⟩ := exists_denotes today
  obtain ⟨hlow, hhigh⟩ := offset_bounds relative
  have hyear := date.year_range
  have hmonth := date.month_range
  have hday := date.day_range
  have hlength := daysInMonth_lt date.year date.month
  obtain ⟨hdays, hdayslow, hdayshigh⟩ :=
    @daysFromCivil_eq (date.year : ℤ) (date.month : ℤ) (date.day : ℤ)
      (by omega) (by omega) (by omega)
  have hnumber : Query.daysFromCivil date.year date.month date.day = (civilOf date).number :=
    Query.daysFromCivil_eq (civilOf date)
  rw [hnumber] at hdays hdayslow hdayshigh
  rw [resolveRelativeDate_of_denotes hdate]
  unfold resolveRelativeDate
  rw [parseDate_eq hdate, Option.bind_eq_bind, Option.bind_some]
  generalize (civilOf date).number = days at hdays hdayslow hdayshigh ⊢
  cases relative.unit with
  | day =>
    dsimp only
    rw [hdays, Option.bind_eq_bind, Option.bind_some, i64_eq (by omega) (by omega),
      Option.bind_some, formatDateFromDays_eq (by omega) (by omega)]
  | week =>
    dsimp only
    rw [hdays, Option.bind_eq_bind, Option.bind_some]
    iterate 4 rw [i64_eq (by omega) (by omega), Option.bind_some]
    rw [formatDateFromDays_eq (by omega) (by omega)]
  | month =>
    have hu32 : u32 ((date.month : ℤ) - 1) = some ((date.month : ℤ) - 1) := if_pos (by omega)
    dsimp only
    rw [bind_i64 (by omega) (by omega), hu32, Option.bind_eq_bind, Option.bind_some]
    iterate 3 rw [i64_eq (by omega) (by omega), Option.bind_some]
    rw [Option.pure_def]

end Machine

/-! ## What is denoted -/

/-- The date that a relative date stands for. -/
def Stands (relative : PlanRelativeDate) (today target : Civil) : Prop :=
  match relative.unit with
  | .day => Away Civil.next relative.offset.toInt today target
  | .week => ∃ (monday : Civil) (days : ℤ), monday.IsMonday ∧ (0 ≤ days ∧ days < 7) ∧
      Away Civil.next days monday today ∧ Away Civil.next (7 * relative.offset.toInt) monday target
  | .month => Away Month.next relative.offset.toInt today.toMonth target.toMonth ∧ target.day = 1

/-- There is one date that a relative date stands for, and it is the one that is written. -/
theorem exists_stands (relative : PlanRelativeDate) {today : LocalDate} {date : CalendarDate}
    (h : Denotes today.asStr date) :
    ∃ target, (∀ other, Stands relative (civilOf date) other ↔ other = target) ∧
      resolveRelativeDate relative today = formatDate target.year target.month target.day := by
  rw [resolveRelativeDate_of_denotes h]
  unfold Stands
  cases relative.unit with
  | day =>
    obtain ⟨target, htarget⟩ := Civil.number_surjective ((civilOf date).number + relative.offset.toInt)
    refine ⟨target, fun other => ?_, ?_⟩
    · dsimp only
      rw [Civil.away_next_iff, ← htarget, Civil.number_injective.eq_iff]
    · dsimp only
      rw [← htarget, formatDateFromDays_number]
  | week =>
    obtain ⟨target, htarget⟩ := Civil.number_surjective ((civilOf date).number -
      ((civilOf date).number + 3) % 7 + relative.offset.toInt * 7)
    refine ⟨target, fun other => ?_, ?_⟩
    · dsimp only
      rw [← Civil.number_injective.eq_iff, htarget]
      constructor
      · rintro ⟨monday, days, hmonday, hrange, htoday, hother⟩
        rw [Civil.isMonday_iff] at hmonday
        rw [Civil.away_next_iff] at htoday hother
        omega
      · intro hother
        obtain ⟨monday, hmonday⟩ := Civil.number_surjective ((civilOf date).number -
          ((civilOf date).number + 3) % 7)
        refine ⟨monday, ((civilOf date).number + 3) % 7, Civil.isMonday_iff.mpr ?_, ?_,
          Civil.away_next_iff.mpr ?_, Civil.away_next_iff.mpr ?_⟩ <;> omega
    · dsimp only
      rw [← htarget, formatDateFromDays_number]
  | month =>
    obtain ⟨month, hmonth⟩ : ∃ month : Month,
        month = Month.ofIndex ((civilOf date).toMonth.index + relative.offset.toInt) := ⟨_, rfl⟩
    refine ⟨Civil.firstOf month, fun other => ?_, ?_⟩
    · dsimp only
      rw [away_iff Month.index_next Month.index_injective, ← Month.index_ofIndex
        ((civilOf date).toMonth.index + relative.offset.toInt), ← hmonth,
        Month.index_injective.eq_iff]
      constructor
      · rintro ⟨heq, hday⟩
        exact Civil.ext (congrArg Month.year heq) (congrArg Month.month heq) hday
      · rintro rfl
        exact ⟨rfl, rfl⟩
    · dsimp only
      rw [hmonth]
      simp only [Civil.firstOf, Month.ofIndex, Month.index, Civil.toMonth, civilOf]
      congr 1 <;> omega

theorem formatDate_civilOf (date : CalendarDate) :
    formatDate (civilOf date).year (civilOf date).month (civilOf date).day = .ok date.text :=
  formatDate_eq date

/-- A date is written in the years from 1 to 9999 only. -/
theorem formatDate_cases (d : Civil) :
    (∃ date, civilOf date = d ∧ formatDate d.year d.month d.day = .ok date.text) ∨
      ¬(1 ≤ d.year ∧ d.year ≤ 9999) ∧ ∃ error, formatDate d.year d.month d.day = .error error := by
  by_cases h : 1 ≤ d.year ∧ d.year ≤ 9999
  · refine .inl ⟨calendarOf d h, civilOf_calendarOf d h, ?_⟩
    have hformat := formatDate_civilOf (calendarOf d h)
    rwa [civilOf_calendarOf] at hformat
  · exact .inr ⟨h, _, if_neg h⟩

theorem year_civilOf (date : CalendarDate) :
    1 ≤ (civilOf date).year ∧ (civilOf date).year ≤ 9999 := by
  have := date.year_range
  simp only [civilOf]
  omega

theorem formatDateFromDays_daysFromCivil (date : CalendarDate) :
    formatDateFromDays (daysFromCivil date.year date.month date.day) = .ok date.text := by
  have hnumber : daysFromCivil date.year date.month date.day = (civilOf date).number :=
    daysFromCivil_eq (civilOf date)
  rw [hnumber, formatDateFromDays_number, formatDate_civilOf]

theorem daysFromCivil_lt (a b : CalendarDate) :
    daysFromCivil a.year a.month a.day < daysFromCivil b.year b.month b.day ↔ a.Before b := by
  have ha : daysFromCivil a.year a.month a.day = (civilOf a).number := daysFromCivil_eq (civilOf a)
  have hb : daysFromCivil b.year b.month b.day = (civilOf b).number := daysFromCivil_eq (civilOf b)
  rw [ha, hb, Civil.number_lt_number, before_civilOf]

theorem daysFromCivil_formatDateFromDays {days : Int} {text : String}
    (h : formatDateFromDays days = .ok text) :
    ∃ date : CalendarDate, text = date.text ∧
      daysFromCivil date.year date.month date.day = days := by
  obtain ⟨d, rfl⟩ := Civil.number_surjective days
  rw [formatDateFromDays_number] at h
  rcases formatDate_cases d with ⟨date, rfl, hformat⟩ | ⟨_, error, hformat⟩
  · refine ⟨date, ?_, daysFromCivil_eq (civilOf date)⟩
    exact Except.ok.inj (h.symm.trans hformat)
  · rw [hformat] at h
    cases h

/-- Relative dates resolve to what they stand for, and fail where that has no text; the
arithmetic does not overflow. The count of days and its writing are inverse to each other
and keep the order. -/
theorem resolveRelativeDate_stands :
    (∀ (relative : PlanRelativeDate) (today : LocalDate),
      ∃ (date : CalendarDate) (target : Civil), Denotes today.asStr date ∧
        (∀ other, Stands relative (civilOf date) other ↔ other = target) ∧
        Machine.resolveRelativeDate relative today = some (resolveRelativeDate relative today) ∧
        ((∃ error, resolveRelativeDate relative today = .error error) ↔
          ¬(1 ≤ target.year ∧ target.year ≤ 9999)) ∧
        ∀ text, resolveRelativeDate relative today = .ok text →
          (∃ value, newLocalDate text = .returned (.ok value)) ∧
          ∃ result : CalendarDate, text = result.text ∧ civilOf result = target) ∧
    (∀ date : CalendarDate,
      formatDateFromDays (daysFromCivil date.year date.month date.day) = .ok date.text) ∧
    (∀ days text, formatDateFromDays days = .ok text →
      ∃ date : CalendarDate, text = date.text ∧
        daysFromCivil date.year date.month date.day = days) ∧
    (∀ a b : CalendarDate,
      daysFromCivil a.year a.month a.day < daysFromCivil b.year b.month b.day ↔ a.Before b) ∧
    ∀ m n s t, formatDateFromDays m = .ok s → formatDateFromDays n = .ok t → (m < n ↔ s < t) := by
  refine ⟨fun relative today => ?_, formatDateFromDays_daysFromCivil,
    fun days text => daysFromCivil_formatDateFromDays, daysFromCivil_lt, ?_⟩
  · obtain ⟨date, hdate⟩ := exists_denotes today
    obtain ⟨target, hstands, hresolve⟩ := exists_stands relative hdate
    refine ⟨date, target, hdate, hstands, Machine.resolveRelativeDate_eq relative today, ?_⟩
    rw [hresolve]
    rcases formatDate_cases target with ⟨result, rfl, hformat⟩ | ⟨hyear, error, hformat⟩
    · rw [hformat]
      refine ⟨iff_of_false (fun ⟨_, h⟩ => nomatch h) (not_not.mpr (year_civilOf result)), ?_⟩
      intro text htext
      obtain rfl := Except.ok.inj htext
      exact ⟨newLocalDate_ok.mpr (validDateBytes_eq_true.mpr ⟨result, denotes_text result⟩),
        result, rfl, rfl⟩
    · rw [hformat]
      exact ⟨iff_of_true ⟨error, rfl⟩ hyear, nofun⟩
  · intro m n s t hm hn
    obtain ⟨a, rfl, rfl⟩ := daysFromCivil_formatDateFromDays hm
    obtain ⟨b, rfl, rfl⟩ := daysFromCivil_formatDateFromDays hn
    rw [daysFromCivil_lt, CalendarDate.text_lt_text]

end Neoseq.Query
