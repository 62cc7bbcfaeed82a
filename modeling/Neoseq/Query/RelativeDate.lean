import Neoseq.Query.Plan

/-! Relative dates: a day, a week or a month counted from today. Weeks start on
Monday, a week or a month stands for its first day. -/

namespace Neoseq.Query
open Domain

/-- `str::parse::<i32>` on a part of a date that passed `valid_date`. -/
def parsePart (name : String) (part : List Char) : Except QueryError Int :=
  match parseU32 part with
  | some n => .ok n
  | none => .error (invalidPlan ("invalid " ++ name ++ ": invalid digit found in string"))

def parseDate (date : LocalDate) : Except QueryError (Int × Int × Int) := do
  let cs := date.asStr.toList
  let year ← parsePart "year" (cs.take 4)
  let month ← parsePart "month" ((cs.drop 5).take 2)
  let day ← parsePart "day" ((cs.drop 8).take 2)
  return (year, month, day)

/-- Proleptic Gregorian conversion, with 1970-01-01 as day zero. -/
def daysFromCivil (year month day : Int) : Int :=
  let adjustedYear := year - if month ≤ 2 then 1 else 0
  let era := adjustedYear / 400
  let yearOfEra := adjustedYear - era * 400
  let shiftedMonth := month + if month > 2 then -3 else 9
  let dayOfYear := (153 * shiftedMonth + 2) / 5 + day - 1
  let dayOfEra := yearOfEra * 365 + yearOfEra / 4 - yearOfEra / 100 + dayOfYear
  era * 146097 + dayOfEra - 719468

/-- `{value:0width$}`. -/
def padded (width : Nat) (value : Int) : String :=
  String.ofList ((toString value.toNat).toList.leftpad width '0')

def formatDate (year month day : Int) : Except QueryError String :=
  if 1 ≤ year ∧ year ≤ 9999 then
    .ok (padded 4 year ++ "-" ++ padded 2 month ++ "-" ++ padded 2 day)
  else .error (invalidPlan "relative date is outside the supported range")

def formatDateFromDays (days : Int) : Except QueryError String :=
  let shifted := days + 719468
  let era := shifted / 146097
  let dayOfEra := shifted - era * 146097
  let yearOfEra := (dayOfEra - dayOfEra / 1460 + dayOfEra / 36524 - dayOfEra / 146096) / 365
  let year := yearOfEra + era * 400
  let dayOfYear := dayOfEra - (365 * yearOfEra + yearOfEra / 4 - yearOfEra / 100)
  let monthPrime := (5 * dayOfYear + 2) / 153
  let day := dayOfYear - (153 * monthPrime + 2) / 5 + 1
  let month := monthPrime + if monthPrime < 10 then 3 else -9
  let year := year + if month ≤ 2 then 1 else 0
  formatDate year month day

def resolveRelativeDate (relative : PlanRelativeDate) (today : LocalDate) :
    Except QueryError String := do
  let (year, month, day) ← parseDate today
  match relative.unit with
  | .day => formatDateFromDays (daysFromCivil year month day + relative.offset.toInt)
  | .week =>
    let days := daysFromCivil year month day
    let weekdayFromMonday := (days + 3) % 7
    formatDateFromDays (days - weekdayFromMonday + relative.offset.toInt * 7)
  | .month =>
    let monthIndex := year * 12 + (month - 1)
    let shifted := monthIndex + relative.offset.toInt
    formatDate (shifted / 12) (shifted % 12 + 1) 1

end Neoseq.Query
