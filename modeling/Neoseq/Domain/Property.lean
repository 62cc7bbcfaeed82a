import Neoseq.Domain.Query

/-! Property bags: typed values under keys of a fixed grammar, one field a key. -/

namespace Neoseq.Domain

def maxKeyLen : Nat := 128

def isLowerOrDigit (c : Char) : Bool := c.isLower || c.isDigit

/-- The segments of a property name, between the hyphens. -/
def validPropertyName (name : List Char) : Bool :=
  match name.splitOn '-' with
  | [] => false
  | first :: segments =>
    (match first with
      | [] => false
      | c :: _ => c.isLower) &&
    first.all isLowerOrDigit &&
    segments.all fun segment => !segment.isEmpty && segment.all isLowerOrDigit

/-- `namespace.name`, divided at the first dot. -/
def validPropertyKey (value : String) : Bool :=
  let spaceName := value.toList.takeWhile (· ≠ '.')
  match value.toList.dropWhile (· ≠ '.') with
  | [] => false
  | _ :: name =>
    (spaceName == "builtin".toList || spaceName == "user".toList) && validPropertyName name

structure PropertyKey where
  asStr : String
  valid : validate asStr "property key" maxKeyLen = .ok () ∧ validPropertyKey asStr = true
  deriving DecidableEq

/-- A key with whitespace around it fails the grammar, too. -/
def PropertyKey.new (value : String) : Except IdError PropertyKey :=
  match h : validate value "property key" maxKeyLen with
  | .error e => .error e
  | .ok () =>
    if hkey : validPropertyKey value = true then .ok ⟨value, h, hkey⟩
    else .error (.invalidPropertyKey value)

/-- `str::parse::<u32>` on a part of a date: digits after at most one plus sign. -/
def parseU32 (cs : List Char) : Option Nat :=
  let digits := match cs with
    | '+' :: rest => rest
    | cs => cs
  if digits.isEmpty || !digits.all Char.isDigit then none
  else
    let n := digits.foldl (fun n c => n * 10 + (c.toNat - '0'.toNat)) 0
    if n < 4294967296 then some n else none

def daysInMonth (year month : Nat) : Nat :=
  let leap := year % 4 = 0 ∧ (year % 100 ≠ 0 ∨ year % 400 = 0)
  if month = 2 then (if leap then 29 else 28)
  else if month = 4 ∨ month = 6 ∨ month = 9 ∨ month = 11 then 30
  else 31

def validDate (value : String) : Bool :=
  let cs := value.toList
  cs.length = 10 && (cs.drop 4).head? = some '-' && (cs.drop 7).head? = some '-' &&
  match parseU32 (cs.take 4), parseU32 ((cs.drop 5).take 2), parseU32 ((cs.drop 8).take 2) with
  | some year, some month, some day =>
    decide (year ≠ 0 ∧ 1 ≤ month ∧ month ≤ 12 ∧ 1 ≤ day ∧ day ≤ daysInMonth year month)
  | _, _, _ => false

structure LocalDate where
  asStr : String
  valid : validDate asStr = true
  deriving DecidableEq

/-- A double by its bits. -/
structure F64 where
  bits : BitVec 64
  deriving DecidableEq

/-- Neither an infinity nor a NaN. -/
def F64.isFinite (x : F64) : Bool := x.bits.extractLsb' 52 11 != 0x7ff#11

inductive PropertyType where
  | number
  | string
  | page
  | checkbox
  | date
  | document
  deriving Repr, DecidableEq

inductive Cardinality where
  | single
  | set
  deriving Repr, DecidableEq

inductive PropertyValue where
  | number (value : F64)
  | string (value : String)
  | page (id : PageId)
  | checkbox (value : Bool)
  | date (value : LocalDate)
  | document (value : PropertyDocument)
  | unsupportedDocument (schema : String) (version : Nat)
  deriving DecidableEq

def PropertyValue.propertyType : PropertyValue → PropertyType
  | .number _ => .number
  | .string _ => .string
  | .page _ => .page
  | .checkbox _ => .checkbox
  | .date _ => .date
  | .document _ => .document
  | .unsupportedDocument .. => .document

structure PropertyField where
  key : PropertyKey
  valueType : PropertyType
  cardinality : Cardinality
  values : List PropertyValue
  deriving DecidableEq

/-- Fields in key order, one a key. -/
structure PropertyBag where
  fields : List PropertyField
  sorted : (fields.map fun f => f.key.asStr).Pairwise (· < ·)
  deriving DecidableEq

def PropertyBag.empty : PropertyBag := ⟨[], List.Pairwise.nil⟩

end Neoseq.Domain
