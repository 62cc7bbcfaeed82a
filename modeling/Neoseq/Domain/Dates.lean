import Neoseq.Content.Inline
import Neoseq.Domain.Property

/-! Reading a date from a text. The check slices the text by bytes, which panics inside a
character, and reads the fields with the integer parser, which takes a plus sign. The
dates the texts stand for are those of the calendar, written with leading zeros. -/

namespace Neoseq.Domain
open Content

/-! ## The check on bytes -/

/-- `&value[start..stop]`; `none` is the panic off a character boundary. -/
def slice (start stop : Nat) (text : Text) : Option Text := do
  let cut ← cutAt start text
  let part ← cutAt (stop - start) cut.2
  return part.1

/-- `valid_date`; `none` is a panic. -/
def validDateBytes (value : String) : Option Bool := do
  let text := value.toList
  if utf8Len text ≠ 10 then return false
  if (← slice 4 5 text) ≠ ['-'] then return false
  if (← slice 7 8 text) ≠ ['-'] then return false
  match parseU32 (← slice 0 4 text) with
  | none => return false
  | some year =>
    match parseU32 (← slice 5 7 text) with
    | none => return false
    | some month =>
      match parseU32 (← slice 8 10 text) with
      | none => return false
      | some day =>
        if year = 0 ∨ ¬(1 ≤ month ∧ month ≤ 12) then return false
        return decide (1 ≤ day ∧ day ≤ daysInMonth year month)

/-! ## Digits -/

/-- The last `width` decimal digits of a number. -/
def digits : (width n : Nat) → Text
  | 0, _ => []
  | width + 1, n => digits width (n / 10) ++ [Nat.digitChar (n % 10)]

def digitsValue (text : Text) : Nat :=
  text.foldl (fun n c => n * 10 + (c.toNat - '0'.toNat)) 0

@[simp] theorem length_digits (width n : Nat) : (digits width n).length = width := by
  induction width generalizing n with
  | zero => rfl
  | succ width ih => simp [digits, ih]

theorem isDigit_digits (width n : Nat) : (digits width n).all Char.isDigit = true := by
  induction width generalizing n with
  | zero => rfl
  | succ width ih =>
    have hlast : (Nat.digitChar (n % 10)).isDigit = true := by
      rw [Nat.isDigit_digitChar]
      exact decide_eq_true (Nat.mod_lt n (by omega))
    simp [digits, ih, hlast]

theorem digitsValue_digits (width n : Nat) : digitsValue (digits width n) = n % 10 ^ width := by
  induction width generalizing n with
  | zero => rw [Nat.pow_zero, Nat.mod_one]; rfl
  | succ width ih =>
    have hlast : (Nat.digitChar (n % 10)).toNat - '0'.toNat = n % 10 :=
      Nat.toNat_digitChar_sub_48_of_lt_ten (Nat.mod_lt n (by omega))
    rw [digits, digitsValue, List.foldl_append]
    show digitsValue (digits width (n / 10)) * 10 + _ = _
    rw [ih, hlast, Nat.pow_succ', Nat.mod_mul]
    omega

theorem digitChar_toNat {c : Char} (h : c.isDigit = true) :
    Nat.digitChar (c.toNat - '0'.toNat) = c ∧ c.toNat - '0'.toNat < 10 := by
  obtain ⟨hlow, hhigh⟩ := Char.isDigit_iff_toNat.mp h
  have hzero : '0'.toNat = 48 := rfl
  have hnine : '9'.toNat = 57 := rfl
  have hlt : c.toNat - '0'.toNat < 10 := by omega
  refine ⟨Char.toNat_inj.mp ?_, hlt⟩
  rw [Nat.toNat_digitChar_of_lt_ten hlt]
  omega

theorem digits_digitsValue {text : Text} (h : text.all Char.isDigit = true) :
    digits text.length (digitsValue text) = text ∧ digitsValue text < 10 ^ text.length := by
  induction text using List.reverseRecOn with
  | nil => exact ⟨rfl, Nat.one_pos⟩
  | append_singleton text c ih =>
    rw [List.all_append, Bool.and_eq_true] at h
    obtain ⟨hdigits, hlt⟩ := ih h.1
    have hc : c.isDigit = true := by simpa using h.2
    obtain ⟨hchar, hten⟩ := digitChar_toNat hc
    have hvalue : digitsValue (text ++ [c]) = digitsValue text * 10 + (c.toNat - '0'.toNat) := by
      rw [digitsValue, List.foldl_append]; rfl
    rw [hvalue, List.length_append, List.length_singleton]
    refine ⟨?_, by rw [Nat.pow_succ]; omega⟩
    have hdiv : (digitsValue text * 10 + (c.toNat - '0'.toNat)) / 10 = digitsValue text := by omega
    have hmod : (digitsValue text * 10 + (c.toNat - '0'.toNat)) % 10 = c.toNat - '0'.toNat := by
      omega
    rw [digits, hdiv, hmod, hdigits, hchar]

/-- What the integer parser reads from a field of a few characters: its digits, or fewer
digits behind a plus sign. -/
def spelled (sign : Bool) (width n : Nat) : Text :=
  if sign then '+' :: digits (width - 1) n else digits width n

def Spells (sign : Bool) (width n : Nat) : Prop :=
  if sign then 2 ≤ width ∧ n < 10 ^ (width - 1) else n < 10 ^ width

/-- The value of a run of digits short enough for 32 bits. -/
theorem digits_eq_iff {text : Text} {n : Nat} (hlen : text.length ≤ 9) :
    ((if (text.isEmpty || !text.all Char.isDigit) = true then none
      else if digitsValue text < 4294967296 then some (digitsValue text) else none) = some n) ↔
      text ≠ [] ∧ n < 10 ^ text.length ∧ text = digits text.length n := by
  constructor
  · intro h
    split_ifs at h with hbad
    obtain rfl := Option.some.inj h
    obtain ⟨hne, hall⟩ : text ≠ [] ∧ text.all Char.isDigit = true := by
      simpa [List.isEmpty_iff] using hbad
    obtain ⟨hdigits, hlt⟩ := digits_digitsValue hall
    exact ⟨hne, hlt, hdigits.symm⟩
  · intro ⟨hne, hlt, htext⟩
    have hall : text.all Char.isDigit = true := htext ▸ isDigit_digits _ n
    have hvalue : digitsValue text = n := by
      rw [htext, digitsValue_digits, Nat.mod_eq_of_lt hlt]
    have hpow : 10 ^ text.length ≤ 10 ^ 9 := Nat.pow_le_pow_right (by omega) hlen
    have hsmall : n < 4294967296 := by omega
    have hgood : ¬(text.isEmpty || !text.all Char.isDigit) = true := by
      simp [hall, hne]
    rw [if_neg hgood, hvalue, if_pos hsmall]

theorem plus_ne_digits {rest : Text} (width n : Nat) : '+' :: rest ≠ digits width n := by
  intro h
  have hall := isDigit_digits width n
  rw [← h] at hall
  simp at hall

theorem parseU32_eq_some {text : Text} {n : Nat} (hne : text ≠ []) (hlen : text.length ≤ 9) :
    parseU32 text = some n ↔
      ∃ sign, Spells sign text.length n ∧ text = spelled sign text.length n := by
  by_cases hplus : ∃ rest, text = '+' :: rest
  · obtain ⟨rest, rfl⟩ := hplus
    have hrest : rest.length ≤ 9 := Nat.le_of_succ_le hlen
    refine (digits_eq_iff hrest).trans ⟨fun ⟨hnil, hlt, heq⟩ => ⟨true, ⟨?_, hlt⟩, ?_⟩, ?_⟩
    · have := List.length_pos_iff.mpr hnil
      rw [List.length_cons]
      omega
    · exact congrArg (List.cons '+') heq
    · rintro ⟨sign, hspells, heq⟩
      cases sign with
      | false => exact absurd heq (plus_ne_digits _ n)
      | true =>
        refine ⟨?_, hspells.2, (List.cons.inj heq).2⟩
        rintro rfl
        exact absurd hspells.1 (by decide)
  · have hparse : parseU32 text = if (text.isEmpty || !text.all Char.isDigit) = true then none
        else if digitsValue text < 4294967296 then some (digitsValue text) else none := by
      unfold parseU32
      split
      · next rest => exact absurd ⟨rest, rfl⟩ hplus
      · rfl
    rw [hparse, digits_eq_iff hlen]
    constructor
    · intro ⟨_, hlt, heq⟩
      exact ⟨false, hlt, heq⟩
    · rintro ⟨sign, hspells, heq⟩
      cases sign with
      | false => exact ⟨hne, hspells, heq⟩
      | true => exact absurd ⟨_, heq⟩ hplus

theorem utf8Size_of_isDigit {c : Char} (h : c.isDigit = true) : c.utf8Size = 1 := by
  obtain ⟨_, hhigh⟩ := Char.isDigit_iff_toNat.mp h
  have hnine : '9'.toNat = 57 := rfl
  have hval : c.val ≤ 0x7f := UInt32.le_iff_toNat_le.mpr (by show c.toNat ≤ 127; omega)
  simp [Char.utf8Size, hval]

theorem utf8Len_of_all_isDigit {text : Text} (h : text.all Char.isDigit = true) :
    utf8Len text = text.length := by
  induction text with
  | nil => rfl
  | cons c rest ih =>
    rw [List.all_cons, Bool.and_eq_true] at h
    rw [utf8Len_cons, utf8Size_of_isDigit h.1, ih h.2, List.length_cons, Nat.add_comm]

theorem length_le_utf8Len (text : Text) : text.length ≤ utf8Len text := by
  induction text with
  | nil => exact Nat.le_refl 0
  | cons c rest ih =>
    have := c.utf8Size_pos
    rw [utf8Len_cons, List.length_cons]
    omega

@[simp] theorem utf8Len_digits (width n : Nat) : utf8Len (digits width n) = width := by
  rw [utf8Len_of_all_isDigit (isDigit_digits width n), length_digits]

theorem utf8Len_spelled (sign : Bool) {width : Nat} (hwidth : 1 ≤ width) (n : Nat) :
    utf8Len (spelled sign width n) = width := by
  have hplus : '+'.utf8Size = 1 := rfl
  cases sign with
  | false => exact utf8Len_digits width n
  | true =>
    show utf8Len ('+' :: digits (width - 1) n) = width
    rw [utf8Len_cons, utf8Len_digits, hplus]
    omega

/-- A field of so many bytes, as the parser reads it. -/
theorem parseU32_field {text : Text} {width n : Nat} (hlen : utf8Len text = width)
    (hlow : 1 ≤ width) (hhigh : width ≤ 9) :
    parseU32 text = some n ↔ ∃ sign, Spells sign width n ∧ text = spelled sign width n := by
  have hle := length_le_utf8Len text
  have hne : text ≠ [] := by
    rintro rfl
    rw [utf8Len_nil] at hlen
    omega
  rw [parseU32_eq_some hne (by omega)]
  constructor
  · intro ⟨sign, hspells, htext⟩
    have hwidth : utf8Len text = text.length :=
      (congrArg utf8Len htext).trans (utf8Len_spelled sign (List.length_pos_iff.mpr hne) n)
    rw [hwidth] at hlen
    rw [← hlen]
    exact ⟨sign, hspells, htext⟩
  · intro ⟨sign, hspells, htext⟩
    have hlength : text.length = width := by
      rw [htext]
      cases sign with
      | false => exact length_digits width n
      | true =>
        show (digits (width - 1) n).length + 1 = width
        rw [length_digits]
        omega
    rw [hlength]
    exact ⟨sign, hspells, htext⟩

/-! ## The fields -/

theorem slice_add (before text : Text) {start stop : Nat} :
    slice (utf8Len before + start) (utf8Len before + stop) (before ++ text) =
      slice start stop text := by
  unfold slice
  rw [cutAt_add, Nat.add_sub_add_left]
  cases cutAt start text <;> rfl

theorem slice_zero (before text : Text) : slice 0 (utf8Len before) (before ++ text) = some before := by
  have hcut : cutAt 0 (before ++ text) = some ([], before ++ text) := by
    cases before ++ text <;> rfl
  unfold slice
  rw [hcut]
  show (cutAt (utf8Len before - 0) (before ++ text)).bind _ = _
  rw [Nat.sub_zero, cutAt_append]
  rfl

theorem slice_at (before part after : Text) {text : Text} {start stop : Nat}
    (htext : text = before ++ (part ++ after)) (hstart : utf8Len before = start)
    (hstop : start + utf8Len part = stop) : slice start stop text = some part := by
  have hshift := @slice_add before (part ++ after) 0 (utf8Len part)
  rw [Nat.add_zero, hstart, hstop, slice_zero] at hshift
  rw [htext, hshift]

theorem slice_eq_some {start stop : Nat} {text part : Text} (h : slice start stop text = some part) :
    ∃ before after, text = before ++ part ++ after ∧ utf8Len before = start ∧
      utf8Len part = stop - start := by
  obtain ⟨⟨before, rest⟩, hcut, h⟩ := Option.bind_eq_some_iff.mp h
  obtain ⟨⟨part', after⟩, hcut', h⟩ := Option.bind_eq_some_iff.mp h
  obtain rfl := Option.some.inj h
  obtain ⟨rfl, hbefore⟩ := cutAt_eq_some.mp hcut
  obtain ⟨rfl, hpart⟩ := cutAt_eq_some.mp hcut'
  exact ⟨before, after, (List.append_assoc ..).symm, hbefore, hpart⟩

/-- The parts of a text of ten bytes with hyphens where a date has them. -/
theorem date_parts {text : Text} (hlen : utf8Len text = 10) (hfirst : slice 4 5 text = some ['-'])
    (hsecond : slice 7 8 text = some ['-']) :
    ∃ year month day, text = year ++ '-' :: (month ++ '-' :: day) ∧ utf8Len year = 4 ∧
      utf8Len month = 2 ∧ utf8Len day = 2 := by
  have hhyphen : '-'.utf8Size = 1 := rfl
  obtain ⟨year, rest, rfl, hyear, -⟩ := slice_eq_some hfirst
  have hbefore : utf8Len (year ++ ['-']) = 5 := by simp [hyear, hhyphen]
  have hshift : slice 7 8 (year ++ ['-'] ++ rest) = slice 2 3 rest := by
    rw [show 7 = utf8Len (year ++ ['-']) + 2 by rw [hbefore],
      show 8 = utf8Len (year ++ ['-']) + 3 by rw [hbefore], slice_add]
  obtain ⟨month, day, rfl, hmonth, -⟩ := slice_eq_some (hshift ▸ hsecond)
  refine ⟨year, month, day, by simp, hyear, hmonth, ?_⟩
  simp [hyear, hmonth, hhyphen] at hlen
  omega

/-- The fields name a day of a month of a year. -/
def checkFields (year month day : Text) : Bool :=
  match parseU32 year, parseU32 month, parseU32 day with
  | some year, some month, some day =>
    decide (year ≠ 0 ∧ (1 ≤ month ∧ month ≤ 12) ∧ 1 ≤ day ∧ day ≤ daysInMonth year month)
  | _, _, _ => false

/-- On a text of this shape the check reads the three fields. -/
theorem validDateBytes_parts {value : String} {year month day : Text}
    (hvalue : value.toList = year ++ '-' :: (month ++ '-' :: day)) (hyear : utf8Len year = 4)
    (hmonth : utf8Len month = 2) (hday : utf8Len day = 2) :
    validDateBytes value = some (checkFields year month day) := by
  have hhyphen : '-'.utf8Size = 1 := rfl
  have hfirst : slice 4 5 value.toList = some ['-'] :=
    slice_at year ['-'] (month ++ '-' :: day) hvalue hyear (by simp [hhyphen])
  have hsecond : slice 7 8 value.toList = some ['-'] :=
    slice_at (year ++ '-' :: month) ['-'] day (by simp [hvalue]) (by simp [hyear, hmonth, hhyphen])
      (by simp [hhyphen])
  have hslice₁ : slice 0 4 value.toList = some year :=
    slice_at [] year ('-' :: (month ++ '-' :: day)) hvalue utf8Len_nil (by rw [hyear])
  have hslice₂ : slice 5 7 value.toList = some month :=
    slice_at (year ++ ['-']) month ('-' :: day) (by simp [hvalue]) (by simp [hyear, hhyphen])
      (by rw [hmonth])
  have hslice₃ : slice 8 10 value.toList = some day :=
    slice_at (year ++ '-' :: (month ++ ['-'])) day [] (by simp [hvalue])
      (by simp [hyear, hmonth, hhyphen]) (by rw [hday])
  have hlen : utf8Len value.toList = 10 := by simp [hvalue, hyear, hmonth, hday, hhyphen]
  unfold validDateBytes
  simp only [hfirst, hsecond, hslice₁, hslice₂, hslice₃, hlen, ne_eq, not_true_eq_false, if_false,
    Option.bind_eq_bind, Option.bind_some]
  unfold checkFields
  cases parseU32 year with
  | none => rfl
  | some y =>
    cases parseU32 month with
    | none => rfl
    | some m =>
      cases parseU32 day with
      | none => rfl
      | some d =>
        dsimp only
        by_cases hbad : y = 0 ∨ ¬(1 ≤ m ∧ m ≤ 12)
        · have hno : ¬(y ≠ 0 ∧ (1 ≤ m ∧ m ≤ 12) ∧ 1 ≤ d ∧ d ≤ daysInMonth y m) := by
            intro ⟨hy, hm, _⟩
            exact hbad.elim hy fun h => h hm
          rw [if_pos hbad, decide_eq_false hno]
          rfl
        · obtain ⟨hy, hm⟩ := not_or.mp hbad
          rw [if_neg hbad]
          refine congrArg some (decide_eq_decide.mpr ?_)
          exact ⟨fun hd => ⟨hy, not_not.mp hm, hd⟩, fun hd => hd.2.2⟩

/-! ## Dates of the calendar -/

/-- A date of the proleptic Gregorian calendar in the years 1 to 9999. -/
structure CalendarDate where
  year : Nat
  month : Nat
  day : Nat
  year_range : 1 ≤ year ∧ year ≤ 9999
  month_range : 1 ≤ month ∧ month ≤ 12
  day_range : 1 ≤ day ∧ day ≤ daysInMonth year month
  deriving DecidableEq

namespace CalendarDate

/-- The text of a date with signs before some of its fields. -/
def spell (date : CalendarDate) (year month day : Bool) : Text :=
  spelled year 4 date.year ++ '-' :: (spelled month 2 date.month ++ '-' :: spelled day 2 date.day)

/-- `DDDD-DD-DD`. -/
def text (date : CalendarDate) : String := String.ofList (date.spell false false false)

/-- A date with a plus sign in place of the leading zero of a field, or of several. -/
def Signed (value : String) : Prop :=
  ∃ (date : CalendarDate) (year month day : Bool), (year = true → date.year < 1000) ∧
    (month = true → date.month < 10) ∧ (day = true → date.day < 10) ∧
    (year || month || day) = true ∧ value.toList = date.spell year month day

end CalendarDate

/-- Ten bytes of which one that the check cuts at lies inside a character. -/
def Unsliceable (value : String) : Prop :=
  utf8Len value.toList = 10 ∧ (slice 4 5 value.toList = none ∨
    slice 4 5 value.toList = some ['-'] ∧ slice 7 8 value.toList = none)

theorem validDateBytes_of_unsliceable {value : String} (h : Unsliceable value) :
    validDateBytes value = none := by
  obtain ⟨hlen, hslice⟩ := h
  unfold validDateBytes
  simp only [hlen, ne_eq, not_true_eq_false, if_false, Option.bind_eq_bind]
  rcases hslice with hfirst | ⟨hfirst, hsecond⟩
  · rw [hfirst]
    rfl
  · rw [hfirst, hsecond]
    rfl

/-- A text that is not refused before its fields is cut inside a character or has them. -/
theorem parts_of_validDateBytes {value : String} (h : validDateBytes value ≠ some false) :
    Unsliceable value ∨ ∃ year month day, value.toList = year ++ '-' :: (month ++ '-' :: day) ∧
      utf8Len year = 4 ∧ utf8Len month = 2 ∧ utf8Len day = 2 := by
  by_cases hlen : utf8Len value.toList = 10
  · cases hfirst : slice 4 5 value.toList with
    | none => exact .inl ⟨hlen, .inl hfirst⟩
    | some first =>
      by_cases hhyphen : first = ['-']
      · subst hhyphen
        cases hsecond : slice 7 8 value.toList with
        | none => exact .inl ⟨hlen, .inr ⟨hfirst, hsecond⟩⟩
        | some second =>
          by_cases hhyphen : second = ['-']
          · subst hhyphen
            exact .inr (date_parts hlen hfirst hsecond)
          · refine absurd ?_ h
            unfold validDateBytes
            simp [hlen, hfirst, hsecond, hhyphen]
      · refine absurd ?_ h
        unfold validDateBytes
        simp [hlen, hfirst, hhyphen]
  · refine absurd ?_ h
    unfold validDateBytes
    simp [hlen]

theorem validDateBytes_eq_none {value : String} :
    validDateBytes value = none ↔ Unsliceable value := by
  refine ⟨fun h => ?_, validDateBytes_of_unsliceable⟩
  refine (parts_of_validDateBytes (by rw [h]; nofun)).resolve_right ?_
  intro ⟨year, month, day, hvalue, hyear, hmonth, hday⟩
  rw [validDateBytes_parts hvalue hyear hmonth hday] at h
  cases h

theorem daysInMonth_lt (year month : Nat) : daysInMonth year month < 32 := by
  unfold daysInMonth
  dsimp only
  split_ifs <;> omega

theorem spells_iff {sign : Bool} {width n : Nat} (hwidth : 2 ≤ width) (hn : n < 10 ^ width) :
    Spells sign width n ↔ (sign = true → n < 10 ^ (width - 1)) := by
  cases sign with
  | false => exact iff_of_true hn nofun
  | true => exact ⟨fun h _ => h.2, fun h => ⟨hwidth, h rfl⟩⟩

theorem Spells.lt {sign : Bool} {width n : Nat} (h : Spells sign width n) : n < 10 ^ width := by
  cases sign with
  | false => exact h
  | true => exact Nat.lt_of_lt_of_le h.2 (Nat.pow_le_pow_right (by omega) (Nat.sub_le _ _))

theorem checkFields_eq_true {year month day : Text} (hyear : utf8Len year = 4)
    (hmonth : utf8Len month = 2) (hday : utf8Len day = 2) :
    checkFields year month day = true ↔
      ∃ (date : CalendarDate) (y m d : Bool), (y = true → date.year < 1000) ∧
        (m = true → date.month < 10) ∧ (d = true → date.day < 10) ∧
        year = spelled y 4 date.year ∧ month = spelled m 2 date.month ∧
        day = spelled d 2 date.day := by
  have hparseYear (n : Nat) := parseU32_field (n := n) hyear (by omega) (by omega)
  have hparseMonth (n : Nat) := parseU32_field (n := n) hmonth (by omega) (by omega)
  have hparseDay (n : Nat) := parseU32_field (n := n) hday (by omega) (by omega)
  constructor
  · intro h
    unfold checkFields at h
    split at h
    · next y m d hy hm hd =>
      obtain ⟨hne, hmrange, hdrange⟩ := of_decide_eq_true h
      obtain ⟨sy, hsy, rfl⟩ := (hparseYear y).mp hy
      obtain ⟨sm, hsm, rfl⟩ := (hparseMonth m).mp hm
      obtain ⟨sd, hsd, rfl⟩ := (hparseDay d).mp hd
      refine ⟨⟨y, m, d, ⟨Nat.pos_of_ne_zero hne, Nat.le_of_lt_succ hsy.lt⟩, hmrange, hdrange⟩,
        sy, sm, sd, ?_, ?_, ?_, rfl, rfl, rfl⟩
      · exact (spells_iff (by omega) hsy.lt).mp hsy
      · exact (spells_iff (by omega) hsm.lt).mp hsm
      · exact (spells_iff (by omega) hsd.lt).mp hsd
    · cases h
  · intro ⟨date, y, m, d, hy, hm, hd, hyear', hmonth', hday'⟩
    obtain ⟨hlow, hhigh⟩ := date.year_range
    have hlt := daysInMonth_lt date.year date.month
    have hmrange := date.month_range
    have hdrange := date.day_range
    have hy : Spells y 4 date.year := (spells_iff (by omega) (by omega)).mpr hy
    have hm : Spells m 2 date.month := (spells_iff (by omega) (by omega)).mpr hm
    have hd : Spells d 2 date.day := (spells_iff (by omega) (by omega)).mpr hd
    unfold checkFields
    rw [(hparseYear date.year).mpr ⟨y, hy, hyear'⟩, (hparseMonth date.month).mpr ⟨m, hm, hmonth'⟩,
      (hparseDay date.day).mpr ⟨d, hd, hday'⟩]
    exact decide_eq_true ⟨by omega, hmrange, hdrange⟩

theorem validDateBytes_eq_true {value : String} : validDateBytes value = some true ↔
    ∃ (date : CalendarDate) (year month day : Bool), (year = true → date.year < 1000) ∧
      (month = true → date.month < 10) ∧ (day = true → date.day < 10) ∧
      value.toList = date.spell year month day := by
  constructor
  · intro h
    rcases parts_of_validDateBytes (by rw [h]; nofun) with hcut | ⟨year, month, day, hvalue, hyear,
      hmonth, hday⟩
    · rw [validDateBytes_of_unsliceable hcut] at h
      cases h
    · rw [validDateBytes_parts hvalue hyear hmonth hday, Option.some.injEq,
        checkFields_eq_true hyear hmonth hday] at h
      obtain ⟨date, y, m, d, hy, hm, hd, rfl, rfl, rfl⟩ := h
      exact ⟨date, y, m, d, hy, hm, hd, hvalue⟩
  · intro ⟨date, y, m, d, hy, hm, hd, hvalue⟩
    have hyear := utf8Len_spelled y (by omega : 1 ≤ 4) date.year
    have hmonth := utf8Len_spelled m (by omega : 1 ≤ 2) date.month
    have hday := utf8Len_spelled d (by omega : 1 ≤ 2) date.day
    rw [validDateBytes_parts hvalue hyear hmonth hday, Option.some.injEq,
      checkFields_eq_true hyear hmonth hday]
    exact ⟨date, y, m, d, hy, hm, hd, rfl, rfl, rfl⟩

/-! ## The check on characters -/

theorem length_spelled (sign : Bool) {width : Nat} (hwidth : 1 ≤ width) (n : Nat) :
    (spelled sign width n).length = width := by
  cases sign with
  | false => exact length_digits width n
  | true =>
    show (digits (width - 1) n).length + 1 = width
    rw [length_digits]
    omega

/-- With as many characters in each field, `validDate` reads the same fields. -/
theorem validDate_parts {value : String} {year month day : Text}
    (hvalue : value.toList = year ++ '-' :: (month ++ '-' :: day)) (hyear : year.length = 4)
    (hmonth : month.length = 2) (hday : day.length = 2) :
    validDate value = checkFields year month day := by
  have hfirst : (value.toList.drop 4) = '-' :: (month ++ '-' :: day) := by
    rw [hvalue, List.drop_left' hyear]
  have hsecond : (value.toList.drop 7) = '-' :: day := by
    rw [show 7 = 4 + 3 from rfl, ← List.drop_drop, hfirst]
    show (month ++ '-' :: day).drop 2 = _
    rw [List.drop_left' hmonth]
  have hyears : value.toList.take 4 = year := by rw [hvalue, List.take_left' hyear]
  have hmonths : (value.toList.drop 5).take 2 = month := by
    rw [show 5 = 4 + 1 from rfl, ← List.drop_drop, hfirst]
    show (month ++ '-' :: day).take 2 = _
    rw [List.take_left' hmonth]
  have hdays : (value.toList.drop 8).take 2 = day := by
    rw [show 8 = 7 + 1 from rfl, ← List.drop_drop, hsecond]
    show day.take 2 = _
    rw [← hday, List.take_length]
  have hlen : value.toList.length = 10 := by
    rw [hvalue]
    simp [hyear, hmonth, hday]
  unfold validDate checkFields
  dsimp only
  rw [hfirst, hsecond, hyears, hmonths, hdays, hlen]
  cases parseU32 year with
  | none => rfl
  | some y =>
    cases parseU32 month with
    | none => rfl
    | some m =>
      cases parseU32 day with
      | none => rfl
      | some d =>
        simp [and_assoc]

theorem validDate_of_bytes {value : String} (h : validDateBytes value = some true) :
    validDate value = true := by
  obtain ⟨date, y, m, d, hy, hm, hd, hvalue⟩ := validDateBytes_eq_true.mp h
  have hyear := utf8Len_spelled y (by omega : 1 ≤ 4) date.year
  have hmonth := utf8Len_spelled m (by omega : 1 ≤ 2) date.month
  have hday := utf8Len_spelled d (by omega : 1 ≤ 2) date.day
  rw [validDate_parts hvalue (length_spelled y (by omega) _) (length_spelled m (by omega) _)
    (length_spelled d (by omega) _)]
  exact Option.some.inj ((validDateBytes_parts hvalue hyear hmonth hday).symm.trans h)

theorem utf8Len_of_parseU32 {text : Text} {n : Nat} (h : parseU32 text = some n)
    (hlow : 1 ≤ text.length) (hhigh : text.length ≤ 9) : utf8Len text = text.length := by
  obtain ⟨sign, _, htext⟩ := (parseU32_eq_some (List.length_pos_iff.mp hlow) hhigh).mp h
  exact (congrArg utf8Len htext).trans (utf8Len_spelled sign hlow n)

theorem drop_eq_cons_of_head? {text : Text} {n : Nat} {c : Char}
    (h : (text.drop n).head? = some c) : text.drop n = c :: text.drop (n + 1) := by
  obtain ⟨rest, hrest⟩ := List.head?_eq_some_iff.mp h
  rw [hrest, ← List.drop_drop, hrest]
  rfl

/-- Among characters the check takes the same texts as among bytes. -/
theorem validDateBytes_of_validDate {value : String} (h : validDate value = true) :
    validDateBytes value = some true := by
  have hparts := h
  simp only [validDate, Bool.and_eq_true, decide_eq_true_eq] at hparts
  obtain ⟨⟨⟨hlen, hfirst⟩, hsecond⟩, -⟩ := hparts
  have hvalue : value.toList = value.toList.take 4 ++
      '-' :: ((value.toList.drop 5).take 2 ++ '-' :: value.toList.drop 8) := by
    rw [← drop_eq_cons_of_head? hsecond, show 7 = 5 + 2 from rfl, ← List.drop_drop,
      List.take_append_drop, ← drop_eq_cons_of_head? hfirst, List.take_append_drop]
  have hyear : (value.toList.take 4).length = 4 := by simp [hlen]
  have hmonth : ((value.toList.drop 5).take 2).length = 2 := by simp [hlen]
  have hday : (value.toList.drop 8).length = 2 := by simp [hlen]
  have hcheck := (validDate_parts hvalue hyear hmonth hday).symm.trans h
  have hfields := hcheck
  unfold checkFields at hfields
  split at hfields
  · next y m d hy hm hd =>
    have hlen₁ := utf8Len_of_parseU32 hy (by omega) (by omega)
    have hlen₂ := utf8Len_of_parseU32 hm (by omega) (by omega)
    have hlen₃ := utf8Len_of_parseU32 hd (by omega) (by omega)
    rw [validDateBytes_parts hvalue (hlen₁.trans hyear) (hlen₂.trans hmonth) (hlen₃.trans hday),
      hcheck]
  · cases hfields

/-- What becomes of a call that may panic. -/
inductive Outcome (α : Type) where
  | returned (value : α)
  | panicked

/-- `LocalDate::new`. -/
def newLocalDate (value : String) : Outcome (Except IdError LocalDate) :=
  match h : validDateBytes value with
  | none => .panicked
  | some true => .returned (.ok ⟨value, validDate_of_bytes h⟩)
  | some false => .returned (.error (.invalidDate value))

theorem newLocalDate_eq_panicked {value : String} :
    newLocalDate value = .panicked ↔ Unsliceable value := by
  rw [← validDateBytes_eq_none]
  unfold newLocalDate
  split <;> simp_all

theorem newLocalDate_ok {value : String} :
    (∃ date, newLocalDate value = .returned (.ok date)) ↔ validDateBytes value = some true := by
  unfold newLocalDate
  split <;> simp_all

namespace CalendarDate

/-- The order of the calendar. -/
def Before (a b : CalendarDate) : Prop :=
  a.year < b.year ∨ a.year = b.year ∧ (a.month < b.month ∨ a.month = b.month ∧ a.day < b.day)

theorem append_lt {a a' b b' : Text} (hlen : a.length = a'.length) :
    a ++ b < a' ++ b' ↔ a < a' ∨ a = a' ∧ b < b' := by
  induction a generalizing a' with
  | nil =>
    obtain rfl := List.length_eq_zero_iff.mp hlen.symm
    simp
  | cons c a ih =>
    obtain ⟨c', a', rfl⟩ := List.exists_cons_of_length_eq_add_one hlen.symm
    rw [List.cons_append, List.cons_append, List.cons_lt_cons_iff, ih (Nat.succ.inj hlen),
      List.cons_lt_cons_iff, List.cons.injEq]
    tauto

theorem digitChar_lt {m n : Nat} (hm : m < 10) (hn : n < 10) :
    Nat.digitChar m < Nat.digitChar n ↔ m < n := by
  show (Nat.digitChar m).val < (Nat.digitChar n).val ↔ m < n
  rw [UInt32.lt_iff_toNat_lt]
  show (Nat.digitChar m).toNat < (Nat.digitChar n).toNat ↔ m < n
  rw [Nat.toNat_digitChar_of_lt_ten hm, Nat.toNat_digitChar_of_lt_ten hn]
  omega

theorem digits_injective {width m n : Nat} (hm : m < 10 ^ width) (hn : n < 10 ^ width) :
    digits width m = digits width n ↔ m = n := by
  refine ⟨fun h => ?_, congrArg _⟩
  have hvalue := congrArg digitsValue h
  rwa [digitsValue_digits, digitsValue_digits, Nat.mod_eq_of_lt hm, Nat.mod_eq_of_lt hn] at hvalue

/-- With leading zeros, numbers are ordered as their digits. -/
theorem digits_lt_digits {width m n : Nat} (hm : m < 10 ^ width) (hn : n < 10 ^ width) :
    digits width m < digits width n ↔ m < n := by
  induction width generalizing m n with
  | zero =>
    rw [Nat.pow_zero] at hm hn
    refine iff_of_false (fun h => ?_) (by omega)
    exact absurd h (List.not_lt_nil _)
  | succ width ih =>
    rw [Nat.pow_succ] at hm hn
    have hm' : m / 10 < 10 ^ width := by omega
    have hn' : n / 10 < 10 ^ width := by omega
    have hlast : [Nat.digitChar (m % 10)] < [Nat.digitChar (n % 10)] ↔ m % 10 < n % 10 := by
      rw [List.cons_lt_cons_iff, digitChar_lt (Nat.mod_lt _ (by omega)) (Nat.mod_lt _ (by omega))]
      simp
    rw [digits, digits, append_lt (by simp), ih hm' hn', hlast, digits_injective hm' hn']
    omega

theorem field_bounds (date : CalendarDate) :
    date.year < 10 ^ 4 ∧ date.month < 10 ^ 2 ∧ date.day < 10 ^ 2 := by
  obtain ⟨_, hyear⟩ := date.year_range
  obtain ⟨_, hmonth⟩ := date.month_range
  obtain ⟨_, hday⟩ := date.day_range
  have hlt := daysInMonth_lt date.year date.month
  omega

theorem text_lt_text (a b : CalendarDate) : a.text < b.text ↔ a.Before b := by
  obtain ⟨hay, ham, had⟩ := a.field_bounds
  obtain ⟨hby, hbm, hbd⟩ := b.field_bounds
  have hhyphen {s t : Text} : '-' :: s < '-' :: t ↔ s < t := by
    rw [List.cons_lt_cons_iff]
    simp
  rw [String.lt_iff, text, text, String.toList_ofList, String.toList_ofList]
  show digits 4 a.year ++ '-' :: (digits 2 a.month ++ '-' :: digits 2 a.day) <
    digits 4 b.year ++ '-' :: (digits 2 b.month ++ '-' :: digits 2 b.day) ↔ _
  rw [append_lt (by simp), hhyphen, append_lt (by simp), hhyphen, digits_lt_digits hay hby,
    digits_lt_digits ham hbm, digits_lt_digits had hbd, digits_injective hay hby,
    digits_injective ham hbm]
  rfl

theorem ext {a b : CalendarDate} (hyear : a.year = b.year) (hmonth : a.month = b.month)
    (hday : a.day = b.day) : a = b := by
  cases a
  cases b
  subst hyear hmonth hday
  rfl

theorem text_injective : Function.Injective text := by
  intro a b h
  have hne : ¬a.Before b ∧ ¬b.Before a := by
    rw [← text_lt_text, ← text_lt_text, h]
    exact ⟨String.lt_irrefl _, String.lt_irrefl _⟩
  simp only [Before] at hne
  exact ext (by omega) (by omega) (by omega)

/-- A date has one spelling without signs, which no spelling with one is. -/
theorem spell_text {date date' : CalendarDate} {y m d : Bool}
    (h : date'.text.toList = date.spell y m d) : (y || m || d) = false := by
  have hfield {sign : Bool} {width n n' : Nat}
      (heq : digits width n' = spelled sign width n) : sign = false := by
    cases sign with
    | false => rfl
    | true => exact absurd heq.symm (plus_ne_digits width n')
  rw [text, String.toList_ofList] at h
  have hyear := List.append_inj h (by rw [length_spelled _ (by omega), length_spelled _ (by omega)])
  have hrest := (List.cons.inj hyear.2).2
  have hmonth := List.append_inj hrest
    (by rw [length_spelled _ (by omega), length_spelled _ (by omega)])
  have hday := (List.cons.inj hmonth.2).2
  rw [hfield hyear.1, hfield hmonth.1, hfield hday]
  rfl

end CalendarDate

/-- The check panics exactly where it cuts inside a character, and what it takes beside the
texts of the calendar's dates are those with a sign. Among the texts of the calendar the
order of the strings is that of the dates. -/
theorem newLocalDate_exact_iff (value : String) :
    ((newLocalDate value ≠ .panicked ∧
        ((∃ date, newLocalDate value = .returned (.ok date)) ↔
          ∃ date : CalendarDate, date.text = value)) ↔
      ¬Unsliceable value ∧ ¬CalendarDate.Signed value) ∧
    Function.Injective CalendarDate.text ∧
    ∀ a b : CalendarDate, a.text < b.text ↔ a.Before b := by
  refine ⟨?_, CalendarDate.text_injective, CalendarDate.text_lt_text⟩
  rw [Ne, newLocalDate_eq_panicked, newLocalDate_ok, validDateBytes_eq_true]
  refine and_congr_right fun _ => ⟨fun hexact => ?_, fun hplain => ⟨?_, ?_⟩⟩
  · intro ⟨date, y, m, d, hy, hm, hd, hsign, hvalue⟩
    obtain ⟨date', rfl⟩ := hexact.mp ⟨date, y, m, d, hy, hm, hd, hvalue⟩
    rw [CalendarDate.spell_text hvalue] at hsign
    cases hsign
  · intro ⟨date, y, m, d, hy, hm, hd, hvalue⟩
    have hnone : (y || m || d) = false := by
      refine Bool.eq_false_iff.mpr fun hsign => hplain ?_
      exact ⟨date, y, m, d, hy, hm, hd, hsign, hvalue⟩
    obtain ⟨⟨rfl, rfl⟩, rfl⟩ := by simpa using hnone
    exact ⟨date, String.toList_inj.mp (by rw [CalendarDate.text, String.toList_ofList, hvalue])⟩
  · intro ⟨date, hvalue⟩
    refine ⟨date, false, false, false, nofun, nofun, nofun, ?_⟩
    rw [← hvalue, CalendarDate.text, String.toList_ofList]

/-- A letter of two bytes where the check cuts, and a year with a sign. -/
theorem newLocalDate_panics_and_takes_sign :
    newLocalDate "202\u00e9-01-1" = .panicked ∧
    (∃ date, newLocalDate "+123-01-01" = .returned (.ok date)) ∧
    ¬∃ date : CalendarDate, date.text = "+123-01-01" := by
  refine ⟨newLocalDate_eq_panicked.mpr ⟨by decide +kernel, .inl (by decide +kernel)⟩,
    newLocalDate_ok.mpr (by decide +kernel), ?_⟩
  intro ⟨date, hdate⟩
  let signed : CalendarDate := ⟨123, 1, 1, by decide, by decide, by decide⟩
  have hspell : date.text.toList = signed.spell true false false := by
    rw [hdate]
    decide +kernel
  cases CalendarDate.spell_text hspell

end Neoseq.Domain
