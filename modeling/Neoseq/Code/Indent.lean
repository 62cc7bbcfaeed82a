import Neoseq.Vim.Lines
import Neoseq.Code.Fence

/-! Indentation of the lines that a selection touches. The ends of the selection move by what
the lines before them gain or lose. -/

namespace Neoseq.Code

open Neoseq.Vim (Text newline lineStart lineEnd)

/-! ## Units -/

/-- The columns of a line that starts with spaces and goes on behind them. -/
def spacesBefore (line : Text) : Option Nat :=
  let spaces := (line.takeWhile (· == space)).length
  match (line.drop spaces).head? with
  | some unit => if 0 < spaces ∧ isTrimmed unit = false then some spaces else none
  | none => none

/-- The loop of `indentUnit`, with the narrowest indent so far. -/
def indentUnitFrom : List Text → Option Nat → Text
  | [], none => [space, space]
  | [], some narrowest => List.replicate narrowest space
  | line :: lines, narrowest =>
    if line.head? = some tab then [tab]
    else
      match spacesBefore line with
      | some spaces => indentUnitFrom lines (some ((narrowest.map (min spaces)).getD spaces))
      | none => indentUnitFrom lines narrowest

def indentUnit (body : Text) : Text := indentUnitFrom (body.splitOn newline) none

/-- A tab, or some spaces. -/
def IsUnit (unit : Text) : Prop := unit = [tab] ∨ ∃ n, 0 < n ∧ unit = List.replicate n space

theorem isUnit_indentUnitFrom (lines : List Text) (narrowest : Option Nat)
    (h : ∀ n, narrowest = some n → 0 < n) : IsUnit (indentUnitFrom lines narrowest) := by
  induction lines generalizing narrowest with
  | nil =>
    cases narrowest with
    | none => exact Or.inr ⟨2, Nat.succ_pos _, rfl⟩
    | some n => exact Or.inr ⟨n, h n rfl, rfl⟩
  | cons line lines ih =>
    have hspaces : ∀ n, spacesBefore line = some n → 0 < n := by
      intro n hn
      unfold spacesBefore at hn
      dsimp only at hn
      split at hn
      · split at hn
        · rename_i hcond
          obtain rfl := Option.some.inj hn
          exact hcond.1
        · cases hn
      · cases hn
    unfold indentUnitFrom
    split
    · exact Or.inl rfl
    · split
      · rename_i spaces hfound
        refine ih _ fun n hn => ?_
        have hpos := hspaces spaces hfound
        cases narrowest with
        | none =>
          obtain rfl := Option.some.inj hn
          exact hpos
        | some least =>
          obtain rfl := Option.some.inj hn
          exact lt_min hpos (h least rfl)
      · exact ih _ h

theorem isUnit_indentUnit (body : Text) : IsUnit (indentUnit body) :=
  isUnit_indentUnitFrom _ none nofun

/-! ## The edit -/

/-- What is replaced, and the selection behind the edit. -/
structure CodeEdit where
  first : Nat
  stop : Nat
  insert : Text
  selectionStart : Nat
  selectionEnd : Nat

def CodeEdit.apply (edit : CodeEdit) (value : Text) : Text :=
  value.take edit.first ++ (edit.insert ++ value.drop edit.stop)

/-- The units of a line's indentation that an outdent takes away. -/
def indentation (unit line : Text) : Nat :=
  let removable := if line.head? = some tab then 1 else (line.takeWhile (· == space)).length
  min removable (if unit = [tab] then 1 else unit.length)

/-- One line, for a selection that is not a caret (`selected`) or for one that is. -/
def changeLine (unit : Text) (outdent selected : Bool) (line : Text) : Text :=
  if outdent then line.drop (indentation unit line)
  else if line.length = 0 ∧ selected = true then line
  else unit ++ line

/-- What the lines become, and by how much the start and the end of the selection move. -/
structure Shifted where
  lines : List Text
  shiftStart : Int
  shiftEnd : Int

/-- The loop over the lines; `offset` is where the line starts. -/
def shiftLines (change : Text → Text) (first start stop : Nat) :
    List Text → (index offset : Nat) → (shiftStart shiftEnd : Int) → Shifted
  | [], _, _, shiftStart, shiftEnd => ⟨[], shiftStart, shiftEnd⟩
  | line :: rest, index, offset, shiftStart, shiftEnd =>
    let changed := change line
    let delta : Int := (changed.length : Int) - line.length
    let shiftStart := if index = 0 then max delta ((first : Int) - start) else shiftStart
    let shiftEnd := if offset ≤ stop then shiftEnd + delta else shiftEnd
    let shifted := shiftLines change first start stop rest (index + 1) (offset + line.length + 1)
      shiftStart shiftEnd
    { shifted with lines := changed :: shifted.lines }

/-- A selection ending at a line's start does not reach into that line. -/
def lastTouched (value : Text) (start stop : Nat) : Nat :=
  if stop > start ∧ value[stop - 1]? = some newline then stop - 1 else stop

def indent (value : Text) (start stop : Nat) (unit : Text) (outdent : Bool) : CodeEdit :=
  if outdent = false ∧ start = stop then
    ⟨start, stop, unit, start + unit.length, start + unit.length⟩
  else
    let first := lineStart value start
    let last := lineEnd value (lastTouched value start stop)
    let lines := (Vim.Unicode.slice value first last).splitOn newline
    let shifted := shiftLines (changeLine unit outdent (start ≠ stop)) first start stop lines 0
      first 0 0
    ⟨first, last, [newline].intercalate shifted.lines,
      (max (first : Int) (start + shifted.shiftStart)).toNat,
      (max (first : Int) (stop + shifted.shiftEnd)).toNat⟩

/-! ## What it is for -/

/-- The first and the last row that a selection touches. -/
def touched (value : Text) (start stop : Nat) : Nat × Nat :=
  (Text.rowOf newline value start, Text.rowOf newline value (lastTouched value start stop))

/-- The texts differ in white space at the start of some rows only. -/
def OnlyIndentation (value next : Text) (rows : Nat × Nat) : Prop :=
  List.Forall₂ (fun line changed => line.dropWhile isBlank = changed.dropWhile isBlank)
    (value.splitOn newline) (next.splitOn newline) ∧
  ∀ row, row < rows.1 ∨ rows.2 < row →
    (next.splitOn newline)[row]? = (value.splitOn newline)[row]?

/-- The edit keeps the touched lines selected and changes their indentation only. -/
structure KeepsSelection (value : Text) (start stop : Nat) (unit : Text) (outdent : Bool) :
    Prop where
  only : OnlyIndentation value ((indent value start stop unit outdent).apply value)
    (touched value start stop)
  rows : touched ((indent value start stop unit outdent).apply value)
    (indent value start stop unit outdent).selectionStart
    (indent value start stop unit outdent).selectionEnd = touched value start stop

/-- Outdenting an indent with the selection it gives. -/
structure OutdentsBack (value : Text) (start stop : Nat) (unit : Text) : Prop where
  text : (indent ((indent value start stop unit false).apply value)
      (indent value start stop unit false).selectionStart
      (indent value start stop unit false).selectionEnd unit true).apply
    ((indent value start stop unit false).apply value) = value
  selectionStart : (indent ((indent value start stop unit false).apply value)
      (indent value start stop unit false).selectionStart
      (indent value start stop unit false).selectionEnd unit true).selectionStart = start
  selectionEnd : (indent ((indent value start stop unit false).apply value)
      (indent value start stop unit false).selectionStart
      (indent value start stop unit false).selectionEnd unit true).selectionEnd = stop

/-! ## A selection by its lines -/

/-- The lines before a selection, those it touches (the last of them apart) and those behind, and
the columns of its ends. -/
structure Selected (value : Text) (start last : Nat) (before inside : List Text) (line : Text)
    (behind : List Text) (column lastColumn : Nat) : Prop where
  plain : Text.Plain newline (before ++ (inside ++ line :: behind))
  value_eq : value = Text.ended newline before ++
    (Text.ended newline inside ++ (line ++ Text.begun newline behind))
  start_eq : start = (Text.ended newline before).length + column
  last_eq : last = (Text.ended newline before).length +
    ((Text.ended newline inside).length + lastColumn)
  column_le : column ≤ (inside.headD line).length
  lastColumn_le : lastColumn ≤ line.length
  ordered : inside = [] → column ≤ lastColumn

theorem exists_selected {value : Text} {start last : Nat} (hle : start ≤ last)
    (hlast : last ≤ value.length) :
    ∃ before inside line behind column lastColumn,
      Selected value start last before inside line behind column lastColumn := by
  obtain ⟨before, head, hbefore, hstart⟩ := Text.exists_ended newline (value.take start)
  obtain ⟨inner, foot, hinner, hmiddle⟩ :=
    Text.exists_ended newline ((value.take last).drop start)
  obtain ⟨tail, behind, hbehind, hend⟩ := Text.exists_begun newline (value.drop last)
  have hstartLength := congrArg List.length hstart
  have hmiddleLength := congrArg List.length hmiddle
  rw [List.length_take, List.length_append] at hstartLength
  rw [List.length_drop, List.length_take, List.length_append] at hmiddleLength
  have hvalue : value = value.take start ++ ((value.take last).drop start ++ value.drop last) := by
    have hsplit := List.take_append_drop start (value.take last)
    rw [List.take_take, min_eq_left hle] at hsplit
    rw [← List.append_assoc, hsplit, List.take_append_drop]
  rw [hstart, hmiddle, hend] at hvalue
  simp only [Text.plain_append, Text.plain_cons, Text.plain_nil, and_true] at hbefore hinner hbehind
  cases inner with
  | nil =>
    refine ⟨before, [], head ++ (foot ++ tail), behind, head.length, head.length + foot.length,
      ?_, ?_, ?_, ?_, ?_, ?_, ?_⟩
    · simp [hbefore, hinner, hbehind]
    · rw [hvalue]
      simp
    · omega
    · simp only [Text.ended_nil, List.length_nil] at hmiddleLength ⊢
      omega
    · simp
    · simp
    · intro
      omega
  | cons first inner =>
    refine ⟨before, (head ++ first) :: inner, foot ++ tail, behind, head.length, foot.length,
      ?_, ?_, ?_, ?_, ?_, ?_, fun h => absurd h (List.cons_ne_nil _ _)⟩
    · simp only [Text.plain_cons] at hinner
      simp [hbefore, hinner, hbehind]
    · rw [hvalue]
      simp
    · omega
    · simp only [Text.ended_cons, List.length_append, List.length_cons] at hmiddleLength ⊢
      omega
    · simp
    · simp

namespace Selected

variable {value : Text} {start last : Nat} {before inside behind : List Text} {line : Text}
  {column lastColumn : Nat}

theorem exists_rest (h : Selected value start last before inside line behind column lastColumn) :
    ∃ rest, value = Text.ended newline before ++ (inside.headD line ++ rest) := by
  cases inside with
  | nil => exact ⟨_, h.value_eq⟩
  | cons first inside =>
    refine ⟨newline :: Text.ended newline inside ++ (line ++ Text.begun newline behind), ?_⟩
    rw [h.value_eq]
    simp

theorem plain_head (h : Selected value start last before inside line behind column lastColumn) :
    newline ∉ inside.headD line := by
  have hplain := h.plain
  simp only [Text.plain_append, Text.plain_cons] at hplain
  cases inside with
  | nil => exact hplain.2.2.1
  | cons first inside => exact (Text.plain_cons.mp hplain.2.1).1

theorem start_le (h : Selected value start last before inside line behind column lastColumn) :
    start ≤ last := by
  rw [h.start_eq, h.last_eq]
  have hcolumn := h.column_le
  cases inside with
  | nil =>
    have hordered := h.ordered rfl
    omega
  | cons first inside =>
    rw [List.headD_cons] at hcolumn
    rw [Text.ended_cons, List.length_append]
    omega

theorem rowOf_start (h : Selected value start last before inside line behind column lastColumn) :
    Text.rowOf newline value start = before.length := by
  obtain ⟨rest, hrest⟩ := h.exists_rest
  rw [hrest, h.start_eq]
  exact Text.rowOf_eq (Text.plain_append.mp h.plain).1 h.plain_head h.column_le

theorem rowOf_last (h : Selected value start last before inside line behind column lastColumn) :
    Text.rowOf newline value last = before.length + inside.length := by
  have hplain := h.plain
  simp only [Text.plain_append, Text.plain_cons] at hplain
  have hvalue : value = Text.ended newline (before ++ inside) ++
      (line ++ Text.begun newline behind) := by
    rw [h.value_eq, Text.ended_append, List.append_assoc]
  have hlast : last = (Text.ended newline (before ++ inside)).length + lastColumn := by
    rw [h.last_eq, Text.ended_append, List.length_append, Nat.add_assoc]
  rw [hvalue, hlast, ← List.length_append]
  exact Text.rowOf_eq (Text.plain_append.mpr ⟨hplain.1, hplain.2.1⟩) hplain.2.2.1 h.lastColumn_le

/-- A unit on the last line that is touched. -/
theorem getElem?_line (h : Selected value start last before inside line behind column lastColumn)
    (index : Nat) (hindex : index < line.length) :
    value[(Text.ended newline before).length + ((Text.ended newline inside).length + index)]? ≠
      some newline := by
  have hplain := h.plain
  simp only [Text.plain_append, Text.plain_cons] at hplain
  rw [h.value_eq, List.getElem?_append_right (Nat.le_add_right _ _), Nat.add_sub_cancel_left,
    List.getElem?_append_right (Nat.le_add_right _ _), Nat.add_sub_cancel_left,
    List.getElem?_append_left hindex]
  exact fun hunit => hplain.2.2.1 (List.mem_of_getElem? hunit)

/-- The unit behind the lines that are touched. -/
theorem getElem?_end (h : Selected value start last before inside line behind column lastColumn) :
    value[(Text.ended newline before).length +
      ((Text.ended newline inside).length + line.length)]? =
        (Text.begun newline behind).head? := by
  rw [h.value_eq, List.getElem?_append_right (Nat.le_add_right _ _), Nat.add_sub_cancel_left,
    List.getElem?_append_right (Nat.le_add_right _ _), Nat.add_sub_cancel_left,
    List.getElem?_append_right (Nat.le_refl _), Nat.sub_self, List.head?_eq_getElem?]

theorem lineStart_eq (h : Selected value start last before inside line behind column lastColumn)
    (hstart : ¬Vim.AtEmptyStart value start) :
    lineStart value start = (Text.ended newline before).length := by
  obtain ⟨hle, hsame⟩ := Vim.lineStart_spec hstart
  have hstartEq := h.start_eq
  rcases Nat.lt_trichotomy (lineStart value start) (Text.ended newline before).length with
    hlt | heq | hgt
  · have hlast : value[(Text.ended newline before).length - 1]? = some newline := by
      have hne : before ≠ [] := by
        rintro rfl
        exact absurd hlt (Nat.not_lt_zero _)
      rw [h.value_eq, List.getElem?_append_left (by omega), ← List.getLast?_eq_getElem?,
        Text.ended_eq newline hne, List.getLast?_concat]
    refine absurd hlast (hsame _ ?_ ?_)
    · rw [min_eq_right hle]
      omega
    · rw [max_eq_left hle]
      omega
  · exact heq
  · exfalso
    rcases Vim.lineStart_cases value start with hzero | ⟨index, hindex, hnewline⟩
    · omega
    · obtain ⟨rest, hrest⟩ := h.exists_rest
      have hcolumn := h.column_le
      rw [hrest, List.getElem?_append_right (by omega), List.getElem?_append_left (by omega)]
        at hnewline
      exact h.plain_head (List.mem_of_getElem? hnewline)

theorem lineEnd_eq (h : Selected value start last before inside line behind column lastColumn) :
    lineEnd value last =
      (Text.ended newline before).length + ((Text.ended newline inside).length + line.length) := by
  have hlength := congrArg List.length h.value_eq
  simp only [List.length_append] at hlength
  have hlastEq := h.last_eq
  have hcolumn := h.lastColumn_le
  have hlast : last ≤ value.length := by omega
  obtain ⟨hle, hsame, hstop⟩ := Vim.lineEnd_spec hlast
  have hinside := Vim.lineEnd_le value last
  rcases Nat.lt_trichotomy (lineEnd value last)
      ((Text.ended newline before).length + ((Text.ended newline inside).length + line.length))
    with hlt | heq | hgt
  · exfalso
    rcases hstop with hstop | hstop
    · omega
    · refine h.getElem?_line (lineEnd value last -
        ((Text.ended newline before).length + (Text.ended newline inside).length)) (by omega) ?_
      rw [← hstop]
      congr 1
      omega
  · exact heq
  · exfalso
    have hbehind := h.getElem?_end
    cases behind with
    | nil =>
      rw [Text.begun_nil, List.length_nil] at hlength
      omega
    | cons next behind =>
      rw [Text.begun_cons, List.head?_cons] at hbehind
      refine hsame _ ?_ ?_ hbehind
      · rw [min_eq_left hle]
        omega
      · rwa [max_eq_right hle]

theorem slice_eq (h : Selected value start last before inside line behind column lastColumn) :
    Vim.Unicode.slice value (Text.ended newline before).length
        ((Text.ended newline before).length +
          ((Text.ended newline inside).length + line.length)) =
      Text.ended newline inside ++ line := by
  unfold Vim.Unicode.slice
  rw [h.value_eq, List.take_length_add_append, List.drop_left, ← List.append_assoc,
    ← List.length_append, List.take_left]

theorem lines_eq (h : Selected value start last before inside line behind column lastColumn) :
    (Text.ended newline inside ++ line).splitOn newline = inside ++ [line] := by
  have hplain := h.plain
  simp only [Text.plain_append, Text.plain_cons] at hplain
  rw [Text.splitOn_ended_append hplain.2.1, List.splitOn_eq_singleton hplain.2.2.1]

theorem splitOn_eq (h : Selected value start last before inside line behind column lastColumn) :
    value.splitOn newline = before ++ (inside ++ line :: behind) := by
  have hplain := h.plain
  have hvalue : value = Text.ended newline (before ++ inside) ++
      (line ++ Text.begun newline behind) := by
    rw [h.value_eq, Text.ended_append, List.append_assoc]
  rw [← List.append_assoc] at hplain ⊢
  rw [hvalue, Text.splitOn_lines hplain]

/-- A selection whose end is on the last line, behind its first unit. -/
theorem lastTouched_eq (h : Selected value start last before inside line behind column lastColumn)
    (hpos : 0 < lastColumn ∨ inside = []) : lastTouched value start last = last := by
  unfold lastTouched
  rw [if_neg]
  rintro ⟨hlt, hnewline⟩
  have hstartEq := h.start_eq
  have hlastEq := h.last_eq
  have hcolumn := h.lastColumn_le
  have hpositive : 0 < lastColumn := by
    rcases hpos with hpos | rfl
    · exact hpos
    · rw [Text.ended_nil, List.length_nil] at hlastEq
      omega
  refine h.getElem?_line (lastColumn - 1) (by omega) ?_
  rw [← hnewline]
  congr 1
  omega

/-- A selection that ends at the start of the line behind those it touches. -/
theorem lastTouched_succ (h : Selected value start last before inside line behind column lastColumn)
    (hlast : lastColumn = line.length) (hbehind : behind ≠ []) :
    lastTouched value start (last + 1) = last := by
  have hstartEq := h.start_eq
  have hlastEq := h.last_eq
  have hend := h.getElem?_end
  have hle := h.start_le
  unfold lastTouched
  rw [if_pos, Nat.add_sub_cancel]
  refine ⟨Nat.lt_succ_of_le hle, ?_⟩
  obtain ⟨next, rest, rfl⟩ := List.exists_cons_of_ne_nil hbehind
  rw [Nat.add_sub_cancel, hlastEq, hlast, hend, Text.begun_cons, List.head?_cons]

/-- A selection that is not a caret ends on its last line, or behind it. -/
theorem stop_cases {stop : Nat} (hselected : start < stop)
    (h : Selected value start (lastTouched value start stop) before inside line behind column
      lastColumn) :
    (stop = lastTouched value start stop + 1 ∧ value[stop - 1]? = some newline ∧
        lastColumn = line.length ∧ behind ≠ []) ∨
      (stop = lastTouched value start stop ∧ value[stop - 1]? ≠ some newline ∧
        0 < lastColumn) := by
  have hlastEq := h.last_eq
  have hstartEq := h.start_eq
  have hcolumn := h.lastColumn_le
  by_cases hnewline : value[stop - 1]? = some newline
  · have hlast : lastTouched value start stop = stop - 1 := if_pos ⟨hselected, hnewline⟩
    rw [hlast] at h hlastEq ⊢
    have hcolumnEq : lastColumn = line.length := by
      by_contra hne
      exact h.getElem?_line lastColumn (by omega) (hlastEq ▸ hnewline)
    refine Or.inl ⟨by omega, hnewline, hcolumnEq, ?_⟩
    rintro rfl
    have hend := h.getElem?_end
    rw [← hcolumnEq, ← hlastEq, hnewline, Text.begun_nil] at hend
    cases hend
  · have hlast : lastTouched value start stop = stop := if_neg fun hcond => hnewline hcond.2
    rw [hlast] at h hlastEq ⊢
    refine Or.inr ⟨rfl, hnewline, ?_⟩
    by_contra hzero
    obtain rfl : lastColumn = 0 := by omega
    cases inside with
    | nil =>
      have hordered := h.ordered rfl
      rw [Text.ended_nil, List.length_nil] at hlastEq
      omega
    | cons first rest =>
      refine hnewline ?_
      have hne : first :: rest ≠ [] := List.cons_ne_nil _ _
      have hpos : 0 < (Text.ended newline (first :: rest)).length := by
        rw [Text.ended_cons, List.length_append, List.length_cons]
        omega
      rw [h.value_eq, List.getElem?_append_right (by omega), List.getElem?_append_left (by omega),
        show stop - 1 - (Text.ended newline before).length =
          (Text.ended newline (first :: rest)).length - 1 by omega,
        ← List.getLast?_eq_getElem?, Text.ended_eq newline hne, List.getLast?_concat]

end Selected

/-! ## The edit by lines -/

/-- Units by which lines grow, each with its break. -/
def growth (change : Text → Text) (lines : List Text) : Int :=
  ((Text.ended newline (lines.map change)).length : Int) - (Text.ended newline lines).length

theorem shiftLines_eq (change : Text → Text) (first start stop : Nat) {lines : List Text}
    {index offset : Nat} (hindex : index ≠ 0) (shiftStart shiftEnd : Int)
    (hoffset : ∀ k < lines.length, offset + (Text.ended newline (lines.take k)).length ≤ stop) :
    shiftLines change first start stop lines index offset shiftStart shiftEnd =
      ⟨lines.map change, shiftStart, shiftEnd + growth change lines⟩ := by
  induction lines generalizing index offset shiftEnd with
  | nil =>
    unfold growth
    simp [shiftLines]
  | cons line lines ih =>
    have hfirst := hoffset 0 (Nat.zero_lt_succ _)
    rw [List.take_zero, Text.ended_nil, List.length_nil, Nat.add_zero] at hfirst
    have hrest : ∀ k < lines.length,
        offset + line.length + 1 + (Text.ended newline (lines.take k)).length ≤ stop := by
      intro k hk
      have hnext := hoffset (k + 1) (Nat.succ_lt_succ hk)
      rw [List.take_succ_cons, Text.ended_cons, List.length_append, List.length_cons] at hnext
      omega
    unfold shiftLines
    dsimp only
    rw [if_neg hindex, if_pos hfirst, ih (Nat.succ_ne_zero index) _ hrest]
    unfold growth
    rw [List.map_cons, Text.ended_cons, Text.ended_cons]
    simp only [List.length_append, List.length_cons, Shifted.mk.injEq, true_and]
    push_cast
    omega

theorem shiftLines_first (change : Text → Text) (first start stop : Nat) {line : Text}
    {lines : List Text} {offset : Nat}
    (hoffset : ∀ k < (line :: lines).length,
      offset + (Text.ended newline ((line :: lines).take k)).length ≤ stop) :
    shiftLines change first start stop (line :: lines) 0 offset 0 0 =
      ⟨(line :: lines).map change, max ((change line).length - line.length) ((first : Int) - start),
        growth change (line :: lines)⟩ := by
  have hfirst := hoffset 0 (Nat.zero_lt_succ _)
  rw [List.take_zero, Text.ended_nil, List.length_nil, Nat.add_zero] at hfirst
  have hrest : ∀ k < lines.length,
      offset + line.length + 1 + (Text.ended newline (lines.take k)).length ≤ stop := by
    intro k hk
    have hnext := hoffset (k + 1) (Nat.succ_lt_succ hk)
    rw [List.take_succ_cons, Text.ended_cons, List.length_append, List.length_cons] at hnext
    omega
  unfold shiftLines
  dsimp only
  rw [if_pos rfl, if_pos hfirst,
    shiftLines_eq change first start stop (Nat.succ_ne_zero 0) _ _ hrest]
  unfold growth
  rw [List.map_cons, Text.ended_cons, Text.ended_cons]
  simp only [List.length_append, List.length_cons, Shifted.mk.injEq, true_and]
  push_cast
  omega

theorem growth_concat (change : Text → Text) (inside : List Text) (line : Text) :
    growth change (inside ++ [line]) =
      ((Text.ended newline (inside.map change)).length : Int) + (change line).length -
        (Text.ended newline inside).length - line.length := by
  unfold growth
  rw [List.map_append, Text.ended_append, Text.ended_append]
  simp only [List.map_cons, List.map_nil, Text.ended_cons, Text.ended_nil, List.length_append,
    List.length_cons, List.length_nil]
  push_cast
  omega

theorem length_ended_take_le {inside : List Text} {line : Text} {k : Nat}
    (hk : k < (inside ++ [line]).length) :
    (Text.ended newline ((inside ++ [line]).take k)).length ≤
      (Text.ended newline inside).length := by
  have hle : k ≤ inside.length := by
    rw [List.length_append, List.length_singleton] at hk
    omega
  rw [List.take_append_of_le_length hle]
  conv => rhs; rw [← List.take_append_drop k inside, Text.ended_append, List.length_append]
  exact Nat.le_add_right _ _

/-- The edit for a selection that is not a caret, by the lines it touches. -/
theorem Selected.indent_eq {value : Text} {start stop : Nat} {before inside behind : List Text}
    {line : Text} {column lastColumn : Nat} (hselected : start < stop)
    (h : Selected value start (lastTouched value start stop) before inside line behind column
      lastColumn) (hstart : ¬Vim.AtEmptyStart value start) (unit : Text) (outdent : Bool) :
    indent value start stop unit outdent =
      ⟨(Text.ended newline before).length,
        (Text.ended newline before).length + ((Text.ended newline inside).length + line.length),
        Text.ended newline (inside.map (changeLine unit outdent true)) ++
          changeLine unit outdent true line,
        (Text.ended newline before).length +
          (column + (changeLine unit outdent true (inside.headD line)).length -
            (inside.headD line).length),
        (max ((Text.ended newline before).length : Int)
          (stop + growth (changeLine unit outdent true) (inside ++ [line]))).toNat⟩ := by
  have hcaret : ¬(outdent = false ∧ start = stop) := fun hcond => Nat.ne_of_lt hselected hcond.2
  have hflag : decide (start ≠ stop) = true := decide_eq_true (Nat.ne_of_lt hselected)
  have hstop : lastTouched value start stop ≤ stop := by
    unfold lastTouched
    split <;> omega
  have hlast := h.last_eq
  unfold indent
  rw [if_neg hcaret]
  dsimp only
  rw [h.lineStart_eq hstart, h.lineEnd_eq, h.slice_eq, h.lines_eq, hflag]
  have hoffset : ∀ k < (inside ++ [line]).length, (Text.ended newline before).length +
      (Text.ended newline ((inside ++ [line]).take k)).length ≤ stop := by
    intro k hk
    have hle := length_ended_take_le hk
    omega
  have hshifted : shiftLines (changeLine unit outdent true) (Text.ended newline before).length start
      stop (inside ++ [line]) 0 (Text.ended newline before).length 0 0 =
        ⟨(inside ++ [line]).map (changeLine unit outdent true),
          max ((changeLine unit outdent true (inside.headD line)).length -
            (inside.headD line).length)
              (((Text.ended newline before).length : Int) - start),
          growth (changeLine unit outdent true) (inside ++ [line])⟩ := by
    cases inside with
    | nil => exact shiftLines_first _ _ _ _ hoffset
    | cons first inside => exact shiftLines_first _ _ _ _ hoffset
  rw [hshifted]
  dsimp only
  rw [List.map_append, List.map_singleton, Text.intercalate_concat]
  congr 1
  have hstartEq := h.start_eq
  omega

theorem apply_eq {before inside behind : List Text} {line : Text} (insert : Text)
    (selectionStart selectionEnd : Nat) :
    CodeEdit.apply ⟨(Text.ended newline before).length,
        (Text.ended newline before).length + ((Text.ended newline inside).length + line.length),
        insert, selectionStart, selectionEnd⟩
      (Text.ended newline before ++
        (Text.ended newline inside ++ (line ++ Text.begun newline behind))) =
      Text.ended newline before ++ (insert ++ Text.begun newline behind) := by
  unfold CodeEdit.apply
  dsimp only
  rw [List.take_left, List.drop_length_add_append, ← List.append_assoc (Text.ended newline inside),
    ← List.length_append, List.drop_left]

/-! ## Indentation of a line -/

theorem not_mem_unit {unit : Text} (h : IsUnit unit) : newline ∉ unit := by
  rcases h with rfl | ⟨n, -, rfl⟩
  · decide
  · intro hmem
    exact absurd (List.eq_of_mem_replicate hmem) (by decide)

theorem length_unit_pos {unit : Text} (h : IsUnit unit) : 0 < unit.length := by
  rcases h with rfl | ⟨n, hn, rfl⟩
  · exact Nat.succ_pos _
  · rwa [List.length_replicate]

theorem plain_changeLine {unit : Text} (h : IsUnit unit) (outdent selected : Bool) {line : Text}
    (hline : newline ∉ line) : newline ∉ changeLine unit outdent selected line := by
  unfold changeLine
  split
  · exact fun hmem => hline (List.mem_of_mem_drop hmem)
  · split
    · exact hline
    · intro hmem
      rcases List.mem_append.mp hmem with hmem | hmem
      · exact not_mem_unit h hmem
      · exact hline hmem

/-- A unit among the spaces that a line starts with. -/
theorem eq_space_of_mem {line : Text} {char : UInt16}
    (h : char ∈ line.take (line.takeWhile (· == space)).length) : char = space := by
  have htake := List.prefix_iff_eq_take.mp ( List.takeWhile_prefix (l := line) (· == space))
  rw [← htake] at h
  have hspace : (char == space) = true := List.mem_takeWhile_imp (p := (· == space)) h
  exact eq_of_beq hspace

/-- What an outdent takes away is blank. -/
theorem blank_indentation (unit line : Text) :
    ∀ char ∈ line.take (indentation unit line), isBlank char = true := by
  intro char hchar
  unfold indentation at hchar
  dsimp only at hchar
  split at hchar
  · rename_i htab
    cases line with
    | nil => cases htab
    | cons first line =>
      obtain rfl := Option.some.inj htab
      have hone := List.take_subset_take_left (tab :: line) (Nat.min_le_left _ _) hchar
      obtain rfl := List.mem_singleton.mp hone
      rfl
  · obtain rfl := eq_space_of_mem (List.take_subset_take_left line (Nat.min_le_left _ _) hchar)
    rfl

theorem indentation_le (unit line : Text) : indentation unit line ≤ line.length := by
  unfold indentation
  dsimp only
  refine Nat.le_trans (Nat.min_le_left _ _) ?_
  split
  · rename_i htab
    cases line with
    | nil => cases htab
    | cons first line => exact Nat.succ_pos _
  · exact (List.takeWhile_sublist _).length_le

theorem blank_unit {unit : Text} (h : IsUnit unit) : ∀ char ∈ unit, isBlank char = true := by
  intro char hchar
  rcases h with rfl | ⟨n, -, rfl⟩
  · obtain rfl := List.mem_singleton.mp hchar
    rfl
  · rw [List.eq_of_mem_replicate hchar]
    rfl

/-- A line changes in its leading white space. -/
theorem dropWhile_changeLine {unit : Text} (h : IsUnit unit) (outdent selected : Bool)
    (line : Text) :
    line.dropWhile isBlank = (changeLine unit outdent selected line).dropWhile isBlank := by
  unfold changeLine
  split
  · conv => lhs; rw [← List.take_append_drop (indentation unit line) line,
      List.dropWhile_append_of_pos (blank_indentation unit line)]
  · split
    · rfl
    · rw [List.dropWhile_append_of_pos (blank_unit h)]

theorem indentation_unit {unit : Text} (h : IsUnit unit) (line : Text) :
    indentation unit (unit ++ line) = unit.length := by
  unfold indentation
  rcases h with rfl | ⟨n, hn, rfl⟩
  · rfl
  · obtain ⟨k, rfl⟩ := Nat.exists_eq_add_of_lt hn
    rw [Nat.zero_add]
    have hhead : (List.replicate (k + 1) space ++ line).head? ≠ some tab := by
      rw [List.replicate_succ, List.cons_append, List.head?_cons]
      decide
    have hunit : List.replicate (k + 1) space ≠ [tab] := by
      rw [List.replicate_succ]
      exact fun h => absurd (List.cons.inj h).1 (by decide)
    have hall : ∀ char ∈ List.replicate (k + 1) space, (char == space) = true := by
      intro char hchar
      rw [List.eq_of_mem_replicate hchar]
      rfl
    rw [if_neg hhead, if_neg hunit, List.takeWhile_append_of_pos hall, List.length_append]
    exact Nat.min_eq_right (Nat.le_add_right _ _)

/-- An outdent undoes an indent of a line. -/
theorem changeLine_changeLine {unit : Text} (h : IsUnit unit) (line : Text) :
    changeLine unit true true (changeLine unit false true line) = line := by
  cases line with
  | nil =>
    show ([] : Text).drop _ = []
    exact List.drop_nil
  | cons first line =>
    show (unit ++ first :: line).drop (indentation unit (unit ++ first :: line)) = _
    rw [indentation_unit h, List.drop_left]

theorem length_outdent (unit line : Text) (selected : Bool) :
    (changeLine unit true selected line).length = line.length - indentation unit line := by
  show (line.drop (indentation unit line)).length = _
  exact List.length_drop

theorem length_indent (unit line : Text) (selected : Bool) :
    line.length ≤ (changeLine unit false selected line).length := by
  unfold changeLine
  rw [if_neg (by decide)]
  split
  · exact Nat.le_refl _
  · rw [List.length_append]
    exact Nat.le_add_left _ _

/-- The text is all of what an outdent takes away from a line that begins so. -/
def InIndentation (unit text : Text) : Prop :=
  text = [tab] ∨ text.length ≤ unit.length ∧ ∀ char ∈ text, char = space

instance (unit text : Text) : Decidable (InIndentation unit text) :=
  inferInstanceAs (Decidable (_ ∨ _ ∧ _))

theorem inIndentation_iff {unit : Text} (h : IsUnit unit) {line : Text} {column : Nat}
    (hpos : 0 < column) (hcolumn : column ≤ line.length) :
    InIndentation unit (line.take column) ↔ column ≤ indentation unit line := by
  have hsize : (if unit = [tab] then 1 else unit.length) = unit.length := by
    split
    · rename_i htab
      rw [htab]
      rfl
    · rfl
  have hlength : (line.take column).length = column := by
    rw [List.length_take, min_eq_left hcolumn]
  have hunit := length_unit_pos h
  unfold InIndentation indentation
  dsimp only
  rw [hsize, hlength]
  cases line with
  | nil => exact absurd hpos (by simpa using hcolumn)
  | cons first line =>
    obtain ⟨k, rfl⟩ := Nat.exists_eq_add_of_lt hpos
    rw [Nat.zero_add] at *
    rw [List.take_succ_cons, List.head?_cons]
    by_cases htab : first = tab
    · subst htab
      rw [if_pos rfl, min_eq_left hunit]
      constructor
      · rintro (htext | ⟨-, hall⟩)
        · rw [List.take_succ_cons] at hlength
          rw [htext] at hlength
          exact Nat.le_of_eq hlength.symm
        · exact absurd (hall tab List.mem_cons_self) (by decide)
      · intro hle
        obtain rfl : k = 0 := by omega
        exact Or.inl rfl
    · rw [if_neg fun hsome => htab (Option.some.inj hsome)]
      constructor
      · rintro (htext | ⟨hle, hall⟩)
        · exact absurd (List.cons.inj htext).1 htab
        · refine le_min ?_ hle
          have hspaces : ∀ char ∈ (first :: line).take (k + 1), (char == space) = true := by
            intro char hchar
            rw [List.take_succ_cons] at hchar
            rw [hall char hchar]
            rfl
          have hwhole := List.take_append_drop (k + 1) (first :: line)
          rw [← hwhole, List.takeWhile_append_of_pos hspaces, List.length_append, hlength]
          exact Nat.le_add_right _ _
      · intro hle
        refine Or.inr ⟨Nat.le_trans hle (Nat.min_le_right _ _), fun char hchar => ?_⟩
        have hchar : char ∈ (first :: line).take (k + 1) := hchar
        exact eq_space_of_mem (List.take_subset_take_left (first :: line)
          (Nat.le_trans hle (Nat.min_le_left _ _)) hchar)

/-! ## When the touched lines stay selected -/

/-- The text of a line before a position. -/
def lineBefore (value : Text) (position : Nat) : Text :=
  ((value.take position).splitOn newline).getLast?.getD []

/-- An outdent does not move the end of the selection out of its line: it ends behind a break, on
the line it starts on, or behind the indentation that is taken away. -/
def EndStays (value : Text) (start stop : Nat) (unit : Text) : Prop :=
  value[stop - 1]? = some newline ∨
    (touched value start stop).1 = (touched value start stop).2 ∨
    ¬InIndentation unit (lineBefore value stop)

section

variable {value unit : Text} {start stop : Nat} {before inside behind : List Text} {line : Text}
  {column lastColumn : Nat}

theorem Selected.touched_eq
    (h : Selected value start (lastTouched value start stop) before inside line behind column
      lastColumn) :
    touched value start stop = (before.length, before.length + inside.length) := by
  unfold touched
  rw [h.rowOf_start, h.rowOf_last]

theorem Selected.lineBefore_eq
    (h : Selected value start stop before inside line behind column lastColumn) :
    lineBefore value stop = line.take lastColumn := by
  have hplain := h.plain
  simp only [Text.plain_append, Text.plain_cons] at hplain
  have htake : value.take stop =
      Text.ended newline (before ++ inside) ++ line.take lastColumn := by
    rw [h.value_eq, h.last_eq, List.take_length_add_append, List.take_length_add_append,
      List.take_append_of_le_length h.lastColumn_le, Text.ended_append, List.append_assoc]
  have hline : newline ∉ line.take lastColumn := fun hmem =>
    hplain.2.2.1 (List.mem_of_mem_take hmem)
  unfold lineBefore
  rw [htake, Text.splitOn_ended_append (Text.plain_append.mpr ⟨hplain.1, hplain.2.1⟩),
    List.splitOn_eq_singleton hline, List.getLast?_concat, Option.getD_some]

/-- The lines of the text behind the edit, selected where the edit says. -/
theorem Selected.changed (hunit : IsUnit unit) (outdent : Bool)
    (h : Selected value start (lastTouched value start stop) before inside line behind column
      lastColumn) {selectionStart last : Nat} (nextColumn nextLast : Nat)
    (hselectionStart : selectionStart = (Text.ended newline before).length + nextColumn)
    (hlast : last = (Text.ended newline before).length +
      ((Text.ended newline (inside.map (changeLine unit outdent true))).length + nextLast))
    (hcolumn : nextColumn ≤ (changeLine unit outdent true (inside.headD line)).length)
    (hlastColumn : nextLast ≤ (changeLine unit outdent true line).length)
    (hordered : inside = [] → nextColumn ≤ nextLast) :
    Selected (Text.ended newline before ++
        (Text.ended newline (inside.map (changeLine unit outdent true)) ++
          (changeLine unit outdent true line ++ Text.begun newline behind)))
      selectionStart last before (inside.map (changeLine unit outdent true))
      (changeLine unit outdent true line) behind nextColumn nextLast where
  plain := by
    have hplain := h.plain
    simp only [Text.plain_append, Text.plain_cons] at hplain ⊢
    refine ⟨hplain.1, ?_, plain_changeLine hunit outdent true hplain.2.2.1, hplain.2.2.2⟩
    intro changed hchanged
    obtain ⟨original, horiginal, rfl⟩ := List.mem_map.mp hchanged
    exact plain_changeLine hunit outdent true (hplain.2.1 original horiginal)
  value_eq := rfl
  start_eq := hselectionStart
  last_eq := hlast
  column_le := by
    cases inside with
    | nil => exact hcolumn
    | cons first inside => exact hcolumn
  lastColumn_le := hlastColumn
  ordered hnil := hordered (List.map_eq_nil_iff.mp hnil)

theorem Selected.apply_indent (unit : Text) (hselected : start < stop)
    (h : Selected value start (lastTouched value start stop) before inside line behind column
      lastColumn) (hstart : ¬Vim.AtEmptyStart value start) (outdent : Bool) :
    (indent value start stop unit outdent).apply value =
      Text.ended newline before ++
        (Text.ended newline (inside.map (changeLine unit outdent true)) ++
          (changeLine unit outdent true line ++ Text.begun newline behind)) := by
  have hvalue := h.value_eq
  rw [h.indent_eq hselected hstart]
  refine (congrArg _ hvalue).trans ((apply_eq _ _ _).trans ?_)
  rw [List.append_assoc]

/-- Where the end of the selection stays on its line, the edit selects the changed lines. -/
theorem Selected.indent_selected (hunit : IsUnit unit) (hselected : start < stop)
    (h : Selected value start (lastTouched value start stop) before inside line behind column
      lastColumn) (hstart : ¬Vim.AtEmptyStart value start) (outdent : Bool)
    (hstays : value[stop - 1]? = some newline ∨ inside = [] ∨
      line.length < lastColumn + (changeLine unit outdent true line).length) :
    ∃ nextLast,
      Selected ((indent value start stop unit outdent).apply value)
        (indent value start stop unit outdent).selectionStart
        (lastTouched ((indent value start stop unit outdent).apply value)
          (indent value start stop unit outdent).selectionStart
          (indent value start stop unit outdent).selectionEnd)
        before (inside.map (changeLine unit outdent true)) (changeLine unit outdent true line)
        behind (column + (changeLine unit outdent true (inside.headD line)).length -
          (inside.headD line).length) nextLast := by
  have hcolumn := h.column_le
  have hlastColumn := h.lastColumn_le
  have hordered := h.ordered
  have hlastEq := h.last_eq
  have hgrowth := growth_concat (changeLine unit outdent true) inside line
  rw [h.apply_indent unit hselected hstart outdent, h.indent_eq hselected hstart]
  dsimp only
  rcases h.stop_cases hselected with ⟨hstop, -, hfull, hbehind⟩ | ⟨hstop, hplain, hpos⟩
  · have hnext := h.changed hunit outdent
      (column + (changeLine unit outdent true (inside.headD line)).length -
        (inside.headD line).length)
      (changeLine unit outdent true line).length rfl rfl (by omega) (Nat.le_refl _) (by
          rintro rfl
          rw [List.headD_nil] at hcolumn ⊢
          omega)
    have hend : (max ((Text.ended newline before).length : Int)
        (stop + growth (changeLine unit outdent true) (inside ++ [line]))).toNat =
          (Text.ended newline before).length +
            ((Text.ended newline (inside.map (changeLine unit outdent true))).length +
              (changeLine unit outdent true line).length) + 1 := by
      omega
    rw [hend, hnext.lastTouched_succ rfl hbehind]
    exact ⟨_, hnext⟩
  · have hshort : inside = [] ∨
        line.length < lastColumn + (changeLine unit outdent true line).length := by
      rcases hstays with hnewline | hstays
      · exact absurd hnewline hplain
      · exact hstays
    have hnext := h.changed hunit outdent
      (column + (changeLine unit outdent true (inside.headD line)).length -
        (inside.headD line).length)
      (lastColumn + (changeLine unit outdent true line).length - line.length) rfl rfl (by omega) (by omega) (by
          rintro rfl
          have hle := hordered rfl
          rw [List.headD_nil]
          omega)
    have hend : (max ((Text.ended newline before).length : Int)
        (stop + growth (changeLine unit outdent true) (inside ++ [line]))).toNat =
          (Text.ended newline before).length +
            ((Text.ended newline (inside.map (changeLine unit outdent true))).length +
              (lastColumn + (changeLine unit outdent true line).length - line.length)) := by
      rcases hshort with rfl | hshort
      · simp only [List.map_nil, Text.ended_nil, List.length_nil] at hgrowth hlastEq ⊢
        omega
      · omega
    have hwhole : 0 < lastColumn + (changeLine unit outdent true line).length - line.length ∨
        inside.map (changeLine unit outdent true) = [] := by
      rcases hshort with rfl | hshort
      · exact Or.inr rfl
      · exact Or.inl (by omega)
    rw [hend, hnext.lastTouched_eq hwhole]
    exact ⟨_, hnext⟩

/-- The edit keeps the selection where its end stays on its line. -/
theorem Selected.keepsSelection (hunit : IsUnit unit) (hselected : start < stop)
    (h : Selected value start (lastTouched value start stop) before inside line behind column
      lastColumn) (hstart : ¬Vim.AtEmptyStart value start) (outdent : Bool)
    (hstays : value[stop - 1]? = some newline ∨ inside = [] ∨
      line.length < lastColumn + (changeLine unit outdent true line).length) :
    KeepsSelection value start stop unit outdent := by
  obtain ⟨nextLast, hnext⟩ := h.indent_selected hunit hselected hstart outdent hstays
  have htouched := h.touched_eq
  constructor
  · rw [htouched]
    constructor
    · rw [h.splitOn_eq, hnext.splitOn_eq]
      have hsame : ∀ lines : List Text,
          List.Forall₂ (fun line changed => line.dropWhile isBlank = changed.dropWhile isBlank)
            lines lines := fun lines => List.forall₂_same.mpr fun _ _ => rfl
      refine List.rel_append (hsame before) (List.rel_append ?_ ?_)
      · rw [List.forall₂_map_right_iff]
        exact List.forall₂_same.mpr fun line _ => dropWhile_changeLine hunit outdent true line
      · exact List.Forall₂.cons (dropWhile_changeLine hunit outdent true line) (hsame behind)
    · rintro row (hrow | hrow)
      · rw [h.splitOn_eq, hnext.splitOn_eq, List.getElem?_append_left hrow,
          List.getElem?_append_left hrow]
      · dsimp only at hrow
        have hlength : (inside.map (changeLine unit outdent true)).length = inside.length :=
          List.length_map _
        rw [h.splitOn_eq, hnext.splitOn_eq, List.getElem?_append_right (by omega),
          List.getElem?_append_right (by omega), List.getElem?_append_right (by omega),
          List.getElem?_append_right (by omega), hlength]
        obtain ⟨k, hk⟩ := Nat.exists_eq_add_of_lt hrow
        have hindex : row - before.length - inside.length = k + 1 := by omega
        rw [hindex, List.getElem?_cons_succ, List.getElem?_cons_succ]
  · rw [hnext.touched_eq, htouched, List.length_map]

/-! ## Back and forth -/

theorem growth_cons (change : Text → Text) (line : Text) (lines : List Text) :
    growth change (line :: lines) =
      ((change line).length : Int) - line.length + growth change lines := by
  unfold growth
  rw [List.map_cons, Text.ended_cons, Text.ended_cons]
  simp only [List.length_append, List.length_cons]
  push_cast
  omega

theorem growth_indent_nonneg (unit : Text) (lines : List Text) :
    0 ≤ growth (changeLine unit false true) lines := by
  induction lines with
  | nil => exact Int.le_refl _
  | cons line lines ih =>
    have hline := length_indent unit line true
    rw [growth_cons]
    omega

theorem growth_indent_head (unit : Text) (inside : List Text) (line : Text) :
    ((changeLine unit false true (inside.headD line)).length : Int) - (inside.headD line).length ≤
      growth (changeLine unit false true) (inside ++ [line]) := by
  cases inside with
  | nil =>
    have hrest := growth_indent_nonneg unit []
    rw [List.nil_append, growth_cons, List.headD_nil]
    omega
  | cons first inside =>
    have hrest := growth_indent_nonneg unit (inside ++ [line])
    rw [List.cons_append, growth_cons, List.headD_cons]
    omega

theorem map_back (hunit : IsUnit unit) (lines : List Text) :
    (lines.map (changeLine unit false true)).map (changeLine unit true true) = lines := by
  rw [List.map_map]
  refine (List.map_congr_left fun line _ => ?_).trans (List.map_id lines)
  exact changeLine_changeLine hunit line

/-- A first line at the start of the text that an indent leaves as it is, is empty. -/
theorem Selected.atEmptyStart (hunit : IsUnit unit) (hselected : start < stop)
    (h : Selected value start (lastTouched value start stop) before inside line behind column
      lastColumn) (hbefore : (Text.ended newline before).length = 0) (hcolumn : column = 0)
    (hsame : (changeLine unit false true (inside.headD line)).length =
      (inside.headD line).length) : Vim.AtEmptyStart value start := by
  have hpos := length_unit_pos hunit
  have hempty : inside.headD line = [] := by
    cases hhead : inside.headD line with
    | nil => rfl
    | cons first rest =>
      rw [hhead] at hsame
      have hlonger : (changeLine unit false true (first :: rest)).length =
          unit.length + (first :: rest).length := List.length_append
      omega
  have hstartEq := h.start_eq
  refine ⟨by omega, ?_⟩
  rw [h.value_eq, List.eq_nil_of_length_eq_zero hbefore, List.nil_append]
  cases inside with
  | nil =>
    rw [List.headD_nil] at hempty
    subst hempty
    have hlastColumn := h.lastColumn_le
    rcases h.stop_cases hselected with ⟨-, -, -, hbehind⟩ | ⟨-, -, hlast⟩
    · obtain ⟨next, rest, rfl⟩ := List.exists_cons_of_ne_nil hbehind
      rfl
    · exact absurd hlast (Nat.not_lt.mpr hlastColumn)
  | cons first inside =>
    rw [List.headD_cons] at hempty
    subst hempty
    rfl

theorem Selected.outdentsBack (hunit : IsUnit unit) (hselected : start < stop)
    (h : Selected value start (lastTouched value start stop) before inside line behind column
      lastColumn) (hstart : ¬Vim.AtEmptyStart value start) :
    OutdentsBack value start stop unit := by
  have hline := length_indent unit line true
  have hgrowth := growth_indent_head unit inside line
  have hcolumn := h.column_le
  have hstartEq := h.start_eq
  have hedit := h.indent_eq hselected hstart unit false
  have hselectionStart := congrArg CodeEdit.selectionStart hedit
  have hselectionEnd := congrArg CodeEdit.selectionEnd hedit
  dsimp only at hselectionStart hselectionEnd
  have hstays : value[stop - 1]? = some newline ∨ inside = [] ∨
      line.length < lastColumn + (changeLine unit false true line).length := by
    rcases h.stop_cases hselected with ⟨-, hnewline, -, -⟩ | ⟨-, -, hpos⟩
    · exact Or.inl hnewline
    · exact Or.inr (Or.inr (by omega))
  obtain ⟨nextLast, hnext⟩ := h.indent_selected hunit hselected hstart false hstays
  have hnextStart : ¬Vim.AtEmptyStart ((indent value start stop unit false).apply value)
      (indent value start stop unit false).selectionStart := by
    rintro ⟨hzero, -⟩
    rw [hselectionStart] at hzero
    have hhead := length_indent unit (inside.headD line) true
    exact hstart (h.atEmptyStart hunit hselected (by omega) (by omega) (by omega))
  have hnextSelected : (indent value start stop unit false).selectionStart <
      (indent value start stop unit false).selectionEnd := by
    have hhead := length_indent unit (inside.headD line) true
    omega
  have hback := hnext.indent_eq hnextSelected hnextStart unit true
  have happly := hnext.apply_indent unit hnextSelected hnextStart true
  have hhead : (inside.map (changeLine unit false true)).headD (changeLine unit false true line) =
      changeLine unit false true (inside.headD line) := by
    cases inside <;> rfl
  rw [hhead, changeLine_changeLine hunit line, changeLine_changeLine hunit (inside.headD line)]
    at hback
  refine ⟨?_, ?_, ?_⟩
  · rw [happly, map_back hunit, changeLine_changeLine hunit]
    exact h.value_eq.symm
  · rw [hback]
    dsimp only
    have hhead := length_indent unit (inside.headD line) true
    omega
  · rw [hback]
    dsimp only
    have hmapped := growth_concat (changeLine unit true true)
      (inside.map (changeLine unit false true)) (changeLine unit false true line)
    have horiginal := growth_concat (changeLine unit false true) inside line
    rw [map_back hunit, changeLine_changeLine hunit] at hmapped
    omega

/-! ## Selections that are lost -/

theorem not_keepsSelection_of_atEmptyStart (hselected : start < stop)
    (hstart : Vim.AtEmptyStart value start) (outdent : Bool) :
    ¬KeepsSelection value start stop unit outdent := by
  intro hkeeps
  obtain ⟨rfl, hnewline⟩ := hstart
  have hrows := congrArg Prod.fst hkeeps.rows
  have hline : lineStart value 0 = 1 := by
    have hlast : Vim.lastNewline value 0 = some 0 := if_pos hnewline
    unfold Vim.lineStart
    rw [Nat.zero_sub, hlast]
  have hcaret : ¬(outdent = false ∧ 0 = stop) := fun hcond => Nat.ne_of_lt hselected hcond.2
  have hfirst : (indent value 0 stop unit outdent).first = 1 := by
    unfold indent
    rw [if_neg hcaret]
    exact hline
  have hselection : 1 ≤ (indent value 0 stop unit outdent).selectionStart := by
    unfold indent
    rw [if_neg hcaret]
    dsimp only
    rw [hline]
    omega
  have happly : (indent value 0 stop unit outdent).apply value =
      newline :: ((indent value 0 stop unit outdent).insert ++
        value.drop (indent value 0 stop unit outdent).stop) := by
    unfold CodeEdit.apply
    rw [hfirst]
    cases value with
    | nil => cases hnewline
    | cons unit rest =>
      obtain rfl := Option.some.inj hnewline
      rfl
  have hrow := Text.rowOf_mono newline
    ((indent value 0 stop unit outdent).apply value) hselection
  unfold touched at hrows
  dsimp only at hrows
  have hzero : Text.rowOf newline value 0 = 0 := by
    unfold Text.rowOf
    rw [List.take_zero, List.count_nil]
  rw [hrows, hzero, happly] at hrow
  exact absurd hrow (by simp [Text.rowOf])

theorem Selected.not_keepsSelection (hselected : start < stop)
    (h : Selected value start (lastTouched value start stop) before inside line behind column
      lastColumn) (hunit : IsUnit unit) (hstart : ¬Vim.AtEmptyStart value start)
    (hinside : inside ≠ []) (hnewline : value[stop - 1]? ≠ some newline)
    (hshort : lastColumn ≤ indentation unit line) :
    ¬KeepsSelection value start stop unit true := by
  intro hkeeps
  have hrows := congrArg Prod.snd hkeeps.rows
  rw [h.touched_eq] at hrows
  unfold touched at hrows
  dsimp only at hrows
  have hplain : Text.Plain newline (before ++ inside.map (changeLine unit true true)) := by
    have hall := (h.changed hunit true 0 0 rfl rfl (Nat.zero_le _)
      (Nat.zero_le _) fun _ => Nat.le_refl _).plain
    simp only [Text.plain_append, Text.plain_cons] at hall ⊢
    exact ⟨hall.1, hall.2.1⟩
  have hedit := h.indent_eq hselected hstart unit true
  have hselectionStart := congrArg CodeEdit.selectionStart hedit
  have hselectionEnd := congrArg CodeEdit.selectionEnd hedit
  dsimp only at hselectionStart hselectionEnd
  have happly := h.apply_indent unit hselected hstart true
  have hlast : lastTouched value start stop = stop := if_neg fun hcond => hnewline hcond.2
  have hlastEq := h.last_eq
  rw [hlast] at hlastEq
  have hgrowth := growth_concat (changeLine unit true true) inside line
  have hlength := length_outdent unit line true
  have hindentation := indentation_le unit line
  have hstopBefore : (indent value start stop unit true).selectionEnd ≤
      (Text.ended newline before).length +
        (Text.ended newline (inside.map (changeLine unit true true))).length := by
    omega
  have hinner : (indent value start stop unit true).selectionStart <
      (Text.ended newline before).length +
        (Text.ended newline (inside.map (changeLine unit true true))).length := by
    have hcolumn := h.column_le
    cases inside with
    | nil => exact absurd rfl hinside
    | cons first rest =>
      rw [List.headD_cons] at hselectionStart hcolumn
      rw [List.map_cons, Text.ended_cons, List.length_append, List.length_cons]
      omega
  have hbefore : lastTouched ((indent value start stop unit true).apply value)
      (indent value start stop unit true).selectionStart
      (indent value start stop unit true).selectionEnd <
        (Text.ended newline (before ++ inside.map (changeLine unit true true))).length := by
    rw [Text.ended_append, List.length_append]
    unfold lastTouched
    split
    · omega
    · rename_i hcond
      refine Nat.lt_of_le_of_ne hstopBefore fun heq => hcond ⟨by omega, ?_⟩
      have hne : inside.map (changeLine unit true true) ≠ [] := by
        intro hnil
        exact hinside (List.map_eq_nil_iff.mp hnil)
      rw [happly, heq, List.getElem?_append_right (by omega), List.getElem?_append_left (by omega),
        show (Text.ended newline before).length +
            (Text.ended newline (inside.map (changeLine unit true true))).length - 1 -
              (Text.ended newline before).length =
          (Text.ended newline (inside.map (changeLine unit true true))).length - 1 by omega,
        ← List.getLast?_eq_getElem?, Text.ended_eq newline hne, List.getLast?_concat]
  rw [happly, ← List.append_assoc, ← Text.ended_append] at hbefore hrows
  have hrow := Text.rowOf_lt hplain (changeLine unit true true line ++ Text.begun newline behind)
    hbefore
  rw [hrows, List.length_append, List.length_map] at hrow
  exact Nat.lt_irrefl _ hrow

theorem endStays_iff (hunit : IsUnit unit) (hselected : start < stop)
    (h : Selected value start (lastTouched value start stop) before inside line behind column
      lastColumn) :
    EndStays value start stop unit ↔
      value[stop - 1]? = some newline ∨ inside = [] ∨ indentation unit line < lastColumn := by
  have hrows : (touched value start stop).1 = (touched value start stop).2 ↔ inside = [] := by
    rw [h.touched_eq, ← List.length_eq_zero_iff]
    dsimp only
    omega
  unfold EndStays
  rw [hrows]
  by_cases hnewline : value[stop - 1]? = some newline
  · exact iff_of_true (Or.inl hnewline) (Or.inl hnewline)
  · have hlast : lastTouched value start stop = stop := if_neg fun hcond => hnewline hcond.2
    rcases h.stop_cases hselected with ⟨-, hbreak, -, -⟩ | ⟨-, -, hpos⟩
    · exact absurd hbreak hnewline
    · rw [hlast] at h
      rw [h.lineBefore_eq, inIndentation_iff hunit hpos h.lastColumn_le, Nat.not_le]

end

/-- The touched lines stay selected, and an outdent takes an indent back, exactly where the
selection does not start before a break at the start of the text and its end is not taken out
of its line. -/
theorem indent_keeps_iff {value unit : Text} {start stop : Nat} (hunit : IsUnit unit)
    (hselected : start < stop) (hstop : stop ≤ value.length) :
    ((∀ outdent, KeepsSelection value start stop unit outdent) ∧
        OutdentsBack value start stop unit) ↔
      ¬Vim.AtEmptyStart value start ∧ EndStays value start stop unit := by
  have hbounds : start ≤ lastTouched value start stop ∧
      lastTouched value start stop ≤ value.length := by
    unfold lastTouched
    split <;> omega
  obtain ⟨before, inside, line, behind, column, lastColumn, h⟩ :=
    exists_selected hbounds.1 hbounds.2
  rw [endStays_iff hunit hselected h]
  constructor
  · rintro ⟨hkeeps, -⟩
    have hstart : ¬Vim.AtEmptyStart value start := fun hstart =>
      not_keepsSelection_of_atEmptyStart hselected hstart true (hkeeps true)
    refine ⟨hstart, ?_⟩
    by_contra hnot
    obtain ⟨hnewline, hinside, hshort⟩ := by simpa only [not_or, Nat.not_lt] using hnot
    exact h.not_keepsSelection hselected hunit hstart hinside hnewline hshort (hkeeps true)
  · rintro ⟨hstart, hstays⟩
    refine ⟨fun outdent => h.keepsSelection hunit hselected hstart outdent ?_,
      h.outdentsBack hunit hselected hstart⟩
    have hlastColumn := h.lastColumn_le
    cases outdent with
    | false =>
      have hlength := length_indent unit line true
      rcases h.stop_cases hselected with ⟨-, hnewline, -, -⟩ | ⟨-, -, hpos⟩
      · exact Or.inl hnewline
      · exact Or.inr (Or.inr (by omega))
    | true =>
      have hlength := length_outdent unit line true
      rcases hstays with hnewline | hinside | hshort
      · exact Or.inl hnewline
      · exact Or.inr (Or.inl hinside)
      · exact Or.inr (Or.inr (by omega))

/-- Two lines of which the second is indented, selected up to the text of the second. -/
theorem indent_keeps_both :
    KeepsSelection [97, 10, 32, 32, 98] 0 5 [space, space] true := by
  have hunit : IsUnit [space, space] := Or.inr ⟨2, by decide, rfl⟩
  refine ((indent_keeps_iff hunit (by decide) (by decide)).mpr ⟨by decide, ?_⟩).1 true
  exact Or.inr (Or.inr (by decide))

/-- The lines `ab` and `    cd` of a code block, selected from the first to the second column of
the second: an outdent leaves the selection on the first line. -/
theorem outdent_loses_line :
    ¬∀ (value unit : Text) (start stop : Nat), IsUnit unit → start < stop →
      stop ≤ value.length →
        (∀ outdent, KeepsSelection value start stop unit outdent) ∧
          OutdentsBack value start stop unit := by
  intro h
  have hunit : IsUnit (List.replicate 4 space) := Or.inr ⟨4, by decide, rfl⟩
  have hkeeps := (h [96, 96, 96, 10, 97, 98, 10, 32, 32, 32, 32, 99, 100, 10, 96, 96, 96] _ 4 9
    hunit (by decide) (by decide)).1 true
  exact absurd hkeeps.rows (by decide)

end Neoseq.Code
