import Neoseq.Vim.Graphemes

/-! Lines of a text: where they start and end, and how the caret goes along them. -/

namespace Neoseq.Vim

/-! ## Newlines -/

/-- `value.lastIndexOf("\n", position)`. -/
def lastNewline (value : Text) : (position : Nat) → Option Nat
  | 0 => if value[0]? = some newline then some 0 else none
  | position + 1 =>
    if value[position + 1]? = some newline then some (position + 1) else lastNewline value position

def lineStart (value : Text) (position : Nat) : Nat :=
  match lastNewline value (position - 1) with
  | none => 0
  | some index => index + 1

/-- `value.indexOf("\n", position)`, or the length. -/
def lineEnd (value : Text) (position : Nat) : Nat :=
  match (value.drop position).findIdx? (· = newline) with
  | none => value.length
  | some index => position + index

def lineStarts (value : Text) : List Nat :=
  0 :: (value.zipIdx.filter fun unit => unit.1 = newline).map fun unit => unit.2 + 1

/-- The loop over the starts that are not behind a position. -/
def lineIndexFrom : List Nat → (position line : Nat) → Nat
  | [], _, line => line
  | start :: starts, position, line =>
    if start ≤ position then lineIndexFrom starts position (line + 1) else line

def lineIndexAt (starts : List Nat) (position : Nat) : Nat := lineIndexFrom starts.tail position 0

namespace Unicode

variable (unicode : Unicode)

def normalLineEnd (value : Text) (position : Nat) : Nat :=
  let start := lineStart value position
  let stop := lineEnd value position
  if stop > start then unicode.previousBoundary value stop else start

/-- The loop of `firstNonBlank`; a round goes on by a unit at least. -/
def firstNonBlankFrom (value : Text) (start stop : Nat) : (rounds cursor : Nat) → Nat
  | 0, _ => start
  | rounds + 1, cursor =>
    if cursor < stop then
      let next := unicode.nextBoundary value cursor
      if unicode.blank (slice value cursor next) then firstNonBlankFrom value start stop rounds next
      else cursor
    else start

def firstNonBlank (value : Text) (position : Nat) : Nat :=
  let start := lineStart value position
  let stop := lineEnd value position
  unicode.firstNonBlankFrom value start stop (stop - start) start

/-- A column of a line, on a character of it. -/
def clampNormalColumn (value : Text) (start column : Nat) : Nat :=
  let stop := lineEnd value start
  let target := min (start + column) stop
  if target = stop ∧ stop > start then unicode.previousBoundary value stop else target

end Unicode

/-! ## One line -/

/-- No newline is between two positions. -/
def SameLine (value : Text) (a b : Nat) : Prop :=
  ∀ index, min a b ≤ index → index < max a b → value[index]? ≠ some newline

section
variable {value : Text} {a b c : Nat}

theorem SameLine.refl (value : Text) (a : Nat) : SameLine value a a := by
  intro index hle hlt
  omega

theorem SameLine.symm (h : SameLine value a b) : SameLine value b a := by
  intro index hle hlt
  exact h index (by omega) (by omega)

theorem SameLine.trans (h : SameLine value a b) (h' : SameLine value b c) :
    SameLine value a c := by
  intro index hle hlt
  by_cases hfirst : min a b ≤ index ∧ index < max a b
  · exact h index hfirst.1 hfirst.2
  · exact h' index (by omega) (by omega)

theorem SameLine.mono (h : SameLine value a b) (hmin : min a b ≤ c) (hmax : c ≤ max a b) :
    SameLine value a c := by
  intro index hle hlt
  exact h index (by omega) (by omega)

theorem lastNewline_spec (value : Text) (position : Nat) :
    (∀ index, lastNewline value position = some index →
      index ≤ position ∧ value[index]? = some newline ∧
        ∀ other, index < other → other ≤ position → value[other]? ≠ some newline) ∧
      (lastNewline value position = none →
        ∀ other ≤ position, value[other]? ≠ some newline) := by
  induction position with
  | zero =>
    rw [lastNewline]
    split
    · next hnewline =>
      refine ⟨fun index hindex => ?_, nofun⟩
      cases hindex
      exact ⟨Nat.le_refl _, hnewline, fun other hlt hle => by omega⟩
    · next hnone =>
      refine ⟨nofun, fun _ other hle => ?_⟩
      rwa [Nat.le_zero.mp hle]
  | succ position ih =>
    rw [lastNewline]
    split
    · next hnewline =>
      refine ⟨fun index hindex => ?_, nofun⟩
      cases hindex
      exact ⟨Nat.le_refl _, hnewline, fun other hlt hle => by omega⟩
    · next hnone =>
      refine ⟨fun index hindex => ?_, fun hnothing other hle => ?_⟩
      · obtain ⟨hle, hnewline, hbehind⟩ := ih.1 index hindex
        refine ⟨Nat.le_succ_of_le hle, hnewline, fun other hlt hother => ?_⟩
        rcases Nat.eq_or_lt_of_le hother with rfl | hother
        · exact hnone
        · exact hbehind other hlt (Nat.le_of_lt_succ hother)
      · rcases Nat.eq_or_lt_of_le hle with rfl | hlt
        · exact hnone
        · exact ih.2 hnothing other (Nat.le_of_lt_succ hlt)

/-- A line starts with the text or behind a newline. -/
theorem lineStart_cases (value : Text) (position : Nat) :
    lineStart value position = 0 ∨
      ∃ index, lineStart value position = index + 1 ∧ value[index]? = some newline := by
  unfold lineStart
  cases hlast : lastNewline value (position - 1) with
  | none => exact Or.inl rfl
  | some index =>
    exact Or.inr ⟨index, rfl, ((lastNewline_spec value (position - 1)).1 index hlast).2.1⟩

/-- A caret before a newline at the start of the text is taken to the next line. -/
def AtEmptyStart (value : Text) (position : Nat) : Prop :=
  position = 0 ∧ value[0]? = some newline

instance (value : Text) (position : Nat) : Decidable (AtEmptyStart value position) :=
  inferInstanceAs (Decidable (_ ∧ _))

theorem lineStart_spec {position : Nat} (h : ¬AtEmptyStart value position) :
    lineStart value position ≤ position ∧ SameLine value position (lineStart value position) := by
  obtain ⟨hsome, hnone⟩ := lastNewline_spec value (position - 1)
  unfold lineStart
  cases hlast : lastNewline value (position - 1) with
  | none =>
    refine ⟨Nat.zero_le _, fun index hle hlt => hnone hlast index ?_⟩
    dsimp only at hlt
    omega
  | some index =>
    obtain ⟨hle, hnewline, hbehind⟩ := hsome index hlast
    have hlt : index + 1 ≤ position := by
      rcases Nat.eq_zero_or_pos position with rfl | hpos
      · obtain rfl : index = 0 := by omega
        exact absurd ⟨rfl, hnewline⟩ h
      · omega
    refine ⟨hlt, fun other hother hother' => ?_⟩
    dsimp only at hother hother'
    exact hbehind other (by omega) (by omega)

theorem lineEnd_spec {position : Nat} (h : position ≤ value.length) :
    position ≤ lineEnd value position ∧ SameLine value position (lineEnd value position) ∧
      (lineEnd value position = value.length ∨
        value[lineEnd value position]? = some newline) := by
  unfold lineEnd
  cases hfind : (value.drop position).findIdx? (· = newline) with
  | none =>
    refine ⟨h, fun index hle hlt hnewline => ?_, Or.inl rfl⟩
    have hnone := List.findIdx?_eq_none_iff.mp hfind
    have hmem : newline ∈ value.drop position := by
      refine List.mem_of_getElem? (i := index - position) ?_
      rw [List.getElem?_drop, ← hnewline]
      congr 1
      dsimp only at hle hlt
      omega
    simpa using hnone newline hmem
  | some found =>
    obtain ⟨hfound, hnewline, hbefore⟩ := List.findIdx?_eq_some_iff_getElem.mp hfind
    refine ⟨Nat.le_add_right _ _, fun index hle hlt hsame => ?_, Or.inr ?_⟩
    · dsimp only at hle hlt
      have hrest := hbefore (index - position) (by omega)
      rw [List.getElem_drop] at hrest
      have hindex : index < value.length := (List.getElem?_eq_some_iff.mp hsame).1
      rw [List.getElem?_eq_getElem hindex] at hsame
      simp only [show position + (index - position) = index by omega, Option.some.inj hsame,
        decide_true, not_true_eq_false] at hrest
    · dsimp only
      rw [← List.getElem?_drop, List.getElem?_eq_getElem hfound]
      exact congrArg some (of_decide_eq_true hnewline)

theorem lineEnd_le (value : Text) (position : Nat) :
    lineEnd value position ≤ value.length := by
  unfold lineEnd
  cases hfind : (value.drop position).findIdx? (· = newline) with
  | none => exact Nat.le_refl _
  | some found =>
    obtain ⟨hfound, -⟩ := List.findIdx?_eq_some_iff_getElem.mp hfind
    rw [List.length_drop] at hfound
    show position + found ≤ value.length
    omega

end

/-! ## Boundaries of lines -/

namespace Unicode

variable (unicode : Unicode)

/-- Every newline is a grapheme of its own. -/
def NewlinesApart : Prop :=
  ∀ value index, value[index]? = some newline →
    index ∈ unicode.graphemeBoundaries value ∧ index + 1 ∈ unicode.graphemeBoundaries value

/-- One step of the caret to the left, on its line. -/
def charLeft (value : Text) (cursor : Nat) : Nat :=
  max (lineStart value cursor) (unicode.previousBoundary value cursor)

/-- One step of the caret to the right, on its line. -/
def charRight (value : Text) (cursor : Nat) : Nat :=
  min (unicode.normalLineEnd value cursor) (unicode.nextBoundary value cursor)

theorem firstNonBlankFrom_spec {value : Text} {start stop : Nat} (hstop : stop ≤ value.length)
    (hstart : start ∈ unicode.graphemeBoundaries value) (rounds : Nat) {cursor : Nat}
    (hle : start ≤ cursor) (hcursor : cursor ∈ unicode.graphemeBoundaries value) :
    unicode.firstNonBlankFrom value start stop rounds cursor ∈ unicode.graphemeBoundaries value ∧
      start ≤ unicode.firstNonBlankFrom value start stop rounds cursor ∧
      (unicode.firstNonBlankFrom value start stop rounds cursor = start ∨
        unicode.firstNonBlankFrom value start stop rounds cursor < stop) := by
  induction rounds generalizing cursor with
  | zero => exact ⟨hstart, Nat.le_refl _, Or.inl rfl⟩
  | succ rounds ih =>
    rw [firstNonBlankFrom]
    split
    · next hlt =>
      dsimp only
      split
      · have hnext := (unicode.nextBoundary_spec (Nat.lt_of_lt_of_le hlt hstop)).1
        exact ih (by omega) (unicode.nextBoundary_mem value cursor)
      · exact ⟨hcursor, hle, Or.inr hlt⟩
    · exact ⟨hstart, Nat.le_refl _, Or.inl rfl⟩

theorem charLeft_spec {value : Text} {cursor : Nat} (hstart : ¬AtEmptyStart value cursor) :
    unicode.charLeft value cursor ≤ cursor ∧
      SameLine value cursor (unicode.charLeft value cursor) ∧
      ¬AtEmptyStart value (unicode.charLeft value cursor) := by
  obtain ⟨hle, hline⟩ := lineStart_spec hstart
  have hprevious := unicode.previousBoundary_le value cursor
  have hleft : unicode.charLeft value cursor ≤ cursor := Nat.max_le.mpr ⟨hle, hprevious⟩
  have hfirst : lineStart value cursor ≤ unicode.charLeft value cursor := Nat.le_max_left _ _
  refine ⟨hleft, hline.mono (Nat.le_trans (Nat.min_le_right _ _) hfirst)
    (Nat.le_trans hleft (Nat.le_max_left _ _)), ?_⟩
  rintro ⟨hzero, hnewline⟩
  have hcursor : cursor ≠ 0 := fun heq => hstart ⟨heq, hnewline⟩
  exact hline 0 (by omega) (by omega) hnewline

section
variable {unicode : Unicode} (hapart : unicode.NewlinesApart) {value : Text}
include hapart

theorem lineStart_mem (value : Text) (position : Nat) :
    lineStart value position ∈ unicode.graphemeBoundaries value := by
  rcases lineStart_cases value position with hzero | ⟨index, hindex, hnewline⟩
  · rw [hzero]
    exact unicode.zero_mem_graphemeBoundaries value
  · rw [hindex]
    exact (hapart value index hnewline).2

theorem lineEnd_mem {position : Nat} (h : position ≤ value.length) :
    lineEnd value position ∈ unicode.graphemeBoundaries value := by
  rcases (lineEnd_spec h).2.2 with hend | hnewline
  · rw [hend]
    exact unicode.length_mem_graphemeBoundaries value
  · exact (hapart value _ hnewline).1

theorem normalLineEnd_mem (value : Text) (position : Nat) :
    unicode.normalLineEnd value position ∈ unicode.graphemeBoundaries value := by
  unfold normalLineEnd
  dsimp only
  split
  · exact unicode.previousBoundary_mem value _
  · exact lineStart_mem hapart value position

/-- On a line of characters the last one starts before the end; an empty line has none. -/
theorem normalLineEnd_spec {position : Nat} (h : position ≤ value.length)
    (hstart : ¬AtEmptyStart value position) :
    lineStart value position ≤ unicode.normalLineEnd value position ∧
      unicode.normalLineEnd value position ≤ lineEnd value position ∧
      (unicode.normalLineEnd value position = lineEnd value position →
        lineStart value position = lineEnd value position) := by
  have hle := (lineStart_spec hstart).1
  have hend := (lineEnd_spec h).1
  unfold normalLineEnd
  dsimp only
  split
  · next hlt =>
    obtain ⟨hfirst, hbefore⟩ := unicode.previousBoundary_spec (lineEnd_le value position)
      (lineStart_mem hapart value position) hlt
    exact ⟨hfirst, Nat.le_of_lt hbefore, fun heq => by omega⟩
  · next hge => exact ⟨Nat.le_refl _, by omega, fun heq => heq⟩

theorem firstNonBlank_mem (value : Text) (position : Nat) :
    unicode.firstNonBlank value position ∈ unicode.graphemeBoundaries value :=
  (unicode.firstNonBlankFrom_spec (lineEnd_le value position)
    (lineStart_mem hapart value position) _ (Nat.le_refl _)
    (lineStart_mem hapart value position)).1

theorem firstNonBlank_sameLine {position : Nat} (h : position ≤ value.length)
    (hstart : ¬AtEmptyStart value position) :
    SameLine value position (unicode.firstNonBlank value position) := by
  obtain ⟨hle, hbefore⟩ := lineStart_spec hstart
  obtain ⟨hend, hbehind, -⟩ := lineEnd_spec h
  have hline := hbefore.symm.trans hbehind
  obtain ⟨-, hfirst, hlast⟩ := unicode.firstNonBlankFrom_spec (lineEnd_le value position)
    (lineStart_mem hapart value position) (lineEnd value position - lineStart value position)
    (Nat.le_refl _) (lineStart_mem hapart value position)
  refine hbefore.trans (hline.mono ?_ ?_)
  · exact Nat.le_trans (Nat.min_le_left _ _) hfirst
  · unfold firstNonBlank
    dsimp only
    omega

/-! ## Along a line -/

theorem charLeft_mem (value : Text) (cursor : Nat) :
    unicode.charLeft value cursor ∈ unicode.graphemeBoundaries value := by
  unfold charLeft
  rcases Nat.le_total (lineStart value cursor) (unicode.previousBoundary value cursor) with h | h
  · rw [Nat.max_eq_right h]
    exact unicode.previousBoundary_mem value cursor
  · rw [Nat.max_eq_left h]
    exact lineStart_mem hapart value cursor

theorem charRight_mem (value : Text) (cursor : Nat) :
    unicode.charRight value cursor ∈ unicode.graphemeBoundaries value := by
  unfold charRight
  rcases Nat.le_total (unicode.normalLineEnd value cursor) (unicode.nextBoundary value cursor)
    with h | h
  · rw [Nat.min_eq_left h]
    exact normalLineEnd_mem hapart value cursor
  · rw [Nat.min_eq_right h]
    exact unicode.nextBoundary_mem value cursor

theorem charRight_spec {cursor : Nat} (h : cursor ≤ value.length)
    (hstart : ¬AtEmptyStart value cursor) :
    unicode.charRight value cursor ≤ value.length ∧
      SameLine value cursor (unicode.charRight value cursor) ∧
      ¬AtEmptyStart value (unicode.charRight value cursor) ∧
      (value[unicode.charRight value cursor]? = none ∨
          value[unicode.charRight value cursor]? = some newline →
        unicode.charRight value cursor = 0 ∨
          value[unicode.charRight value cursor - 1]? = some newline) := by
  obtain ⟨hle, hbefore⟩ := lineStart_spec hstart
  obtain ⟨hend, hbehind, -⟩ := lineEnd_spec h
  obtain ⟨hfirst, hlast, hempty⟩ := normalLineEnd_spec hapart h hstart
  have hnext := unicode.le_nextBoundary h
  have hlength := lineEnd_le value cursor
  have hline := hbefore.symm.trans hbehind
  have hright : lineStart value cursor ≤ unicode.charRight value cursor :=
    Nat.le_min.mpr ⟨hfirst, Nat.le_trans hle hnext⟩
  have hnormal : unicode.charRight value cursor ≤ unicode.normalLineEnd value cursor :=
    Nat.min_le_left _ _
  have hsame : SameLine value cursor (unicode.charRight value cursor) :=
    hbefore.trans (hline.mono (by omega) (by omega))
  refine ⟨by omega, hsame, ?_, ?_⟩
  · rintro ⟨hzero, hnewline⟩
    have hcursor : cursor ≠ 0 := fun heq => hstart ⟨heq, hnewline⟩
    exact hbefore 0 (by omega) (by omega) hnewline
  · intro hbehindLast
    have hnotBefore : ¬unicode.charRight value cursor < lineEnd value cursor := by
      intro hlt
      rcases hbehindLast with hnone | hnewline
      · have := List.getElem?_eq_none_iff.mp hnone
        omega
      · exact hline _ (by omega) (by omega) hnewline
    have hstartEnd := hempty (by omega)
    have hsameStart : unicode.charRight value cursor = lineStart value cursor := by omega
    rw [hsameStart]
    rcases lineStart_cases value cursor with hzero | ⟨index, hindex, hnewline⟩
    · exact Or.inl hzero
    · rw [hindex]
      exact Or.inr hnewline

end

end Unicode

end Neoseq.Vim
