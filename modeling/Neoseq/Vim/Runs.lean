import Neoseq.Vim.Engine

/-! What a run of keys keeps, on a surface that applies the effects to its text and caret. -/

namespace Neoseq.Vim

/-- A state in which no command has begun. -/
structure VimState.Clean (state : VimState) : Prop where
  count : state.count = []
  operator : state.operator = none
  operatorCount : state.operatorCount = 1
  textObject : state.textObject = none
  prefixG : state.prefixG = false

/-- Operators and text objects belong to operator-pending mode. -/
structure VimState.Ordered (state : VimState) : Prop where
  pending : state.operator ≠ none ∨ state.textObject ≠ none → state.mode = .operatorPending
  positive : 0 < state.operatorCount

theorem clean_initial (mode : VimMode) : (initialVimState mode).Clean :=
  ⟨rfl, rfl, rfl, rfl, rfl⟩

theorem clean_normal (desiredColumn : Option Nat) : (normalState desiredColumn).Clean :=
  ⟨rfl, rfl, rfl, rfl, rfl⟩

theorem VimState.Clean.ordered {state : VimState} (h : state.Clean) : state.Ordered := by
  refine ⟨fun hpending => ?_, by rw [h.operatorCount]; exact Nat.one_pos⟩
  rcases hpending with hoperator | hobject
  · exact absurd h.operator hoperator
  · exact absurd h.textObject hobject

def EditsText (state : VimState) : Prop :=
  state.operator = some .delete ∨ state.operator = some .change

/-- The keys that go on with a command: digits, `g`, operators, and `i` or `a` behind one. -/
def Continues (state : VimState) (key : Key) : Prop :=
  match state.mode with
  | .insert => False
  | .operatorPending =>
    countDigit state key ≠ none ∨
      (EditsText state ∧ state.textObject = none ∧ (key = .char 'i' ∨ key = .char 'a'))
  | .visualLine => countDigit state key ≠ none ∨ (state.prefixG = false ∧ key = .char 'g')
  | .normal =>
    state.prefixG = false ∧
      (countDigit state key ≠ none ∨ key = .char 'g' ∨ operatorOf key ≠ none)

/-- What a motion along the line does to the caret. -/
structure AlongLine (value : Text) (caret : Nat) (motion : Char) (target : Nat) : Prop where
  line : SameLine value caret target
  back : motion = 'h' ∨ motion = '0' → target ≤ caret
  last : motion = 'l' → value[target]? = none ∨ value[target]? = some newline →
    target = 0 ∨ value[target - 1]? = some newline

def lineMotions : List Char := ['h', 'l', '0', '^']

def VimEffect.IsEdit : VimEffect → Prop
  | .edit .. => True
  | _ => False

namespace Unicode

variable (unicode : Unicode)

/-- Offsets within the text, in order and on boundaries; those of a new caret in the new text. -/
def Fits (value : Text) : VimEffect → Prop
  | .selection start stop =>
    start ≤ stop ∧ stop ≤ value.length ∧ start ∈ unicode.graphemeBoundaries value ∧
      stop ∈ unicode.graphemeBoundaries value
  | .edit start stop insert first last =>
    start ≤ stop ∧ stop ≤ value.length ∧ start ∈ unicode.graphemeBoundaries value ∧
      stop ∈ unicode.graphemeBoundaries value ∧ first = last ∧
      first ∈ unicode.graphemeBoundaries (spliced value start stop insert)
  | .surface _ => True

/-! ## Where the keys do what they are for -/

/-- The key is a motion for the text itself. -/
structure AsksMotion (state : VimState) (snapshot : VimSnapshot) (key : VimKey)
    (motion : Char) : Prop where
  mapped : mappedMotion key.key = some motion
  digit : countDigit state key.key = none
  mode : (state.mode = .normal ∧ state.prefixG = false) ∨
    (state.mode = .operatorPending ∧ state.textObject = none ∧ EditsText state ∧
      snapshot.editable = true)
  across : snapshot.supportsCrossBlockWords = true → isWordMotion key.key = none

def askedCount (state : VimState) : Nat :=
  if state.mode = .operatorPending then state.operatorCount * parsedCount state.count
  else parsedCount state.count

/-- The kept column is inside of no grapheme of the line it is taken to. -/
def ColumnFits (value : Text) (position : Nat) (down : Bool) (count : Nat)
    (desiredColumn : Option Nat) : Prop :=
  ∀ line : Nat, targetLine value position down count = line →
    ∀ start, (lineStarts value)[line]? = some start →
      start + keptColumn value position desiredColumn ∈ unicode.graphemeBoundaries value ∨
        lineEnd value start ≤ start + keptColumn value position desiredColumn

/-- The key may remove text. -/
def MayCut (state : VimState) (snapshot : VimSnapshot) (key : VimKey) : Prop :=
  snapshot.editable = true ∧ countDigit state key.key = none ∧
    ((state.mode = .operatorPending ∧ EditsText state) ∨
      (state.mode = .normal ∧ state.prefixG = false ∧
        (key.key = .char 'x' ∨ key.key = .delete ∨ key.key = .char 'D' ∨ key.key = .char 'C')))

/-- Where a key does what it is for: the caret is not before a newline that starts the text,
`e` at the end of the text finds a grapheme of one unit, a kept column fits, and nothing that is
cut out around the caret brings graphemes together that join. -/
structure Clear (state : VimState) (snapshot : VimSnapshot) (key : VimKey) : Prop where
  first : state.mode = .normal → ∀ motion ∈ lineMotions, AsksMotion state snapshot key motion →
    ¬AtEmptyStart snapshot.value snapshot.selectionStart
  last : AsksMotion state snapshot key 'e' → snapshot.selectionStart = snapshot.value.length →
    snapshot.value.length - 1 ∈ unicode.graphemeBoundaries snapshot.value
  column : ∀ down : Bool, AsksMotion state snapshot key (if down then 'j' else 'k') →
    unicode.ColumnFits snapshot.value snapshot.selectionStart down (askedCount state)
      state.desiredColumn
  apart : MayCut state snapshot key →
    ∀ start ∈ unicode.graphemeBoundaries snapshot.value,
      ∀ stop ∈ unicode.graphemeBoundaries snapshot.value,
        start ≤ snapshot.selectionStart → snapshot.selectionStart ≤ stop →
          start ∈ unicode.graphemeBoundaries (spliced snapshot.value start stop [])

/-! ## What a key makes of the state -/

/-- The facts about one key. -/
structure Sound (state : VimState) (snapshot : VimSnapshot) (key : VimKey)
    (interpretation : VimInterpretation) : Prop where
  fits : ∀ effect ∈ interpretation.effects, unicode.Fits snapshot.value effect
  along : state.mode = .normal → ∀ motion ∈ lineMotions, mappedMotion key.key = some motion →
    ∀ start stop, .selection start stop ∈ interpretation.effects →
      AlongLine snapshot.value snapshot.selectionStart motion start
  ordered : interpretation.state.Ordered
  settled : interpretation.handled = true →
    interpretation.state.Clean ∨
      (interpretation.effects = [] ∧ Continues state key.key)
  short : interpretation.effects.length ≤ 1
  guarded : snapshot.editable = false →
    (∀ effect ∈ interpretation.effects, ¬effect.IsEdit) ∧
      (interpretation.state.mode = .insert → state.mode = .insert)

variable {unicode : Unicode} {state next : VimState} {snapshot : VimSnapshot} {key : VimKey}

theorem Sound.pass (hstate : state.Ordered) : unicode.Sound state snapshot key (pass state) where
  fits := fun _ h => nomatch h
  along := fun _ _ _ _ _ _ h => nomatch h
  ordered := hstate
  settled := fun h => nomatch h
  short := Nat.zero_le 1
  guarded := fun _ => ⟨fun _ h => (nomatch h), fun h => h⟩

theorem Sound.continue (hnext : next.Ordered) (hmode : next.mode ≠ .insert)
    (h : Continues state key.key) : unicode.Sound state snapshot key (result next []) where
  fits := fun _ h => nomatch h
  along := fun _ _ _ _ _ _ h => nomatch h
  ordered := hnext
  settled := fun _ => Or.inr ⟨rfl, h⟩
  short := Nat.zero_le 1
  guarded := fun _ => ⟨fun _ h => (nomatch h), fun h => absurd h hmode⟩

/-- A command that ends with at most a command for the surface. -/
theorem Sound.finish (hclean : next.Clean)
    (hmode : next.mode = .insert → snapshot.editable = true) {effects : List VimEffect}
    (hshort : effects.length ≤ 1)
    (heffects : ∀ effect ∈ effects, ∃ command, effect = .surface command) :
    unicode.Sound state snapshot key (result next effects) where
  fits := by
    intro effect hmem
    obtain ⟨command, rfl⟩ := heffects effect hmem
    trivial
  along := by
    intro _ motion _ _ start stop hmem
    obtain ⟨command, hcommand⟩ := heffects _ hmem
    cases hcommand
  ordered := hclean.ordered
  settled := fun _ => Or.inl hclean
  short := hshort
  guarded := by
    intro heditable
    refine ⟨fun effect hmem hedit => ?_, fun hinsert => ?_⟩
    · obtain ⟨command, rfl⟩ := heffects effect hmem
      exact hedit
    · rw [hmode hinsert] at heditable
      cases heditable

theorem Sound.nothing (hclean : next.Clean)
    (hmode : next.mode = .insert → snapshot.editable = true) :
    unicode.Sound state snapshot key (result next []) :=
  Sound.finish hclean hmode (Nat.zero_le 1) fun _ h => nomatch h

theorem Sound.surface (hclean : next.Clean)
    (hmode : next.mode = .insert → snapshot.editable = true) (command : SurfaceCommand) :
    unicode.Sound state snapshot key (result next [.surface command]) :=
  Sound.finish hclean hmode (Nat.le_refl 1) fun _ h => ⟨command, List.mem_singleton.mp h⟩

theorem Sound.guardedSurface (command : SurfaceCommand) :
    unicode.Sound state snapshot key
      (result (normalState none) (if snapshot.editable then [.surface command] else [])) := by
  refine Sound.finish (clean_normal none) nofun (by split <;> simp) fun effect hmem => ?_
  split at hmem
  · exact ⟨command, List.mem_singleton.mp hmem⟩
  · cases hmem

/-- A command that ends with the caret elsewhere. -/
theorem Sound.selection (hclean : next.Clean)
    (hmode : next.mode = .insert → state.mode = .insert ∨ snapshot.editable = true)
    {target : Nat} (htarget : target ∈ unicode.graphemeBoundaries snapshot.value)
    (halong : state.mode = .normal → ∀ motion ∈ lineMotions,
      mappedMotion key.key = some motion →
        AlongLine snapshot.value snapshot.selectionStart motion target) :
    unicode.Sound state snapshot key (result next [.selection target target]) where
  fits := by
    intro effect hmem
    rw [List.mem_singleton.mp hmem]
    exact ⟨Nat.le_refl _, unicode.le_of_mem_graphemeBoundaries htarget, htarget, htarget⟩
  along := by
    intro hnormal motion hmotion hmapped start stop hmem
    cases List.mem_singleton.mp hmem
    exact halong hnormal motion hmotion hmapped
  ordered := hclean.ordered
  settled := fun _ => Or.inl hclean
  short := Nat.le_refl 1
  guarded := by
    intro heditable
    refine ⟨fun effect hmem hedit => ?_, fun hinsert => ?_⟩
    · rw [List.mem_singleton.mp hmem] at hedit
      exact hedit
    · rcases hmode hinsert with hsame | hyes
      · exact hsame
      · rw [hyes] at heditable
        cases heditable

/-- Taking a span out leaves the caret between graphemes, if the cut joins none. -/
theorem fits_editEffect {start stop : Nat} (hle : start ≤ stop)
    (hstart : start ∈ unicode.graphemeBoundaries snapshot.value)
    (hstop : stop ∈ unicode.graphemeBoundaries snapshot.value)
    (hapart : start ∈ unicode.graphemeBoundaries (spliced snapshot.value start stop []))
    (insertMode : Bool) :
    unicode.Fits snapshot.value (unicode.editEffect snapshot start stop [] insertMode) := by
  refine ⟨hle, unicode.le_of_mem_graphemeBoundaries hstop, hstart, hstop, rfl, ?_⟩
  cases insertMode with
  | true => exact hapart
  | false =>
    show unicode.normalCaretAfterEdit (spliced snapshot.value start stop []) start ∈ _
    unfold normalCaretAfterEdit
    split
    · exact unicode.zero_mem_graphemeBoundaries _
    · split
      · exact hapart
      · exact unicode.previousBoundary_mem _ _

/-- A command that ends with at most a cut. -/
theorem Sound.edit (hclean : next.Clean) (heditable : snapshot.editable = true)
    {effects : List VimEffect} (hshort : effects.length ≤ 1)
    (heffects : ∀ effect ∈ effects, effect.IsEdit ∧ unicode.Fits snapshot.value effect) :
    unicode.Sound state snapshot key (result next effects) where
  fits := fun effect hmem => (heffects effect hmem).2
  along := fun _ _ _ _ _ _ hmem => ((heffects _ hmem).1).elim
  ordered := hclean.ordered
  settled := fun _ => Or.inl hclean
  short := hshort
  guarded := by
    intro hnot
    rw [heditable] at hnot
    cases hnot

theorem clean_changing (changing : Bool) :
    (if changing then initialVimState .insert else normalState none).Clean := by
  cases changing
  · exact clean_normal none
  · exact clean_initial .insert

theorem Sound.cut (heditable : snapshot.editable = true) {start stop : Nat} (hle : start ≤ stop)
    (hstart : start ∈ unicode.graphemeBoundaries snapshot.value)
    (hstop : stop ∈ unicode.graphemeBoundaries snapshot.value)
    (hapart : start ∈ unicode.graphemeBoundaries (spliced snapshot.value start stop []))
    (changing : Bool) :
    unicode.Sound state snapshot key (unicode.cut snapshot changing start stop) := by
  refine Sound.edit (clean_changing changing) heditable (Nat.le_refl 1) fun effect hmem => ?_
  rw [List.mem_singleton.mp hmem]
  exact ⟨trivial, fits_editEffect hle hstart hstop hapart changing⟩

/-! ## Motions -/

theorem steps_mem {value : Text} {step : Nat → Nat}
    (hstep : ∀ cursor, step cursor ∈ unicode.graphemeBoundaries value) {cursor : Nat}
    (h : cursor ∈ unicode.graphemeBoundaries value) (count : Nat) :
    steps step count cursor ∈ unicode.graphemeBoundaries value := by
  induction count generalizing cursor with
  | zero => exact h
  | succ count ih => exact ih (hstep cursor)

theorem steps_left {value : Text} {cursor : Nat} (h : ¬AtEmptyStart value cursor) (count : Nat) :
    steps (unicode.charLeft value) count cursor ≤ cursor ∧
      SameLine value cursor (steps (unicode.charLeft value) count cursor) := by
  induction count generalizing cursor with
  | zero => exact ⟨Nat.le_refl _, SameLine.refl value cursor⟩
  | succ count ih =>
    obtain ⟨hle, hline, hstart⟩ := unicode.charLeft_spec h
    obtain ⟨hle', hline'⟩ := ih hstart
    exact ⟨Nat.le_trans hle' hle, hline.trans hline'⟩

theorem steps_right (hapart : unicode.NewlinesApart) {value : Text} {cursor : Nat}
    (hcursor : cursor ≤ value.length) (h : ¬AtEmptyStart value cursor) (count : Nat) :
    SameLine value cursor (steps (unicode.charRight value) (count + 1) cursor) ∧
      (value[steps (unicode.charRight value) (count + 1) cursor]? = none ∨
          value[steps (unicode.charRight value) (count + 1) cursor]? = some newline →
        steps (unicode.charRight value) (count + 1) cursor = 0 ∨
          value[steps (unicode.charRight value) (count + 1) cursor - 1]? = some newline) := by
  induction count generalizing cursor with
  | zero =>
    obtain ⟨-, hline, -, hlast⟩ := charRight_spec hapart hcursor h
    exact ⟨hline, hlast⟩
  | succ count ih =>
    obtain ⟨hle, hline, hstart, -⟩ := charRight_spec hapart hcursor h
    obtain ⟨hline', hlast⟩ := ih hle hstart
    exact ⟨hline.trans hline', hlast⟩

theorem clampNormalColumn_mem (hapart : unicode.NewlinesApart) {value : Text} {start column : Nat}
    (hstart : start ≤ value.length)
    (h : start + column ∈ unicode.graphemeBoundaries value ∨
      lineEnd value start ≤ start + column) :
    unicode.clampNormalColumn value start column ∈ unicode.graphemeBoundaries value := by
  unfold clampNormalColumn
  dsimp only
  split
  · exact unicode.previousBoundary_mem value _
  · rcases Nat.le_total (lineEnd value start) (start + column) with hge | hle
    · rw [Nat.min_eq_right hge]
      exact lineEnd_mem hapart hstart
    · rw [Nat.min_eq_left hle]
      rcases h with hmem | hge
      · exact hmem
      · rw [Nat.le_antisymm hle hge]
        exact lineEnd_mem hapart hstart

theorem lineStarts_le {value : Text} {line start : Nat}
    (h : (lineStarts value)[line]? = some start) : start ≤ value.length := by
  have hmem := List.mem_of_getElem? h
  unfold lineStarts at hmem
  rcases List.mem_cons.mp hmem with rfl | hmem
  · exact Nat.zero_le _
  · obtain ⟨unit, hunit, rfl⟩ := List.mem_map.mp hmem
    have hget := List.mem_zipIdx_iff_getElem?.mp (List.mem_filter.mp hunit).1
    exact (List.getElem?_eq_some_iff.mp hget).1

theorem verticalMotion_mem (hapart : unicode.NewlinesApart) {value : Text} {position : Nat}
    {down : Bool} {count : Nat} {desiredColumn : Option Nat}
    (h : unicode.ColumnFits value position down count desiredColumn) {target : Nat}
    {inclusive : Bool} {column : Option Nat}
    (hmotion : unicode.verticalMotion value position down count desiredColumn =
      .text target inclusive column) : target ∈ unicode.graphemeBoundaries value := by
  unfold verticalMotion at hmotion
  dsimp only at hmotion
  split at hmotion
  · next hinside =>
    obtain ⟨hzero, hlt⟩ := hinside
    obtain ⟨line, hline⟩ := Int.eq_ofNat_of_zero_le hzero
    rw [hline] at hlt hmotion
    have hline' : line < (lineStarts value).length := Int.ofNat_lt.mp hlt
    rw [Int.toNat_natCast, List.getElem?_eq_getElem hline', Option.getD_some] at hmotion
    have hget := List.getElem?_eq_getElem hline'
    cases hmotion
    exact clampNormalColumn_mem hapart (lineStarts_le hget) (h line hline _ hget)
  · cases hmotion

/-- A motion for the text ends at a boundary. -/
theorem motionFor_mem (hapart : unicode.NewlinesApart)
    (hcaret : snapshot.selectionStart ∈ unicode.graphemeBoundaries snapshot.value)
    (hclear : unicode.Clear state snapshot key)
    (hasks : ∀ motion, mappedMotion key.key = some motion →
      AsksMotion state snapshot key motion) {target : Nat} {inclusive : Bool}
    {column : Option Nat}
    (h : unicode.motionFor snapshot key.key (askedCount state) state.desiredColumn =
      some (.text target inclusive column)) :
    target ∈ unicode.graphemeBoundaries snapshot.value := by
  have hle := unicode.le_of_mem_graphemeBoundaries hcaret
  unfold motionFor at h
  dsimp only at h
  rw [Nat.min_eq_left hle] at h
  cases hmapped : mappedMotion key.key with
  | none =>
    rw [hmapped] at h
    cases h
  | some mapped =>
    have hask := hasks mapped hmapped
    rw [hmapped] at h
    dsimp only at h
    split at h
    · next hvertical =>
      refine verticalMotion_mem hapart ?_ (Option.some.inj h)
      refine hclear.column (decide (mapped = 'j')) ?_
      rcases hvertical with rfl | rfl <;> exact hask
    split at h
    · cases h
      exact steps_mem (charLeft_mem hapart snapshot.value) hcaret _
    split at h
    · cases h
      exact steps_mem (charRight_mem hapart snapshot.value) hcaret _
    split at h
    · cases h
      exact lineStart_mem hapart _ _
    split at h
    · cases h
      exact firstNonBlank_mem hapart _ _
    split at h
    · cases h
      exact normalLineEnd_mem hapart _ _
    · cases hword : wordMotionOf mapped with
      | none =>
        rw [hword] at h
        cases h
      | some motion =>
        rw [hword] at h
        cases h
        cases motion with
        | w => exact unicode.wordForward_mem _ _ _
        | b => exact unicode.wordBackward_mem _ _ _
        | e =>
          have hmapped : mapped = 'e' := by
            unfold wordMotionOf at hword
            split at hword
            · cases hword
            · cases hword
            · rfl
            · cases hword
          rw [hmapped] at hask
          obtain ⟨index, hindex, hposition⟩ := unicode.mem_graphemeBoundaries hcaret
          show unicode.wordEnd snapshot.value snapshot.selectionStart (askedCount state) ∈ _
          rcases Nat.lt_or_eq_of_le hindex with hlt | rfl
          · rw [← hposition, unicode.wordEnd_boundaryAt hlt]
            exact unicode.boundaryAt_mem _ _
          · rw [unicode.boundaryAt_length] at hposition
            rw [← hposition, unicode.wordEnd_length]
            exact hclear.last hask hposition.symm

/-- In Normal mode the motions along a line stay on it. -/
theorem motionFor_along (hapart : unicode.NewlinesApart)
    (hcaret : snapshot.selectionStart ∈ unicode.graphemeBoundaries snapshot.value)
    {motion : Char} (hmotion : motion ∈ lineMotions)
    (hmapped : mappedMotion key.key = some motion)
    (hfirst : ¬AtEmptyStart snapshot.value snapshot.selectionStart) {count : Nat}
    (hcount : 0 < count) {desiredColumn : Option Nat} {target : Nat} {inclusive : Bool}
    {column : Option Nat}
    (h : unicode.motionFor snapshot key.key count desiredColumn =
      some (.text target inclusive column)) :
    AlongLine snapshot.value snapshot.selectionStart motion target := by
  have hle := unicode.le_of_mem_graphemeBoundaries hcaret
  unfold motionFor at h
  dsimp only at h
  rw [Nat.min_eq_left hle, hmapped] at h
  simp only [lineMotions, List.mem_cons, List.not_mem_nil, or_false] at hmotion
  rcases hmotion with rfl | rfl | rfl | rfl
  · cases h
    obtain ⟨hback, hline⟩ := @steps_left unicode _ _ hfirst count
    exact ⟨hline, fun _ => hback, nofun⟩
  · cases h
    obtain ⟨rest, rfl⟩ := Nat.exists_eq_succ_of_ne_zero (Nat.ne_of_gt hcount)
    obtain ⟨hline, hlast⟩ := steps_right hapart hle hfirst rest
    exact ⟨hline, nofun, fun _ => hlast⟩
  · cases h
    obtain ⟨hback, hline⟩ := lineStart_spec hfirst
    exact ⟨hline, fun _ => hback, nofun⟩
  · cases h
    exact ⟨firstNonBlank_sameLine hapart hle hfirst, nofun, nofun⟩

/-! ## Spans that are cut out -/

theorem charactersFrom_mem {value : Text} (stop count : Nat) {cursor : Nat}
    (h : cursor ∈ unicode.graphemeBoundaries value) :
    unicode.charactersFrom value stop count cursor ∈ unicode.graphemeBoundaries value := by
  induction count generalizing cursor with
  | zero => exact h
  | succ count ih =>
    rw [charactersFrom]
    split
    · exact ih (unicode.nextBoundary_mem value cursor)
    · exact h

/-- An operator's span goes between boundaries, with the caret at one of them. -/
theorem operatorRange_spec
    (hcaret : snapshot.selectionStart ∈ unicode.graphemeBoundaries snapshot.value)
    {position : Nat} (hposition : position ∈ unicode.graphemeBoundaries snapshot.value)
    (inclusive : Bool) :
    (unicode.operatorRange snapshot position inclusive).1 ∈
        unicode.graphemeBoundaries snapshot.value ∧
      (unicode.operatorRange snapshot position inclusive).2 ∈
        unicode.graphemeBoundaries snapshot.value ∧
      (unicode.operatorRange snapshot position inclusive).1 ≤ snapshot.selectionStart ∧
      snapshot.selectionStart ≤ (unicode.operatorRange snapshot position inclusive).2 := by
  have hle := unicode.le_of_mem_graphemeBoundaries hposition
  unfold operatorRange
  dsimp only
  split
  · next hge =>
    cases inclusive with
    | false => exact ⟨hcaret, hposition, Nat.le_refl _, hge⟩
    | true =>
      exact ⟨hcaret, unicode.nextBoundary_mem _ _, Nat.le_refl _,
        Nat.le_trans hge (unicode.le_nextBoundary hle)⟩
  · next hlt => exact ⟨hposition, hcaret, Nat.le_of_lt (Nat.lt_of_not_le hlt), Nat.le_refl _⟩

/-! ## Keys -/

theorem editable_of_not {editable : Bool} (h : ¬(!editable) = true) : editable = true := by
  simpa using h

theorem parsedCount_pos (value : List Char) : 0 < parsedCount value := by
  unfold parsedCount
  split
  · exact Nat.one_pos
  · exact Nat.lt_of_lt_of_le Nat.one_pos (Nat.le_max_left _ _)

theorem interpretOperator_sound (hapart : unicode.NewlinesApart) (hstate : state.Ordered)
    (hmode : state.mode = .operatorPending)
    (hcaret : snapshot.selectionStart ∈ unicode.graphemeBoundaries snapshot.value)
    (hclear : unicode.Clear state snapshot key) :
    unicode.Sound state snapshot key (unicode.interpretOperator state snapshot key) := by
  have hle := unicode.le_of_mem_graphemeBoundaries hcaret
  have hnothing : unicode.Sound state snapshot key (result (normalState none) []) :=
    Sound.nothing (clean_normal none) nofun
  have hpending : state.mode ≠ .insert := by
    rw [hmode]
    nofun
  have hcount : 0 < state.operatorCount * parsedCount state.count :=
    Nat.mul_pos hstate.positive (parsedCount_pos state.count)
  unfold interpretOperator
  cases hdigit : countDigit state key.key with
  | some digit =>
    refine Sound.continue ⟨hstate.pending, hstate.positive⟩ hpending ?_
    unfold Continues
    rw [hmode, hdigit]
    exact Or.inl nofun
  | none =>
    have hcut : snapshot.editable = true → EditsText state → ∀ span : Nat × Nat,
        span.1 ∈ unicode.graphemeBoundaries snapshot.value →
        span.2 ∈ unicode.graphemeBoundaries snapshot.value →
        span.1 ≤ snapshot.selectionStart → snapshot.selectionStart ≤ span.2 →
        unicode.Sound state snapshot key
          (unicode.cut snapshot (decide (state.operator = some .change)) span.1 span.2) := by
      intro heditable hedits span hfirst hlast hbefore hbehind
      exact Sound.cut heditable (Nat.le_trans hbefore hbehind) hfirst hlast
        (hclear.apart ⟨heditable, hdigit, Or.inl ⟨hmode, hedits⟩⟩ _ hfirst _ hlast hbefore
          hbehind) _
    dsimp only
    split
    · next hobject =>
      refine Sound.continue ⟨fun _ => hmode, hstate.positive⟩ hpending ?_
      unfold Continues
      rw [hmode]
      exact Or.inr hobject
    cases hobject : state.textObject with
    | some modifier =>
      dsimp only
      split
      · exact hnothing
      · next hkeys =>
        obtain ⟨hedits, hrest⟩ := not_or.mp hkeys
        have heditable := editable_of_not (not_or.mp hrest).2
        cases hspan : unicode.wordTextObjectRange snapshot.value snapshot.selectionStart modifier
            (state.operatorCount * parsedCount state.count) with
        | none => exact hnothing
        | some span =>
          obtain ⟨hfirst, hlast, hbefore, hbehind⟩ :=
            unicode.wordTextObjectRange_spec hle hcount hspan
          dsimp only
          split
          · exact hnothing
          · exact hcut heditable (not_not.mp hedits) span hfirst hlast hbefore hbehind
    | none =>
      dsimp only
      split
      · split
        · exact hnothing
        · next hnot =>
          have heditable := editable_of_not hnot
          split
          · exact Sound.surface (clean_normal none) nofun _
          · refine Sound.edit (clean_initial .insert) heditable (Nat.le_refl 1)
              fun effect hmem => ?_
            rw [List.mem_singleton.mp hmem]
            exact ⟨trivial, fits_editEffect (Nat.zero_le _)
              (unicode.zero_mem_graphemeBoundaries _) (unicode.length_mem_graphemeBoundaries _)
              (unicode.zero_mem_graphemeBoundaries _) true⟩
      split
      · exact Sound.guardedSurface _
      split
      · exact Sound.guardedSurface _
      split
      · exact hnothing
      · next hnotEdits =>
        have hedits := not_not.mp hnotEdits
        split
        · split
          · exact hnothing
          · next hnot =>
            exact Sound.surface (clean_changing _) (fun _ => editable_of_not hnot) _
        · next hacross =>
          split
          · next position inclusive column hmotion =>
            split
            · exact hnothing
            · next hnot =>
              have heditable := editable_of_not hnot
              have hasked : askedCount state = state.operatorCount * parsedCount state.count :=
                if_pos hmode
              have hposition := motionFor_mem hapart hcaret hclear
                (fun motion hmapped => ⟨hmapped, hdigit,
                  Or.inr ⟨hmode, hobject, hedits, heditable⟩, fun hyes => by
                    rwa [if_pos hyes] at hacross⟩)
                (by rw [hasked]; exact hmotion)
              obtain ⟨hfirst, hlast, hbefore, hbehind⟩ :=
                operatorRange_spec hcaret hposition inclusive
              split
              · exact hnothing
              · exact hcut heditable hedits _ hfirst hlast hbefore hbehind
          · exact hnothing

theorem enterInsert_sound (hapart : unicode.NewlinesApart)
    (hcaret : snapshot.selectionStart ∈ unicode.graphemeBoundaries snapshot.value) {c : Char}
    (hkey : key.key = .char c) (hc : c = 'i' ∨ c = 'a' ∨ c = 'I' ∨ c = 'A') :
    unicode.Sound state snapshot key (unicode.enterInsert snapshot c) := by
  have hle := unicode.le_of_mem_graphemeBoundaries hcaret
  unfold enterInsert
  dsimp only
  split
  · exact Sound.nothing (clean_normal none) nofun
  · next hnot =>
    refine Sound.selection (clean_initial .insert) (fun _ => Or.inr (editable_of_not hnot)) ?_ ?_
    · split
      · exact hcaret
      split
      · rcases Nat.le_total (lineEnd snapshot.value snapshot.selectionStart)
          (unicode.nextBoundary snapshot.value snapshot.selectionStart) with h | h
        · rw [Nat.min_eq_left h]
          exact lineEnd_mem hapart hle
        · rw [Nat.min_eq_right h]
          exact unicode.nextBoundary_mem _ _
      split
      · exact firstNonBlank_mem hapart _ _
      · exact lineEnd_mem hapart hle
    · intro _ motion hmotion hmapped
      rw [hkey] at hmapped
      cases hmapped
      rcases hc with rfl | rfl | rfl | rfl <;> cases hmotion <;> contradiction

theorem deleteCharacters_sound
    (hcaret : snapshot.selectionStart ∈ unicode.graphemeBoundaries snapshot.value)
    (hcut : snapshot.editable = true → ∀ stop ∈ unicode.graphemeBoundaries snapshot.value,
      snapshot.selectionStart ≤ stop → snapshot.selectionStart ∈
        unicode.graphemeBoundaries (spliced snapshot.value snapshot.selectionStart stop []))
    (count : Nat) :
    unicode.Sound state snapshot key
      (result (normalState none) (unicode.deleteCharacters snapshot count).toList) := by
  unfold deleteCharacters
  split
  · exact Sound.nothing (clean_normal none) nofun
  · next hnot =>
    have heditable := editable_of_not hnot
    have hstop := @charactersFrom_mem unicode snapshot.value
      (lineEnd snapshot.value snapshot.selectionStart) count _ hcaret
    dsimp only
    split
    · next hlt =>
      refine Sound.edit (clean_normal none) heditable (Nat.le_refl 1) fun effect hmem => ?_
      rw [List.mem_singleton.mp hmem]
      exact ⟨trivial, fits_editEffect (Nat.le_of_lt hlt) hcaret hstop
        (hcut heditable _ hstop (Nat.le_of_lt hlt)) false⟩
    · exact Sound.nothing (clean_normal none) nofun

theorem interpretMotion_sound (hapart : unicode.NewlinesApart) (hmode : state.mode = .normal)
    (hheld : state.prefixG = false) (hdigit : countDigit state key.key = none)
    (hcaret : snapshot.selectionStart ∈ unicode.graphemeBoundaries snapshot.value)
    (hclear : unicode.Clear state snapshot key) :
    unicode.Sound state snapshot key
      (unicode.interpretMotion state snapshot key (parsedCount state.count)) := by
  unfold interpretMotion
  split
  · exact Sound.surface (clean_normal none) nofun _
  · next hacross =>
    have hasks : ∀ motion, mappedMotion key.key = some motion →
        AsksMotion state snapshot key motion := fun motion hmapped =>
      ⟨hmapped, hdigit, Or.inl ⟨hmode, hheld⟩, fun hyes => by rwa [if_pos hyes] at hacross⟩
    have hasked : askedCount state = parsedCount state.count := by
      refine if_neg ?_
      rw [hmode]
      nofun
    split
    · exact Sound.surface (clean_normal _) nofun _
    · next position inclusive column hmotion =>
      refine Sound.selection (clean_normal _) nofun ?_ fun _ motion hline hmapped => ?_
      · exact motionFor_mem hapart hcaret hclear hasks (by rw [hasked]; exact hmotion)
      · exact motionFor_along hapart hcaret hline hmapped
          (hclear.first hmode motion hline (hasks motion hmapped))
          (parsedCount_pos state.count) hmotion
    · exact Sound.nothing (clean_normal none) nofun

theorem interpretCommand_sound (hapart : unicode.NewlinesApart) (hmode : state.mode = .normal)
    (hheld : state.prefixG = false) (hdigit : countDigit state key.key = none)
    (hcaret : snapshot.selectionStart ∈ unicode.graphemeBoundaries snapshot.value)
    (hclear : unicode.Clear state snapshot key) :
    unicode.Sound state snapshot key
      (unicode.interpretCommand state snapshot key (parsedCount state.count)) := by
  have hle := unicode.le_of_mem_graphemeBoundaries hcaret
  have hnothing : unicode.Sound state snapshot key (result (normalState none) []) :=
    Sound.nothing (clean_normal none) nofun
  have hcut (hkeys : key.key = .char 'x' ∨ key.key = .delete ∨ key.key = .char 'D' ∨
      key.key = .char 'C') (heditable : snapshot.editable = true) :
      ∀ stop ∈ unicode.graphemeBoundaries snapshot.value, snapshot.selectionStart ≤ stop →
        snapshot.selectionStart ∈
          unicode.graphemeBoundaries (spliced snapshot.value snapshot.selectionStart stop []) :=
    fun stop hstop hbehind =>
      hclear.apart ⟨heditable, hdigit, Or.inr ⟨hmode, hheld, hkeys⟩⟩ _ hcaret stop hstop
        (Nat.le_refl _) hbehind
  unfold interpretCommand
  split
  · split
    · exact hnothing
    · next hnot => exact Sound.surface (clean_initial .insert) (fun _ => editable_of_not hnot) _
  split
  · exact Sound.guardedSurface _
  split
  · exact Sound.guardedSurface _
  split
  · next hkey =>
    refine deleteCharacters_sound hcaret (hcut ?_) _
    rcases hkey with hkey | hkey
    · exact Or.inl hkey
    · exact Or.inr (Or.inl hkey)
  split
  · next hkey =>
    split
    · exact hnothing
    · next hnot =>
      have heditable := editable_of_not hnot
      refine Sound.edit (clean_changing _) heditable (by split <;> simp) fun effect hmem => ?_
      split at hmem
      · next hlt =>
        rw [List.mem_singleton.mp hmem]
        exact ⟨trivial, fits_editEffect (Nat.le_of_lt hlt) hcaret (lineEnd_mem hapart hle)
          (hcut (Or.inr (Or.inr hkey)) heditable _ (lineEnd_mem hapart hle) (Nat.le_of_lt hlt)) _⟩
      · cases hmem
  · exact interpretMotion_sound hapart hmode hheld hdigit hcaret hclear

theorem interpretNormal_sound (hapart : unicode.NewlinesApart) (hstate : state.Ordered)
    (hmode : state.mode = .normal)
    (hcaret : snapshot.selectionStart ∈ unicode.graphemeBoundaries snapshot.value)
    (hclear : unicode.Clear state snapshot key) :
    unicode.Sound state snapshot key (unicode.interpretNormal state snapshot key) := by
  have hnothing : unicode.Sound state snapshot key (result (normalState none) []) :=
    Sound.nothing (clean_normal none) nofun
  have hnormal : state.mode ≠ .insert := by
    rw [hmode]
    nofun
  unfold interpretNormal
  split
  · exact hnothing
  split
  · split
    · exact Sound.surface (clean_normal none) nofun _
    · exact hnothing
  next hunprefixed =>
  have hheld : state.prefixG = false := Bool.eq_false_iff.mpr hunprefixed
  have hgoes (hkeys : countDigit state key.key ≠ none ∨ key.key = .char 'g' ∨
      operatorOf key.key ≠ none) : Continues state key.key := by
    unfold Continues
    rw [hmode]
    exact ⟨hheld, hkeys⟩
  cases hdigit : countDigit state key.key with
  | some digit =>
    refine Sound.continue ⟨hstate.pending, hstate.positive⟩ hnormal (hgoes (Or.inl ?_))
    rw [hdigit]
    nofun
  | none =>
    dsimp only
    split
    · split
      · exact hnothing
      · exact Sound.surface (clean_initial .visualLine) nofun _
    split
    · next hkey =>
      exact Sound.continue ⟨hstate.pending, hstate.positive⟩ hnormal (hgoes (Or.inr (Or.inl hkey)))
    split
    · exact Sound.surface (clean_normal none) nofun _
    cases hoperator : operatorOf key.key with
    | some operator =>
      refine Sound.continue ⟨fun _ => rfl, parsedCount_pos state.count⟩ nofun
        (hgoes (Or.inr (Or.inr ?_)))
      rw [hoperator]
      nofun
    | none =>
      dsimp only
      cases hinsert : insertKey key.key with
      | some c =>
        unfold insertKey at hinsert
        split at hinsert
        · next other hkey =>
          split at hinsert
          · next hc =>
            obtain rfl := Option.some.inj hinsert
            exact enterInsert_sound hapart hcaret hkey hc
          · cases hinsert
        · cases hinsert
      | none => exact interpretCommand_sound hapart hmode hheld hdigit hcaret hclear

theorem finishVisualLine_sound (command : VisualLineCommand) :
    unicode.Sound state snapshot key (finishVisualLine command) :=
  Sound.surface (clean_normal none) nofun _

theorem interpretVisualLine_sound (hstate : state.Ordered) (hmode : state.mode = .visualLine) :
    unicode.Sound state snapshot key (interpretVisualLine state key) := by
  have hvisual : state.mode ≠ .insert := by
    rw [hmode]
    nofun
  unfold interpretVisualLine
  split
  · exact finishVisualLine_sound _
  split
  · exact Sound.pass hstate
  split
  · exact Sound.pass hstate
  cases hdigit : countDigit state key.key with
  | some digit =>
    refine Sound.continue ⟨hstate.pending, hstate.positive⟩ hvisual ?_
    unfold Continues
    rw [hmode, hdigit]
    exact Or.inl nofun
  | none =>
    dsimp only
    split
    · split
      · exact Sound.surface (clean_initial .visualLine) nofun _
      · exact Sound.nothing (clean_initial .visualLine) nofun
    next hheld =>
    split
    · next hkey =>
      refine Sound.continue ⟨hstate.pending, hstate.positive⟩ hvisual ?_
      unfold Continues
      rw [hmode]
      exact Or.inr ⟨Bool.eq_false_iff.mpr hheld, hkey⟩
    split
    · exact Sound.surface (clean_initial .visualLine) nofun _
    split
    · exact Sound.surface (clean_initial .visualLine) nofun _
    split
    · exact Sound.surface (clean_initial .visualLine) nofun _
    split
    · exact finishVisualLine_sound _
    split
    · exact finishVisualLine_sound _
    split
    · exact finishVisualLine_sound _
    · exact Sound.nothing (clean_initial .visualLine) nofun

/-- What one key makes of a state. -/
theorem interpretVimKey_sound (hapart : unicode.NewlinesApart) (hstate : state.Ordered)
    (hcaret : snapshot.selectionStart ∈ unicode.graphemeBoundaries snapshot.value)
    (hclear : unicode.Clear state snapshot key) :
    unicode.Sound state snapshot key (unicode.interpretVimKey state snapshot key) := by
  unfold interpretVimKey
  dsimp only
  split
  · next hmode =>
    split
    · exact Sound.pass hstate
    · refine Sound.selection (clean_normal none) nofun ?_ fun hnormal => ?_
      · split
        · exact unicode.previousBoundary_mem _ _
        · exact hcaret
      · rw [hmode] at hnormal
        cases hnormal
  split
  · next hmode => exact interpretVisualLine_sound hstate hmode
  split
  · exact Sound.nothing (clean_normal none) nofun
  split
  · exact Sound.guardedSurface _
  split
  · exact Sound.pass hstate
  split
  · exact Sound.pass hstate
  split
  · next hmode => exact interpretOperator_sound hapart hstate hmode hcaret hclear
  · next hinsert hvisual _ _ _ _ hoperator =>
    refine interpretNormal_sound hapart hstate ?_ hcaret hclear
    cases hmode : state.mode with
    | normal => rfl
    | insert => exact absurd hmode hinsert
    | operatorPending => exact absurd hmode hoperator
    | visualLine => exact absurd hmode hvisual

end Unicode

/-! ## Runs -/

/-- The engine's state beside the text and the caret of its surface. -/
structure Surface where
  state : VimState
  value : Text
  caret : Nat

/-- What a surface says of itself when a key arrives. -/
structure Host where
  editable : Bool
  supportsVisualLine : Bool
  supportsCrossBlockWords : Bool

def Surface.snapshot (surface : Surface) (host : Host) : VimSnapshot :=
  ⟨surface.value, surface.caret, host.editable, host.supportsVisualLine,
    host.supportsCrossBlockWords⟩

def Surface.apply (surface : Surface) : VimEffect → Surface
  | .selection start _ => { surface with caret := start }
  | .edit start stop insert first _ =>
    { surface with value := spliced surface.value start stop insert, caret := first }
  | .surface _ => surface

namespace Unicode

variable (unicode : Unicode)

def press (surface : Surface) (host : Host) (key : VimKey) : Surface :=
  let interpretation := unicode.interpretVimKey surface.state (surface.snapshot host) key
  { interpretation.effects.foldl Surface.apply surface with state := interpretation.state }

/-- Runs of keys of which each is clear; between keys the text may change. -/
inductive Reachable : Surface → Prop where
  | initial {value : Text} {caret : Nat} (h : caret ∈ unicode.graphemeBoundaries value) :
      Reachable ⟨initialVimState .normal, value, caret⟩
  | press {surface : Surface} {host : Host} {key : VimKey} (h : Reachable surface)
      (hclear : unicode.Clear surface.state (surface.snapshot host) key) :
      Reachable (unicode.press surface host key)
  | change {surface : Surface} {value : Text} {caret : Nat} (h : Reachable surface)
      (hcaret : caret ∈ unicode.graphemeBoundaries value) :
      Reachable { surface with value := value, caret := caret }

variable {unicode}

theorem apply_caret {surface : Surface}
    (hcaret : surface.caret ∈ unicode.graphemeBoundaries surface.value) {effects : List VimEffect}
    (hshort : effects.length ≤ 1)
    (hfits : ∀ effect ∈ effects, unicode.Fits surface.value effect) :
    (effects.foldl Surface.apply surface).caret ∈
      unicode.graphemeBoundaries (effects.foldl Surface.apply surface).value := by
  cases effects with
  | nil => exact hcaret
  | cons effect effects =>
    obtain rfl : effects = [] := by
      rw [List.length_cons] at hshort
      exact List.length_eq_zero_iff.mp (by omega)
    have hfit := hfits effect List.mem_cons_self
    cases effect with
    | selection start stop => exact hfit.2.2.1
    | edit start stop insert first last => exact hfit.2.2.2.2.2
    | surface command => exact hcaret

/-- In a run the caret is between graphemes whenever a key arrives. -/
theorem Reachable.keeps (hapart : unicode.NewlinesApart) {surface : Surface}
    (h : unicode.Reachable surface) :
    surface.state.Ordered ∧ surface.caret ∈ unicode.graphemeBoundaries surface.value := by
  induction h with
  | initial hcaret => exact ⟨(clean_initial .normal).ordered, hcaret⟩
  | @press surface host key _ hclear ih =>
    obtain ⟨hordered, hcaret⟩ := ih
    have hsound := interpretVimKey_sound hapart hordered hcaret hclear
    exact ⟨hsound.ordered, apply_caret hcaret hsound.short hsound.fits⟩
  | change _ hcaret ih => exact ⟨ih.1, hcaret⟩

/-- Whatever keys came before, a clear key does what it is for. -/
theorem keys_sound (hapart : unicode.NewlinesApart) {surface : Surface}
    (h : unicode.Reachable surface) (host : Host) (key : VimKey)
    (hclear : unicode.Clear surface.state (surface.snapshot host) key) :
    surface.state.Ordered ∧ surface.caret ∈ unicode.graphemeBoundaries surface.value ∧
      unicode.Sound surface.state (surface.snapshot host) key
        (unicode.interpretVimKey surface.state (surface.snapshot host) key) := by
  obtain ⟨hordered, hcaret⟩ := h.keeps hapart
  exact ⟨hordered, hcaret, interpretVimKey_sound hapart hordered hcaret hclear⟩

theorem mem_plain {value : Text} {position : Nat} :
    position ∈ plain.graphemeBoundaries value ↔ position ≤ value.length := by
  constructor
  · exact plain.le_of_mem_graphemeBoundaries
  · intro hle
    rcases Nat.eq_or_lt_of_le hle with rfl | hlt
    · exact plain.length_mem_graphemeBoundaries value
    · have hstart : position ∈ plain.starts value := by
        rcases Nat.eq_zero_or_pos position with rfl | hpos
        · exact List.mem_cons_self
        · exact List.mem_cons_of_mem _
            (List.mem_filter.mpr ⟨List.mem_range.mpr hlt, decide_eq_true hpos⟩)
      unfold graphemeBoundaries
      split
      · exact List.mem_append_left _ hstart
      · exact hstart

theorem newlinesApart_plain : plain.NewlinesApart := by
  intro value index h
  have hlt := (List.getElem?_eq_some_iff.mp h).1
  exact ⟨mem_plain.mpr (Nat.le_of_lt hlt), mem_plain.mpr hlt⟩

/-- Where each unit is a grapheme, only the start of the text can go wrong. -/
theorem clear_plain {state : VimState} {snapshot : VimSnapshot} {key : VimKey}
    (h : ¬AtEmptyStart snapshot.value snapshot.selectionStart) :
    plain.Clear state snapshot key where
  first := fun _ _ _ _ => h
  last := fun _ _ => mem_plain.mpr (Nat.sub_le _ _)
  column := by
    intro down _ line _ start _
    rcases Nat.le_total (start + keptColumn snapshot.value snapshot.selectionStart
      state.desiredColumn) snapshot.value.length with hle | hge
    · exact Or.inl (mem_plain.mpr hle)
    · exact Or.inr (Nat.le_trans (lineEnd_le _ _) hge)
  apart := by
    intro _ start hstart stop _ _ _
    have hle := mem_plain.mp hstart
    refine mem_plain.mpr ?_
    unfold spliced
    rw [List.length_append, List.length_append, List.length_take]
    omega

/-- A key without modifiers. -/
def plainKey (c : Char) : VimKey := ⟨.char c, false, false, false, false⟩

def textHost : Host := ⟨true, true, false⟩

/-- "ab" behind `x` on the first character, and then `h`. -/
theorem keys_sound_cut :
    plain.Sound (initialVimState .normal) ⟨[98], 0, true, true, false⟩ (plainKey 'h')
      (plain.interpretVimKey (initialVimState .normal) ⟨[98], 0, true, true, false⟩
        (plainKey 'h')) := by
  have hinitial : plain.Reachable ⟨initialVimState .normal, [97, 98], 0⟩ :=
    Reachable.initial (mem_plain.mpr (Nat.zero_le _))
  have hpressed : plain.Reachable
      (plain.press ⟨initialVimState .normal, [97, 98], 0⟩ textHost (plainKey 'x')) :=
    hinitial.press (clear_plain (by decide))
  exact (keys_sound newlinesApart_plain hpressed textHost (plainKey 'h')
    (clear_plain (by decide))).2.2

/-- At the start of a text that begins with a newline, `h` goes to the next line. -/
theorem left_goes_down :
    ¬∀ (unicode : Unicode), unicode.NewlinesApart → ∀ (value : Text),
      ∀ caret ∈ unicode.graphemeBoundaries value, ∀ (host : Host) (key : VimKey),
        unicode.Sound (initialVimState .normal)
          (Surface.snapshot ⟨initialVimState .normal, value, caret⟩ host) key
          (unicode.interpretVimKey (initialVimState .normal)
            (Surface.snapshot ⟨initialVimState .normal, value, caret⟩ host) key) := by
  intro hall
  have hsound := hall plain newlinesApart_plain [newline] 0 (mem_plain.mpr (Nat.zero_le _))
    textHost (plainKey 'h')
  have halong := hsound.along rfl 'h' (by decide) rfl 1 1 (by decide)
  exact absurd (halong.back (Or.inl rfl)) (by decide)

end Unicode

end Neoseq.Vim
