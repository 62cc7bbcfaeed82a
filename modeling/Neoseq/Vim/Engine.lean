import Neoseq.Vim.Lines
import Neoseq.Vim.TextObjects
import Neoseq.Vim.Units

/-! The keys of Vim for one text: modes, counts, operators, and what a key makes of them. -/

namespace Neoseq.Vim

inductive VimMode where
  | normal | insert | operatorPending | visualLine
  deriving DecidableEq

inductive VimOperator where
  | delete | change | indent | outdent
  deriving DecidableEq

structure VimState where
  mode : VimMode
  /-- The digits typed so far. -/
  count : List Char
  operator : Option VimOperator
  operatorCount : Nat
  textObject : Option TextObjectModifier
  /-- Whether a `g` waits for its second key. -/
  prefixG : Bool
  desiredColumn : Option Nat
  deriving DecidableEq

structure VimSnapshot where
  value : Text
  selectionStart : Nat
  editable : Bool
  supportsVisualLine : Bool
  supportsCrossBlockWords : Bool

/-- The names of keys that the grammar tells apart. -/
inductive Key where
  | char (c : Char)
  | escape | contextMenu | f10 | arrowLeft | arrowDown | arrowUp | arrowRight | enter | home
  | endKey | backspace | tab | delete | other
  deriving DecidableEq

structure VimKey where
  key : Key
  shift : Bool
  alt : Bool
  ctrl : Bool
  metaKey : Bool

inductive Edge where
  | first | last
  deriving DecidableEq

inductive VisualLineCommand where
  | start (count caret : Nat) (column : Int)
  | move (down : Bool) (count : Nat)
  | edge (edge : Edge)
  | cancel | delete | indent | outdent
  deriving DecidableEq

inductive SurfaceCommand where
  | focus (down : Bool) (count column : Nat)
  | focusEdge (edge : Edge)
  | wordMotion (motion : WordMotion) (count caret : Nat) (operator : Option VimOperator)
  | openUnit (after : Bool)
  | deleteUnit (count : Nat)
  | indent (count : Nat)
  | outdent (count : Nat)
  | history (redo : Bool)
  | visualLine (command : VisualLineCommand)
  deriving DecidableEq

inductive VimEffect where
  | selection (start stop : Nat)
  | edit (start stop : Nat) (insert : Text) (selectionStart selectionEnd : Nat)
  | surface (command : SurfaceCommand)
  deriving DecidableEq

structure VimInterpretation where
  handled : Bool
  state : VimState
  effects : List VimEffect

def initialVimState (mode : VimMode) : VimState := ⟨mode, [], none, 1, none, false, none⟩

def normalState (desiredColumn : Option Nat) : VimState :=
  { initialVimState .normal with desiredColumn := desiredColumn }

def result (state : VimState) (effects : List VimEffect) : VimInterpretation :=
  ⟨true, state, effects⟩

def pass (state : VimState) : VimInterpretation := ⟨false, state, []⟩

/-! ## Counts -/

def parsedCount (value : List Char) : Nat :=
  if value = [] then 1
  else max 1 (min (value.foldl (fun number digit => 10 * number + (digit.toNat - 48)) 0) 9999)

def appendCount (state : VimState) (digit : Char) : VimState :=
  { state with count := (state.count ++ [digit]).take 4 }

/-- The digit that a key adds to a count; a zero does only behind other digits. -/
def countDigit (state : VimState) : Key → Option Char
  | .char c => if ('1' ≤ c ∧ c ≤ '9') ∨ (c = '0' ∧ state.count ≠ []) then some c else none
  | _ => none

/-! ## Motions -/

inductive Motion where
  | text (position : Nat) (inclusive : Bool) (desiredColumn : Option Nat)
  | surface (command : SurfaceCommand) (desiredColumn : Nat)

/-- The name of the motion that a key stands for. -/
def mappedMotion : Key → Option Char
  | .arrowLeft => some 'h'
  | .arrowDown => some 'j'
  | .enter => some 'j'
  | .arrowUp => some 'k'
  | .arrowRight => some 'l'
  | .home => some '0'
  | .endKey => some '$'
  | .backspace => some 'h'
  | .char c => some c
  | _ => none

def wordMotionOf : Char → Option WordMotion
  | 'w' => some .w
  | 'b' => some .b
  | 'e' => some .e
  | _ => none

def isWordMotion : Key → Option WordMotion
  | .char c => wordMotionOf c
  | _ => none

/-- The column that vertical motion keeps to. -/
def keptColumn (value : Text) (position : Nat) (desiredColumn : Option Nat) : Nat :=
  let starts := lineStarts value
  desiredColumn.getD (position - starts[lineIndexAt starts position]?.getD 0)

/-- The line a count of lines away, which may be outside of the text. -/
def targetLine (value : Text) (position : Nat) (down : Bool) (count : Nat) : Int :=
  lineIndexAt (lineStarts value) position + (if down then (count : Int) else -count)

/-- The loop of `step` over a count. -/
def steps (step : Nat → Nat) : (count cursor : Nat) → Nat
  | 0, cursor => cursor
  | count + 1, cursor => steps step count (step cursor)

/-- Down to the line a count of lines further on, as far as there are lines. -/
def downLines (value : Text) : (rounds cursor : Nat) → Nat
  | 0, cursor => cursor
  | rounds + 1, cursor =>
    if lineEnd value cursor ≥ value.length then cursor
    else downLines value rounds (lineEnd value cursor + 1)

/-- The text without a span, and another text in its place. -/
def spliced (value : Text) (start stop : Nat) (insert : Text) : Text :=
  value.take start ++ insert ++ value.drop stop

/-! ## Keys of Visual Line mode -/

def finishVisualLine (command : VisualLineCommand) : VimInterpretation :=
  result (normalState none) [.surface (.visualLine command)]

def interpretVisualLine (state : VimState) (key : VimKey) : VimInterpretation :=
  if key.key = .escape ∨ key.key = .char 'V' ∨ (key.ctrl ∧ key.key = .char '[') then
    finishVisualLine .cancel
  else if key.key = .contextMenu ∨ (key.shift ∧ key.key = .f10) then pass state
  else if key.ctrl ∨ key.metaKey ∨ key.alt then pass state
  else
    match countDigit state key.key with
    | some digit => result (appendCount state digit) []
    | none =>
      if state.prefixG then
        if key.key = .char 'g' then
          result (initialVimState .visualLine) [.surface (.visualLine (.edge .first))]
        else result (initialVimState .visualLine) []
      else
        let count := parsedCount state.count
        if key.key = .char 'g' then result { state with prefixG := true } []
        else if key.key = .char 'G' then
          result (initialVimState .visualLine) [.surface (.visualLine (.edge .last))]
        else if key.key = .char 'j' ∨ key.key = .arrowDown ∨ key.key = .enter then
          result (initialVimState .visualLine) [.surface (.visualLine (.move true count))]
        else if key.key = .char 'k' ∨ key.key = .arrowUp then
          result (initialVimState .visualLine) [.surface (.visualLine (.move false count))]
        else if key.key = .char 'd' ∨ key.key = .char 'x' ∨ key.key = .delete ∨
            key.key = .backspace then
          finishVisualLine .delete
        else if key.key = .char '>' ∨ (key.key = .tab ∧ !key.shift) then
          finishVisualLine .indent
        else if key.key = .char '<' ∨ (key.key = .tab ∧ key.shift) then
          finishVisualLine .outdent
        else result (initialVimState .visualLine) []

/-- The operator that a key starts. -/
def operatorOf : Key → Option VimOperator
  | .char 'd' => some .delete
  | .char 'c' => some .change
  | .char '>' => some .indent
  | .char '<' => some .outdent
  | _ => none

def insertKey : Key → Option Char
  | .char c => if c = 'i' ∨ c = 'a' ∨ c = 'I' ∨ c = 'A' then some c else none
  | _ => none

namespace Unicode

variable (unicode : Unicode)

def verticalMotion (value : Text) (position : Nat) (down : Bool) (count : Nat)
    (desiredColumn : Option Nat) : Motion :=
  let starts := lineStarts value
  let column := keptColumn value position desiredColumn
  let line := targetLine value position down count
  if 0 ≤ line ∧ line < starts.length then
    .text (unicode.clampNormalColumn value (starts[line.toNat]?.getD 0) column) false (some column)
  else
    let remaining := if line < 0 then line else line - (starts.length - 1)
    .surface (.focus down (max 1 remaining.natAbs) column) column

def motionFor (snapshot : VimSnapshot) (key : Key) (count : Nat) (desiredColumn : Option Nat) :
    Option Motion :=
  let value := snapshot.value
  let position := min snapshot.selectionStart value.length
  match mappedMotion key with
  | none => none
  | some mapped =>
    if mapped = 'j' ∨ mapped = 'k' then
      some (unicode.verticalMotion value position (mapped = 'j') count desiredColumn)
    else if mapped = 'h' then
      some (.text (steps (unicode.charLeft value) count position) false none)
    else if mapped = 'l' then
      some (.text (steps (unicode.charRight value) count position) false none)
    else if mapped = '0' then some (.text (lineStart value position) false none)
    else if mapped = '^' then some (.text (unicode.firstNonBlank value position) false none)
    else if mapped = '$' then
      some (.text (unicode.normalLineEnd value (downLines value (count - 1) position)) true none)
    else
      match wordMotionOf mapped with
      | some motion =>
        some (.text (unicode.globalWordMotion value position motion count) (motion = .e) none)
      | none => none

/-! ## Edits -/

def normalCaretAfterEdit (value : Text) (position : Nat) : Nat :=
  if value.length = 0 then 0
  else if position < value.length then position
  else unicode.previousBoundary value value.length

def editEffect (snapshot : VimSnapshot) (start stop : Nat) (insert : Text) (insertMode : Bool) :
    VimEffect :=
  let position := start + insert.length
  let caret :=
    if insertMode then position
    else unicode.normalCaretAfterEdit (spliced snapshot.value start stop insert) position
  .edit start stop insert caret caret

def operatorRange (snapshot : VimSnapshot) (position : Nat) (inclusive : Bool) : Nat × Nat :=
  let start := snapshot.selectionStart
  if position ≥ start then
    (start, if inclusive then unicode.nextBoundary snapshot.value position else position)
  else (position, start)

/-- The loop of `x` over characters, up to the line's end. -/
def charactersFrom (value : Text) (stop : Nat) : (count cursor : Nat) → Nat
  | 0, cursor => cursor
  | count + 1, cursor =>
    if cursor < stop then charactersFrom value stop count (unicode.nextBoundary value cursor)
    else cursor

def deleteCharacters (snapshot : VimSnapshot) (count : Nat) : Option VimEffect :=
  if !snapshot.editable then none
  else
    let start := snapshot.selectionStart
    let stop := unicode.charactersFrom snapshot.value (lineEnd snapshot.value start) count start
    if stop > start then some (unicode.editEffect snapshot start stop [] false) else none

/-! ## Keys behind an operator -/

/-- The end of a command that removes a span. -/
def cut (snapshot : VimSnapshot) (changing : Bool) (start stop : Nat) : VimInterpretation :=
  result (if changing then initialVimState .insert else normalState none)
    [unicode.editEffect snapshot start stop [] changing]

def interpretOperator (state : VimState) (snapshot : VimSnapshot) (key : VimKey) :
    VimInterpretation :=
  match countDigit state key.key with
  | some digit => result (appendCount state digit) []
  | none =>
    let count := state.operatorCount * parsedCount state.count
    let editsText := state.operator = some .delete ∨ state.operator = some .change
    let changing := decide (state.operator = some .change)
    if editsText ∧ state.textObject = none ∧ (key.key = .char 'i' ∨ key.key = .char 'a') then
      result { state with
        textObject := some (if key.key = .char 'i' then .inner else .around) } []
    else
      match state.textObject with
      | some modifier =>
        if ¬editsText ∨ key.key ≠ .char 'w' ∨ !snapshot.editable then
          result (normalState none) []
        else
          match unicode.wordTextObjectRange snapshot.value snapshot.selectionStart modifier
              count with
          | none => result (normalState none) []
          | some span =>
            if span.1 = span.2 then result (normalState none) []
            else unicode.cut snapshot changing span.1 span.2
      | none =>
        if (state.operator = some .delete ∧ key.key = .char 'd') ∨
            (state.operator = some .change ∧ key.key = .char 'c') then
          if !snapshot.editable then result (normalState none) []
          else if state.operator = some .delete then
            result (normalState none) [.surface (.deleteUnit count)]
          else
            result (initialVimState .insert)
              [unicode.editEffect snapshot 0 snapshot.value.length [] true]
        else if state.operator = some .indent ∧ key.key = .char '>' then
          result (normalState none)
            (if snapshot.editable then [.surface (.indent count)] else [])
        else if state.operator = some .outdent ∧ key.key = .char '<' then
          result (normalState none)
            (if snapshot.editable then [.surface (.outdent count)] else [])
        else if ¬editsText then result (normalState none) []
        else
          match if snapshot.supportsCrossBlockWords then isWordMotion key.key else none with
          | some motion =>
            if !snapshot.editable then result (normalState none) []
            else
              result (if changing then initialVimState .insert else normalState none)
                [.surface (.wordMotion motion count snapshot.selectionStart state.operator)]
          | none =>
            match unicode.motionFor snapshot key.key count state.desiredColumn with
            | some (.text position inclusive _) =>
              if !snapshot.editable then result (normalState none) []
              else
                let span := unicode.operatorRange snapshot position inclusive
                if span.1 = span.2 then result (normalState none) []
                else unicode.cut snapshot changing span.1 span.2
            | _ => result (normalState none) []

/-! ## Keys of Normal mode -/

def enterInsert (snapshot : VimSnapshot) (key : Char) : VimInterpretation :=
  if !snapshot.editable then result (normalState none) []
  else
    let position := snapshot.selectionStart
    let caret :=
      if key = 'i' then position
      else if key = 'a' then
        min (lineEnd snapshot.value position) (unicode.nextBoundary snapshot.value position)
      else if key = 'I' then unicode.firstNonBlank snapshot.value position
      else lineEnd snapshot.value position
    result (initialVimState .insert) [.selection caret caret]

/-- The motions of Normal mode. -/
def interpretMotion (state : VimState) (snapshot : VimSnapshot) (key : VimKey) (count : Nat) :
    VimInterpretation :=
  match if snapshot.supportsCrossBlockWords then isWordMotion key.key else none with
  | some motion =>
    result (normalState none) [.surface (.wordMotion motion count snapshot.selectionStart none)]
  | none =>
    match unicode.motionFor snapshot key.key count state.desiredColumn with
    | some (.surface command column) => result (normalState (some column)) [.surface command]
    | some (.text position _ column) => result (normalState column) [.selection position position]
    | none => result (normalState none) []

/-- The commands of Normal mode that are done at once. -/
def interpretCommand (state : VimState) (snapshot : VimSnapshot) (key : VimKey) (count : Nat) :
    VimInterpretation :=
  if key.key = .char 'o' ∨ key.key = .char 'O' then
    if !snapshot.editable then result (normalState none) []
    else result (initialVimState .insert) [.surface (.openUnit (key.key = .char 'o'))]
  else if key.key = .char 'u' then
    result (normalState none) (if snapshot.editable then [.surface (.history false)] else [])
  else if key.key = .tab then
    result (normalState none)
      (if snapshot.editable then [.surface (if key.shift then .outdent count else .indent count)]
      else [])
  else if key.key = .char 'x' ∨ key.key = .delete then
    result (normalState none) (unicode.deleteCharacters snapshot count).toList
  else if key.key = .char 'D' ∨ key.key = .char 'C' then
    if !snapshot.editable then result (normalState none) []
    else
      let start := snapshot.selectionStart
      let stop := lineEnd snapshot.value start
      let changing := decide (key.key = .char 'C')
      result (if changing then initialVimState .insert else normalState none)
        (if stop > start then [unicode.editEffect snapshot start stop [] changing] else [])
  else unicode.interpretMotion state snapshot key count

def interpretNormal (state : VimState) (snapshot : VimSnapshot) (key : VimKey) :
    VimInterpretation :=
  if key.key = .escape then result (normalState none) []
  else if state.prefixG then
    if key.key = .char 'g' then result (normalState none) [.surface (.focusEdge .first)]
    else result (normalState none) []
  else
    match countDigit state key.key with
    | some digit => result (appendCount state digit) []
    | none =>
      let count := parsedCount state.count
      if key.key = .char 'V' then
        if !snapshot.supportsVisualLine then result (normalState none) []
        else
          result (initialVimState .visualLine)
            [.surface (.visualLine (.start count snapshot.selectionStart
              (snapshot.selectionStart - lineStart snapshot.value snapshot.selectionStart)))]
      else if key.key = .char 'g' then result { state with prefixG := true } []
      else if key.key = .char 'G' then result (normalState none) [.surface (.focusEdge .last)]
      else
        match operatorOf key.key with
        | some operator =>
          result { initialVimState .operatorPending with
            operator := some operator, operatorCount := count } []
        | none =>
          match insertKey key.key with
          | some c => unicode.enterInsert snapshot c
          | none => unicode.interpretCommand state snapshot key count

def interpretVimKey (state : VimState) (snapshot : VimSnapshot) (key : VimKey) :
    VimInterpretation :=
  let escape := key.key = .escape ∨ (key.ctrl ∧ key.key = .char '[')
  if state.mode = .insert then
    if ¬escape then pass state
    else
      let position := snapshot.selectionStart
      let start := lineStart snapshot.value position
      let caret :=
        if position > start then unicode.previousBoundary snapshot.value position else position
      result (normalState none) [.selection caret caret]
  else if state.mode = .visualLine then interpretVisualLine state key
  else if escape then result (normalState none) []
  else if key.ctrl ∧ !key.metaKey ∧ !key.alt ∧ (key.key = .char 'r' ∨ key.key = .char 'R') then
    result (normalState none) (if snapshot.editable then [.surface (.history true)] else [])
  else if key.key = .contextMenu ∨ (key.shift ∧ key.key = .f10) then pass state
  else if key.ctrl ∨ key.metaKey ∨ key.alt then pass state
  else if state.mode = .operatorPending then unicode.interpretOperator state snapshot key
  else unicode.interpretNormal state snapshot key

end Unicode

end Neoseq.Vim
