import Neoseq.Vim.Graphemes

/-! Text objects: the runs of a text, and the spans of words among them. -/

namespace Neoseq.Vim

/-- Graphemes of one class side by side. -/
abbrev TextRun := Grapheme

inductive TextObjectModifier where
  | inner | around
  deriving DecidableEq

/-- The last run is carried on until a grapheme of another class comes. -/
def runsFrom (prior : TextRun) : List Grapheme → List TextRun
  | [] => [prior]
  | item :: items =>
    if prior.kind = item.kind then runsFrom { prior with stop := item.stop } items
    else prior :: runsFrom item items

def runIndexAt (items : List TextRun) (position : Nat) : Nat :=
  match items.findIdx? fun item => position ≥ item.start && position < item.stop with
  | some containing => containing
  | none =>
    if position ≥ (items.getLast?.map Grapheme.stop).getD 0 then items.length - 1 else 0

/-- The span of the runs between two indices. -/
def runSpan (items : List TextRun) (first last : Nat) : Option (Nat × Nat) :=
  match items[first]?, items[last]? with
  | some start, some stop => some (start.start, stop.stop)
  | _, _ => none

def innerWordRange (items : List TextRun) (index count : Nat) : Option (Nat × Nat) :=
  let last := index + count - 1
  if last ≥ items.length then none else runSpan items index last

/-- The loop over the runs behind one, until enough of them are words. -/
def passWords (count : Nat) : List TextRun → (last words : Nat) → Nat × Nat
  | [], last, words => (last, words)
  | item :: items, last, words =>
    if words < count then
      passWords count items (last + 1) (if item.kind ≠ .space then words + 1 else words)
    else (last, words)

def isSpaceAt (items : List TextRun) (index : Nat) : Bool :=
  items[index]?.any fun item => item.kind = .space

def aroundWordRange (items : List TextRun) (index count : Nat) : Option (Nat × Nat) :=
  if isSpaceAt items index then
    let passed := passWords count (items.drop (index + 1)) index 0
    if passed.2 = count then runSpan items index passed.1 else none
  else
    let passed := passWords count (items.drop (index + 1)) index 1
    if passed.2 < count then none
    else if isSpaceAt items (passed.1 + 1) then runSpan items index (passed.1 + 1)
    else
      let first := if index > 0 ∧ isSpaceAt items (index - 1) then index - 1 else index
      runSpan items first passed.1

namespace Unicode

variable (unicode : Unicode)

def textRuns (value : Text) : List TextRun :=
  match unicode.graphemes value with
  | [] => []
  | item :: items => runsFrom item items

def wordTextObjectRange (value : Text) (position : Nat) (modifier : TextObjectModifier)
    (count : Nat) : Option (Nat × Nat) :=
  let items := unicode.textRuns value
  if items.length = 0 then none
  else
    let index := runIndexAt items (min position value.length)
    match modifier with
    | .inner => innerWordRange items index count
    | .around => aroundWordRange items index count

end Unicode

/-! ## Runs side by side -/

/-- Runs that fill a span, each at the end of the one before. -/
def Tiles (boundary : Nat → Prop) : List TextRun → (first last : Nat) → Prop
  | [], first, last => first = last ∧ boundary last
  | run :: runs, first, last =>
    run.start = first ∧ boundary first ∧ first < run.stop ∧ Tiles boundary runs run.stop last

section
variable {boundary : Nat → Prop} {runs : List TextRun} {first last : Nat}

theorem Tiles.start (h : Tiles boundary runs first last) : boundary first := by
  cases runs with
  | nil =>
    obtain ⟨rfl, hplace⟩ := h
    exact hplace
  | cons run runs => exact h.2.1

theorem Tiles.le (h : Tiles boundary runs first last) : first ≤ last := by
  induction runs generalizing first with
  | nil => exact Nat.le_of_eq h.1
  | cons run runs ih =>
    obtain ⟨-, -, hrun, hrest⟩ := h
    exact Nat.le_trans (Nat.le_of_lt hrun) (ih hrest)

theorem Tiles.of_mem (h : Tiles boundary runs first last) {run : TextRun} (hmem : run ∈ runs) :
    boundary run.start ∧ boundary run.stop ∧ first ≤ run.start ∧ run.start < run.stop ∧
      run.stop ≤ last := by
  induction runs generalizing first with
  | nil => cases hmem
  | cons item runs ih =>
    obtain ⟨rfl, hstart, hrun, hrest⟩ := h
    rcases List.mem_cons.mp hmem with rfl | hmem
    · exact ⟨hstart, hrest.start, Nat.le_refl _, hrun, hrest.le⟩
    · obtain ⟨hfirst, hstop, hle, hlt, hlast⟩ := ih hrest hmem
      exact ⟨hfirst, hstop, by omega, hlt, hlast⟩

theorem Tiles.pairwise (h : Tiles boundary runs first last) :
    runs.Pairwise fun run other => run.stop ≤ other.start := by
  induction runs generalizing first with
  | nil => exact List.Pairwise.nil
  | cons item runs ih =>
    obtain ⟨-, -, -, hrest⟩ := h
    exact List.pairwise_cons.mpr ⟨fun other hother => (hrest.of_mem hother).2.2.1, ih hrest⟩

theorem Tiles.exists_run (h : Tiles boundary runs first last) {position : Nat}
    (hfirst : first ≤ position) (hlast : position < last) :
    ∃ run ∈ runs, run.start ≤ position ∧ position < run.stop := by
  induction runs generalizing first with
  | nil =>
    obtain ⟨rfl, -⟩ := h
    omega
  | cons item runs ih =>
    obtain ⟨rfl, -, hrun, hrest⟩ := h
    rcases Nat.lt_or_ge position item.stop with hinside | hbehind
    · exact ⟨item, List.mem_cons_self, hfirst, hinside⟩
    · obtain ⟨other, hmem, hother⟩ := ih hrest hbehind
      exact ⟨other, List.mem_cons_of_mem _ hmem, hother⟩

theorem Tiles.getLast (h : Tiles boundary runs first last) (hne : runs ≠ []) :
    runs.getLast?.map Grapheme.stop = some last := by
  induction runs generalizing first with
  | nil => exact absurd rfl hne
  | cons item runs ih =>
    obtain ⟨-, -, -, hrest⟩ := h
    cases runs with
    | nil => rw [List.getLast?_singleton, Option.map_some, hrest.1]
    | cons next runs =>
      rw [List.getLast?_cons_cons]
      exact ih hrest (by simp)

/-- Merging neighbours of one class keeps runs side by side. -/
theorem Tiles.runsFrom {prior : TextRun} {items : List Grapheme}
    (h : Tiles boundary (prior :: items) first last) :
    Tiles boundary (runsFrom prior items) first last := by
  induction items generalizing prior first with
  | nil => exact h
  | cons item items ih =>
    obtain ⟨hfirst, hstart, hprior, hitem, hmiddle, hlt, hrest⟩ := h
    rw [Vim.runsFrom]
    split
    · exact ih ⟨hfirst, hstart, Nat.lt_trans hprior hlt, hrest⟩
    · exact ⟨hfirst, hstart, hprior, ih ⟨hitem, hmiddle, hlt, hrest⟩⟩

/-- The run at a position holds it, or ends with it. -/
theorem Tiles.runIndexAt (h : Tiles boundary runs 0 last) (hne : runs ≠ []) {position : Nat}
    (hposition : position ≤ last) :
    ∃ hindex : runIndexAt runs position < runs.length,
      runs[runIndexAt runs position].start ≤ position ∧
        position ≤ runs[runIndexAt runs position].stop := by
  have hpos := List.length_pos_iff.mpr hne
  have hlast := h.getLast hne
  unfold Vim.runIndexAt
  cases hfind : runs.findIdx? fun item => position ≥ item.start && position < item.stop with
  | some index =>
    obtain ⟨hindex, hinside, -⟩ := List.findIdx?_eq_some_iff_getElem.mp hfind
    rw [Bool.and_eq_true] at hinside
    exact ⟨hindex, of_decide_eq_true hinside.1,
      Nat.le_of_lt (of_decide_eq_true hinside.2)⟩
  | none =>
    have hend : position = last := by
      by_contra hlt
      obtain ⟨run, hmem, hstart, hstop⟩ := h.exists_run (Nat.zero_le position) (by omega)
      have hnone := List.findIdx?_eq_none_iff.mp hfind run hmem
      simp [hstart, hstop] at hnone
    dsimp only
    rw [hlast, if_pos (by rw [Option.getD_some]; exact Nat.le_of_eq hend.symm)]
    have hindex : runs.length - 1 < runs.length := by omega
    refine ⟨hindex, ?_⟩
    rw [List.getLast?_eq_getElem?, List.getElem?_eq_getElem hindex, Option.map_some] at hlast
    obtain ⟨-, -, -, hlt, -⟩ := h.of_mem (List.getElem_mem hindex)
    have hstop := Option.some.inj hlast
    omega

/-- A span from a run to a later one. -/
theorem Tiles.runSpan (h : Tiles boundary runs first last) {i j k : Nat} (hik : i ≤ k)
    (hkj : k ≤ j) (hk : k < runs.length) {span : Nat × Nat}
    (hspan : runSpan runs i j = some span) :
    boundary span.1 ∧ boundary span.2 ∧ span.1 ≤ runs[k].start ∧ runs[k].stop ≤ span.2 := by
  have hordered := List.pairwise_iff_getElem.mp h.pairwise
  unfold Vim.runSpan at hspan
  cases hi : runs[i]? with
  | none => rw [hi] at hspan; cases hspan
  | some start =>
    cases hj : runs[j]? with
    | none => rw [hi, hj] at hspan; cases hspan
    | some stop =>
      rw [hi, hj] at hspan
      obtain rfl := Option.some.inj hspan
      obtain ⟨hi', rfl⟩ := List.getElem?_eq_some_iff.mp hi
      obtain ⟨hj', rfl⟩ := List.getElem?_eq_some_iff.mp hj
      have hfirst := h.of_mem (List.getElem_mem hi')
      have hlast := h.of_mem (List.getElem_mem hj')
      have hmiddle := h.of_mem (List.getElem_mem hk)
      refine ⟨hfirst.1, hlast.2.1, ?_, ?_⟩
      · rcases Nat.lt_or_eq_of_le hik with hlt | rfl
        · have hle := hordered i k hi' hk hlt
          exact Nat.le_trans (Nat.le_of_lt hfirst.2.2.2.1) hle
        · exact Nat.le_refl _
      · rcases Nat.lt_or_eq_of_le hkj with hlt | rfl
        · have hle := hordered k j hk hj' hlt
          exact Nat.le_trans hle (Nat.le_of_lt hlast.2.2.2.1)
        · exact Nat.le_refl _

theorem le_passWords (count : Nat) (items : List TextRun) (last words : Nat) :
    last ≤ (passWords count items last words).1 := by
  induction items generalizing last words with
  | nil => exact Nat.le_refl _
  | cons item items ih =>
    rw [passWords]
    split
    · exact Nat.le_trans (Nat.le_succ last) (ih _ _)
    · exact Nat.le_refl _

/-- A text object's span goes between boundaries, over the run it starts from. -/
theorem Tiles.aroundWordRange (h : Tiles boundary runs first last) {index count : Nat}
    (hindex : index < runs.length) {span : Nat × Nat}
    (hspan : aroundWordRange runs index count = some span) :
    boundary span.1 ∧ boundary span.2 ∧ span.1 ≤ runs[index].start ∧
      runs[index].stop ≤ span.2 := by
  unfold Vim.aroundWordRange at hspan
  dsimp only at hspan
  split at hspan
  · split at hspan
    · exact h.runSpan (Nat.le_refl _) (le_passWords _ _ _ _) hindex hspan
    · cases hspan
  · have hle := le_passWords count (runs.drop (index + 1)) index 1
    split at hspan
    · cases hspan
    · split at hspan
      · exact h.runSpan (Nat.le_refl _) (Nat.le_succ_of_le hle) hindex hspan
      · refine h.runSpan ?_ hle hindex hspan
        split
        · exact Nat.sub_le _ _
        · exact Nat.le_refl _

theorem Tiles.innerWordRange (h : Tiles boundary runs first last) {index count : Nat}
    (hindex : index < runs.length) (hcount : 0 < count) {span : Nat × Nat}
    (hspan : innerWordRange runs index count = some span) :
    boundary span.1 ∧ boundary span.2 ∧ span.1 ≤ runs[index].start ∧
      runs[index].stop ≤ span.2 := by
  unfold Vim.innerWordRange at hspan
  dsimp only at hspan
  split at hspan
  · cases hspan
  · exact h.runSpan (Nat.le_refl _) (by omega) hindex hspan

end

namespace Unicode

variable (unicode : Unicode)

theorem tiles_drop (value : Text) (rest index : Nat)
    (h : index + rest = (unicode.graphemes value).length) :
    Tiles (· ∈ unicode.graphemeBoundaries value) ((unicode.graphemes value).drop index)
      (unicode.boundaryAt value index) value.length := by
  induction rest generalizing index with
  | zero =>
    obtain rfl : index = (unicode.graphemes value).length := by omega
    rw [List.drop_length]
    exact ⟨unicode.boundaryAt_length value, unicode.length_mem_graphemeBoundaries value⟩
  | succ rest ih =>
    have hlt : index < (unicode.graphemes value).length := by omega
    obtain ⟨hstart, hstop⟩ := unicode.getElem_graphemes hlt
    rw [List.drop_eq_getElem_cons hlt]
    refine ⟨hstart, unicode.boundaryAt_mem value index, ?_, ?_⟩
    · rw [hstop]
      exact unicode.boundaryAt_lt (Nat.lt_succ_self index) hlt
    · rw [hstop]
      exact ih (index + 1) (by omega)

theorem tiles_textRuns (value : Text) :
    Tiles (· ∈ unicode.graphemeBoundaries value) (unicode.textRuns value) 0 value.length := by
  have htiles := unicode.tiles_drop value (unicode.graphemes value).length 0 (Nat.zero_add _)
  rw [List.drop_zero, unicode.boundaryAt_zero] at htiles
  unfold textRuns
  cases hitems : unicode.graphemes value with
  | nil => rwa [hitems] at htiles
  | cons item items =>
    rw [hitems] at htiles
    exact htiles.runsFrom

/-- A text object is cut out between boundaries around the caret. -/
theorem wordTextObjectRange_spec {value : Text} {position : Nat} (h : position ≤ value.length)
    {modifier : TextObjectModifier} {count : Nat} (hcount : 0 < count) {span : Nat × Nat}
    (hspan : unicode.wordTextObjectRange value position modifier count = some span) :
    span.1 ∈ unicode.graphemeBoundaries value ∧ span.2 ∈ unicode.graphemeBoundaries value ∧
      span.1 ≤ position ∧ position ≤ span.2 := by
  have htiles := unicode.tiles_textRuns value
  unfold wordTextObjectRange at hspan
  dsimp only at hspan
  split at hspan
  · cases hspan
  · next hlength =>
    rw [Nat.min_eq_left h] at hspan
    have hne : unicode.textRuns value ≠ [] := fun hnil => hlength (by rw [hnil]; rfl)
    obtain ⟨hindex, hstart, hstop⟩ := htiles.runIndexAt hne h
    cases modifier with
    | inner =>
      obtain ⟨hfirst, hlast, hle, hge⟩ := htiles.innerWordRange hindex hcount hspan
      exact ⟨hfirst, hlast, Nat.le_trans hle hstart, Nat.le_trans hstop hge⟩
    | around =>
      obtain ⟨hfirst, hlast, hle, hge⟩ := htiles.aroundWordRange hindex hspan
      exact ⟨hfirst, hlast, Nat.le_trans hle hstart, Nat.le_trans hstop hge⟩

end Unicode

end Neoseq.Vim
