import Neoseq.Vim.Words

/-! Word motions over several text units, which the document joins by newlines. -/

namespace Neoseq.Vim

inductive WordMotion where
  | w | b | e
  deriving DecidableEq

structure WordPosition where
  unit : Nat
  offset : Nat
  deriving DecidableEq

/-- A span of a unit. -/
structure WordEdit where
  unit : Nat
  start : Nat
  stop : Nat
  deriving DecidableEq

/-! ## Joined units -/

structure JoinedTextUnits where
  value : Text
  starts : List Nat

def unitStarts : List Text → (offset : Nat) → List Nat
  | [], _ => []
  | value :: values, offset => offset :: unitStarts values (offset + value.length + 1)

def joinTextUnits (values : List Text) : JoinedTextUnits :=
  ⟨List.intercalate [newline] values, unitStarts values 0⟩

/-- The loop that goes left over units that start behind a position. -/
def unitAt (starts : List Nat) (position : Nat) : Nat → Nat
  | 0 => 0
  | unit + 1 =>
    if starts[unit + 1]?.getD 0 > position then unitAt starts position unit else unit + 1

def positionInUnits (values : List Text) (starts : List Nat) (position : Nat) : WordPosition :=
  if values.length = 0 then ⟨0, 0⟩
  else
    let last := values.length - 1
    let clamped := min position (starts[last]?.getD 0 + (values[last]?.getD []).length)
    let unit := unitAt starts clamped (starts.length - 1)
    ⟨unit, min (values[unit]?.getD []).length (clamped - starts[unit]?.getD 0)⟩

/-! ## Motions and edits -/

namespace Unicode

variable (unicode : Unicode)

def globalWordMotion (value : Text) (position : Nat) (motion : WordMotion) (count : Nat) : Nat :=
  match motion with
  | .w => unicode.wordForward value position count
  | .b => unicode.wordBackward value position count
  | .e => unicode.wordEnd value position count

/-- Where a position of a unit is in the joined text. -/
def unitOrigin (values : List Text) (start : WordPosition) : Nat :=
  let unit := min start.unit (values.length - 1)
  let offset := min start.offset (values[unit]?.getD []).length
  (joinTextUnits values).starts[unit]?.getD 0 + offset

def wordMotionAcrossUnits (values : List Text) (start : WordPosition) (motion : WordMotion)
    (count : Nat) : WordPosition :=
  if values.length = 0 then start
  else
    let joined := joinTextUnits values
    let target :=
      unicode.globalWordMotion joined.value (unitOrigin values start) motion (max 1 count)
    positionInUnits values joined.starts target

def wordEditsAcrossUnits (values : List Text) (start : WordPosition) (motion : WordMotion)
    (count : Nat) : WordPosition × List WordEdit :=
  if values.length = 0 then (start, [])
  else
    let joined := joinTextUnits values
    let origin := unitOrigin values start
    let target := unicode.globalWordMotion joined.value origin motion (max 1 count)
    let first := min origin target
    let behind :=
      if target ≥ origin ∧ motion = .e then unicode.nextBoundary joined.value target
      else max origin target
    let edits := values.zipIdx.filterMap fun (value, index) =>
      let unitStart := joined.starts[index]?.getD 0
      let editFrom := first - unitStart
      let editTo := min value.length (behind - unitStart)
      if editTo > editFrom then some ⟨index, editFrom, editTo⟩ else none
    (positionInUnits values joined.starts first, edits)

end Unicode

/-! ## Where the units start -/

theorem length_unitStarts (values : List Text) (offset : Nat) :
    (unitStarts values offset).length = values.length := by
  induction values generalizing offset with
  | nil => rfl
  | cons value values ih => rw [unitStarts, List.length_cons, ih, List.length_cons]

/-- A unit starts behind the units before it and the newlines between them. -/
def unitStart (values : List Text) (unit : Nat) : Nat :=
  ((values.take unit).map fun value => value.length + 1).sum

theorem unitStart_succ {values : List Text} {unit : Nat} (h : unit < values.length) :
    unitStart values (unit + 1) = unitStart values unit + values[unit].length + 1 := by
  unfold unitStart
  rw [List.take_succ_eq_append_getElem h, List.map_append, List.sum_append_nat]
  simp [Nat.add_assoc]

theorem getElem?_unitStarts {values : List Text} {unit : Nat} (h : unit < values.length)
    (offset : Nat) : (unitStarts values offset)[unit]? = some (offset + unitStart values unit) := by
  induction values generalizing unit offset with
  | nil => cases h
  | cons value values ih =>
    cases unit with
    | zero => rfl
    | succ unit =>
      rw [unitStarts, List.getElem?_cons_succ, ih (Nat.lt_of_succ_lt_succ h)]
      unfold unitStart
      rw [List.take_succ_cons, List.map_cons, List.sum_cons]
      congr 1
      omega

theorem starts_getD {values : List Text} {unit : Nat} (h : unit < values.length) :
    (joinTextUnits values).starts[unit]?.getD 0 = unitStart values unit := by
  show ((unitStarts values 0)[unit]?).getD 0 = _
  rw [getElem?_unitStarts h, Nat.zero_add]
  rfl

theorem length_joinTextUnits {values : List Text} (h : values ≠ []) :
    (joinTextUnits values).value.length + 1 = unitStart values values.length := by
  unfold joinTextUnits unitStart
  rw [List.take_length]
  induction values with
  | nil => exact absurd rfl h
  | cons value values ih =>
    cases values with
    | nil => simp
    | cons next values =>
      have hrest := ih (by simp)
      rw [List.intercalate_cons_cons, List.map_cons, List.sum_cons, ← hrest]
      simp
      omega

/-! ## Positions in units -/

theorem unitAt_spec {starts : List Nat} {position : Nat} (unit : Nat) :
    unitAt starts position unit ≤ unit ∧
      (unitAt starts position unit = 0 ∨
        starts[unitAt starts position unit]?.getD 0 ≤ position) ∧
      ∀ j, unitAt starts position unit < j → j ≤ unit → position < starts[j]?.getD 0 := by
  induction unit with
  | zero => exact ⟨Nat.le_refl _, Or.inl rfl, fun j hj hle => by rw [unitAt] at hj; omega⟩
  | succ unit ih =>
    rw [unitAt]
    split
    · next hgt =>
      obtain ⟨hle, hstart, hbehind⟩ := ih
      refine ⟨Nat.le_succ_of_le hle, hstart, fun j hj hjle => ?_⟩
      rcases Nat.eq_or_lt_of_le hjle with rfl | hlt
      · exact hgt
      · exact hbehind j hj (Nat.le_of_lt_succ hlt)
    · next hle =>
      exact ⟨Nat.le_refl _, Or.inr (Nat.le_of_not_lt hle), fun j hj hjle => by omega⟩

/-- A position of the joined text, as one of a unit. -/
def At (values : List Text) (start : WordPosition) (position : Nat) : Prop :=
  ∃ h : start.unit < values.length,
    start.offset ≤ values[start.unit].length ∧
      unitStart values start.unit + start.offset = position

theorem positionInUnits_at {values : List Text} (hvalues : values ≠ []) {position : Nat}
    (h : position ≤ (joinTextUnits values).value.length) :
    At values (positionInUnits values (joinTextUnits values).starts position) position := by
  have hpos := List.length_pos_iff.mpr hvalues
  have hlast : values.length - 1 < values.length := by omega
  have hlength := length_joinTextUnits hvalues
  have hend := unitStart_succ hlast
  rw [Nat.sub_add_cancel hpos] at hend
  have hclamped : min position ((joinTextUnits values).starts[values.length - 1]?.getD 0 +
      (values[values.length - 1]?.getD []).length) = position := by
    rw [starts_getD hlast, List.getElem?_eq_getElem hlast, Option.getD_some]
    omega
  have hstarts : (joinTextUnits values).starts.length = values.length := length_unitStarts values 0
  unfold positionInUnits
  dsimp only
  rw [if_neg (by omega), hclamped, hstarts]
  obtain ⟨hle, hstart, hbehind⟩ :=
    @unitAt_spec (joinTextUnits values).starts position (values.length - 1)
  generalize unitAt (joinTextUnits values).starts position (values.length - 1) = unit at *
  have hunit : unit < values.length := by omega
  rw [starts_getD hunit] at hstart ⊢
  have hbefore : unitStart values unit ≤ position := by
    rcases hstart with rfl | hstart
    · exact Nat.zero_le _
    · exact hstart
  have hinside : position ≤ unitStart values unit + values[unit].length := by
    have hsucc := unitStart_succ hunit
    rcases Nat.lt_or_ge (unit + 1) values.length with hnext | hnone
    · have hlt := hbehind (unit + 1) (Nat.lt_succ_self unit) (by omega)
      rw [starts_getD hnext] at hlt
      omega
    · obtain rfl : unit = values.length - 1 := by omega
      omega
  refine ⟨hunit, ?_, ?_⟩
  · dsimp only
    rw [List.getElem?_eq_getElem hunit, Option.getD_some]
    exact Nat.min_le_left _ _
  · dsimp only
    rw [List.getElem?_eq_getElem hunit, Option.getD_some]
    omega

namespace Unicode

variable (unicode : Unicode)

theorem globalWordMotion_le (value : Text) (position : Nat) (motion : WordMotion) (count : Nat) :
    unicode.globalWordMotion value position motion count ≤ value.length := by
  cases motion with
  | w => exact unicode.le_of_mem_graphemeBoundaries (unicode.wordForward_mem value position count)
  | b => exact unicode.le_of_mem_graphemeBoundaries (unicode.wordBackward_mem value position count)
  | e =>
    rcases unicode.wordEnd_cases value position count with hmem | heq
    · exact unicode.le_of_mem_graphemeBoundaries hmem
    · show unicode.wordEnd value position count ≤ value.length
      omega

/-- Across units a motion is that of the units joined by newlines. -/
theorem wordMotionAcrossUnits_at {values : List Text} (hvalues : values ≠ [])
    (start : WordPosition) (motion : WordMotion) (count : Nat) :
    At values (unicode.wordMotionAcrossUnits values start motion count)
      (unicode.globalWordMotion (joinTextUnits values).value (unitOrigin values start) motion
        (max 1 count)) := by
  unfold wordMotionAcrossUnits
  rw [if_neg (by rw [List.length_eq_zero_iff]; exact hvalues)]
  exact positionInUnits_at hvalues (unicode.globalWordMotion_le _ _ _ _)

/-- A motion's span: from the origin to the target, and over the target's grapheme for `e`. -/
def Between (value : Text) (motion : WordMotion) (origin target position : Nat) : Prop :=
  (min origin target ≤ position ∧ position < max origin target) ∨
    (motion = .e ∧ origin ≤ target ∧ target ≤ position ∧
      position < unicode.nextBoundary value target)

/-- Edits of a list of units, of each unit one at most and inside of it. -/
def Spans (values : List Text) (edits : List WordEdit) : Prop :=
  edits.Pairwise (·.unit < ·.unit) ∧
    ∀ edit ∈ edits, edit.start < edit.stop ∧
      ∃ h : edit.unit < values.length, edit.stop ≤ values[edit.unit].length

def Removes (edits : List WordEdit) (unit offset : Nat) : Prop :=
  ∃ edit ∈ edits, edit.unit = unit ∧ edit.start ≤ offset ∧ offset < edit.stop

/-- The edits cut what is between the origin and the target, the newlines between units apart. -/
theorem wordEditsAcrossUnits_removes {values : List Text} (hvalues : values ≠ [])
    (start : WordPosition) (motion : WordMotion) (count : Nat) :
    Spans values (unicode.wordEditsAcrossUnits values start motion count).2 ∧
      ∀ unit (h : unit < values.length) offset, offset < values[unit].length →
        (Removes (unicode.wordEditsAcrossUnits values start motion count).2 unit offset ↔
          unicode.Between (joinTextUnits values).value motion (unitOrigin values start)
            (unicode.globalWordMotion (joinTextUnits values).value (unitOrigin values start)
              motion (max 1 count))
            (unitStart values unit + offset)) := by
  have htarget := unicode.globalWordMotion_le (joinTextUnits values).value
    (unitOrigin values start) motion (max 1 count)
  unfold wordEditsAcrossUnits
  rw [if_neg (by rw [List.length_eq_zero_iff]; exact hvalues)]
  dsimp only
  generalize unicode.globalWordMotion (joinTextUnits values).value (unitOrigin values start)
    motion (max 1 count) = target at *
  generalize unitOrigin values start = origin
  have hnext := unicode.le_nextBoundary htarget
  have hbetween : ∀ position, unicode.Between (joinTextUnits values).value motion origin target
      position ↔ min origin target ≤ position ∧ position <
        (if target ≥ origin ∧ motion = .e then
          unicode.nextBoundary (joinTextUnits values).value target
        else max origin target) := by
    intro position
    unfold Between
    split
    · next hend =>
      obtain ⟨hle, rfl⟩ := hend
      constructor
      · rintro (⟨hfirst, hlast⟩ | ⟨-, -, hfirst, hlast⟩) <;> exact ⟨by omega, by omega⟩
      · rintro ⟨hfirst, hlast⟩
        rcases Nat.lt_or_ge position target with hbefore | hbehind
        · exact Or.inl ⟨hfirst, by omega⟩
        · exact Or.inr ⟨rfl, hle, hbehind, hlast⟩
    · next hend =>
      constructor
      · rintro (hspan | ⟨rfl, hle, -⟩)
        · exact hspan
        · exact absurd ⟨hle, rfl⟩ hend
      · exact Or.inl
  simp only [hbetween]
  generalize (if target ≥ origin ∧ motion = .e then
    unicode.nextBoundary (joinTextUnits values).value target else max origin target) = behind
  refine ⟨⟨?_, ?_⟩, ?_⟩
  · refine List.pairwise_filterMap.mpr ?_
    have hindices : values.zipIdx.Pairwise (·.2 < ·.2) := by
      have hrange := List.pairwise_lt_range' (s := 0) (n := values.length)
      rw [← List.zipIdx_map_snd] at hrange
      exact List.pairwise_map.mp hrange
    refine hindices.imp fun hlt edit hedit other hother => ?_
    split at hedit <;> cases hedit
    split at hother <;> cases hother
    exact hlt
  · intro edit hedit
    obtain ⟨⟨value, index⟩, hmem, hedit⟩ := List.mem_filterMap.mp hedit
    obtain ⟨hindex, hvalue⟩ := List.getElem?_eq_some_iff.mp (List.mem_zipIdx_iff_getElem?.mp hmem)
    split at hedit
    · next hgt =>
      cases hedit
      refine ⟨hgt, hindex, ?_⟩
      rw [hvalue]
      exact Nat.min_le_left _ _
    · cases hedit
  · intro unit hunit offset hoffset
    have hstart := starts_getD hunit
    constructor
    · rintro ⟨edit, hedit, rfl, hfirst, hlast⟩
      obtain ⟨⟨value, index⟩, hmem, hedit⟩ := List.mem_filterMap.mp hedit
      split at hedit
      · cases hedit
        dsimp only at hstart hfirst hlast ⊢
        omega
      · cases hedit
    · rintro ⟨hfirst, hlast⟩
      refine ⟨⟨unit, min origin target - unitStart values unit,
        min values[unit].length (behind - unitStart values unit)⟩, ?_, rfl, ?_, ?_⟩
      · refine List.mem_filterMap.mpr ⟨(values[unit], unit),
          List.mem_zipIdx_iff_getElem?.mpr (List.getElem?_eq_getElem hunit), ?_⟩
        dsimp only
        rw [hstart, if_pos (by omega)]
      · dsimp only
        omega
      · dsimp only
        omega

/-! ## What a motion is to a position -/

/-- Counts compose, `w` and `b` keep their direction, and a motion ends at a boundary of the
text. -/
structure MotionsAt (value : Text) (position : Nat) : Prop where
  compose : ∀ motion m n, 0 < m → 0 < n →
    unicode.globalWordMotion value position motion (m + n) =
      unicode.globalWordMotion value (unicode.globalWordMotion value position motion m) motion n
  forward : ∀ count > 0, position ≤ unicode.globalWordMotion value position .w count
  backward : ∀ count > 0, unicode.globalWordMotion value position .b count ≤ position
  inside : ∀ motion, ∀ count > 0,
    unicode.globalWordMotion value position motion count ∈ unicode.graphemeBoundaries value ∧
      unicode.globalWordMotion value position motion count ≤ value.length

/-- Across units the motions are those of the joined text, and the edits cut what they pass. -/
structure MotionsAcross (values : List Text) : Prop where
  motion : ∀ start motion count, values ≠ [] →
    At values (unicode.wordMotionAcrossUnits values start motion count)
      (unicode.globalWordMotion (joinTextUnits values).value (unitOrigin values start) motion
        (max 1 count))
  edits : ∀ start motion count, values ≠ [] →
    Spans values (unicode.wordEditsAcrossUnits values start motion count).2 ∧
      ∀ unit (h : unit < values.length) offset, offset < values[unit].length →
        (Removes (unicode.wordEditsAcrossUnits values start motion count).2 unit offset ↔
          unicode.Between (joinTextUnits values).value motion (unitOrigin values start)
            (unicode.globalWordMotion (joinTextUnits values).value (unitOrigin values start)
              motion (max 1 count))
            (unitStart values unit + offset))
  none : ∀ start motion count, values = [] →
    (unicode.wordEditsAcrossUnits values start motion count).2 = []

theorem motionsAcross (values : List Text) : unicode.MotionsAcross values where
  motion := fun start motion count h => unicode.wordMotionAcrossUnits_at h start motion count
  edits := fun start motion count h => unicode.wordEditsAcrossUnits_removes h start motion count
  none := by
    rintro start motion count rfl
    rfl

/-- Where `e` composes: no word of one grapheme comes at once behind another word further on,
and at the end of the text the last grapheme is one unit. -/
def EndsCompose (value : Text) (position : Nat) : Prop :=
  unicode.Separate value position ∧
    (position = value.length → value.length - 1 ∈ unicode.graphemeBoundaries value)

theorem motionsAt_iff {value : Text} {position : Nat}
    (h : position ∈ unicode.graphemeBoundaries value) :
    unicode.MotionsAt value position ↔ unicode.EndsCompose value position := by
  obtain ⟨index, hindex, rfl⟩ := unicode.mem_graphemeBoundaries h
  unfold EndsCompose
  rw [unicode.separate_iff_smooth hindex]
  constructor
  · intro hat
    have hlast : unicode.boundaryAt value index = value.length →
        value.length - 1 ∈ unicode.graphemeBoundaries value := by
      intro heq
      have hmem := (hat.inside .e 1 Nat.one_pos).1
      rw [heq] at hmem
      have hend := unicode.wordEnd_length value 1
      rwa [show unicode.globalWordMotion value value.length .e 1 = value.length - 1 from hend]
        at hmem
    refine ⟨?_, hlast⟩
    rcases Nat.lt_or_eq_of_le hindex with hlt | rfl
    · exact (unicode.wordEnd_add_iff hlt).mp fun m n hm hn => hat.compose .e m n hm hn
    · intro j hj hends
      have := hends.lt
      omega
  · rintro ⟨hsmooth, hlast⟩
    have hends : ∀ count > 0, unicode.wordEnd value (unicode.boundaryAt value index) count ∈
        unicode.graphemeBoundaries value := by
      intro count hcount
      rcases Nat.lt_or_eq_of_le hindex with hlt | rfl
      · rw [unicode.wordEnd_boundaryAt hlt]
        exact unicode.boundaryAt_mem value _
      · rw [unicode.boundaryAt_length, unicode.wordEnd_length]
        exact hlast (unicode.boundaryAt_length value)
    refine ⟨fun motion m n hm hn => ?_, fun count _ => unicode.le_wordForward h count,
      fun count _ => unicode.wordBackward_le h count, fun motion count hcount =>
        ⟨?_, unicode.globalWordMotion_le value _ motion count⟩⟩
    · cases motion with
      | w => exact unicode.wordForward_add h m n
      | b => exact unicode.wordBackward_add h hm hn
      | e =>
        rcases Nat.lt_or_eq_of_le hindex with hlt | rfl
        · exact (unicode.wordEnd_add_iff hlt).mpr hsmooth m n hm hn
        · show unicode.wordEnd value _ (m + n) =
            unicode.wordEnd value (unicode.wordEnd value _ m) n
          have hmem := hlast (unicode.boundaryAt_length value)
          rw [unicode.boundaryAt_length, unicode.wordEnd_length, unicode.wordEnd_length,
            unicode.wordEnd_last hmem hn]
    · cases motion with
      | w => exact unicode.wordForward_mem value _ count
      | b => exact unicode.wordBackward_mem value _ count
      | e => exact hends count hcount

/-- Word motions compose exactly where `e` does; the other motions and those across units
always do what they are for. -/
theorem word_motions_compose_iff (value : Text) (values : List Text) (position : Nat)
    (h : position ∈ unicode.graphemeBoundaries value) :
    unicode.MotionsAt value position ∧ unicode.MotionsAcross values ↔
      unicode.EndsCompose value position := by
  rw [unicode.motionsAt_iff h]
  exact ⟨And.left, fun hends => ⟨hends, unicode.motionsAcross values⟩⟩

/-- A segmentation of texts without marks and surrogates: each unit is a grapheme. -/
def plain : Unicode where
  segments := fun value => List.range value.length
  increasing := fun _ => List.pairwise_lt_range
  inside := fun _ _ h => List.mem_range.mp h
  spaces := fun grapheme =>
    !grapheme.isEmpty && grapheme.all fun unit => unit = 32 || unit = newline
  letters := fun grapheme => !grapheme.isEmpty && grapheme.all fun unit => 97 ≤ unit && unit ≤ 122
  blank := fun grapheme => grapheme = [32] || grapheme = [newline]

/-- "ab cd" has no word of one grapheme. -/
theorem word_motions_compose_spaced :
    plain.MotionsAt [97, 98, 32, 99, 100] 0 ∧ plain.MotionsAcross [[97], [98]] := by
  refine (word_motions_compose_iff plain _ _ 0 (by decide)).mpr ⟨?_, by decide⟩
  refine (@separate_iff_smooth plain _ 0 (Nat.zero_le _)).mpr ?_
  have hbound : ∀ j < 5, Ends (plain.graphemes [97, 98, 32, 99, 100]) j →
      Ends (plain.graphemes [97, 98, 32, 99, 100]) (j + 1) → 5 ≤ j + 2 := by decide
  intro j _ hends
  exact hbound j hends.lt hends

/-- "ab.cd": `2e` goes on from the full stop and passes over it. -/
theorem word_end_passes_over :
    ¬∀ (unicode : Unicode) (value : Text) (position : Nat),
      position ∈ unicode.graphemeBoundaries value → unicode.MotionsAt value position := by
  intro hall
  have hat := hall plain [97, 98, 46, 99, 100] 0 (by decide)
  exact absurd (hat.compose .e 1 1 Nat.one_pos Nat.one_pos) (by decide)

end Unicode

end Neoseq.Vim
