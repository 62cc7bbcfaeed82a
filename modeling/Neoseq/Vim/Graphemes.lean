import Mathlib

/-! A text as the editor's motions see it: graphemes of three classes between boundaries. -/

namespace Neoseq.Vim

/-- A string by its UTF-16 units. -/
abbrev Text := List UInt16

def newline : UInt16 := 10

inductive WordClass where
  | space | word | punctuation
  deriving DecidableEq

/-- What the runtime knows of Unicode: where graphemes start, and which of them match `^\s+$`,
`^[\p\x7bL\x7d\p\x7bN\x7d\p\x7bM\x7d_]+$` and `^\s$`. -/
structure Unicode where
  segments : Text → List Nat
  increasing : ∀ value, (segments value).Pairwise (· < ·)
  inside : ∀ value, ∀ index ∈ segments value, index < value.length
  spaces : Text → Bool
  letters : Text → Bool
  blank : Text → Bool

structure Grapheme where
  start : Nat
  stop : Nat
  kind : WordClass
  deriving DecidableEq

namespace Unicode

variable (unicode : Unicode)

def starts (value : Text) : List Nat := 0 :: (unicode.segments value).filter (· > 0)

def graphemeBoundaries (value : Text) : List Nat :=
  if (unicode.starts value).getLast? ≠ some value.length then
    unicode.starts value ++ [value.length]
  else unicode.starts value

/-- The last boundary before a position. -/
def previousBoundary (value : Text) (position : Nat) : Nat :=
  ((unicode.graphemeBoundaries value).reverse.find? fun boundary =>
    boundary < min position value.length).getD 0

/-- The first boundary behind a position. -/
def nextBoundary (value : Text) (position : Nat) : Nat :=
  ((unicode.graphemeBoundaries value).find? fun boundary =>
    boundary > min position value.length).getD value.length

def wordClass (grapheme : Text) : WordClass :=
  if unicode.spaces grapheme then .space
  else if unicode.letters grapheme then .word
  else .punctuation

/-- `value.slice(start, stop)`. -/
def slice (value : Text) (start stop : Nat) : Text := (value.take stop).drop start

def graphemes (value : Text) : List Grapheme :=
  ((unicode.graphemeBoundaries value).zip (unicode.graphemeBoundaries value).tail).map
    fun bounds => ⟨bounds.1, bounds.2, unicode.wordClass (slice value bounds.1 bounds.2)⟩

def graphemeIndexAt (items : List Grapheme) (position : Nat) : Option Nat :=
  (items.findIdx? fun item => position ≥ item.start && position < item.stop).or
    (items.findIdx? fun item => item.start ≥ position)

/-! ## Boundaries -/

theorem pairwise_graphemeBoundaries (value : Text) :
    (unicode.graphemeBoundaries value).Pairwise (· < ·) := by
  have hstarts : (unicode.starts value).Pairwise (· < ·) := by
    refine List.pairwise_cons.mpr ⟨fun index hindex => ?_, (unicode.increasing value).filter _⟩
    exact of_decide_eq_true (List.mem_filter.mp hindex).2
  have hinside : ∀ index ∈ unicode.starts value, index ≤ value.length := by
    intro index hindex
    rcases List.mem_cons.mp hindex with rfl | hindex
    · exact Nat.zero_le _
    · exact Nat.le_of_lt (unicode.inside value index (List.mem_filter.mp hindex).1)
  unfold graphemeBoundaries
  split
  · next hlast =>
    refine List.pairwise_append.mpr ⟨hstarts, List.pairwise_singleton _ _, ?_⟩
    intro index hindex boundary hboundary
    rw [List.mem_singleton.mp hboundary]
    refine Nat.lt_of_le_of_ne (hinside index hindex) fun heq => hlast ?_
    -- nothing is behind the length
    cases hcase : unicode.starts value using List.reverseRecOn with
    | nil => cases hcase
    | append_singleton rest last =>
      rw [hcase] at hindex hstarts hinside
      rw [List.getLast?_concat]
      rcases List.mem_append.mp hindex with hrest | hsame
      · have hlt := (List.pairwise_append.mp hstarts).2.2 index hrest last List.mem_cons_self
        have hle := hinside last (by simp)
        omega
      · rw [List.mem_singleton.mp hsame] at heq
        rw [heq]
  · exact hstarts

theorem zero_mem_graphemeBoundaries (value : Text) : 0 ∈ unicode.graphemeBoundaries value := by
  unfold graphemeBoundaries starts
  split <;> simp

theorem length_mem_graphemeBoundaries (value : Text) :
    value.length ∈ unicode.graphemeBoundaries value := by
  unfold graphemeBoundaries
  split
  · simp
  · next hlast => exact List.mem_of_getLast? (not_not.mp hlast)

theorem le_of_mem_graphemeBoundaries {value : Text} {boundary : Nat}
    (h : boundary ∈ unicode.graphemeBoundaries value) : boundary ≤ value.length := by
  have hstarts : ∀ index ∈ unicode.starts value, index ≤ value.length := by
    intro index hindex
    rcases List.mem_cons.mp hindex with rfl | hindex
    · exact Nat.zero_le _
    · exact Nat.le_of_lt (unicode.inside value index (List.mem_filter.mp hindex).1)
  unfold graphemeBoundaries at h
  split at h
  · rcases List.mem_append.mp h with h | h
    · exact hstarts boundary h
    · exact Nat.le_of_eq (List.mem_singleton.mp h)
  · exact hstarts boundary h

/-! ## Graphemes by their index -/

/-- Where a grapheme starts; behind the last one, the length. -/
def boundaryAt (value : Text) (index : Nat) : Nat :=
  ((unicode.graphemeBoundaries value)[index]?).getD value.length

theorem length_graphemes (value : Text) :
    (unicode.graphemes value).length + 1 = (unicode.graphemeBoundaries value).length := by
  have hpos := List.length_pos_of_mem (unicode.zero_mem_graphemeBoundaries value)
  unfold graphemes
  rw [List.length_map, List.length_zip, List.length_tail]
  omega

theorem getElem_graphemes {value : Text} {index : Nat}
    (h : index < (unicode.graphemes value).length) :
    (unicode.graphemes value)[index].start = unicode.boundaryAt value index ∧
      (unicode.graphemes value)[index].stop = unicode.boundaryAt value (index + 1) := by
  have hlength := unicode.length_graphemes value
  unfold boundaryAt
  rw [List.getElem?_eq_getElem (by omega), List.getElem?_eq_getElem (by omega)]
  simp [graphemes]

theorem boundaryAt_lt {value : Text} {i j : Nat} (hij : i < j)
    (hj : j ≤ (unicode.graphemes value).length) :
    unicode.boundaryAt value i < unicode.boundaryAt value j := by
  have hlength := unicode.length_graphemes value
  unfold boundaryAt
  rw [List.getElem?_eq_getElem (by omega), List.getElem?_eq_getElem (by omega)]
  exact List.pairwise_iff_getElem.mp (unicode.pairwise_graphemeBoundaries value) i j
    (by omega) (by omega) hij

theorem boundaryAt_mem (value : Text) (index : Nat) :
    unicode.boundaryAt value index ∈ unicode.graphemeBoundaries value := by
  unfold boundaryAt
  cases h : (unicode.graphemeBoundaries value)[index]? with
  | none => exact unicode.length_mem_graphemeBoundaries value
  | some boundary => exact List.mem_of_getElem? h

theorem boundaryAt_le (value : Text) (index : Nat) :
    unicode.boundaryAt value index ≤ value.length :=
  unicode.le_of_mem_graphemeBoundaries (unicode.boundaryAt_mem value index)

theorem mem_graphemeBoundaries {value : Text} {position : Nat}
    (h : position ∈ unicode.graphemeBoundaries value) :
    ∃ index ≤ (unicode.graphemes value).length, unicode.boundaryAt value index = position := by
  obtain ⟨index, hindex, rfl⟩ := List.getElem_of_mem h
  have hlength := unicode.length_graphemes value
  refine ⟨index, by omega, ?_⟩
  unfold boundaryAt
  rw [List.getElem?_eq_getElem hindex]
  rfl

theorem boundaryAt_inj {value : Text} {i j : Nat} (hi : i ≤ (unicode.graphemes value).length)
    (hj : j ≤ (unicode.graphemes value).length)
    (h : unicode.boundaryAt value i = unicode.boundaryAt value j) : i = j := by
  rcases Nat.lt_trichotomy i j with hlt | heq | hlt
  · have := unicode.boundaryAt_lt hlt hj
    omega
  · exact heq
  · have := unicode.boundaryAt_lt hlt hi
    omega

theorem boundaryAt_le_iff {value : Text} {i j : Nat} (hi : i ≤ (unicode.graphemes value).length)
    (hj : j ≤ (unicode.graphemes value).length) :
    unicode.boundaryAt value i ≤ unicode.boundaryAt value j ↔ i ≤ j := by
  constructor
  · intro h
    by_contra hlt
    have := unicode.boundaryAt_lt (Nat.lt_of_not_le hlt) hi
    omega
  · intro h
    rcases Nat.lt_or_eq_of_le h with hlt | rfl
    · exact Nat.le_of_lt (unicode.boundaryAt_lt hlt hj)
    · exact Nat.le_refl _

theorem boundaryAt_zero (value : Text) : unicode.boundaryAt value 0 = 0 := by
  obtain ⟨index, hindex, hzero⟩ :=
    unicode.mem_graphemeBoundaries (unicode.zero_mem_graphemeBoundaries value)
  have hle := (unicode.boundaryAt_le_iff (Nat.zero_le _) hindex).mpr (Nat.zero_le index)
  omega

theorem boundaryAt_length (value : Text) :
    unicode.boundaryAt value (unicode.graphemes value).length = value.length := by
  obtain ⟨index, hindex, hlength⟩ :=
    unicode.mem_graphemeBoundaries (unicode.length_mem_graphemeBoundaries value)
  have hle := (unicode.boundaryAt_le_iff hindex (Nat.le_refl _)).mpr hindex
  have hle' := unicode.boundaryAt_le value (unicode.graphemes value).length
  omega

theorem map_start_getElem? {value : Text} {index : Nat}
    (h : index ≤ (unicode.graphemes value).length) :
    (((unicode.graphemes value)[index]?).map Grapheme.start).getD value.length =
      unicode.boundaryAt value index := by
  rcases Nat.lt_or_eq_of_le h with hlt | rfl
  · rw [List.getElem?_eq_getElem hlt]
    exact (unicode.getElem_graphemes hlt).1
  · rw [List.getElem?_eq_none (Nat.le_refl _), unicode.boundaryAt_length]
    rfl

theorem start_mem {value : Text} (index : Nat) :
    (((unicode.graphemes value)[index]?).map Grapheme.start).getD value.length ∈
      unicode.graphemeBoundaries value := by
  rcases Nat.lt_or_ge index (unicode.graphemes value).length with hlt | hge
  · rw [unicode.map_start_getElem? (Nat.le_of_lt hlt)]
    exact unicode.boundaryAt_mem value index
  · rw [List.getElem?_eq_none hge]
    exact unicode.length_mem_graphemeBoundaries value

/-- The grapheme that starts at a boundary is the one that is found there. -/
theorem graphemeIndexAt_boundaryAt {value : Text} {index : Nat}
    (h : index ≤ (unicode.graphemes value).length) :
    graphemeIndexAt (unicode.graphemes value) (unicode.boundaryAt value index) =
      if index < (unicode.graphemes value).length then some index else none := by
  have hbounds {j : Nat} (hj : j < (unicode.graphemes value).length) :=
    unicode.getElem_graphemes hj
  unfold graphemeIndexAt
  split
  · next hlt =>
    have hfind : (unicode.graphemes value).findIdx? (fun item =>
        unicode.boundaryAt value index ≥ item.start &&
          unicode.boundaryAt value index < item.stop) = some index := by
      refine List.findIdx?_eq_some_iff_getElem.mpr ⟨hlt, ?_, fun j hj => ?_⟩
      · have hstep := unicode.boundaryAt_lt (Nat.lt_succ_self index) hlt
        simp [hbounds hlt, hstep]
      · have hle := (unicode.boundaryAt_le_iff (Nat.succ_le_of_lt (Nat.lt_trans hj hlt)) h).mpr hj
        simp [hbounds (Nat.lt_trans hj hlt), hle]
    rw [hfind]
    rfl
  · next hge =>
    obtain rfl : index = (unicode.graphemes value).length := by omega
    rw [List.findIdx?_eq_none_iff.mpr, List.findIdx?_eq_none_iff.mpr]
    · rfl
    · intro item hitem
      obtain ⟨j, hj, rfl⟩ := List.getElem_of_mem hitem
      have hlt := unicode.boundaryAt_lt hj (Nat.le_refl _)
      simp [hbounds hj, hlt]
    · intro item hitem
      obtain ⟨j, hj, rfl⟩ := List.getElem_of_mem hitem
      have hle := (unicode.boundaryAt_le_iff (Nat.succ_le_of_lt hj) (Nat.le_refl _)).mpr
        (Nat.succ_le_of_lt hj)
      simp [hbounds hj, hle]

/-! ## Neighbours of a position -/

theorem nextBoundary_mem (value : Text) (position : Nat) :
    unicode.nextBoundary value position ∈ unicode.graphemeBoundaries value := by
  unfold nextBoundary
  cases hfind : (unicode.graphemeBoundaries value).find? (fun boundary =>
      boundary > min position value.length) with
  | none => exact unicode.length_mem_graphemeBoundaries value
  | some boundary => exact List.mem_of_find?_eq_some hfind

theorem le_nextBoundary {value : Text} {position : Nat} (h : position ≤ value.length) :
    position ≤ unicode.nextBoundary value position := by
  unfold nextBoundary
  cases hfind : (unicode.graphemeBoundaries value).find? (fun boundary =>
      boundary > min position value.length) with
  | none => exact h
  | some boundary =>
    have hbehind := List.find?_some hfind
    have hlt := of_decide_eq_true hbehind
    show position ≤ boundary
    omega

/-- Before the end of the text there is a boundary further on, and none between. -/
theorem nextBoundary_spec {value : Text} {position : Nat} (h : position < value.length) :
    position < unicode.nextBoundary value position ∧
      ∀ boundary ∈ unicode.graphemeBoundaries value, position < boundary →
        unicode.nextBoundary value position ≤ boundary := by
  have hmin : min position value.length = position := Nat.min_eq_left (Nat.le_of_lt h)
  unfold nextBoundary
  rw [hmin]
  cases hfind : (unicode.graphemeBoundaries value).find? (fun boundary =>
      boundary > position) with
  | none =>
    refine ⟨h, fun boundary hmem hlt => ?_⟩
    simpa [hlt] using List.find?_eq_none.mp hfind boundary hmem
  | some found =>
    obtain ⟨hfound, index, hindex, rfl, hbefore⟩ := List.find?_eq_some_iff_getElem.mp hfind
    refine ⟨of_decide_eq_true hfound, fun boundary hmem hlt => ?_⟩
    obtain ⟨other, hother, rfl⟩ := List.getElem_of_mem hmem
    show (unicode.graphemeBoundaries value)[index] ≤ _
    rcases Nat.lt_trichotomy index other with hless | rfl | hmore
    · exact Nat.le_of_lt (List.pairwise_iff_getElem.mp
        (unicode.pairwise_graphemeBoundaries value) index other hindex hother hless)
    · exact Nat.le_refl _
    · simpa [hlt] using hbefore other hmore

theorem previousBoundary_mem (value : Text) (position : Nat) :
    unicode.previousBoundary value position ∈ unicode.graphemeBoundaries value := by
  unfold previousBoundary
  cases hfind : (unicode.graphemeBoundaries value).reverse.find? (fun boundary =>
      boundary < min position value.length) with
  | none => exact unicode.zero_mem_graphemeBoundaries value
  | some boundary => exact List.mem_reverse.mp (List.mem_of_find?_eq_some hfind)

theorem previousBoundary_le (value : Text) (position : Nat) :
    unicode.previousBoundary value position ≤ position := by
  unfold previousBoundary
  cases hfind : (unicode.graphemeBoundaries value).reverse.find? (fun boundary =>
      boundary < min position value.length) with
  | none => exact Nat.zero_le _
  | some boundary =>
    have hbefore := List.find?_some hfind
    have hlt := of_decide_eq_true hbefore
    show boundary ≤ position
    omega

/-- Of the boundaries before a position, the last one. -/
theorem previousBoundary_spec {value : Text} {position : Nat} (h : position ≤ value.length)
    {boundary : Nat} (hmem : boundary ∈ unicode.graphemeBoundaries value)
    (hlt : boundary < position) :
    boundary ≤ unicode.previousBoundary value position ∧
      unicode.previousBoundary value position < position := by
  have hmin : min position value.length = position := Nat.min_eq_left h
  unfold previousBoundary
  rw [hmin]
  cases hfind : (unicode.graphemeBoundaries value).reverse.find? (fun boundary =>
      boundary < position) with
  | none => simpa [hlt] using List.find?_eq_none.mp hfind boundary (List.mem_reverse.mpr hmem)
  | some found =>
    obtain ⟨hfound, index, hindex, rfl, hbefore⟩ := List.find?_eq_some_iff_getElem.mp hfind
    refine ⟨?_, of_decide_eq_true hfound⟩
    obtain ⟨other, hother, rfl⟩ := List.getElem_of_mem (List.mem_reverse.mpr hmem)
    show _ ≤ (unicode.graphemeBoundaries value).reverse[index]
    have hsorted := List.pairwise_reverse.mpr (unicode.pairwise_graphemeBoundaries value)
    rcases Nat.lt_trichotomy index other with hless | rfl | hmore
    · exact Nat.le_of_lt (List.pairwise_iff_getElem.mp hsorted index other hindex hother hless)
    · exact Nat.le_refl _
    · have hbehind := hbefore other hmore
      rw [decide_eq_true hlt] at hbehind
      cases hbehind

end Unicode

end Neoseq.Vim
