import Neoseq.Collections.Prefix
import Neoseq.Content.Inline

/-! The splice between two texts: a smallest one, placed within a repeated run where the input
was made. -/

namespace Neoseq.Editor
open Collections
open Content (Text)

structure Splice where
  index : Nat
  delete : Nat
  insert : Text
  deriving DecidableEq

/-- A code point is one UTF-16 unit, or two beyond the first plane. -/
def utf16Length (point : Char) : Nat :=
  if 0x10000 ≤ point.toNat then 2 else 1

/-- The loop of `codePointIndex`, at a code point and its UTF-16 offset. -/
def codePointIndexFrom (utf16Offset : Int) : (index offset : Nat) → Text → Nat
  | index, _, [] => index
  | index, offset, point :: value =>
    if utf16Offset ≤ offset then index
    else codePointIndexFrom utf16Offset (index + 1) (offset + utf16Length point) value

def codePointIndex (value : Text) (utf16Offset : Int) : Nat :=
  codePointIndexFrom utf16Offset 0 0 value

/-- The loop back through a repeated run, as long as the splice ends behind the caret. -/
def slideBack (changed : Text) (insert length stop : Nat) : (start : Nat) → Nat
  | 0 => 0
  | start + 1 =>
    if stop < start + 1 + insert ∧ changed[start]? = changed[start + length]? then
      slideBack changed insert length stop start
    else start + 1

def diffSplice (before after : Text) (caret : Option Int) : Option Splice :=
  if before = after then none
  else
    let start := sharedPrefix before after
    let same := sharedSuffix start before after
    let remove := before.length - start - same
    let insert := after.length - start - same
    let index := match caret with
      | some caret =>
        if remove = 0 ∨ insert = 0 then
          slideBack (if insert = 0 then before else after) insert (remove + insert)
            (codePointIndex after caret) start
        else start
      | none => start
    some ⟨index, remove, (after.take (index + insert)).drop index⟩

/-! ## What a splice does -/

/-- A splice in the text before gives the text after. -/
def Splice.Turns (before after : Text) (splice : Splice) : Prop :=
  splice.index + splice.delete ≤ before.length ∧
    before.take splice.index ++ splice.insert ++ before.drop (splice.index + splice.delete) = after

/-- No other splice between two texts deletes and inserts less. -/
def Splice.Smallest (before after : Text) (splice : Splice) : Prop :=
  splice.Turns before after ∧ ∀ (other : Splice), other.Turns before after →
    splice.delete + splice.insert.length ≤ other.delete + other.insert.length

variable {before after : Text}

/-- Two texts are the same but for a range of each. -/
structure Range (before after : Text) (index delete insert : Nat) : Prop where
  inBefore : index + delete ≤ before.length
  rest : before.length - delete = after.length - insert
  inAfter : index + insert ≤ after.length
  front : ∀ i, i < index → before[i]? = after[i]?
  back : ∀ i, before[index + delete + i]? = after[index + insert + i]?

theorem Range.turns {index delete insert : Nat} (h : Range before after index delete insert) :
    Splice.Turns before after ⟨index, delete, (after.take (index + insert)).drop index⟩ := by
  refine ⟨h.inBefore, ?_⟩
  have hfront : before.take index = (after.take (index + insert)).take index := by
    refine List.ext_getElem? fun i => ?_
    rw [List.take_take, List.getElem?_take, List.getElem?_take, Nat.min_eq_left (by omega)]
    split_ifs with hi
    · exact h.front i hi
    · rfl
  have hback : before.drop (index + delete) = after.drop (index + insert) := by
    refine List.ext_getElem? fun i => ?_
    rw [List.getElem?_drop, List.getElem?_drop]
    exact h.back i
  dsimp only
  rw [hfront, hback, List.take_append_drop, List.take_append_drop]

/-- Whatever a splice leaves at both ends is the same in both texts. -/
theorem Splice.Turns.range {splice : Splice} (h : splice.Turns before after) :
    Range before after splice.index splice.delete splice.insert.length := by
  obtain ⟨hle, hafter⟩ := h
  have hlength : after.length =
      splice.index + splice.insert.length + (before.length - (splice.index + splice.delete)) := by
    rw [← hafter, List.length_append, List.length_append, List.length_take, List.length_drop]
    omega
  have htake : (before.take splice.index).length = splice.index := by
    rw [List.length_take]
    omega
  refine ⟨hle, by omega, by omega, fun i hi => ?_, fun i => ?_⟩
  · rw [← hafter, List.append_assoc, List.getElem?_append_left (by omega), List.getElem?_take,
      if_pos hi]
  · rw [← hafter, List.getElem?_append_right (by rw [List.length_append]; omega),
      List.length_append, htake, List.getElem?_drop]
    congr 1
    omega

/-- In a repeated run a range of one text may stand one place before. -/
theorem Range.slide {start delete insert : Nat} (h : Range before after (start + 1) delete insert)
    (hone : delete = 0 ∨ insert = 0)
    (hsame : (if insert = 0 then before else after)[start]? =
      (if insert = 0 then before else after)[start + (delete + insert)]?) :
    Range before after start delete insert := by
  obtain ⟨hbefore, hrest, hafter, hfront, hback⟩ := h
  refine ⟨by omega, hrest, by omega, fun i hi => hfront i (by omega), fun i => ?_⟩
  cases i with
  | zero =>
    have hstart := hfront start (Nat.lt_succ_self start)
    split_ifs at hsame with hinsert
    · rw [hinsert, Nat.add_zero] at hsame ⊢
      rw [Nat.add_zero, ← hsame, hstart]
    · have hdelete : delete = 0 := hone.resolve_right hinsert
      rw [hdelete, Nat.zero_add] at hsame
      rw [hdelete, Nat.add_zero, Nat.add_zero, hstart, hsame]
  | succ i =>
    have hnext := hback i
    rwa [show start + 1 + delete + i = start + delete + (i + 1) by omega,
      show start + 1 + insert + i = start + insert + (i + 1) by omega] at hnext

theorem Range.slideBack {start delete insert stop : Nat}
    (h : Range before after start delete insert) (hone : delete = 0 ∨ insert = 0) :
    Range before after
      (Editor.slideBack (if insert = 0 then before else after) insert (delete + insert) stop start)
      delete insert := by
  induction start with
  | zero => exact h
  | succ start ih =>
    rw [Editor.slideBack]
    by_cases hslide : stop < start + 1 + insert ∧
        (if insert = 0 then before else after)[start]? =
          (if insert = 0 then before else after)[start + (delete + insert)]?
    · rw [if_pos hslide]
      exact ih (h.slide hone hslide.2)
    · rw [if_neg hslide]
      exact h

/-- What the two loops leave of the texts. -/
theorem range_shared (before after : Text) :
    Range before after (sharedPrefix before after)
      (before.length - sharedPrefix before after -
        sharedSuffix (sharedPrefix before after) before after)
      (after.length - sharedPrefix before after -
        sharedSuffix (sharedPrefix before after) before after) := by
  obtain ⟨hbefore, hafter⟩ := sharedPrefix_le before after
  obtain ⟨hsame, hsame'⟩ := sharedSuffix_le (sharedPrefix before after) before after
  refine ⟨by omega, by omega, by omega, fun i hi => getElem?_sharedPrefix hi, fun i => ?_⟩
  have hback := @getElem?_sharedSuffix _ _ (sharedPrefix before after) before after i
  rwa [show before.length - sharedSuffix (sharedPrefix before after) before after =
      sharedPrefix before after + (before.length - sharedPrefix before after -
        sharedSuffix (sharedPrefix before after) before after) by omega,
    show after.length - sharedSuffix (sharedPrefix before after) before after =
      sharedPrefix before after + (after.length - sharedPrefix before after -
        sharedSuffix (sharedPrefix before after) before after) by omega] at hback

/-- No range leaves more than the two loops. -/
theorem Range.shared_le {index delete insert : Nat} (h : Range before after index delete insert) :
    before.length - delete ≤ sharedPrefix before after +
      sharedSuffix (sharedPrefix before after) before after := by
  obtain ⟨hbefore, hrest, hafter, hfront, hback⟩ := h
  obtain ⟨start, hstart⟩ : ∃ n, n = sharedPrefix before after := ⟨_, rfl⟩
  rw [← hstart]
  have hindex : index ≤ start := hstart ▸ le_sharedPrefix (by omega) (by omega) hfront
  -- the shared end goes on to the shared start, or as far as the range lets it
  by_cases hmeet : before.length - start ≤ before.length - index - delete ∨
      after.length - start ≤ after.length - index - insert
  · have hle := sharedPrefix_le before after
    rw [← hstart] at hle
    have hsame : min (before.length - start) (after.length - start) ≤
        sharedSuffix start before after := by
      refine le_sharedSuffix (Nat.min_le_left _ _) (Nat.min_le_right _ _) fun i hi => ?_
      have hend := hback (before.length - index - delete - 1 - i)
      rwa [show index + delete + (before.length - index - delete - 1 - i) =
          before.length - 1 - i by omega,
        show index + insert + (before.length - index - delete - 1 - i) =
          after.length - 1 - i by omega] at hend
    omega
  · have hsame : before.length - index - delete ≤ sharedSuffix start before after := by
      refine le_sharedSuffix (by omega) (by omega) fun i hi => ?_
      have hend := hback (before.length - index - delete - 1 - i)
      rwa [show index + delete + (before.length - index - delete - 1 - i) =
          before.length - 1 - i by omega,
        show index + insert + (before.length - index - delete - 1 - i) =
          after.length - 1 - i by omega] at hend
    omega

theorem diffSplice_eq_none {caret : Option Int} :
    diffSplice before after caret = none ↔ before = after := by
  unfold diffSplice
  split_ifs with hsame
  · exact iff_of_true rfl hsame
  · exact iff_of_false not_false hsame

/-- The caret places the splice, it never makes it larger. -/
theorem diffSplice_smallest {caret : Option Int} {splice : Splice} :
    diffSplice before after caret = some splice → splice.Smallest before after := by
  intro h
  unfold diffSplice at h
  split_ifs at h with hsame
  dsimp only at h
  have hrange := range_shared before after
  obtain ⟨start, hstart⟩ : ∃ n, n = sharedPrefix before after := ⟨_, rfl⟩
  obtain ⟨same, hsameEnd⟩ : ∃ n, n = sharedSuffix start before after := ⟨_, rfl⟩
  obtain ⟨index, hindex, hplaced⟩ : ∃ index,
      Range before after index (before.length - start - same) (after.length - start - same) ∧
      splice = ⟨index, before.length - start - same,
        (after.take (index + (after.length - start - same))).drop index⟩ := by
    rw [hsameEnd, hstart]
    cases caret with
    | none => exact ⟨_, hrange, (Option.some.inj h).symm⟩
    | some caret =>
      dsimp only at h
      by_cases hone : before.length - sharedPrefix before after -
            sharedSuffix (sharedPrefix before after) before after = 0 ∨
          after.length - sharedPrefix before after -
            sharedSuffix (sharedPrefix before after) before after = 0
      · rw [if_pos hone] at h
        exact ⟨_, hrange.slideBack hone, (Option.some.inj h).symm⟩
      · rw [if_neg hone] at h
        exact ⟨_, hrange, (Option.some.inj h).symm⟩
  subst hplaced
  refine ⟨hindex.turns, fun other hother => ?_⟩
  have hle := hother.range.shared_le
  rw [← hstart, ← hsameEnd] at hle
  obtain ⟨hbefore, hrest, hafter, -, -⟩ := hother.range
  obtain ⟨hbefore', hrest', hafter', -, -⟩ := hindex
  dsimp only
  rw [List.length_drop, List.length_take]
  omega

end Neoseq.Editor
