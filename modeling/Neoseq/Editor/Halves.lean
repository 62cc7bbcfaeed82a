import Neoseq.Editor.Native

/-! Splitting and joining what is shown of a content. Offsets into a shown text are in UTF-16
units, of which a plain character may have two. -/

namespace Neoseq.Editor
open Neoseq.Core (PageDirectoryEntry)
open Domain hiding PageReferenceSpan
open Content (InlineContent PageReferenceSpan Text)

/-! ## UTF-16 -/

def utf16Units (point : Char) : List Nat :=
  if 0x10000 ≤ point.toNat then
    [0xd800 + (point.toNat - 0x10000) / 0x400, 0xdc00 + (point.toNat - 0x10000) % 0x400]
  else [point.toNat]

def utf16 (value : Text) : List Nat := value.flatMap utf16Units

def isLeadSurrogate (unit : Nat) : Bool := 0xd800 ≤ unit && unit < 0xdc00

def isTrailSurrogate (unit : Nat) : Bool := 0xdc00 ≤ unit && unit < 0xe000

/-- The length of `Array.from` of a string: a pair of surrogates counts once. -/
def codePointCount : List Nat → Nat
  | [] => 0
  | [_] => 1
  | lead :: trail :: units =>
    if isLeadSurrogate lead && isTrailSurrogate trail then codePointCount units + 1
    else codePointCount (trail :: units) + 1

@[simp] theorem utf16_nil : utf16 [] = [] := rfl

@[simp] theorem utf16_cons (point : Char) (value : Text) :
    utf16 (point :: value) = utf16Units point ++ utf16 value := rfl

@[simp] theorem utf16_append (front back : Text) :
    utf16 (front ++ back) = utf16 front ++ utf16 back :=
  List.flatMap_append

@[simp] theorem length_utf16Units (point : Char) :
    (utf16Units point).length = utf16Length point := by
  unfold utf16Units utf16Length
  split <;> rfl

theorem utf16Length_pos (point : Char) : 0 < utf16Length point := by
  unfold utf16Length
  split <;> decide

theorem utf16Length_le (point : Char) : utf16Length point ≤ 2 := by
  unfold utf16Length
  split <;> decide

theorem codePointCount_cons_of_plain {unit : Nat} (h : isLeadSurrogate unit = false)
    (units : List Nat) : codePointCount (unit :: units) = codePointCount units + 1 := by
  cases units with
  | nil => rfl
  | cons trail units => simp [codePointCount, h]

/-- Characters are not surrogates, and those beyond the first plane are pairs. -/
theorem codePointCount_utf16Units (point : Char) (units : List Nat) :
    codePointCount (utf16Units point ++ units) = codePointCount units + 1 := by
  have hvalid : point.toNat < 0xd800 ∨ (0xdfff < point.toNat ∧ point.toNat < 0x110000) :=
    point.valid
  unfold utf16Units
  split
  · have hlead : isLeadSurrogate (0xd800 + (point.toNat - 0x10000) / 0x400) = true := by
      unfold isLeadSurrogate
      simp only [Bool.and_eq_true, decide_eq_true_eq]
      omega
    have htrail : isTrailSurrogate (0xdc00 + (point.toNat - 0x10000) % 0x400) = true := by
      unfold isTrailSurrogate
      simp only [Bool.and_eq_true, decide_eq_true_eq]
      omega
    simp [codePointCount, hlead, htrail]
  · refine codePointCount_cons_of_plain ?_ units
    unfold isLeadSurrogate
    simp only [Bool.and_eq_false_iff, decide_eq_false_iff_not]
    omega

theorem codePointCount_utf16 (value : Text) : codePointCount (utf16 value) = value.length := by
  induction value with
  | nil => rfl
  | cons point value ih => rw [utf16_cons, codePointCount_utf16Units, ih, List.length_cons]

/-! ## Offsets -/

theorem codePointIndexFrom_append {offset index base : Nat} (front back : Text)
    (h : base + (utf16 front).length = offset) :
    codePointIndexFrom offset index base (front ++ back) = index + front.length := by
  induction front generalizing index base with
  | nil =>
    rw [List.nil_append, List.length_nil, Nat.add_zero]
    cases back with
    | nil => rfl
    | cons point back =>
      rw [codePointIndexFrom, if_pos]
      rw [utf16_nil, List.length_nil] at h
      omega
  | cons point front ih =>
    rw [utf16_cons, List.length_append, length_utf16Units] at h
    have hpos := utf16Length_pos point
    rw [List.cons_append, codePointIndexFrom, if_neg (by omega),
      ih (by rw [← h, Nat.add_assoc]), List.length_cons]
    omega

/-- At a boundary between two characters. -/
theorem codePointIndex_append (front back : Text) :
    codePointIndex (front ++ back) (utf16 front).length = front.length := by
  have h := @codePointIndexFrom_append (utf16 front).length 0 0 front back (Nat.zero_add _)
  rwa [Nat.zero_add] at h

theorem codePointIndexFrom_inside {offset index base : Nat} (front back : Text) {point : Char}
    (h : base + (utf16 front).length < offset)
    (h' : offset ≤ base + (utf16 front).length + utf16Length point) :
    codePointIndexFrom offset index base (front ++ point :: back) = index + front.length + 1 := by
  induction front generalizing index base with
  | nil =>
    rw [utf16_nil, List.length_nil, Nat.add_zero] at h h'
    rw [List.nil_append, List.length_nil, Nat.add_zero, codePointIndexFrom, if_neg (by omega)]
    cases back with
    | nil => rfl
    | cons next back => rw [codePointIndexFrom, if_pos (by omega)]
  | cons head front ih =>
    rw [utf16_cons, List.length_append, length_utf16Units] at h h'
    rw [List.cons_append, codePointIndexFrom, if_neg (by omega), ih (by omega) (by omega),
      List.length_cons]
    omega

/-- Inside a pair of surrogates the offset is taken for the one behind it. -/
theorem codePointIndex_inside (front back : Text) {point : Char} (h : utf16Length point = 2) :
    codePointIndex (front ++ point :: back) ((utf16 front).length + 1 : Nat) =
      front.length + 1 := by
  have hinside := @codePointIndexFrom_inside ((utf16 front).length + 1) 0 0 front back point
    (by omega) (by omega)
  rwa [Nat.zero_add] at hinside

/-- An offset is at a boundary between two characters or inside a pair of surrogates. -/
theorem exists_offset {value : Text} {offset : Nat} (h : offset ≤ (utf16 value).length) :
    (∃ front back, value = front ++ back ∧ (utf16 front).length = offset) ∨
    ∃ front point back, value = front ++ point :: back ∧ utf16Length point = 2 ∧
      (utf16 front).length + 1 = offset := by
  induction value generalizing offset with
  | nil => exact .inl ⟨[], [], rfl, (Nat.le_zero.mp h).symm⟩
  | cons point value ih =>
    rw [utf16_cons, List.length_append, length_utf16Units] at h
    by_cases hzero : offset = 0
    · exact .inl ⟨[], point :: value, rfl, hzero.symm⟩
    · by_cases hinside : offset < utf16Length point
      · have hle := utf16Length_le point
        exact .inr ⟨[], point, value, rfl, by omega, by rw [utf16_nil, List.length_nil]; omega⟩
      · rcases @ih (offset - utf16Length point) (by omega) with
          ⟨front, back, rfl, hfront⟩ | ⟨front, other, back, rfl, hother, hfront⟩
        · refine .inl ⟨point :: front, back, rfl, ?_⟩
          rw [utf16_cons, List.length_append, length_utf16Units]
          omega
        · refine .inr ⟨point :: front, other, back, rfl, hother, ?_⟩
          rw [utf16_cons, List.length_append, length_utf16Units]
          omega

/-! ## Boundaries -/

structure InlineContentBoundary where
  index : Nat
  utf16Offset : Nat
  deriving DecidableEq

/-- The loop over the references: inside one, the nearer of its edges. -/
def nearerEdge (value : Text) (position : Nat) :
    List PageReferenceSpan → Option InlineContentBoundary
  | [] => none
  | reference :: references =>
    if position ≤ reference.start then none
    else if position < reference.stop then
      if reference.stop - reference.start ≤ 2 * (position - reference.start) then
        some ⟨reference.index + 1, (utf16 (value.take reference.stop)).length⟩
      else some ⟨reference.index, (utf16 (value.take reference.start)).length⟩
    else nearerEdge value position references

/-- UTF-16 textarea boundary to the nearest canonical atom boundary. -/
def canonicalContentBoundary (value : Text) (referencesInput : List PageReferenceSpan)
    (utf16Offset : Nat) : InlineContentBoundary :=
  let position := codePointIndex value utf16Offset
  let references := ordered referencesInput
  match nearerEdge value position references with
  | some boundary => boundary
  | none => ⟨logicalBoundary position references, utf16Offset⟩

/-- A projection whose text is a string of any UTF-16 units. -/
structure Utf16Projection where
  markdown : List Nat
  pageReferences : List PageReferenceSpan
  deriving DecidableEq

def InlineContentProjection.utf16 (projection : InlineContentProjection) : Utf16Projection :=
  ⟨Editor.utf16 projection.markdown, projection.pageReferences⟩

structure SplitProjection where
  head : Utf16Projection
  tail : Utf16Projection
  deriving DecidableEq

/-- Splits both the display projection and its canonical reference coordinates. -/
def splitInlineContentProjection (value : Text) (referencesInput : List PageReferenceSpan)
    (boundary : InlineContentBoundary) : SplitProjection :=
  let displayIndex := codePointIndex value boundary.utf16Offset
  let references := ordered referencesInput
  { head :=
      { markdown := (utf16 value).take boundary.utf16Offset
        pageReferences := references.filter fun reference => reference.stop ≤ displayIndex }
    tail :=
      { markdown := (utf16 value).drop boundary.utf16Offset
        pageReferences :=
          (references.filter fun reference => displayIndex ≤ reference.start).map fun reference =>
            { reference with
              start := reference.start - displayIndex
              stop := reference.stop - displayIndex
              index := reference.index - boundary.index } } }

/-- Concatenates two display projections while preserving canonical atom positions. -/
def joinInlineContentProjections (head tail : Utf16Projection) : Utf16Projection :=
  let displayOffset := codePointCount head.markdown
  let logicalOffset := logicalBoundary displayOffset (ordered head.pageReferences)
  { markdown := head.markdown ++ tail.markdown
    pageReferences := head.pageReferences ++ tail.pageReferences.map fun reference =>
      { reference with
        start := reference.start + displayOffset
        stop := reference.stop + displayOffset
        index := reference.index + logicalOffset } }

/-! ## Projections of atoms -/

variable {directory : PageId → Option PageDirectoryEntry}

theorem projectInlineContent_eq (content : List InlineContent) :
    projectInlineContent content directory =
      ⟨displayed directory (contentAtoms content),
        spansFrom directory 0 0 (contentAtoms content)⟩ := by
  unfold projectInlineContent
  rw [foldl_push]
  simp

theorem spansFrom_add (display index display' index' : Nat) (atoms : List ContentAtom) :
    spansFrom directory (display + display') (index + index') atoms =
      (spansFrom directory display index atoms).map fun reference =>
        { reference with
          start := reference.start + display'
          stop := reference.stop + display'
          index := reference.index + index' } := by
  induction atoms generalizing display index with
  | nil => rfl
  | cons atom atoms ih =>
    cases atom with
    | scalar value =>
      rw [spansFrom, spansFrom, ← ih]
      congr 1 <;> omega
    | reference pageId =>
      rw [spansFrom, spansFrom, List.map_cons, ← ih, Nat.add_right_comm display,
        Nat.add_right_comm index]

/-- The references before a place, and those behind it. -/
theorem spansFrom_zero_append (front back : List ContentAtom) :
    spansFrom directory 0 0 (front ++ back) = spansFrom directory 0 0 front ++
      (spansFrom directory 0 0 back).map fun reference =>
        { reference with
          start := reference.start + (displayed directory front).length
          stop := reference.stop + (displayed directory front).length
          index := reference.index + front.length } := by
  rw [spansFrom_append, ← spansFrom_add]

/-! ## Where an offset is canonical -/

/-- References that end before a place do not stop the loop. -/
theorem nearerEdge_append {value : Text} {display index position : Nat}
    (front back : List ContentAtom)
    (h : display + (displayed directory front).length ≤ position) :
    nearerEdge value position (spansFrom directory display index (front ++ back)) =
      nearerEdge value position (spansFrom directory
        (display + (displayed directory front).length) (index + front.length) back) := by
  induction front generalizing display index with
  | nil => rfl
  | cons atom front ih =>
    rw [displayed_cons, List.length_append] at h
    rw [List.cons_append, displayed_cons, List.length_append, List.length_cons]
    cases atom with
    | scalar point =>
      have hone : (displayedAtom directory (.scalar point)).length = 1 := rfl
      rw [hone] at h ⊢
      rw [spansFrom, ih (by omega), Nat.add_assoc, Nat.add_assoc, Nat.add_comm 1 front.length]
    | reference pageId =>
      have hatom : (displayedAtom directory (.reference pageId)).length =
          (referenceToken directory pageId).length := rfl
      have htoken := @length_referenceToken directory pageId
      rw [hatom] at h ⊢
      rw [spansFrom, nearerEdge, if_neg (by dsimp only; omega), if_neg (by dsimp only; omega),
        ih (by omega), Nat.add_assoc, Nat.add_assoc, Nat.add_comm 1 front.length]

theorem nearerEdge_of_le {value : Text} {display index position : Nat}
    (atoms : List ContentAtom) (h : position ≤ display) :
    nearerEdge value position (spansFrom directory display index atoms) = none := by
  cases hspans : spansFrom directory display index atoms with
  | nil => rfl
  | cons reference references =>
    have hbounds := mem_spansFrom (hspans ▸ List.mem_cons_self : reference ∈ _)
    rw [nearerEdge, if_pos (by omega)]

/-- An offset that is taken for a boundary between two atoms stays as it is. -/
theorem canonicalContentBoundary_between (front back : List ContentAtom) {offset : Nat}
    (h : codePointIndex (displayed directory (front ++ back)) offset =
      (displayed directory front).length) :
    canonicalContentBoundary (displayed directory (front ++ back))
      (spansFrom directory 0 0 (front ++ back)) offset = ⟨front.length, offset⟩ := by
  unfold canonicalContentBoundary
  dsimp only
  rw [ordered_spansFrom, h, nearerEdge_append front back (by omega),
    nearerEdge_of_le back (by omega), logicalBoundary_append]

/-- An offset inside a reference is moved to one of its edges. -/
theorem canonicalContentBoundary_inside (front back : List ContentAtom) (pageId : PageId)
    {offset : Nat}
    (h : (displayed directory front).length <
      codePointIndex (displayed directory (front ++ .reference pageId :: back)) offset)
    (h' : codePointIndex (displayed directory (front ++ .reference pageId :: back)) offset <
      (displayed directory front).length + (referenceToken directory pageId).length) :
    ∃ front' back', front ++ .reference pageId :: back = front' ++ back' ∧
      canonicalContentBoundary (displayed directory (front ++ .reference pageId :: back))
        (spansFrom directory 0 0 (front ++ .reference pageId :: back)) offset =
          ⟨front'.length, (utf16 (displayed directory front')).length⟩ := by
  have htake (front' back' : List ContentAtom) :
      (displayed directory (front' ++ back')).take (displayed directory front').length =
        displayed directory front' := by
    rw [displayed_append, List.take_left]
  unfold canonicalContentBoundary
  dsimp only
  rw [ordered_spansFrom, nearerEdge_append front _ (by omega), spansFrom, nearerEdge,
    if_neg (by dsimp only; omega), if_pos (by dsimp only; omega)]
  dsimp only
  by_cases hnear : 0 + (displayed directory front).length +
      (referenceToken directory pageId).length - (0 + (displayed directory front).length) ≤
    2 * (codePointIndex (displayed directory (front ++ .reference pageId :: back)) offset -
      (0 + (displayed directory front).length))
  · refine ⟨front ++ [.reference pageId], back, by simp, ?_⟩
    rw [if_pos hnear]
    dsimp only
    congr 1
    · simp
    · have hatom : (displayed directory [.reference pageId]).length =
          (referenceToken directory pageId).length := by simp [displayedAtom]
      have hstop := htake (front ++ [.reference pageId]) back
      rw [displayed_append front, List.length_append, List.append_assoc, hatom] at hstop
      rw [Nat.zero_add, displayed_append front [_]]
      exact congrArg (fun value => (utf16 value).length) hstop
  · refine ⟨front, .reference pageId :: back, rfl, ?_⟩
    rw [if_neg hnear]
    dsimp only
    rw [Nat.zero_add, Nat.zero_add, htake]

/-! ## Halves -/

/-- A split between two atoms. -/
theorem split_between (front back : List ContentAtom) :
    splitInlineContentProjection (displayed directory (front ++ back))
      (spansFrom directory 0 0 (front ++ back))
      ⟨front.length, (utf16 (displayed directory front)).length⟩ =
    { head := ⟨utf16 (displayed directory front), spansFrom directory 0 0 front⟩
      tail := ⟨utf16 (displayed directory back), spansFrom directory 0 0 back⟩ } := by
  have hindex : codePointIndex (displayed directory (front ++ back))
      (utf16 (displayed directory front)).length = (displayed directory front).length := by
    rw [displayed_append]
    exact codePointIndex_append _ _
  have hfront {reference} (h : reference ∈ spansFrom directory 0 0 front) :
      reference.start < (displayed directory front).length ∧
        reference.stop ≤ (displayed directory front).length := by
    have hbounds := mem_spansFrom h
    omega
  unfold splitInlineContentProjection
  dsimp only
  rw [hindex, ordered_spansFrom, spansFrom_zero_append, displayed_append, utf16_append,
    List.take_left, List.drop_left, List.filter_append, List.filter_append]
  congr 2
  · rw [List.filter_eq_self.mpr fun reference h => decide_eq_true (hfront h).2,
      List.filter_eq_nil_iff.mpr, List.append_nil]
    intro reference h
    obtain ⟨moved, hmoved, rfl⟩ := List.mem_map.mp h
    have hbounds := mem_spansFrom hmoved
    simp only [decide_eq_true_eq]
    omega
  · rw [List.filter_eq_nil_iff.mpr, List.nil_append, List.filter_eq_self.mpr, List.map_map]
    · conv_rhs => rw [← List.map_id (spansFrom directory 0 0 back)]
      refine List.map_congr_left fun reference _ => ?_
      simp
    · intro reference h
      obtain ⟨moved, -, rfl⟩ := List.mem_map.mp h
      exact decide_eq_true (Nat.le_add_left _ _)
    · intro reference h
      have hlt := (hfront h).1
      simp only [decide_eq_true_eq]
      omega

/-- Joining what is shown of two contents shows them one behind the other. -/
theorem join_displayed (front back : List ContentAtom) :
    joinInlineContentProjections
      ⟨utf16 (displayed directory front), spansFrom directory 0 0 front⟩
      ⟨utf16 (displayed directory back), spansFrom directory 0 0 back⟩ =
    ⟨utf16 (displayed directory (front ++ back)), spansFrom directory 0 0 (front ++ back)⟩ := by
  have hlogical := @logicalBoundary_append directory front []
  rw [List.append_nil] at hlogical
  unfold joinInlineContentProjections
  dsimp only
  rw [codePointCount_utf16, ordered_spansFrom, hlogical, ← utf16_append, ← displayed_append,
    spansFrom_zero_append]

/-! ## What a split gives -/

/-- What is shown of some atoms, as a string. -/
def shownOf (directory : PageId → Option PageDirectoryEntry) (atoms : List ContentAtom) :
    Utf16Projection :=
  (projectInlineContent (inlineContent atoms) directory).utf16

theorem shownOf_eq (atoms : List ContentAtom) :
    shownOf directory atoms =
      ⟨utf16 (displayed directory atoms), spansFrom directory 0 0 atoms⟩ := by
  unfold shownOf InlineContentProjection.utf16
  rw [projectInlineContent_eq, contentAtoms_inlineContent]

/-- The split at the canonical boundary of an offset is one of the content, and joining its
halves undoes it. -/
def SplitsContent (content : List InlineContent)
    (directory : PageId → Option PageDirectoryEntry) (offset : Nat) : Prop :=
  let projection := projectInlineContent content directory
  let boundary := canonicalContentBoundary projection.markdown projection.pageReferences offset
  let split := splitInlineContentProjection projection.markdown projection.pageReferences boundary
  split.head = shownOf directory ((contentAtoms content).take boundary.index) ∧
    split.tail = shownOf directory ((contentAtoms content).drop boundary.index) ∧
    joinInlineContentProjections split.head split.tail = projection.utf16

/-- An offset between the two surrogates of a plain character. -/
def CutsCharacter (content : List InlineContent)
    (directory : PageId → Option PageDirectoryEntry) (offset : Nat) : Prop :=
  ∃ front point back, contentAtoms content = front ++ .scalar point :: back ∧
    utf16Length point = 2 ∧ (utf16 (displayed directory front)).length + 1 = offset

/-- The content splits wherever the boundary is the place between two of its atoms. -/
theorem splitsContent_of_between {content : List InlineContent} {offset : Nat}
    {front back : List ContentAtom} (hcontent : contentAtoms content = front ++ back)
    (hboundary : canonicalContentBoundary (displayed directory (front ++ back))
      (spansFrom directory 0 0 (front ++ back)) offset =
        ⟨front.length, (utf16 (displayed directory front)).length⟩) :
    SplitsContent content directory offset := by
  unfold SplitsContent
  dsimp only
  rw [projectInlineContent_eq, hcontent]
  dsimp only
  rw [hboundary, split_between]
  dsimp only
  rw [List.take_left, List.drop_left, shownOf_eq, shownOf_eq]
  exact ⟨rfl, rfl, join_displayed front back⟩

/-- References end in a bracket, so that a pair of surrogates at an end is a plain character. -/
theorem exists_scalar_of_pair {front : List ContentAtom} {value : Text} {point : Char}
    (h : displayed directory front = value ++ [point]) (hpoint : utf16Length point = 2) :
    ∃ front', front = front' ++ [.scalar point] ∧ displayed directory front' = value := by
  rcases List.eq_nil_or_concat' front with rfl | ⟨front', atom, rfl⟩
  · cases value <;> cases h
  · rw [displayed_append, displayed_cons, displayed_nil, List.append_nil] at h
    cases atom with
    | scalar other =>
      obtain ⟨hvalue, hother⟩ := List.append_inj' h rfl
      obtain rfl : other = point := (List.cons.inj hother).1
      exact ⟨front', rfl, hvalue⟩
    | reference pageId =>
      have htoken : ∃ token, displayedAtom directory (.reference pageId) = token ++ [']'] :=
        ⟨['[', '['] ++ _ ++ [']'], by rw [List.append_assoc]; rfl⟩
      obtain ⟨token, htoken⟩ := htoken
      rw [htoken, ← List.append_assoc] at h
      obtain rfl := (List.cons.inj (List.append_inj' h rfl).2).1
      exact absurd hpoint (by decide)

/-- An offset at the place of an atom is that of the text before it, unless it cuts a
character. -/
theorem offset_eq_of_not_cuts {content : List InlineContent} {offset : Nat}
    {front rest : List ContentAtom} (hatoms : contentAtoms content = front ++ rest)
    (hle : offset ≤ (utf16 (displayed directory (front ++ rest))).length)
    (hindex : codePointIndex (displayed directory (front ++ rest)) offset =
      (displayed directory front).length)
    (hcuts : ¬CutsCharacter content directory offset) :
    offset = (utf16 (displayed directory front)).length := by
  rw [displayed_append] at hle hindex
  rcases exists_offset hle with ⟨value, value', heq, hvalue⟩ |
    ⟨value, point, value', heq, hpoint, hvalue⟩
  · rw [heq, ← hvalue, codePointIndex_append] at hindex
    rw [← hvalue, (List.append_inj heq hindex.symm).1]
  · rw [heq, ← hvalue, codePointIndex_inside value value' hpoint] at hindex
    rw [← List.singleton_append, ← List.append_assoc] at heq
    have hfront := (List.append_inj heq (by rw [List.length_append, ← hindex]; rfl)).1
    obtain ⟨front', rfl, rfl⟩ := exists_scalar_of_pair hfront hpoint
    refine absurd ⟨front', point, rest, ?_, hpoint, hvalue⟩ hcuts
    rw [hatoms, List.append_assoc, List.singleton_append]

theorem splitsContent_of_not_cuts {content : List InlineContent} {offset : Nat}
    (hle : offset ≤ (utf16 (projectInlineContent content directory).markdown).length)
    (hcuts : ¬CutsCharacter content directory offset) : SplitsContent content directory offset := by
  rw [projectInlineContent_eq] at hle
  dsimp only at hle
  have hindex : codePointIndex (displayed directory (contentAtoms content)) offset ≤
      (displayed directory (contentAtoms content)).length := by
    rcases exists_offset hle with ⟨front, back, heq, hfront⟩ |
      ⟨front, point, back, heq, hpoint, hfront⟩
    · rw [heq, ← hfront, codePointIndex_append, List.length_append]
      exact Nat.le_add_right _ _
    · rw [heq, ← hfront, codePointIndex_inside front back hpoint, List.length_append,
        List.length_cons]
      omega
  obtain ⟨front, rest, hatoms, -, heq | ⟨pageId, back, rfl, hlt, hlt'⟩⟩ := exists_front hindex
  · refine splitsContent_of_between hatoms ?_
    rw [hatoms] at heq
    rw [canonicalContentBoundary_between front rest heq.symm]
    rw [hatoms] at hle
    rw [offset_eq_of_not_cuts hatoms hle heq.symm hcuts]
  · rw [hatoms] at hlt hlt'
    obtain ⟨front', back', heq, hboundary⟩ :=
      canonicalContentBoundary_inside front back pageId hlt hlt'
    rw [heq] at hboundary hatoms
    exact splitsContent_of_between hatoms hboundary

/-- The half of a pair is missing from the text before the boundary. -/
theorem not_splitsContent_of_cuts {content : List InlineContent} {offset : Nat}
    (hcuts : CutsCharacter content directory offset) :
    ¬SplitsContent content directory offset := by
  obtain ⟨front, point, back, hatoms, hpoint, rfl⟩ := hcuts
  have hshown : displayed directory (front ++ .scalar point :: back) =
      displayed directory front ++ point :: displayed directory back := by
    rw [displayed_append, displayed_cons]
    rfl
  have hfront : displayed directory (front ++ [.scalar point]) =
      displayed directory front ++ [point] := by
    rw [displayed_append]
    rfl
  rw [← List.singleton_append, ← List.append_assoc] at hatoms
  have hindex : codePointIndex (displayed directory (front ++ [.scalar point] ++ back))
      ((utf16 (displayed directory front)).length + 1 : Nat) =
        (displayed directory (front ++ [.scalar point])).length := by
    rw [List.append_assoc, List.singleton_append, hshown, codePointIndex_inside _ _ hpoint, hfront,
      List.length_append, List.length_singleton]
  intro hsplits
  unfold SplitsContent at hsplits
  dsimp only at hsplits
  rw [projectInlineContent_eq, hatoms] at hsplits
  dsimp only at hsplits
  rw [canonicalContentBoundary_between _ _ hindex] at hsplits
  have hhead := congrArg (List.length ∘ Utf16Projection.markdown) hsplits.1
  dsimp only [Function.comp, splitInlineContentProjection] at hhead
  rw [List.take_left, shownOf_eq, displayed_append, hfront, List.length_take, utf16_append,
    utf16_append, utf16_cons, utf16_nil, List.append_nil, List.length_append,
    List.length_append, length_utf16Units, hpoint] at hhead
  omega

/-- A split gives what is shown of the two parts of a content, and joining gives it back,
unless the offset is inside a plain character; and what is shown of two contents joins. -/
theorem splitsContent_iff (content content' : List InlineContent)
    (directory : PageId → Option PageDirectoryEntry) :
    (∀ offset ≤ (utf16 (projectInlineContent content directory).markdown).length,
      SplitsContent content directory offset ↔ ¬CutsCharacter content directory offset) ∧
    joinInlineContentProjections (projectInlineContent content directory).utf16
        (projectInlineContent content' directory).utf16 =
      (projectInlineContent (content ++ content') directory).utf16 := by
  refine ⟨fun offset hle => ⟨fun hsplits hcuts => ?_, splitsContent_of_not_cuts hle⟩, ?_⟩
  · exact not_splitsContent_of_cuts hcuts hsplits
  · have happend : contentAtoms (content ++ content') =
        contentAtoms content ++ contentAtoms content' := List.flatMap_append
    rw [projectInlineContent_eq, projectInlineContent_eq, projectInlineContent_eq, happend]
    exact join_displayed _ _

/-- The second of the two units of a smiling face. -/
theorem not_splitsContent_face :
    1 ≤ (utf16 (projectInlineContent [.markdown [Char.ofNat 0x1f600]]
      fun _ => none).markdown).length ∧
    ¬SplitsContent [.markdown [Char.ofNat 0x1f600]] (fun _ => none) 1 := by
  refine ⟨by decide, not_splitsContent_of_cuts ⟨[], _, [], rfl, ?_, rfl⟩⟩
  decide

end Neoseq.Editor
