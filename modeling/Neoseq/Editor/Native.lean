import Neoseq.Core.Entities
import Neoseq.Editor.Drafts
import Neoseq.Editor.TextDiff

/-! Native input: what was typed into a text that shows references by their titles, as an edit
of the content behind it. -/

namespace Neoseq.Editor
open Neoseq.Core (PageDirectoryEntry)
open Domain hiding PageReferenceSpan
open Content (InlineContent PageReferenceSpan Text)

/-! ## Projecting -/

structure InlineContentProjection where
  markdown : Text
  pageReferences : List PageReferenceSpan
  deriving DecidableEq

/-- The last entry of a page is the one that counts. -/
def pageDirectoryIndex (pages : List PageDirectoryEntry) (id : PageId) :
    Option PageDirectoryEntry :=
  pages.reverse.find? fun page => page.id = id

/-- A reference as it is displayed. -/
def referenceToken (directory : PageId → Option PageDirectoryEntry) (pageId : PageId) : Text :=
  let label := match directory pageId with
    | some page => (page.journalDate.map LocalDate.asStr).getD page.title
    | none => pageId.asStr
  ['[', '['] ++ label.toList ++ [']', ']']

/-- The variables of `projectInlineContent`. -/
structure Projecting where
  markdown : Text := []
  display : Nat := 0
  index : Nat := 0
  pageReferences : List PageReferenceSpan := []

def Projecting.push (directory : PageId → Option PageDirectoryEntry) (p : Projecting) :
    InlineContent → Projecting
  | .markdown value =>
    { p with
      markdown := p.markdown ++ value
      display := p.display + value.length
      index := p.index + value.length }
  | .pageReference pageId =>
    let token := referenceToken directory pageId
    let stop := p.display + token.length
    { markdown := p.markdown ++ token
      display := stop
      index := p.index + 1
      pageReferences := p.pageReferences ++ [⟨p.display, stop, p.index, pageId⟩] }

def projectInlineContent (content : List InlineContent)
    (directory : PageId → Option PageDirectoryEntry) : InlineContentProjection :=
  let p := content.foldl (Projecting.push directory) {}
  ⟨p.markdown, p.pageReferences⟩

def projectContent (atoms : List ContentAtom) (directory : List PageDirectoryEntry) :
    InlineContentProjection :=
  projectInlineContent (inlineContent atoms) (pageDirectoryIndex directory)

def projectBuffer (buffer : ContentBuffer) (directory : List PageDirectoryEntry) :
    InlineContentProjection :=
  projectContent (bufferAtoms buffer) directory

/-! ## Planning an edit -/

def ordered (references : List PageReferenceSpan) : List PageReferenceSpan :=
  references.mergeSort fun left right => decide (left.start ≤ right.start)

/-- The loop of `logicalBoundary`; it breaks at the first reference that ends later. -/
def logicalBoundaryFrom (position collapsed : Nat) : List PageReferenceSpan → Nat
  | [] => position - collapsed
  | reference :: references =>
    if position < reference.stop then position - collapsed
    else logicalBoundaryFrom position (collapsed + (reference.stop - reference.start - 1)) references

def logicalBoundary (position : Nat) (references : List PageReferenceSpan) : Nat :=
  logicalBoundaryFrom position 0 references

def touchedBy (reference : PageReferenceSpan) (start stop : Nat) : Bool :=
  if start = stop then decide (reference.start < start ∧ start < reference.stop)
  else decide (reference.start < stop ∧ start < reference.stop)

def transformReferences (references : List PageReferenceSpan) (start stop displayLength : Nat)
    (logicalDelta : Int) : List PageReferenceSpan :=
  let displayDelta : Int := displayLength - (stop - start)
  references.flatMap fun reference =>
    if reference.stop ≤ start then [reference]
    else if stop ≤ reference.start then
      [{ reference with
        start := (reference.start + displayDelta).toNat
        stop := (reference.stop + displayDelta).toNat
        index := (reference.index + logicalDelta).toNat }]
    else []

def expandedRange (references : List PageReferenceSpan) (start stop : Nat) : Nat × Nat :=
  references.foldl (fun (range : Nat × Nat) reference =>
    if touchedBy reference start stop then
      (min range.1 reference.start, max range.2 reference.stop)
    else range) (start, stop)

/-- A planned splice; the block it is for may be left open. -/
structure InlineSplice where
  blockId : String
  index : Nat
  delete : Nat
  insert : List InlineContent
  deriving DecidableEq

structure InlineEditPlan where
  splice : InlineSplice
  references : List PageReferenceSpan
  deriving DecidableEq

def planInlineEdit (blockId : String) (before : Text) (referencesInput : List PageReferenceSpan)
    (after : Text) (caret : Option Int) : Option InlineEditPlan := do
  let diff ← diffSplice before after caret
  let references := ordered referencesInput
  let (start, stop) := expandedRange references diff.index (diff.index + diff.delete)
  let replacement := (before.take diff.index).drop start ++ diff.insert ++
    (before.take stop).drop (diff.index + diff.delete)
  let index := logicalBoundary start references
  let deleteCount := logicalBoundary stop references - index
  let nextReferences := transformReferences references start stop replacement.length
    (replacement.length - deleteCount)
  let insert := if replacement.length = 0 then [] else [.markdown replacement]
  return ⟨⟨blockId, index, deleteCount, insert⟩, nextReferences⟩

/-- Native input is decoded against the projection that received it. -/
def editBuffer (buffer : ContentBuffer) (projection : InlineContentProjection) (value : Text)
    (caret : Option Int) : Except ContentError ContentBuffer :=
  match planInlineEdit "" projection.markdown projection.pageReferences value caret with
  | some plan => spliceBuffer buffer plan.splice.index plan.splice.delete plan.splice.insert
  | none => .ok buffer

/-! ## What is shown -/

section
variable (directory : PageId → Option PageDirectoryEntry)

def displayedAtom : ContentAtom → Text
  | .scalar value => [value]
  | .reference pageId => referenceToken directory pageId

def displayed (atoms : List ContentAtom) : Text :=
  atoms.flatMap (displayedAtom directory)

/-- Where the references are shown, from a place in the text and in the content on. -/
def spansFrom : (display index : Nat) → List ContentAtom → List PageReferenceSpan
  | _, _, [] => []
  | display, index, .scalar _ :: atoms => spansFrom (display + 1) (index + 1) atoms
  | display, index, .reference pageId :: atoms =>
    let stop := display + (referenceToken directory pageId).length
    ⟨display, stop, index, pageId⟩ :: spansFrom stop (index + 1) atoms

/-- The content with each reference that an edit overlaps given by the characters it shows. -/
def demotedFrom (start stop : Nat) : (display index : Nat) → List ContentAtom → List ContentAtom
  | _, _, [] => []
  | display, index, .scalar value :: atoms =>
    .scalar value :: demotedFrom start stop (display + 1) (index + 1) atoms
  | display, index, .reference pageId :: atoms =>
    let stop' := display + (referenceToken directory pageId).length
    (if display < stop ∧ start < stop' then
      (referenceToken directory pageId).map .scalar else [.reference pageId]) ++
      demotedFrom start stop stop' (index + 1) atoms

end

variable {directory : PageId → Option PageDirectoryEntry}

@[simp] theorem displayed_nil : displayed directory [] = [] := rfl

@[simp] theorem displayed_cons (atom : ContentAtom) (atoms : List ContentAtom) :
    displayed directory (atom :: atoms) = displayedAtom directory atom ++ displayed directory atoms := rfl

@[simp] theorem displayed_append (atoms atoms' : List ContentAtom) :
    displayed directory (atoms ++ atoms') = displayed directory atoms ++ displayed directory atoms' :=
  List.flatMap_append

@[simp] theorem displayed_scalars (value : Text) :
    displayed directory (value.map .scalar) = value := by
  induction value with
  | nil => rfl
  | cons point value ih =>
    rw [List.map_cons, displayed_cons, ih]
    rfl

theorem length_referenceToken (pageId : PageId) :
    0 < (referenceToken directory pageId).length := by
  unfold referenceToken
  simp

theorem spansFrom_append (display index : Nat) (atoms atoms' : List ContentAtom) :
    spansFrom directory display index (atoms ++ atoms') =
      spansFrom directory display index atoms ++
        spansFrom directory (display + (displayed directory atoms).length) (index + atoms.length)
          atoms' := by
  induction atoms generalizing display index with
  | nil => rfl
  | cons atom atoms ih =>
    rw [List.cons_append, displayed_cons, List.length_append, List.length_cons]
    cases atom with
    | scalar value =>
      rw [spansFrom, spansFrom, ih]
      congr 2
      · show display + 1 + _ = display + (1 + _)
        omega
      · omega
    | reference pageId =>
      rw [spansFrom, spansFrom, ih, List.cons_append]
      congr 3
      · exact Nat.add_assoc _ _ _
      · omega

theorem spansFrom_scalars (display index : Nat) (value : Text) :
    spansFrom directory display index (value.map .scalar) = [] := by
  induction value generalizing display index with
  | nil => rfl
  | cons point value ih =>
    rw [List.map_cons, spansFrom]
    exact ih _ _

/-- The parts of a content are shown in turn. -/
theorem foldl_push (content : List InlineContent) (p : Projecting) :
    content.foldl (.push directory) p =
      { markdown := p.markdown ++ displayed directory (contentAtoms content)
        display := p.display + (displayed directory (contentAtoms content)).length
        index := p.index + (contentAtoms content).length
        pageReferences := p.pageReferences ++
          spansFrom directory p.display p.index (contentAtoms content) } := by
  induction content generalizing p with
  | nil => simp [contentAtoms, spansFrom]
  | cons part content ih =>
    rw [List.foldl_cons, ih]
    cases part with
    | markdown value =>
      have hatoms : contentAtoms (.markdown value :: content) =
          value.map .scalar ++ contentAtoms content := rfl
      rw [hatoms, spansFrom_append, spansFrom_scalars, displayed_append, displayed_scalars]
      simp [Projecting.push, Nat.add_assoc]
    | pageReference pageId =>
      have hatoms : contentAtoms (.pageReference pageId :: content) =
          .reference pageId :: contentAtoms content := rfl
      rw [hatoms, displayed_cons, spansFrom]
      simp [Projecting.push, displayedAtom, Nat.add_assoc]
      omega

theorem projectContent_eq (atoms : List ContentAtom) (pages : List PageDirectoryEntry) :
    projectContent atoms pages =
      ⟨displayed (pageDirectoryIndex pages) atoms, spansFrom (pageDirectoryIndex pages) 0 0 atoms⟩ := by
  unfold projectContent projectInlineContent
  rw [foldl_push]
  simp

/-! ## Boundaries of references -/

theorem mem_spansFrom {display index : Nat} {atoms : List ContentAtom}
    {reference : PageReferenceSpan} (h : reference ∈ spansFrom directory display index atoms) :
    display ≤ reference.start ∧ reference.start < reference.stop ∧
      reference.stop ≤ display + (displayed directory atoms).length := by
  induction atoms generalizing display index with
  | nil => cases h
  | cons atom atoms ih =>
    rw [displayed_cons, List.length_append]
    cases atom with
    | scalar value =>
      have hrest := ih h
      have hone : (displayedAtom directory (.scalar value)).length = 1 := rfl
      omega
    | reference pageId =>
      have htoken := @length_referenceToken directory pageId
      have hatom : (displayedAtom directory (.reference pageId)).length =
          (referenceToken directory pageId).length := rfl
      rcases List.mem_cons.mp h with rfl | hmem
      · dsimp only
        omega
      · have hrest := ih hmem
        omega

theorem spansFrom_pairwise (display index : Nat) (atoms : List ContentAtom) :
    (spansFrom directory display index atoms).Pairwise fun left right =>
      left.start ≤ right.start := by
  induction atoms generalizing display index with
  | nil => exact List.Pairwise.nil
  | cons atom atoms ih =>
    cases atom with
    | scalar value => exact ih _ _
    | reference pageId =>
      refine List.pairwise_cons.mpr ⟨fun reference hreference => ?_, ih _ _⟩
      have hbounds := mem_spansFrom hreference
      dsimp only
      omega

theorem ordered_spansFrom (display index : Nat) (atoms : List ContentAtom) :
    ordered (spansFrom directory display index atoms) = spansFrom directory display index atoms := by
  unfold ordered
  refine List.mergeSort_of_pairwise ((spansFrom_pairwise display index atoms).imp ?_)
  intro left right hle
  exact decide_eq_true hle

/-- The place in the content of a boundary between two atoms. -/
theorem logicalBoundaryFrom_append {display index collapsed : Nat}
    (atoms atoms' : List ContentAtom) (hdisplay : display = index + collapsed) :
    logicalBoundaryFrom (display + (displayed directory atoms).length) collapsed
      (spansFrom directory display index (atoms ++ atoms')) = index + atoms.length := by
  induction atoms generalizing display index collapsed with
  | nil =>
    show logicalBoundaryFrom display collapsed (spansFrom directory display index atoms') = index
    cases hspans : spansFrom directory display index atoms' with
    | nil =>
      show display - collapsed = index
      omega
    | cons reference references =>
      have hbounds := mem_spansFrom (hspans ▸ List.mem_cons_self : reference ∈ _)
      rw [logicalBoundaryFrom, if_pos (by omega)]
      omega
  | cons atom atoms ih =>
    rw [List.cons_append, displayed_cons, List.length_append, List.length_cons]
    cases atom with
    | scalar value =>
      have hrest := @ih (display + 1) (index + 1) collapsed (by omega)
      have hone : (displayedAtom directory (.scalar value)).length = 1 := rfl
      rw [hone, ← Nat.add_assoc, spansFrom, hrest]
      omega
    | reference pageId =>
      have htoken := @length_referenceToken directory pageId
      have hatom : (displayedAtom directory (.reference pageId)).length =
          (referenceToken directory pageId).length := rfl
      have hrest := @ih (display + (referenceToken directory pageId).length) (index + 1)
        (collapsed + ((referenceToken directory pageId).length - 1)) (by omega)
      rw [hatom, ← Nat.add_assoc, spansFrom, logicalBoundaryFrom, if_neg (by dsimp only; omega)]
      dsimp only
      rw [Nat.add_sub_cancel_left, hrest]
      omega

theorem logicalBoundary_append (atoms atoms' : List ContentAtom) :
    logicalBoundary (displayed directory atoms).length
      (spansFrom directory 0 0 (atoms ++ atoms')) = atoms.length := by
  have h := @logicalBoundaryFrom_append directory 0 0 0 atoms atoms' rfl
  rwa [Nat.zero_add, Nat.zero_add] at h

/-- A reference is touched where it and the edit overlap, also by an insertion into it. -/
theorem touchedBy_iff {reference : PageReferenceSpan} {start stop : Nat} :
    touchedBy reference start stop = true ↔ reference.start < stop ∧ start < reference.stop := by
  unfold touchedBy
  by_cases h : start = stop
  · rw [if_pos h, decide_eq_true_iff, h]
  · rw [if_neg h, decide_eq_true_iff]

/-- The range of an edit grows to the ends of the references it touches. -/
theorem expandedRange_eq {references : List PageReferenceSpan} {start stop first last : Nat}
    (hfirst : first ≤ start) (hlast : stop ≤ last)
    (hinside : ∀ reference ∈ references, touchedBy reference start stop = true →
      first ≤ reference.start ∧ reference.stop ≤ last)
    (hfirst' : first = start ∨
      ∃ reference ∈ references, touchedBy reference start stop = true ∧ reference.start = first)
    (hlast' : last = stop ∨
      ∃ reference ∈ references, touchedBy reference start stop = true ∧ reference.stop = last) :
    expandedRange references start stop = (first, last) := by
  have hfold (range : Nat × Nat) (hlow : first ≤ range.1) (hhigh : range.2 ≤ last)
      (hlow' : first = range.1 ∨
        ∃ reference ∈ references, touchedBy reference start stop = true ∧ reference.start = first)
      (hhigh' : last = range.2 ∨
        ∃ reference ∈ references, touchedBy reference start stop = true ∧ reference.stop = last) :
      references.foldl (fun (range : Nat × Nat) reference =>
        if touchedBy reference start stop then
          (min range.1 reference.start, max range.2 reference.stop)
        else range) range = (first, last) := by
    clear hfirst' hlast' hfirst hlast
    induction references generalizing range with
    | nil =>
      rcases hlow' with hlow' | ⟨_, hmem, _⟩
      · rcases hhigh' with hhigh' | ⟨_, hmem, _⟩
        · exact Prod.ext hlow'.symm hhigh'.symm
        · cases hmem
      · cases hmem
    | cons reference references ih =>
      obtain ⟨hthis, hrest⟩ := List.forall_mem_cons.mp hinside
      rw [List.foldl_cons]
      by_cases htouched : touchedBy reference start stop = true
      · obtain ⟨hstart, hstop⟩ := hthis htouched
        rw [if_pos htouched]
        refine ih hrest _ (by dsimp only; omega) (by dsimp only; omega) ?_ ?_
        · rcases hlow' with hlow' | ⟨other, hmem, hother, heq⟩
          · exact .inl (by dsimp only; omega)
          · rcases List.mem_cons.mp hmem with rfl | hmem
            · exact .inl (by dsimp only; omega)
            · exact .inr ⟨other, hmem, hother, heq⟩
        · rcases hhigh' with hhigh' | ⟨other, hmem, hother, heq⟩
          · exact .inl (by dsimp only; omega)
          · rcases List.mem_cons.mp hmem with rfl | hmem
            · exact .inl (by dsimp only; omega)
            · exact .inr ⟨other, hmem, hother, heq⟩
      · rw [if_neg htouched]
        have hkeep {P : PageReferenceSpan → Prop} {stop' : Prop}
            (h : stop' ∨ ∃ other ∈ reference :: references,
              touchedBy other start stop = true ∧ P other) :
            stop' ∨ ∃ other ∈ references, touchedBy other start stop = true ∧ P other := by
          refine h.imp_right ?_
          rintro ⟨other, hmem, hother, hp⟩
          rcases List.mem_cons.mp hmem with rfl | hmem
          · exact absurd hother htouched
          · exact ⟨other, hmem, hother, hp⟩
        exact ih hrest range hlow hhigh (hkeep hlow') (hkeep hhigh')
  exact hfold (start, stop) hfirst hlast hfirst' hlast'

/-! ## Cutting a content at an edit -/

theorem exists_front {atoms : List ContentAtom} {start : Nat}
    (hstart : start ≤ (displayed directory atoms).length) :
    ∃ front rest, atoms = front ++ rest ∧ (displayed directory front).length ≤ start ∧
      ((displayed directory front).length = start ∨
        ∃ pageId rest', rest = .reference pageId :: rest' ∧
          (displayed directory front).length < start ∧
          start < (displayed directory front).length + (referenceToken directory pageId).length) := by
  induction atoms generalizing start with
  | nil => exact ⟨[], [], rfl, Nat.zero_le _, .inl (Nat.le_zero.mp hstart).symm⟩
  | cons atom atoms ih =>
    rw [displayed_cons, List.length_append] at hstart
    by_cases hzero : start = 0
    · exact ⟨[], atom :: atoms, rfl, Nat.zero_le _, .inl hzero.symm⟩
    · by_cases hinside : start < (displayedAtom directory atom).length
      · cases atom with
        | scalar value =>
          have hone : (displayedAtom directory (.scalar value)).length = 1 := rfl
          omega
        | reference pageId =>
          refine ⟨[], .reference pageId :: atoms, rfl, Nat.zero_le _, .inr ⟨pageId, atoms, rfl, ?_, ?_⟩⟩
          · exact Nat.pos_of_ne_zero hzero
          · show start < 0 + _
            rw [Nat.zero_add]
            exact hinside
      · obtain ⟨front, rest, hatoms, hle, hcase⟩ :=
          @ih (start - (displayedAtom directory atom).length) (by omega)
        refine ⟨atom :: front, rest, by rw [hatoms, List.cons_append], ?_, ?_⟩
        · rw [displayed_cons, List.length_append]
          omega
        · rw [displayed_cons, List.length_append]
          rcases hcase with heq | ⟨pageId, rest', hrest, hlt, hlt'⟩
          · exact .inl (by omega)
          · exact .inr ⟨pageId, rest', hrest, by omega, by omega⟩

theorem exists_middle {atoms : List ContentAtom} {stop : Nat}
    (hstop : stop ≤ (displayed directory atoms).length) :
    ∃ middle back, atoms = middle ++ back ∧ stop ≤ (displayed directory middle).length ∧
      ((displayed directory middle).length = stop ∨
        ∃ rest pageId, middle = rest ++ [.reference pageId] ∧
          (displayed directory rest).length < stop) := by
  obtain ⟨front, rest, hatoms, hle, heq | ⟨pageId, rest', hrest, hlt, hlt'⟩⟩ := exists_front hstop
  · exact ⟨front, rest, hatoms, heq.ge, .inl heq⟩
  · refine ⟨front ++ [.reference pageId], rest', ?_, ?_, .inr ⟨front, pageId, rfl, hlt⟩⟩
    · rw [hatoms, hrest, List.append_assoc, List.singleton_append]
    · rw [displayed_append, List.length_append]
      exact hlt'.le.trans_eq (by rw [displayed_cons, displayed_nil, List.append_nil]; rfl)

/-- A content around an edit: the middle is what the edit reaches, with whole references. -/
structure Cut (directory : PageId → Option PageDirectoryEntry) (start stop : Nat)
    (front middle back : List ContentAtom) : Prop where
  le : start ≤ stop
  low : (displayed directory front).length ≤ start
  high : stop ≤ (displayed directory front).length + (displayed directory middle).length
  first : (displayed directory front).length = start ∨
    ∃ pageId rest, middle = .reference pageId :: rest ∧
      start < (displayed directory front).length + (referenceToken directory pageId).length
  last : (displayed directory front).length + (displayed directory middle).length = stop ∨
    ∃ rest pageId, middle = rest ++ [.reference pageId] ∧
      (displayed directory front).length + (displayed directory rest).length < stop

theorem exists_cut {atoms : List ContentAtom} {start stop : Nat} (hle : start ≤ stop)
    (hstop : stop ≤ (displayed directory atoms).length) :
    ∃ front middle back, atoms = front ++ middle ++ back ∧
      Cut directory start stop front middle back := by
  obtain ⟨front, tail, hatoms, hlow, hfirst⟩ := exists_front (hle.trans hstop)
  rw [hatoms, displayed_append, List.length_append] at hstop
  obtain ⟨middle, back, htail, hhigh, hlast⟩ :=
    @exists_middle directory tail (stop - (displayed directory front).length) (by omega)
  refine ⟨front, middle, back, by rw [hatoms, htail, List.append_assoc],
    hle, hlow, by omega, ?_, ?_⟩
  · rcases hfirst with heq | ⟨pageId, rest, hrest, hlt, hlt'⟩
    · exact .inl heq
    · refine .inr ?_
      cases middle with
      | nil =>
        rw [displayed_nil, List.length_nil] at hhigh
        omega
      | cons atom middle =>
        obtain ⟨rfl, -⟩ := List.cons.inj (hrest.symm.trans htail)
        exact ⟨pageId, middle, rfl, hlt'⟩
  · rcases hlast with heq | ⟨rest, pageId, hrest, hlt⟩
    · exact .inl (by omega)
    · exact .inr ⟨rest, pageId, hrest, by omega⟩

variable {start stop : Nat} {front middle back : List ContentAtom}

theorem Cut.touched (h : Cut directory start stop front middle back) {index : Nat}
    {reference : PageReferenceSpan}
    (hreference : reference ∈
      spansFrom directory (displayed directory front).length index middle) :
    touchedBy reference start stop = true := by
  refine touchedBy_iff.mpr ⟨?_, ?_⟩
  · rcases h.last with heq | ⟨rest, pageId, hrest, hlt⟩
    · have hbounds := mem_spansFrom hreference
      omega
    · rw [hrest, spansFrom_append] at hreference
      rcases List.mem_append.mp hreference with hmem | hmem
      · have hbounds := mem_spansFrom hmem
        omega
      · obtain rfl := List.mem_singleton.mp hmem
        exact hlt
  · rcases h.first with heq | ⟨pageId, rest, hrest, hlt⟩
    · have hbounds := mem_spansFrom hreference
      omega
    · rw [hrest] at hreference
      rcases List.mem_cons.mp hreference with rfl | hmem
      · exact hlt
      · have hbounds := mem_spansFrom hmem
        omega

theorem Cut.not_touched_front (h : Cut directory start stop front middle back)
    {reference : PageReferenceSpan} (hreference : reference ∈ spansFrom directory 0 0 front) :
    ¬touchedBy reference start stop = true := by
  intro htouched
  have hbounds := mem_spansFrom hreference
  have hlow := h.low
  have hoverlap := touchedBy_iff.mp htouched
  omega

theorem Cut.not_touched_back (h : Cut directory start stop front middle back) {index : Nat}
    {reference : PageReferenceSpan}
    (hreference : reference ∈ spansFrom directory ((displayed directory front).length +
      (displayed directory middle).length) index back) :
    ¬touchedBy reference start stop = true := by
  intro htouched
  have hbounds := mem_spansFrom hreference
  have hhigh := h.high
  have hoverlap := touchedBy_iff.mp htouched
  omega

/-- The references around an edit. -/
theorem spansFrom_cut (front middle back : List ContentAtom) :
    spansFrom directory 0 0 (front ++ middle ++ back) = spansFrom directory 0 0 front ++
      (spansFrom directory (displayed directory front).length front.length middle ++
        spansFrom directory ((displayed directory front).length +
          (displayed directory middle).length) (front.length + middle.length) back) := by
  rw [spansFrom_append, spansFrom_append, displayed_append, List.length_append, List.length_append,
    Nat.zero_add, Nat.zero_add, Nat.zero_add, Nat.zero_add, List.append_assoc]

theorem Cut.expandedRange (h : Cut directory start stop front middle back) :
    expandedRange (spansFrom directory 0 0 (front ++ middle ++ back)) start stop =
      ((displayed directory front).length,
        (displayed directory front).length + (displayed directory middle).length) := by
  rw [spansFrom_cut]
  have hmiddle {reference : PageReferenceSpan} (hmem : reference ∈
      spansFrom directory (displayed directory front).length front.length middle) :=
    List.mem_append_right (spansFrom directory 0 0 front) (List.mem_append_left
      (spansFrom directory ((displayed directory front).length +
        (displayed directory middle).length) (front.length + middle.length) back) hmem)
  refine expandedRange_eq h.low h.high (fun reference hreference htouched => ?_) ?_ ?_
  · rcases List.mem_append.mp hreference with hmem | hreference
    · exact absurd htouched (h.not_touched_front hmem)
    · rcases List.mem_append.mp hreference with hmem | hmem
      · have hbounds := mem_spansFrom hmem
        omega
      · exact absurd htouched (h.not_touched_back hmem)
  · refine h.first.imp_right ?_
    rintro ⟨pageId, rest, hrest, -⟩
    have hmem : (⟨(displayed directory front).length, (displayed directory front).length +
        (referenceToken directory pageId).length, front.length, pageId⟩ : PageReferenceSpan) ∈
        spansFrom directory (displayed directory front).length front.length middle := by
      rw [hrest]
      exact List.mem_cons_self
    exact ⟨_, hmiddle hmem, h.touched hmem, rfl⟩
  · refine h.last.imp_right ?_
    rintro ⟨rest, pageId, hrest, -⟩
    have hmem : (⟨(displayed directory front).length + (displayed directory rest).length,
        (displayed directory front).length + (displayed directory rest).length +
          (referenceToken directory pageId).length, front.length + rest.length, pageId⟩ :
            PageReferenceSpan) ∈
        spansFrom directory (displayed directory front).length front.length middle := by
      rw [hrest, spansFrom_append]
      exact List.mem_append_right _ List.mem_cons_self
    refine ⟨_, hmiddle hmem, h.touched hmem, ?_⟩
    dsimp only
    rw [hrest, displayed_append, displayed_cons, displayed_nil, List.append_nil, List.length_append,
      Nat.add_assoc]
    rfl

/-- Behind an edit the references move with the text. -/
theorem spansFrom_shift {display index display' index' : Nat} {displayDelta logicalDelta : Int}
    (hdisplay : (display' : Int) = display + displayDelta)
    (hindex : (index' : Int) = index + logicalDelta) (atoms : List ContentAtom) :
    (spansFrom directory display index atoms).map (fun reference =>
      { reference with
        start := (reference.start + displayDelta).toNat
        stop := (reference.stop + displayDelta).toNat
        index := (reference.index + logicalDelta).toNat }) =
      spansFrom directory display' index' atoms := by
  induction atoms generalizing display index display' index' with
  | nil => rfl
  | cons atom atoms ih =>
    cases atom with
    | scalar value =>
      rw [spansFrom, spansFrom]
      exact ih (by omega) (by omega)
    | reference pageId =>
      rw [spansFrom, spansFrom, List.map_cons]
      have hstart : ((display : Int) + displayDelta).toNat = display' := by omega
      have hstop : ((display + (referenceToken directory pageId).length : Nat) +
          displayDelta).toNat = display' + (referenceToken directory pageId).length := by omega
      have hplace : ((index : Int) + logicalDelta).toNat = index' := by omega
      dsimp only
      rw [hstart, hstop, hplace]
      exact congrArg (_ :: ·) (ih (by omega) (by omega))

theorem transformReferences_cut (value : Text) (front middle back : List ContentAtom) :
    transformReferences (spansFrom directory 0 0 (front ++ middle ++ back))
      (displayed directory front).length
      ((displayed directory front).length + (displayed directory middle).length) value.length
      (value.length - middle.length) =
      spansFrom directory 0 0 (front ++ value.map .scalar ++ back) := by
  unfold transformReferences
  dsimp only
  rw [spansFrom_cut, spansFrom_cut, displayed_scalars, spansFrom_scalars, List.nil_append,
    List.length_map, List.flatMap_append, List.flatMap_append]
  have hfront (f : PageReferenceSpan → List PageReferenceSpan) :
      (spansFrom directory 0 0 front).flatMap (fun reference =>
        if reference.stop ≤ (displayed directory front).length then [reference] else f reference) =
        spansFrom directory 0 0 front := by
    rw [List.flatMap_congr (g := fun reference => [reference]) fun reference hmem => ?_]
    · exact List.flatMap_singleton' _
    · have hbounds := mem_spansFrom hmem
      rw [if_pos (by omega)]
  have hmiddle (f : PageReferenceSpan → List PageReferenceSpan) :
      (spansFrom directory (displayed directory front).length front.length middle).flatMap
        (fun reference =>
          if reference.stop ≤ (displayed directory front).length then [reference]
          else if (displayed directory front).length + (displayed directory middle).length ≤
            reference.start then f reference else []) = [] := by
    refine List.flatMap_eq_nil_iff.mpr fun reference hmem => ?_
    have hbounds := mem_spansFrom hmem
    rw [if_neg (by omega), if_neg (by omega)]
  have hback (f : PageReferenceSpan → PageReferenceSpan) :
      (spansFrom directory ((displayed directory front).length +
          (displayed directory middle).length) (front.length + middle.length) back).flatMap
        (fun reference =>
          if reference.stop ≤ (displayed directory front).length then [reference]
          else if (displayed directory front).length + (displayed directory middle).length ≤
            reference.start then [f reference] else []) =
      (spansFrom directory ((displayed directory front).length +
          (displayed directory middle).length) (front.length + middle.length) back).map f := by
    rw [List.map_eq_flatMap]
    refine List.flatMap_congr fun reference hmem => ?_
    have hbounds := mem_spansFrom hmem
    rw [if_neg (by omega), if_pos (by omega)]
  rw [hfront, hmiddle, hback, List.nil_append, spansFrom_shift]
  · push_cast
    omega
  · push_cast
    omega

/-! ## What an edit makes of the content -/

theorem demotedFrom_append (display index : Nat) (atoms atoms' : List ContentAtom) :
    demotedFrom directory start stop display index (atoms ++ atoms') =
      demotedFrom directory start stop display index atoms ++
        demotedFrom directory start stop (display + (displayed directory atoms).length)
          (index + atoms.length) atoms' := by
  induction atoms generalizing display index with
  | nil => rfl
  | cons atom atoms ih =>
    rw [List.cons_append, displayed_cons, List.length_append, List.length_cons]
    cases atom with
    | scalar value =>
      rw [demotedFrom, demotedFrom, ih, List.cons_append]
      congr 3
      · show display + 1 + _ = display + (1 + _)
        omega
      · omega
    | reference pageId =>
      rw [demotedFrom, demotedFrom, ih, List.append_assoc]
      congr 3
      · exact Nat.add_assoc _ _ _
      · omega

theorem demotedFrom_of_untouched {display index : Nat} {atoms : List ContentAtom}
    (h : ∀ reference ∈ spansFrom directory display index atoms,
      ¬touchedBy reference start stop = true) :
    demotedFrom directory start stop display index atoms = atoms := by
  induction atoms generalizing display index with
  | nil => rfl
  | cons atom atoms ih =>
    cases atom with
    | scalar value =>
      rw [demotedFrom]
      exact congrArg (_ :: ·) (ih h)
    | reference pageId =>
      obtain ⟨hfirst, hrest⟩ := List.forall_mem_cons.mp h
      rw [demotedFrom, if_neg fun hoverlap => hfirst (touchedBy_iff.mpr hoverlap)]
      exact congrArg (_ :: ·) (ih hrest)

theorem demotedFrom_of_touched {display index : Nat} {atoms : List ContentAtom}
    (h : ∀ reference ∈ spansFrom directory display index atoms,
      touchedBy reference start stop = true) :
    demotedFrom directory start stop display index atoms =
      (displayed directory atoms).map .scalar := by
  induction atoms generalizing display index with
  | nil => rfl
  | cons atom atoms ih =>
    cases atom with
    | scalar value =>
      rw [demotedFrom]
      exact congrArg (_ :: ·) (ih h)
    | reference pageId =>
      obtain ⟨hfirst, hrest⟩ := List.forall_mem_cons.mp h
      rw [demotedFrom, if_pos (touchedBy_iff.mp hfirst), displayed_cons, List.map_append]
      exact congrArg (_ ++ ·) (ih hrest)

theorem Cut.demoted (h : Cut directory start stop front middle back) :
    demotedFrom directory start stop 0 0 (front ++ middle ++ back) =
      front ++ (displayed directory middle).map .scalar ++ back := by
  rw [demotedFrom_append, demotedFrom_append, Nat.zero_add, Nat.zero_add, Nat.zero_add,
    Nat.zero_add, displayed_append, List.length_append, List.length_append,
    demotedFrom_of_untouched fun _ hmem => h.not_touched_front hmem,
    demotedFrom_of_touched fun _ hmem => h.touched hmem,
    demotedFrom_of_untouched fun _ hmem => h.not_touched_back hmem]

/-- The content after an edit: what the edit touches is given by its characters, all else is
kept, and of the characters the edit removes and inserts its own. -/
def Decoded (directory : PageId → Option PageDirectoryEntry) (before after : List ContentAtom)
    (splice : Splice) : Prop :=
  ∃ (front back : List ContentAtom) (removed : Text),
    demotedFrom directory splice.index (splice.index + splice.delete) 0 0 before =
      front ++ removed.map .scalar ++ back ∧
    (displayed directory front).length = splice.index ∧ removed.length = splice.delete ∧
    after = front ++ splice.insert.map .scalar ++ back

/-- What an edit puts in the place of the middle. -/
def replacement (directory : PageId → Option PageDirectoryEntry) (splice : Splice)
    (front middle : List ContentAtom) : Text :=
  (displayed directory middle).take (splice.index - (displayed directory front).length) ++
    splice.insert ++ (displayed directory middle).drop
      (splice.index + splice.delete - (displayed directory front).length)

variable {splice : Splice}

theorem Cut.replacement_eq
    (h : Cut directory splice.index (splice.index + splice.delete) front middle back) :
    ((displayed directory (front ++ middle ++ back)).take splice.index).drop
        (displayed directory front).length ++ splice.insert ++
      ((displayed directory (front ++ middle ++ back)).take ((displayed directory front).length +
        (displayed directory middle).length)).drop (splice.index + splice.delete) =
      replacement directory splice front middle := by
  have hlow := h.low
  have hhigh := h.high
  have hfirst : ((displayed directory (front ++ middle ++ back)).take splice.index).drop
      (displayed directory front).length =
      (displayed directory middle).take (splice.index - (displayed directory front).length) := by
    rw [List.drop_take, displayed_append, displayed_append, List.append_assoc, List.drop_left,
      List.take_append_of_le_length (by omega)]
  have hlast : ((displayed directory (front ++ middle ++ back)).take
      ((displayed directory front).length + (displayed directory middle).length)).drop
        (splice.index + splice.delete) = (displayed directory middle).drop
          (splice.index + splice.delete - (displayed directory front).length) := by
    rw [displayed_append, displayed_append, ← List.length_append, List.take_left, List.drop_append,
      List.drop_eq_nil_of_le (by omega), List.nil_append]
  unfold replacement
  rw [hfirst, hlast]

theorem Cut.displayed_replaced {value : Text}
    (h : Cut directory splice.index (splice.index + splice.delete) front middle back)
    (hturns : splice.Turns (displayed directory (front ++ middle ++ back)) value) :
    displayed directory (front ++ (replacement directory splice front middle).map .scalar ++ back) =
      value := by
  have hlow := h.low
  have hhigh := h.high
  obtain ⟨-, hvalue⟩ := hturns
  rw [← hvalue, displayed_append, displayed_append, displayed_scalars, displayed_append,
    displayed_append]
  have hfront : ((displayed directory front ++ displayed directory middle) ++
      displayed directory back).take splice.index = displayed directory front ++
        (displayed directory middle).take (splice.index - (displayed directory front).length) := by
    rw [List.append_assoc, List.take_append, List.take_of_length_le hlow,
      List.take_append_of_le_length (by have hle := h.le; omega)]
  have hback : ((displayed directory front ++ displayed directory middle) ++
      displayed directory back).drop (splice.index + splice.delete) =
        (displayed directory middle).drop (splice.index + splice.delete -
          (displayed directory front).length) ++ displayed directory back := by
    rw [List.append_assoc, List.drop_append, List.drop_eq_nil_of_le (by omega), List.nil_append,
      List.drop_append_of_le_length (by omega)]
  rw [hfront, hback]
  unfold replacement
  simp only [List.append_assoc]

theorem Cut.decoded
    (h : Cut directory splice.index (splice.index + splice.delete) front middle back) :
    Decoded directory (front ++ middle ++ back)
      (front ++ (replacement directory splice front middle).map .scalar ++ back) splice := by
  have hlow := h.low
  have hhigh := h.high
  obtain ⟨first, hfirst⟩ : ∃ n, n = splice.index - (displayed directory front).length := ⟨_, rfl⟩
  have hlast : splice.index + splice.delete - (displayed directory front).length =
      first + splice.delete := by omega
  refine ⟨front ++ ((displayed directory middle).take first).map .scalar,
    ((displayed directory middle).drop (first + splice.delete)).map .scalar ++ back,
    ((displayed directory middle).drop first).take splice.delete, ?_, ?_, ?_, ?_⟩
  · have hsplit : displayed directory middle = (displayed directory middle).take first ++
        (((displayed directory middle).drop first).take splice.delete ++
          (displayed directory middle).drop (first + splice.delete)) := by
      rw [← List.drop_drop, List.take_append_drop, List.take_append_drop]
    rw [h.demoted]
    conv_lhs => rw [hsplit]
    simp only [List.map_append, List.append_assoc]
  · rw [displayed_append, displayed_scalars, List.length_append, List.length_take]
    omega
  · rw [List.length_take, List.length_drop]
    omega
  · unfold replacement
    rw [hlast, ← hfirst]
    simp only [List.map_append, List.append_assoc]

theorem contentAtoms_replacement (value : Text) :
    contentAtoms (if value.length = 0 then [] else [.markdown value]) = value.map .scalar := by
  split_ifs with hempty
  · rw [List.length_eq_zero_iff.mp hempty]
    rfl
  · exact List.append_nil _

/-- A plan is the splice that puts the replacement in the place of the middle. -/
theorem Cut.planInlineEdit (blockId : String) {value : Text} {caret : Option Int}
    (h : Cut directory splice.index (splice.index + splice.delete) front middle back)
    (hsplice : diffSplice (displayed directory (front ++ middle ++ back)) value caret =
      some splice) :
    planInlineEdit blockId (displayed directory (front ++ middle ++ back))
        (spansFrom directory 0 0 (front ++ middle ++ back)) value caret =
      some ⟨⟨blockId, front.length, middle.length,
        if (replacement directory splice front middle).length = 0 then []
          else [.markdown (replacement directory splice front middle)]⟩,
        spansFrom directory 0 0
          (front ++ (replacement directory splice front middle).map .scalar ++ back)⟩ := by
  have hindex := @logicalBoundary_append directory front (middle ++ back)
  have hstop := @logicalBoundary_append directory (front ++ middle) back
  rw [← List.append_assoc] at hindex
  rw [displayed_append, List.length_append, List.length_append] at hstop
  unfold Editor.planInlineEdit
  rw [hsplice, Option.bind_eq_bind, Option.bind_some, ordered_spansFrom]
  dsimp only
  rw [h.expandedRange]
  dsimp only
  rw [h.replacement_eq, hindex, hstop, Nat.add_sub_cancel_left, transformReferences_cut]
  rfl

/-- Native input gives the text that was typed. The edit is a smallest one between the texts,
the references it touches become the characters they show, the others stay, and the references
of the plan are those that are shown afterwards. -/
theorem editBuffer_decodes :
    (∀ before after caret, (diffSplice before after caret = none ↔ before = after) ∧
      ∀ splice, diffSplice before after caret = some splice → splice.Smallest before after) ∧
    ∀ buffer pages value caret, Drafted buffer →
      ∃ next, editBuffer buffer (projectBuffer buffer pages) value caret = .ok next ∧
        Drafted next ∧ (projectBuffer next pages).markdown = value ∧
        (diffSplice (projectBuffer buffer pages).markdown value caret = none → next = buffer) ∧
        (∀ splice, diffSplice (projectBuffer buffer pages).markdown value caret = some splice →
          Decoded (pageDirectoryIndex pages) (bufferAtoms buffer) (bufferAtoms next) splice) ∧
        ∀ blockId plan, planInlineEdit blockId (projectBuffer buffer pages).markdown
            (projectBuffer buffer pages).pageReferences value caret = some plan →
          plan.references = (projectBuffer next pages).pageReferences := by
  refine ⟨fun _ _ _ => ⟨diffSplice_eq_none, fun _ => diffSplice_smallest⟩, ?_⟩
  intro buffer pages value caret hbuffer
  unfold editBuffer projectBuffer
  simp only [projectContent_eq]
  cases hsplice : diffSplice (displayed (pageDirectoryIndex pages) (bufferAtoms buffer)) value
      caret with
  | none =>
    have hplan (blockId : String) : planInlineEdit blockId (displayed (pageDirectoryIndex pages)
        (bufferAtoms buffer)) (spansFrom (pageDirectoryIndex pages) 0 0 (bufferAtoms buffer)) value
          caret = none := by
      unfold planInlineEdit
      rw [hsplice]
      rfl
    refine ⟨buffer, by rw [hplan], hbuffer, diffSplice_eq_none.mp hsplice, fun _ => rfl, nofun, ?_⟩
    intro blockId plan h
    rw [hplan] at h
    cases h
  | some splice =>
    have hturns := (diffSplice_smallest hsplice).1
    obtain ⟨front, middle, back, hatoms, hcut⟩ :=
      @exists_cut (pageDirectoryIndex pages) (bufferAtoms buffer) splice.index
        (splice.index + splice.delete) (Nat.le_add_right _ _) hturns.1
    rw [hatoms] at hsplice hturns ⊢
    have hplan (blockId : String) := hcut.planInlineEdit blockId hsplice
    obtain ⟨next, hnext⟩ := @spliceBuffer_isOk buffer front.length middle.length
      (if (replacement (pageDirectoryIndex pages) splice front middle).length = 0 then []
        else [.markdown (replacement (pageDirectoryIndex pages) splice front middle)])
      hbuffer.increasing (by
        rw [hatoms, List.length_append, List.length_append]
        omega)
    obtain ⟨-, -, -, hnextAtoms⟩ := spliceBuffer_ok hbuffer.increasing hnext
    rw [hatoms, contentAtoms_replacement, List.append_assoc front middle, List.take_left,
      ← List.append_assoc front middle, ← List.length_append, List.drop_left] at hnextAtoms
    rw [hplan]
    refine ⟨next, hnext, hbuffer.splice hnext, ?_, nofun, ?_, ?_⟩
    · rw [hnextAtoms]
      exact hcut.displayed_replaced hturns
    · intro other hother
      obtain rfl := Option.some.inj hother
      rw [hnextAtoms]
      exact hcut.decoded
    · intro blockId plan h
      rw [hplan] at h
      rw [← Option.some.inj h, hnextAtoms]

end Neoseq.Editor
