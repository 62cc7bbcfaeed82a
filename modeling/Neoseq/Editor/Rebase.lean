import Neoseq.Collections.Weave
import Neoseq.Editor.Origins

/-! Rebasing a draft on changed content. Every atom has a mark that says where it came
from, and the marks of the draft and of the new content are woven into those of the
rebased draft. -/

namespace Neoseq.Editor
open Content (InlineContent)
open Collections

/-- An atom with where it came from: the source of the draft, what was typed into the
draft, or a change of the content. -/
inductive Mark where
  | source (index : Nat) (atom : ContentAtom)
  | typed (number : Nat) (atom : ContentAtom)
  | remote (index : Nat) (atom : ContentAtom)
  deriving DecidableEq

namespace Mark

def atom : Mark → ContentAtom
  | source _ atom | typed _ atom | remote _ atom => atom

def isTyped : Mark → Bool
  | typed _ _ => true
  | _ => false

def isRemote : Mark → Bool
  | remote _ _ => true
  | _ => false

/-- A mark of a source atom has to satisfy a predicate on its index. -/
def sourceIn (p : Nat → Bool) : Mark → Bool
  | source index _ => p index
  | _ => true

end Mark

/-! ## The marks of a draft and of a content -/

def Piece.isInsert : Piece → Bool
  | .insert _ => true
  | .source _ _ => false

/-- The atoms that were typed. -/
def Piece.typed : Piece → List ContentAtom
  | .insert atoms => atoms
  | .source _ _ => []

def typedMarks (number : Nat) : List ContentAtom → List Mark
  | [] => []
  | atom :: atoms => .typed number atom :: typedMarks (number + 1) atoms

def sourceMark (source : List ContentAtom) (index : Nat) : Option Mark :=
  source[index]?.map (.source index)

/-- The marks of pieces, where `number` atoms were typed before them. -/
def marksFrom (source : List ContentAtom) (number : Nat) : List Piece → List Mark
  | [] => []
  | .insert atoms :: pieces =>
    typedMarks number atoms ++ marksFrom source (number + atoms.length) pieces
  | .source start stop :: pieces =>
    (List.range' start (stop - start)).filterMap (sourceMark source) ++
      marksFrom source number pieces

def draftMarks (buffer : ContentBuffer) : List Mark :=
  marksFrom buffer.source 0 buffer.pieces

def contentMark (origins : Origins) (atoms : List ContentAtom) (index : Nat) : Option Mark :=
  match origins[index]?, atoms[index]? with
  | some (some origin), some atom => some (.source origin atom)
  | some none, some atom => some (.remote index atom)
  | _, _ => none

def contentMarks (origins : Origins) (atoms : List ContentAtom) : List Mark :=
  (List.range atoms.length).filterMap (contentMark origins atoms)

def Piece.shows (index : Nat) : Piece → Bool
  | .source start stop => decide (start ≤ index ∧ index < stop)
  | .insert _ => false

/-- The source atoms that are still in a draft. -/
def shown (pieces : List Piece) (index : Nat) : Bool :=
  pieces.any (Piece.shows index)

/-! ## The statement -/

/-- The source pieces are ascending and disjoint, from a position on. -/
def Increasing (length : Nat) : Nat → List Piece → Prop
  | _, [] => True
  | least, .insert _ :: pieces => Increasing length least pieces
  | least, .source start stop :: pieces =>
    least ≤ start ∧ start ≤ stop ∧ stop ≤ length ∧ Increasing length stop pieces

/-- The mapping turns a source into a content: `origins` are the places the atoms of the
content have in the source. -/
structure Turns (source : List ContentAtom) (mapping : List ContentRangeChange)
    (content : List ContentAtom) (origins : Origins) : Prop where
  changes : (Origins.identity source.length).changes mapping = some origins
  length : origins.length = content.length
  same : ∀ (index origin : Nat), origins[index]? = some (some origin) →
    source[origin]? = content[index]?

/-- What a rebased draft shows, given by its marks: the content without the atoms the draft
had deleted, and the draft without the atoms the content lost, with every run of typed atoms
in one piece. The mapping takes the atoms of the draft to their places. -/
structure Rebased (buffer : ContentBuffer) (content : List ContentAtom) (origins : Origins)
    (rebased : ContentBuffer) (mapping : List ContentRangeChange) (marks : List Mark) : Prop where
  source : rebased.source = content
  atoms : bufferAtoms rebased = marks.map Mark.atom
  content : marks.filter (fun m => !m.isTyped) =
    (contentMarks origins content).filter (Mark.sourceIn (shown buffer.pieces))
  draft : marks.filter (fun m => !m.isRemote) =
    (draftMarks buffer).filter (Mark.sourceIn fun i => decide (some i ∈ origins))
  runs : ∀ before inserts rest, buffer.pieces = before ++ inserts ++ rest →
    (∀ piece ∈ inserts, piece.isInsert = true) →
      typedMarks (before.flatMap Piece.typed).length (inserts.flatMap Piece.typed) <:+: marks
  mapping : (Origins.identity (bufferAtoms buffer).length).changes mapping =
    some (marks.map (draftMarks buffer).idxOf?)

/-! ## Typed marks -/

theorem typedMarks_append (number : Nat) (atoms atoms' : List ContentAtom) :
    typedMarks number (atoms ++ atoms') =
      typedMarks number atoms ++ typedMarks (number + atoms.length) atoms' := by
  induction atoms generalizing number with
  | nil => rfl
  | cons atom atoms ih =>
    show _ :: typedMarks (number + 1) (atoms ++ atoms') = _ :: (_ ++ _)
    rw [ih, List.length_cons, Nat.add_assoc, Nat.add_comm 1]

theorem map_atom_typedMarks (number : Nat) (atoms : List ContentAtom) :
    (typedMarks number atoms).map Mark.atom = atoms := by
  induction atoms generalizing number with
  | nil => rfl
  | cons atom atoms ih => exact congrArg (atom :: ·) (ih (number + 1))

theorem mem_typedMarks {number : Nat} {atoms : List ContentAtom} {mark : Mark}
    (h : mark ∈ typedMarks number atoms) :
    ∃ (k : Nat) (atom : ContentAtom), mark = .typed k atom := by
  induction atoms generalizing number with
  | nil => cases h
  | cons atom atoms ih =>
    rcases List.mem_cons.mp h with rfl | h
    · exact ⟨number, atom, rfl⟩
    · exact ih h

/-! ## The draft as a weave -/

/-- The typed marks of changes, each run at the source position it was typed at. -/
def typedRuns (number : Nat) : List ContentChange → List (Nat × List Mark)
  | [] => []
  | change :: changes =>
    if change.insert.length = 0 then typedRuns number changes
    else (change.start, typedMarks number change.insert) ::
      typedRuns (number + change.insert.length) changes

def draftRuns (buffer : ContentBuffer) : List (Nat × List Mark) :=
  typedRuns 0 (bufferChanges buffer)

/-- The mark of a source atom, where it is still in the draft. -/
def draftCell (source : List ContentAtom) (pieces : List Piece) (index : Nat) : List Mark :=
  if shown pieces index then (sourceMark source index).toList else []

theorem shown_cons (piece : Piece) (pieces : List Piece) (index : Nat) :
    shown (piece :: pieces) index = (piece.shows index || shown pieces index) := rfl

/-- No piece shows what is before them all. -/
theorem Increasing.shown_eq_false {length least : Nat} {pieces : List Piece}
    (h : Increasing length least pieces) {index : Nat} (hindex : index < least) :
    shown pieces index = false := by
  induction pieces generalizing least with
  | nil => rfl
  | cons piece pieces ih =>
    rw [shown_cons, Bool.or_eq_false_iff]
    cases piece with
    | insert atoms => exact ⟨rfl, ih h hindex⟩
    | source start stop =>
      obtain ⟨hleast, hstop, _, h⟩ := h
      exact ⟨decide_eq_false (by omega), ih h (by omega)⟩

theorem Increasing.le {length least : Nat} {start stop : Nat} {pieces : List Piece}
    (h : Increasing length least (.source start stop :: pieces)) : least ≤ stop :=
  h.1.trans h.2.1

theorem ascending_typedRuns {length least start number : Nat} {insert : List ContentAtom}
    {pieces : List Piece} (h : Increasing length start pieces) (hleast : least ≤ start)
    (hstart : start ≤ length) :
    Ascending length least (typedRuns number (bufferChangesFrom length start insert pieces)) := by
  induction pieces generalizing least start number insert with
  | nil =>
    unfold bufferChangesFrom
    split_ifs
    · unfold typedRuns
      split_ifs
      · exact hleast.trans hstart
      · exact ⟨hleast, hstart⟩
    · exact hleast.trans hstart
  | cons piece pieces ih =>
    cases piece with
    | insert atoms => exact ih h hleast hstart
    | source start' stop' =>
      unfold bufferChangesFrom
      have hstop : stop' ≤ length := h.2.2.1
      split_ifs
      · unfold typedRuns
        split_ifs
        · exact ih h.2.2.2 (hleast.trans h.le) hstop
        · exact ⟨hleast, ih h.2.2.2 h.le hstop⟩
      · exact ih h.2.2.2 (hleast.trans h.le) hstop

/-- A source piece shows its range and nothing between it and the piece before. -/
theorem cells_draftCell {source : List ContentAtom} {all : List Piece} {least start stop : Nat}
    {pieces : List Piece} (h : Increasing source.length least (.source start stop :: pieces))
    (hall : ∀ i, least ≤ i → shown all i = shown (.source start stop :: pieces) i) :
    cells (draftCell source all) least stop =
      (List.range' start (stop - start)).filterMap (sourceMark source) := by
  obtain ⟨hstart, hstop, _, h⟩ := h
  have hgap : cells (draftCell source all) least start = [] := by
    refine List.flatMap_eq_nil_iff.mpr fun i hi => if_neg ?_
    obtain ⟨hlow, hhigh⟩ := List.mem_range'_1.mp hi
    rw [hall i hlow, shown_cons, h.shown_eq_false (by omega), Bool.or_false]
    exact fun hshows => by have := of_decide_eq_true hshows; omega
  rw [cells_append _ hstart hstop, hgap, List.nil_append, List.filterMap_eq_flatMap_toList]
  refine List.flatMap_congr fun i hi => if_pos ?_
  obtain ⟨hlow, hhigh⟩ := List.mem_range'_1.mp hi
  rw [hall i (by omega), shown_cons]
  exact Bool.or_eq_true_iff.mpr (.inl (decide_eq_true (by omega)))

/-- The induction is on the pieces, where `insert` was typed at the position reached; the
cells since the last run are still to come before it. -/
theorem marksFrom_eq_weave {source : List ContentAtom} {all : List Piece}
    {least start : Nat} (number : Nat) (insert : List ContentAtom) {pieces : List Piece}
    (h : Increasing source.length start pieces) (hleast : least ≤ start)
    (hstart : start ≤ source.length)
    (hall : ∀ i, start ≤ i → shown all i = shown pieces i) :
    cells (draftCell source all) least start ++ typedMarks number insert ++
        marksFrom source (number + insert.length) pieces =
      weave (cells (draftCell source all)) source.length least
        (typedRuns number (bufferChangesFrom source.length start insert pieces)) := by
  induction pieces generalizing least start number insert with
  | nil =>
    have hrest : cells (draftCell source all) start source.length = [] := by
      refine List.flatMap_eq_nil_iff.mpr fun i hi => if_neg ?_
      rw [hall i (List.mem_range'_1.mp hi).1]
      exact Bool.false_ne_true
    unfold marksFrom bufferChangesFrom
    rcases insert with - | ⟨atom, insert⟩
    · have hcells := cells_append (draftCell source all) hleast hstart
      rw [hrest, List.append_nil] at hcells
      show _ ++ [] ++ [] = _
      rw [List.append_nil, List.append_nil, ← hcells]
      split_ifs <;> rfl
    · rw [if_pos (.inr (Nat.succ_pos _))]
      show _ = _ ++ _ ++ cells (draftCell source all) start source.length
      rw [hrest]
  | cons piece pieces ih =>
    cases piece with
    | insert atoms =>
      have ih := ih number (insert ++ atoms) h hleast hstart hall
      rw [typedMarks_append, List.length_append] at ih
      show _ ++ _ ++ (typedMarks _ _ ++ marksFrom source _ pieces) = _
      rw [← List.append_assoc, Nat.add_assoc, List.append_assoc _ (typedMarks number insert)]
      exact ih
    | source start' stop' =>
      have hcells := cells_draftCell h hall
      have hstop : stop' ≤ source.length := h.2.2.1
      have hall' (i : Nat) (hi : stop' ≤ i) : shown all i = shown pieces i := by
        rw [hall i (h.le.trans hi), shown_cons,
          show Piece.shows i (.source start' stop') = false from decide_eq_false (by omega),
          Bool.false_or]
      unfold marksFrom bufferChangesFrom
      rw [← hcells]
      rcases insert with - | ⟨atom, insert⟩
      · have ih := ih number [] h.2.2.2 (hleast.trans h.le) hstop hall'
        rw [cells_append _ hleast h.le] at ih
        show _ ++ [] ++ _ = _
        rw [List.append_nil, ← List.append_assoc]
        refine Eq.trans ?_ (ih.trans ?_)
        · show _ = _ ++ _ ++ [] ++ _
          rw [List.append_nil]
        · split_ifs <;> rfl
      · have ih := ih (number + (atom :: insert).length) [] h.2.2.2 h.le hstop hall'
        rw [if_pos (.inr (Nat.succ_pos _))]
        show _ = cells _ least start ++ typedMarks number (atom :: insert) ++ weave _ _ start _
        rw [← ih]
        show _ = _ ++ (_ ++ [] ++ _)
        rw [List.append_nil]
        rfl

/-! ## The rebased draft as a weave -/

/-- The mark of an atom of the new content, where the draft has not deleted it. -/
def contentCell (origins : Origins) (content : List ContentAtom) (pieces : List Piece)
    (index : Nat) : List Mark :=
  (contentMark origins content index).toList.filter (Mark.sourceIn (shown pieces))

/-- The runs of the draft at their places in the new content. -/
def mappedRuns (buffer : ContentBuffer) (mapping : List ContentRangeChange) :
    List (Nat × List Mark) :=
  (draftRuns buffer).map fun r => (mapContentPosition .after r.1 mapping, r.2)

def rebasedMarks (buffer : ContentBuffer) (content : List ContentAtom) (origins : Origins)
    (mapping : List ContentRangeChange) : List Mark :=
  gathered (contentCell origins content buffer.pieces) (mappedRuns buffer mapping) 0
    (content.length + 1)

theorem Ascending.mapped {stop stop' start start' : Nat} {f : Nat → Nat} (hmono : Monotone f)
    (hlast : ∀ a, a ≤ stop → f a ≤ stop') {runs : List (Nat × List Mark)}
    (h : Ascending stop start runs) (hstart : start' ≤ f start) :
    Ascending stop' start' (runs.map fun r => (f r.1, r.2)) := by
  induction runs generalizing start start' with
  | nil => exact hstart.trans (hlast start h)
  | cons first runs ih =>
    exact ⟨hstart.trans (hmono h.1), ih h.2 le_rfl⟩

variable {buffer : ContentBuffer} {content : List ContentAtom} {origins : Origins}
  {mapping : List ContentRangeChange}

theorem Turns.mapped (h : Turns buffer.source mapping content origins) :
    Origins.Mapped buffer.source.length mapping origins :=
  Origins.mapped_of_changes (Origins.mapped_nil _) h.changes

theorem ascending_draftRuns (hinc : Increasing buffer.source.length 0 buffer.pieces) :
    Ascending buffer.source.length 0 (draftRuns buffer) :=
  ascending_typedRuns hinc le_rfl (Nat.zero_le _)

theorem ascending_mappedRuns (hinc : Increasing buffer.source.length 0 buffer.pieces)
    (h : Turns buffer.source mapping content origins) :
    Ascending content.length 0 (mappedRuns buffer mapping) :=
  Ascending.mapped h.mapped.mono (fun p hp => h.length ▸ h.mapped.le p hp)
    (ascending_draftRuns hinc) (Nat.zero_le _)

theorem rebasedMarks_eq_weave (hinc : Increasing buffer.source.length 0 buffer.pieces)
    (h : Turns buffer.source mapping content origins) :
    rebasedMarks buffer content origins mapping =
      weave (cells (contentCell origins content buffer.pieces)) (content.length + 1) 0
        (mappedRuns buffer mapping) :=
  gathered_eq_weave (ascending_mappedRuns hinc h)

theorem draftMarks_eq_weave (hinc : Increasing buffer.source.length 0 buffer.pieces) :
    draftMarks buffer =
      weave (cells (draftCell buffer.source buffer.pieces)) buffer.source.length 0
        (draftRuns buffer) := by
  have hall (i : Nat) (_ : 0 ≤ i) : shown buffer.pieces i = shown buffer.pieces i := rfl
  have h := marksFrom_eq_weave 0 [] hinc le_rfl (Nat.zero_le _) hall
  rwa [cells_self] at h

theorem mem_typedRuns {number : Nat} {changes : List ContentChange} {run : Nat × List Mark}
    (h : run ∈ typedRuns number changes) {mark : Mark} (hmark : mark ∈ run.2) :
    ∃ (k : Nat) (atom : ContentAtom), mark = .typed k atom := by
  induction changes generalizing number with
  | nil => cases h
  | cons change changes ih =>
    unfold typedRuns at h
    split_ifs at h
    · exact ih h
    · rcases List.mem_cons.mp h with rfl | h
      · exact mem_typedMarks hmark
      · exact ih h

/-- A predicate that holds of typed marks keeps the runs. -/
theorem map_filter_draftRuns {p : Mark → Bool} (hp : ∀ k atom, p (.typed k atom) = true) :
    (draftRuns buffer).map (fun r => (r.1, r.2.filter p)) = draftRuns buffer := by
  refine (List.map_congr_left fun run hrun => ?_).trans (List.map_id _)
  refine Prod.ext rfl (List.filter_eq_self.mpr fun mark hmark => ?_)
  obtain ⟨k, atom, rfl⟩ := mem_typedRuns hrun hmark
  exact hp k atom

/-- At an index of the new content, what is not new is the cell of its place. -/
theorem filter_contentCell (h : Turns buffer.source mapping content origins) (index : Nat) :
    (contentCell origins content buffer.pieces index).filter (fun m => !m.isRemote) =
      ((origins[index]?).join.toList).flatMap (draftCell buffer.source buffer.pieces) := by
  unfold contentCell contentMark draftCell sourceMark
  rcases hindex : origins[index]? with - | - | origin
  · rfl
  · cases content[index]? <;> rfl
  · have hsame := h.same index origin hindex
    rw [← hsame]
    cases hatom : buffer.source[origin]? <;> cases hshown : shown buffer.pieces origin <;>
      simp [hatom, hshown, Mark.sourceIn, Mark.isRemote]

theorem filter_draftCell (p : Nat → Bool) (source : List ContentAtom) (pieces : List Piece)
    (index : Nat) :
    (draftCell source pieces index).filter (Mark.sourceIn p) =
      if p index then draftCell source pieces index else [] := by
  unfold draftCell sourceMark
  cases shown pieces index <;> cases source[index]? <;> cases hp : p index <;>
    simp [hp, Mark.sourceIn]

/-- Between corresponding positions both sides keep the same source atoms. -/
theorem segments_eq (h : Turns buffer.source mapping content origins) {p q p' q' : Nat}
    (hp : origins.Splits p p') (hq : origins.Splits q q') :
    (cells (draftCell buffer.source buffer.pieces) p q).filter
        (Mark.sourceIn fun i => decide (some i ∈ origins)) =
      (cells (contentCell origins content buffer.pieces) p' q').filter
        (fun m => !m.isRemote) := by
  have hsegment := Origins.segment_eq h.mapped.traces hp hq
  unfold cells
  rw [List.filter_flatMap, List.filter_flatMap]
  calc
    _ = (List.range' p (q - p)).flatMap fun i =>
          if decide (some i ∈ origins) then draftCell buffer.source buffer.pieces i else [] :=
      List.flatMap_congr fun i _ => filter_draftCell _ _ _ i
    _ = ((List.range' p (q - p)).filter fun i => decide (some i ∈ origins)).flatMap
          (draftCell buffer.source buffer.pieces) := (flatMap_filter _ _ _).symm
    _ = ((List.range' p' (q' - p')).filterMap fun j => (origins[j]?).join).flatMap
          (draftCell buffer.source buffer.pieces) := by rw [hsegment]
    _ = _ := by
      rw [List.filterMap_eq_flatMap_toList, List.flatMap_assoc]
      exact List.flatMap_congr fun j _ => (filter_contentCell h j).symm

theorem filter_remote_rebasedMarks (hinc : Increasing buffer.source.length 0 buffer.pieces)
    (h : Turns buffer.source mapping content origins) :
    (rebasedMarks buffer content origins mapping).filter (fun m => !m.isRemote) =
      (draftMarks buffer).filter (Mark.sourceIn fun i => decide (some i ∈ origins)) := by
  rw [rebasedMarks_eq_weave hinc h, draftMarks_eq_weave hinc, weave_filter, weave_filter]
  have hruns : (mappedRuns buffer mapping).map (fun r => (r.1, r.2.filter fun m => !m.isRemote)) =
      (draftRuns buffer).map fun r => (mapContentPosition .after r.1 mapping, r.2) := by
    unfold mappedRuns
    rw [List.map_map]
    conv_rhs => rw [← map_filter_draftRuns (p := fun m => !m.isRemote) fun _ _ => rfl]
    rw [List.map_map]
    rfl
  rw [hruns, map_filter_draftRuns fun _ _ => rfl]
  refine (weave_congr (fun p => mapContentPosition .after p mapping) origins.Splits
    (fun _ _ _ _ ha hb _ _ => segments_eq h ha hb) h.mapped.splits h.mapped.mono
    (h.mapped.traces.splits_last (by rw [h.length]; omega))
    (fun p hp => ?_) (Origins.splits_zero origins) (ascending_draftRuns hinc)
    (fun _ _ _ => Nat.zero_le _) (Nat.zero_le _)).symm
  have hle := h.mapped.le p hp
  rw [h.length] at hle
  exact hle.trans (Nat.le_succ _)

theorem filter_typed_rebasedMarks (buffer : ContentBuffer) (content : List ContentAtom)
    (origins : Origins) (mapping : List ContentRangeChange) :
    (rebasedMarks buffer content origins mapping).filter (fun m => !m.isTyped) =
      (contentMarks origins content).filter (Mark.sourceIn (shown buffer.pieces)) := by
  have hcell (i : Nat) : (runsAt (mappedRuns buffer mapping) i ++
      contentCell origins content buffer.pieces i).filter (fun m => !m.isTyped) =
        contentCell origins content buffer.pieces i := by
    have hruns : (runsAt (mappedRuns buffer mapping) i).filter (fun m => !m.isTyped) = [] := by
      refine List.filter_eq_nil_iff.mpr fun mark hmark => ?_
      obtain ⟨run, hrun, hmark⟩ := List.mem_flatMap.mp hmark
      obtain ⟨run, hdraft, rfl⟩ := List.mem_map.mp (List.mem_filter.mp hrun).1
      obtain ⟨k, atom, rfl⟩ := mem_typedRuns hdraft hmark
      exact Bool.false_ne_true
    rw [List.filter_append, hruns, List.nil_append]
    refine List.filter_eq_self.mpr fun mark hmark => ?_
    have hmark := Option.mem_toList.mp (List.mem_filter.mp hmark).1
    unfold contentMark at hmark
    split at hmark
    · obtain rfl := Option.some.inj hmark
      rfl
    · obtain rfl := Option.some.inj hmark
      rfl
    · cases hmark
  have hlast : contentCell origins content buffer.pieces content.length = [] := by
    unfold contentCell contentMark
    rw [List.getElem?_eq_none le_rfl]
    split <;> first | rfl | contradiction
  unfold rebasedMarks gathered contentMarks
  rw [List.filter_flatMap, List.flatMap_congr fun i _ => hcell i, Nat.sub_zero,
    ← List.range_eq_range', List.range_succ, List.flatMap_append, List.flatMap_singleton, hlast,
    List.append_nil, List.filterMap_eq_flatMap_toList, List.filter_flatMap]
  rfl

/-! ## Runs -/

/-- What is pending when the pieces go on is at the start of a run. -/
theorem pending_infix (length start number : Nat) {insert : List ContentAtom}
    (hinsert : insert ≠ []) (pieces : List Piece) :
    ∃ run ∈ typedRuns number (bufferChangesFrom length start insert pieces),
      typedMarks number insert <+: run.2 := by
  induction pieces generalizing insert with
  | nil =>
    have hpos : 0 < insert.length := List.length_pos_iff.mpr hinsert
    unfold bufferChangesFrom
    rw [if_pos (.inr hpos)]
    unfold typedRuns
    rw [if_neg (by exact hpos.ne')]
    exact ⟨_, List.mem_cons_self, List.prefix_refl _⟩
  | cons piece pieces ih =>
    cases piece with
    | insert atoms =>
      have hne : insert ++ atoms ≠ [] := by simp [hinsert]
      obtain ⟨run, hrun, hstart⟩ := ih hne
      rw [typedMarks_append] at hstart
      exact ⟨run, hrun, (List.prefix_append _ _).trans hstart⟩
    | source start' stop' =>
      have hpos : 0 < insert.length := List.length_pos_iff.mpr hinsert
      unfold bufferChangesFrom
      rw [if_pos (.inr hpos)]
      unfold typedRuns
      rw [if_neg (by exact hpos.ne')]
      exact ⟨_, List.mem_cons_self, List.prefix_refl _⟩

theorem bufferChangesFrom_inserts {length start : Nat} (insert : List ContentAtom)
    {inserts : List Piece} (h : ∀ piece ∈ inserts, piece.isInsert = true) (rest : List Piece) :
    bufferChangesFrom length start insert (inserts ++ rest) =
      bufferChangesFrom length start (insert ++ inserts.flatMap Piece.typed) rest := by
  induction inserts generalizing insert with
  | nil => rw [List.flatMap_nil, List.append_nil, List.nil_append]
  | cons piece inserts ih =>
    cases piece with
    | insert atoms =>
      have ih := ih (insert ++ atoms) fun p hp => h p (List.mem_cons_of_mem _ hp)
      rw [List.append_assoc] at ih
      exact ih
    | source start stop => cases h _ List.mem_cons_self

/-- Typed pieces that follow each other are within one run. -/
theorem inserts_infix (length start number : Nat) (insert : List ContentAtom)
    {inserts : List Piece} (hinserts : ∀ piece ∈ inserts, piece.isInsert = true)
    (hne : inserts.flatMap Piece.typed ≠ []) (before rest : List Piece) :
    ∃ run ∈ typedRuns number (bufferChangesFrom length start insert (before ++ inserts ++ rest)),
      typedMarks (number + insert.length + (before.flatMap Piece.typed).length)
        (inserts.flatMap Piece.typed) <:+: run.2 := by
  induction before generalizing start number insert with
  | nil =>
    rw [List.nil_append, bufferChangesFrom_inserts _ hinserts]
    have hne' : insert ++ inserts.flatMap Piece.typed ≠ [] := by simp [hne]
    obtain ⟨run, hrun, hstart⟩ := pending_infix length start number hne' rest
    rw [typedMarks_append] at hstart
    exact ⟨run, hrun, (List.suffix_append _ _).isInfix.trans hstart.isInfix⟩
  | cons piece before ih =>
    cases piece with
    | insert atoms =>
      have ih := ih start number (insert ++ atoms)
      rw [List.length_append, ← Nat.add_assoc, Nat.add_assoc _ atoms.length,
        ← List.length_append] at ih
      exact ih
    | source start' stop' =>
      show ∃ run ∈ typedRuns number (bufferChangesFrom length start insert
        (.source start' stop' :: (before ++ inserts ++ rest))), _
      unfold bufferChangesFrom
      rcases insert with - | ⟨atom, insert⟩
      · have ih := ih stop' number []
        split_ifs
        · exact ih
        · exact ih
      · rw [if_pos (.inr (Nat.succ_pos _))]
        obtain ⟨run, hrun, hinfix⟩ := ih stop' (number + (atom :: insert).length) []
        exact ⟨run, List.mem_cons_of_mem _ hrun, hinfix⟩

theorem inserts_infix_rebasedMarks (hinc : Increasing buffer.source.length 0 buffer.pieces)
    (h : Turns buffer.source mapping content origins) {before inserts rest : List Piece}
    (hpieces : buffer.pieces = before ++ inserts ++ rest)
    (hinserts : ∀ piece ∈ inserts, piece.isInsert = true) :
    typedMarks (before.flatMap Piece.typed).length (inserts.flatMap Piece.typed) <:+:
      rebasedMarks buffer content origins mapping := by
  by_cases hne : inserts.flatMap Piece.typed = []
  · rw [hne]
    exact List.nil_infix
  · obtain ⟨run, hrun, hinfix⟩ := inserts_infix buffer.source.length 0 0 [] hinserts hne before
      rest
    rw [← hpieces] at hrun
    rw [List.length_nil, Nat.zero_add] at hinfix
    rw [rebasedMarks_eq_weave hinc h]
    obtain ⟨mapped, hmapped, hmarks⟩ : ∃ r ∈ mappedRuns buffer mapping, r.2 = run.2 :=
      ⟨_, List.mem_map.mpr ⟨run, hrun, rfl⟩, rfl⟩
    rw [← hmarks] at hinfix
    exact hinfix.trans (infix_weave hmapped)

/-! ## Where marks are seen -/

def Visibility.seen (v : Visibility) : Mark → Option Nat
  | .source index _ => v.originalVisible index
  | .typed number _ => v.insertedVisible[number]?
  | .remote _ _ => none

/-- The marks that were read are seen at their positions. -/
structure Reads (marks : List Mark) (v : Visibility) : Prop where
  visible : v.visible = marks.length
  seen : ∀ (i : Nat) (mark : Mark), marks[i]? = some mark → v.seen mark = some i

/-- One more mark is read by a step that shows it last and leaves the others alone. -/
theorem Reads.snoc {marks : List Mark} {v v' : Visibility} {mark : Mark} (h : Reads marks v)
    (hvisible : v'.visible = v.visible + 1) (hlast : v'.seen mark = some v.visible)
    (hold : ∀ m ∈ marks, v'.seen m = v.seen m) : Reads (marks ++ [mark]) v' where
  visible := by
    rw [hvisible, h.visible, List.length_append]
    rfl
  seen i m hm := by
    rcases Nat.lt_or_ge i marks.length with hlt | hge
    · rw [List.getElem?_append_left hlt] at hm
      rw [hold m (List.mem_of_getElem? hm)]
      exact h.seen i m hm
    · rw [List.getElem?_append_right hge] at hm
      obtain ⟨hlt, hm⟩ := List.getElem?_eq_some_iff.mp hm
      have hi : i = marks.length := by
        rw [List.length_singleton] at hlt
        omega
      subst hi
      rw [List.getElem_singleton] at hm
      rw [← hm, hlast, h.visible]

theorem Reads.pushOriginal {marks : List Mark} {v : Visibility} (h : Reads marks v) {index : Nat}
    (hnew : ∀ atom, Mark.source index atom ∉ marks) (atom : ContentAtom) :
    Reads (marks ++ [.source index atom]) (v.pushOriginal index) := by
  refine h.snoc rfl (Function.update_self _ _ _) fun m hm => ?_
  cases m with
  | source other _ =>
    refine Function.update_of_ne ?_ _ _
    rintro rfl
    exact hnew _ hm
  | typed _ _ | remote _ _ => rfl

theorem Reads.pushInserted {marks : List Mark} {v : Visibility} (h : Reads marks v)
    (atom : ContentAtom) :
    Reads (marks ++ [.typed v.insertedVisible.length atom]) v.pushInserted := by
  refine h.snoc rfl (List.getElem?_concat_length) fun m hm => ?_
  cases m with
  | typed number _ =>
    obtain ⟨i, hi⟩ := List.getElem?_of_mem hm
    obtain ⟨hlt, _⟩ := List.getElem?_eq_some_iff.mp (h.seen i _ hi)
    exact List.getElem?_append_left hlt
  | source _ _ | remote _ _ => rfl

/-- The source marks that were read are before an index. -/
def Below (marks : List Mark) (index : Nat) : Prop :=
  ∀ i atom, Mark.source i atom ∈ marks → i < index

theorem Reads.pushRange {source : List ContentAtom} {marks : List Mark} {v : Visibility}
    {start count : Nat} (h : Reads marks v) (hbelow : Below marks start)
    (hlength : start + count ≤ source.length) :
    Reads (marks ++ (List.range' start count).filterMap (sourceMark source))
        ((List.range' start count).foldl .pushOriginal v) ∧
      Below (marks ++ (List.range' start count).filterMap (sourceMark source)) (start + count) ∧
      ((List.range' start count).foldl Visibility.pushOriginal v).insertedVisible =
        v.insertedVisible := by
  induction count generalizing start marks v with
  | zero =>
    rw [List.range'_zero, List.filterMap_nil, List.append_nil]
    exact ⟨h, hbelow, rfl⟩
  | succ count ih =>
    have hatom : sourceMark source start = some (.source start source[start]) := by
      unfold sourceMark
      rw [List.getElem?_eq_getElem (by omega), Option.map_some]
    have hbelow' : Below (marks ++ [.source start source[start]]) (start + 1) := by
      intro i atom hi
      rcases List.mem_append.mp hi with hi | hi
      · exact (hbelow i atom hi).trans (Nat.lt_succ_self _)
      · obtain ⟨rfl, _⟩ := Mark.source.inj (List.mem_singleton.mp hi)
        exact Nat.lt_succ_self _
    have hnew (atom : ContentAtom) : Mark.source start atom ∉ marks :=
      fun hmem => (hbelow start atom hmem).ne rfl
    obtain ⟨hreads, hbelow', hinserted⟩ :=
      ih (h.pushOriginal hnew source[start]) hbelow' (by omega)
    rw [List.range'_succ, List.filterMap_cons_some hatom, List.append_cons]
    rw [show start + 1 + count = start + (count + 1) by omega] at hbelow'
    exact ⟨hreads, hbelow', hinserted⟩

theorem Reads.pushAtoms {marks : List Mark} {v : Visibility} (h : Reads marks v)
    (atoms : List ContentAtom) :
    Reads (marks ++ typedMarks v.insertedVisible.length atoms)
        (atoms.foldl (fun v _ => v.pushInserted) v) ∧
      (atoms.foldl (fun v _ => v.pushInserted) v).insertedVisible.length =
        v.insertedVisible.length + atoms.length := by
  induction atoms generalizing marks v with
  | nil =>
    rw [show typedMarks v.insertedVisible.length [] = [] from rfl, List.append_nil]
    exact ⟨h, rfl⟩
  | cons atom atoms ih =>
    have hlength : v.pushInserted.insertedVisible.length = v.insertedVisible.length + 1 :=
      List.length_append
    obtain ⟨hreads, hcount⟩ := ih (h.pushInserted atom)
    rw [hlength] at hreads hcount
    refine ⟨?_, ?_⟩
    · show Reads (marks ++ .typed _ atom :: _) _
      rw [List.append_cons]
      exact hreads
    · rw [List.length_cons, Nat.add_comm atoms.length, ← Nat.add_assoc]
      exact hcount

theorem Below.append_typed {marks : List Mark} {index number : Nat} (h : Below marks index)
    (atoms : List ContentAtom) : Below (marks ++ typedMarks number atoms) index := by
  intro i atom hi
  rcases List.mem_append.mp hi with hi | hi
  · exact h i atom hi
  · obtain ⟨_, _, h⟩ := mem_typedMarks hi
    cases h

theorem Reads.pushPieces {source : List ContentAtom} {marks : List Mark} {v : Visibility}
    {least number : Nat} {pieces : List Piece} (h : Reads marks v) (hbelow : Below marks least)
    (hnumber : v.insertedVisible.length = number) (hinc : Increasing source.length least pieces) :
    Reads (marks ++ marksFrom source number pieces) (pieces.foldl .pushPiece v) := by
  induction pieces generalizing least number marks v with
  | nil =>
    rw [show marksFrom source number [] = [] from rfl, List.append_nil]
    exact h
  | cons piece pieces ih =>
    cases piece with
    | insert atoms =>
      obtain ⟨hreads, hcount⟩ := h.pushAtoms atoms
      rw [hnumber] at hreads hcount
      have ih := ih hreads (hbelow.append_typed atoms) hcount hinc
      rwa [List.append_assoc] at ih
    | source start stop =>
      obtain ⟨hleast, hstop, hlength, hinc⟩ := hinc
      have hbelow' : Below marks start := fun i atom hi => (hbelow i atom hi).trans_le hleast
      have hrange : start + (stop - start) ≤ source.length := by omega
      obtain ⟨hreads, hbelow', hinserted⟩ := h.pushRange hbelow' hrange
      rw [show start + (stop - start) = stop by omega] at hbelow'
      have ih := ih hreads hbelow' ((congrArg List.length hinserted).trans hnumber) hinc
      rwa [List.append_assoc] at ih

theorem reads_visibility (hinc : Increasing buffer.source.length 0 buffer.pieces) :
    Reads (draftMarks buffer) (visibility buffer) :=
  Reads.pushPieces (show Reads [] {} from ⟨rfl, nofun⟩) nofun rfl hinc

/-- A source atom is seen where a piece shows it. -/
theorem isSome_originalVisible (pieces : List Piece) (v : Visibility) (index : Nat) :
    ((pieces.foldl .pushPiece v).originalVisible index).isSome =
      ((v.originalVisible index).isSome || shown pieces index) := by
  have hrange (start count : Nat) (v : Visibility) :
      (((List.range' start count).foldl .pushOriginal v).originalVisible index).isSome =
        ((v.originalVisible index).isSome || decide (start ≤ index ∧ index < start + count)) := by
    induction count generalizing start v with
    | zero =>
      rw [decide_eq_false (by omega), Bool.or_false]
      rfl
    | succ count ih =>
      rw [List.range'_succ, List.foldl_cons, ih]
      by_cases hi : index = start
      · subst hi
        have hseen : (v.pushOriginal index).originalVisible index = some v.visible :=
          Function.update_self _ _ _
        rw [decide_eq_true (show index ≤ index ∧ index < index + (count + 1) by omega), hseen,
          Bool.or_true]
        rfl
      · have hseen : (v.pushOriginal start).originalVisible index = v.originalVisible index :=
          Function.update_of_ne hi _ _
        rw [hseen]
        congr 1
        exact decide_eq_decide.mpr (by omega)
  have hatoms (atoms : List ContentAtom) (v : Visibility) :
      (atoms.foldl (fun v _ => v.pushInserted) v).originalVisible = v.originalVisible := by
    induction atoms generalizing v with
    | nil => rfl
    | cons atom atoms ih => exact ih v.pushInserted
  induction pieces generalizing v with
  | nil => exact (Bool.or_false _).symm
  | cons piece pieces ih =>
    rw [List.foldl_cons, ih, shown_cons, ← Bool.or_assoc]
    congr 1
    cases piece with
    | insert atoms =>
      show ((atoms.foldl (fun v _ => v.pushInserted) v).originalVisible index).isSome = _
      rw [hatoms]
      exact (Bool.or_false _).symm
    | source start stop =>
      refine (hrange start (stop - start) v).trans (congrArg _ (decide_eq_decide.mpr ?_))
      omega

theorem isSome_visibility (buffer : ContentBuffer) (index : Nat) :
    ((visibility buffer).originalVisible index).isSome = shown buffer.pieces index :=
  isSome_originalVisible buffer.pieces {} index

/-! ## Insertions -/

def Insertions.atomsAt (insertions : Insertions) (place : Nat) : List ContentAtom :=
  ((insertions.found place).map Insertion.atoms).getD []

def Insertions.originsAt (insertions : Insertions) (place : Nat) : Origins :=
  ((insertions.found place).map fun i => i.origins.map some).getD []

/-- The typed marks from a number on are seen where the list says. -/
theorem slice_insertedVisible {v : Visibility} {number : Nat} {atoms : List ContentAtom}
    (h : ∀ mark ∈ typedMarks number atoms, (v.seen mark).isSome = true) :
    ((v.insertedVisible.drop number).take atoms.length).map some =
      (typedMarks number atoms).map v.seen := by
  induction atoms generalizing number with
  | nil => rfl
  | cons atom atoms ih =>
    have hseen : (v.insertedVisible[number]?).isSome = true := h _ List.mem_cons_self
    obtain ⟨place, hplace⟩ := Option.isSome_iff_exists.mp hseen
    obtain ⟨hlt, hget⟩ := List.getElem?_eq_some_iff.mp hplace
    have ih := ih fun mark hmark => h mark (List.mem_cons_of_mem _ hmark)
    rw [List.drop_eq_getElem_cons hlt, List.length_cons, List.take_succ_cons, List.map_cons, ih,
      hget, ← hplace]
    rfl

/-- What has been found at a place is what was typed there. -/
theorem foldl_insertions (v : Visibility) {changes : List ContentChange} (insertions : Insertions)
    (h : ∀ run ∈ typedRuns insertions.insertedOffset changes,
      ∀ mark ∈ run.2, (v.seen mark).isSome = true) (place : Nat) :
    let after := changes.foldl (Insertions.push v.insertedVisible mapping) insertions
    let typed := runsAt ((typedRuns insertions.insertedOffset changes).map fun r =>
      (mapContentPosition .after r.1 mapping, r.2)) place
    after.atomsAt place = insertions.atomsAt place ++ typed.map Mark.atom ∧
      after.originsAt place = insertions.originsAt place ++ typed.map v.seen := by
  induction changes generalizing insertions with
  | nil => exact ⟨(List.append_nil _).symm, (List.append_nil _).symm⟩
  | cons change changes ih =>
    intro after typed
    by_cases hempty : change.insert.length = 0
    · have hpush : insertions.push v.insertedVisible mapping change = insertions := if_pos hempty
      have hruns : typedRuns insertions.insertedOffset (change :: changes) =
          typedRuns insertions.insertedOffset changes := if_pos hempty
      rw [hruns] at h
      have ih := ih insertions h
      simp only [after, typed, List.foldl_cons, hpush, hruns]
      exact ih
    · have hruns : typedRuns insertions.insertedOffset (change :: changes) =
          (change.start, typedMarks insertions.insertedOffset change.insert) ::
            typedRuns (insertions.insertedOffset + change.insert.length) changes := if_neg hempty
      rw [hruns] at h
      have hslice := slice_insertedVisible fun mark hmark => h _ List.mem_cons_self mark hmark
      have hoffset : (insertions.push v.insertedVisible mapping change).insertedOffset =
          insertions.insertedOffset + change.insert.length := by
        unfold Insertions.push
        rw [if_neg hempty]
      have ih := ih (insertions.push v.insertedVisible mapping change) (by
        rw [hoffset]
        exact fun run hrun => h run (List.mem_cons_of_mem _ hrun))
      rw [hoffset] at ih
      simp only [after, typed, hruns, List.foldl_cons, List.map_cons, runsAt_cons]
      by_cases hplace : mapContentPosition .after change.start mapping = place
      · -- the run is added to what was found here
        have hfound : (insertions.push v.insertedVisible mapping change).found place =
            some ⟨((insertions.found place).getD {}).atoms ++ change.insert,
              ((insertions.found place).getD {}).origins ++
                (v.insertedVisible.drop insertions.insertedOffset).take change.insert.length⟩ := by
          unfold Insertions.push
          rw [if_neg hempty, ← hplace]
          exact Function.update_self _ _ _
        rw [if_pos hplace, List.map_append, List.map_append, map_atom_typedMarks, ← hslice,
          ← List.append_assoc, ← List.append_assoc]
        refine ⟨ih.1.trans ?_, ih.2.trans ?_⟩
        · unfold Insertions.atomsAt
          rw [hfound]
          cases insertions.found place <;> rfl
        · unfold Insertions.originsAt
          rw [hfound]
          cases insertions.found place <;> simp
      · have hfound : (insertions.push v.insertedVisible mapping change).found place =
            insertions.found place := by
          unfold Insertions.push
          rw [if_neg hempty]
          exact Function.update_of_ne (fun he => hplace he.symm) _ _
        rw [if_neg hplace]
        refine ⟨ih.1.trans ?_, ih.2.trans ?_⟩
        · unfold Insertions.atomsAt
          rw [hfound]
        · unfold Insertions.originsAt
          rw [hfound]

/-- The marks of the draft are all seen. -/
theorem isSome_seen (hinc : Increasing buffer.source.length 0 buffer.pieces) {mark : Mark}
    (hmark : mark ∈ draftMarks buffer) : ((visibility buffer).seen mark).isSome = true := by
  obtain ⟨i, hi⟩ := List.getElem?_of_mem hmark
  rw [(reads_visibility hinc).seen i mark hi]
  rfl

theorem bufferInsertions_eq (hinc : Increasing buffer.source.length 0 buffer.pieces)
    (mapping : List ContentRangeChange) (place : Nat) :
    (bufferInsertions buffer (visibility buffer).insertedVisible mapping).atomsAt place =
        (runsAt (mappedRuns buffer mapping) place).map Mark.atom ∧
      (bufferInsertions buffer (visibility buffer).insertedVisible mapping).originsAt place =
        (runsAt (mappedRuns buffer mapping) place).map (visibility buffer).seen := by
  refine foldl_insertions (visibility buffer) {} (fun run hrun mark hmark => ?_) place
  refine isSome_seen hinc ?_
  rw [draftMarks_eq_weave hinc]
  exact (infix_weave hrun).subset hmark

/-! ## The loop -/

theorem take_succ_drop (source : List ContentAtom) (index : Nat) :
    (source.take (index + 1)).drop index = source[index]?.toList := by
  rw [List.drop_take, Nat.add_sub_cancel_left, List.take_one, List.head?_drop]

theorem rebasedPieces_atoms (hinc : Increasing buffer.source.length 0 buffer.pieces)
    (origins : Origins) (mapping : List ContentRangeChange) (content : List ContentAtom)
    (index : Nat) :
    (rebasedPieces origins (visibility buffer)
        (bufferInsertions buffer (visibility buffer).insertedVisible mapping) index).flatMap
          (pieceAtoms content) =
      (runsAt (mappedRuns buffer mapping) index ++
        contentCell origins content buffer.pieces index).map Mark.atom := by
  unfold rebasedPieces
  rw [List.flatMap_append, List.map_append]
  congr 1
  · rw [← (bufferInsertions_eq hinc mapping index).1]
    unfold Insertions.atomsAt
    cases (bufferInsertions buffer (visibility buffer).insertedVisible mapping).found index with
    | none => rfl
    | some insertion => exact List.flatMap_singleton (pieceAtoms content) (.insert insertion.atoms)
  · unfold contentCell contentMark
    rcases origins[index]? with - | - | origin
    · rfl
    · show [Piece.source index (index + 1)].flatMap (pieceAtoms content) = _
      rw [List.flatMap_singleton]
      show (content.take (index + 1)).drop index = _
      rw [take_succ_drop]
      cases content[index]? <;> rfl
    · show List.flatMap _ (if ((visibility buffer).originalVisible origin).isSome then _ else _) = _
      rw [isSome_visibility]
      cases hshown : shown buffer.pieces origin with
      | false => cases content[index]? <;> simp [hshown, Mark.sourceIn]
      | true =>
        rw [if_pos rfl, List.flatMap_singleton]
        show (content.take (index + 1)).drop index = _
        rw [take_succ_drop]
        cases content[index]? <;> simp [hshown, Mark.sourceIn, Mark.atom]

theorem rebasedOrigins_eq (hinc : Increasing buffer.source.length 0 buffer.pieces)
    (h : Turns buffer.source mapping content origins) (index : Nat) :
    rebasedOrigins origins (visibility buffer)
        (bufferInsertions buffer (visibility buffer).insertedVisible mapping) index =
      (runsAt (mappedRuns buffer mapping) index ++
        contentCell origins content buffer.pieces index).map (visibility buffer).seen := by
  unfold rebasedOrigins
  rw [List.map_append]
  congr 1
  · exact (bufferInsertions_eq hinc mapping index).2
  · unfold contentCell contentMark
    rcases hindex : origins[index]? with - | - | origin
    · rfl
    all_goals
      have hlt : index < content.length := h.length ▸ (List.getElem?_eq_some_iff.mp hindex).1
      rw [List.getElem?_eq_getElem hlt]
    · rfl
    · show (if ((visibility buffer).originalVisible origin).isSome then _ else _) = _
      rw [isSome_visibility]
      cases hshown : shown buffer.pieces origin <;>
        simp [hshown, Mark.sourceIn, Visibility.seen]

/-! ## Joined pieces -/

theorem slice_eq_cells (source : List ContentAtom) (start stop : Nat) :
    (source.take stop).drop start = cells (fun i => source[i]?.toList) start stop := by
  unfold cells
  induction stop with
  | zero => rw [List.take_zero, List.drop_nil, Nat.zero_sub, List.range'_zero, List.flatMap_nil]
  | succ stop ih =>
    rcases Nat.lt_or_ge stop start with hlt | hge
    · rw [show stop + 1 - start = 0 by omega, List.range'_zero, List.flatMap_nil,
        List.drop_eq_nil_iff, List.length_take]
      omega
    · rw [show stop + 1 - start = (stop - start) + 1 by omega, List.range'_1_concat,
        List.flatMap_append, ← ih, List.flatMap_singleton, List.take_add_one, List.drop_append,
        Nat.add_sub_cancel' hge]
      congr 1
      rcases Nat.lt_or_ge stop source.length with hin | hout
      · rw [List.length_take, Nat.min_eq_left hin.le, Nat.sub_eq_zero_of_le hge, List.drop_zero]
      · rw [List.getElem?_eq_none hout, Option.toList_none, List.drop_nil]

/-- A source piece ends no earlier than it starts. -/
def Piece.Proper : Piece → Prop
  | .source start stop => start ≤ stop
  | .insert _ => True

theorem compactPiece_atoms (source : List ContentAtom) {compact : List Piece}
    (h : ∀ piece ∈ compact, piece.Proper) (piece : Piece) :
    (∀ p ∈ compactPiece compact piece, p.Proper) ∧
      (compactPiece compact piece).flatMap (pieceAtoms source) =
        compact.flatMap (pieceAtoms source) ++ pieceAtoms source piece := by
  unfold compactPiece
  by_cases hlength : pieceLength piece = 0
  · rw [if_pos hlength]
    refine ⟨h, ?_⟩
    have hnone : pieceAtoms source piece = [] := by
      cases piece with
      | insert atoms => exact List.length_eq_zero_iff.mp hlength
      | source start stop =>
        have hle : stop - start = 0 := hlength
        show (source.take stop).drop start = []
        rw [List.drop_eq_nil_iff, List.length_take]
        omega
    rw [hnone, List.append_nil]
  · have hproper : piece.Proper := by
      cases piece with
      | insert atoms => trivial
      | source start stop =>
        have hne : stop - start ≠ 0 := hlength
        show start ≤ stop
        omega
    have happend : (∀ p ∈ compact ++ [piece], p.Proper) ∧
        (compact ++ [piece]).flatMap (pieceAtoms source) =
          compact.flatMap (pieceAtoms source) ++ pieceAtoms source piece := by
      refine ⟨fun p hp => ?_, by rw [List.flatMap_append, List.flatMap_singleton]⟩
      rcases List.mem_append.mp hp with hp | hp
      · exact h p hp
      · rw [List.mem_singleton.mp hp]
        exact hproper
    -- joining the last piece leaves those before it
    have hjoin {last joined : Piece} (hlast : compact.getLast? = some last)
        (hjoined : joined.Proper)
        (hatoms : pieceAtoms source joined = pieceAtoms source last ++ pieceAtoms source piece) :
        (∀ p ∈ compact.dropLast ++ [joined], p.Proper) ∧
          (compact.dropLast ++ [joined]).flatMap (pieceAtoms source) =
            compact.flatMap (pieceAtoms source) ++ pieceAtoms source piece := by
      refine ⟨fun p hp => ?_, ?_⟩
      · rcases List.mem_append.mp hp with hp | hp
        · exact h p (List.dropLast_subset _ hp)
        · rw [List.mem_singleton.mp hp]
          exact hjoined
      · conv_rhs => rw [← List.dropLast_append_getLast? last hlast]
        rw [List.flatMap_append, List.flatMap_append, List.flatMap_singleton,
          List.flatMap_singleton, hatoms, List.append_assoc]
    rw [if_neg hlength]
    split
    · next start stop start' stop' hlast =>
      split_ifs with htouch
      · subst htouch
        have hle : start ≤ stop := h _ (List.mem_of_getLast? hlast)
        have hle' : stop ≤ stop' := hproper
        refine hjoin hlast (hle.trans hle') ?_
        show (source.take stop').drop start =
          (source.take stop).drop start ++ (source.take stop').drop stop
        rw [slice_eq_cells, slice_eq_cells, slice_eq_cells]
        exact cells_append _ hle hle'
      · exact happend
    · next atoms atoms' hlast => exact hjoin hlast trivial rfl
    · exact happend

theorem bufferAtoms_compactPieces (source : List ContentAtom) (pieces : List Piece) :
    bufferAtoms ⟨source, compactPieces pieces⟩ = pieces.flatMap (pieceAtoms source) := by
  have hfold (compact pieces : List Piece) (h : ∀ piece ∈ compact, piece.Proper) :
      (pieces.foldl compactPiece compact).flatMap (pieceAtoms source) =
        compact.flatMap (pieceAtoms source) ++ pieces.flatMap (pieceAtoms source) := by
    induction pieces generalizing compact with
    | nil => rw [List.flatMap_nil, List.append_nil]; rfl
    | cons piece pieces ih =>
      obtain ⟨hproper, hatoms⟩ := compactPiece_atoms source h piece
      rw [List.foldl_cons, ih _ hproper, hatoms, List.flatMap_cons, List.append_assoc]
  exact hfold [] pieces nofun

/-! ## The result -/

theorem map_atom_draftMarks (hinc : Increasing buffer.source.length 0 buffer.pieces) :
    (draftMarks buffer).map Mark.atom = bufferAtoms buffer := by
  have hmarks (least number : Nat) (pieces : List Piece)
      (h : Increasing buffer.source.length least pieces) :
      (marksFrom buffer.source number pieces).map Mark.atom =
        pieces.flatMap (pieceAtoms buffer.source) := by
    induction pieces generalizing least number with
    | nil => rfl
    | cons piece pieces ih =>
      cases piece with
      | insert atoms =>
        show List.map _ (_ ++ _) = _
        rw [List.map_append, map_atom_typedMarks, ih least _ h]
        rfl
      | source start stop =>
        show List.map _ (_ ++ _) = _
        obtain ⟨_, hstop, hlength, h⟩ := h
        rw [List.map_append, ih stop _ h, List.flatMap_cons]
        congr 1
        show _ = (buffer.source.take stop).drop start
        rw [slice_eq_cells, List.filterMap_eq_flatMap_toList, List.map_flatMap]
        refine List.flatMap_congr fun i _ => ?_
        unfold sourceMark
        cases buffer.source[i]? <;> rfl
  exact hmarks 0 0 buffer.pieces hinc

/-- Every mark of the rebased draft is seen where it is in the draft. -/
theorem seen_eq_idxOf (hinc : Increasing buffer.source.length 0 buffer.pieces)
    (h : Turns buffer.source mapping content origins) {mark : Mark}
    (hmark : mark ∈ rebasedMarks buffer content origins mapping) :
    (visibility buffer).seen mark = (draftMarks buffer).idxOf? mark := by
  have hdraft : mark.isRemote = false → mark ∈ draftMarks buffer := by
    intro hremote
    have hkept : mark ∈ (rebasedMarks buffer content origins mapping).filter
        fun m => !m.isRemote := List.mem_filter.mpr ⟨hmark, by rw [hremote]; rfl⟩
    rw [filter_remote_rebasedMarks hinc h] at hkept
    exact (List.mem_filter.mp hkept).1
  have hreads := reads_visibility hinc
  cases hindex : (draftMarks buffer).idxOf? mark with
  | some i =>
    obtain ⟨hlt, hget, _⟩ := List.idxOf?_eq_some_iff.mp hindex
    exact hreads.seen i mark (List.getElem?_eq_some_iff.mpr ⟨hlt, hget⟩)
  | none =>
    have hnot := List.idxOf?_eq_none_iff.mp hindex
    cases mark with
    | remote _ _ => rfl
    | source _ _ | typed _ _ => exact absurd (hdraft rfl) hnot

/-- What is left of the draft is ascending in it. -/
theorem traces_seen (hinc : Increasing buffer.source.length 0 buffer.pieces)
    (h : Turns buffer.source mapping content origins) :
    Origins.Traces (draftMarks buffer).length
      ((rebasedMarks buffer content origins mapping).map (visibility buffer).seen) := by
  have hreads := reads_visibility hinc
  have hall : (draftMarks buffer).filterMap (visibility buffer).seen =
      List.range (draftMarks buffer).length := by
    have hmap : (draftMarks buffer).map (visibility buffer).seen =
        (List.range (draftMarks buffer).length).map some := by
      refine List.ext_getElem (by rw [List.length_map, List.length_map, List.length_range])
        fun i hi _ => ?_
      rw [List.length_map] at hi
      rw [List.getElem_map, List.getElem_map, List.getElem_range]
      exact hreads.seen i _ (List.getElem?_eq_getElem hi)
    have hmap := congrArg (List.filterMap id) hmap
    rw [List.filterMap_map, List.filterMap_map] at hmap
    exact hmap.trans List.filterMap_some
  -- the new atoms are not seen, and the others are a part of the draft
  have hkept : (rebasedMarks buffer content origins mapping).filterMap (visibility buffer).seen =
      ((rebasedMarks buffer content origins mapping).filter fun m => !m.isRemote).filterMap
        (visibility buffer).seen := by
    rw [List.filterMap_filter]
    refine List.filterMap_congr fun mark _ => ?_
    cases mark <;> rfl
  unfold Origins.Traces
  rw [List.filterMap_map, Function.id_comp, hkept, filter_remote_rebasedMarks hinc h, ← hall]
  exact List.filter_sublist.filterMap _

/-- None of the refusals applies where the mapping turns the source into the content. -/
theorem rebaseBuffer_eq {content : List InlineContent}
    (h : Turns buffer.source mapping (contentAtoms content) origins) :
    let v := visibility buffer
    let insertions := bufferInsertions buffer v.insertedVisible mapping
    let indices := List.range ((contentAtoms content).length + 1)
    rebaseBuffer buffer content mapping = some
      (⟨contentAtoms content,
          compactPieces (indices.flatMap (rebasedPieces origins v insertions))⟩,
        changesFromOrigins v.visible (indices.flatMap (rebasedOrigins origins v insertions))) := by
  unfold rebaseBuffer
  rw [h.changes]
  show (if origins.length ≠ (contentAtoms content).length then none else _) = _
  rw [if_neg (not_not_intro h.length), if_neg]
  intro hany
  obtain ⟨⟨origin, atom⟩, hmem, hne⟩ := List.any_eq_true.mp hany
  obtain ⟨i, hi⟩ := List.getElem?_of_mem hmem
  obtain ⟨horigin, hatom⟩ := List.getElem?_zip_eq_some.mp hi
  cases origin with
  | none => exact Bool.false_ne_true hne
  | some index => exact of_decide_eq_true hne ((h.same i index horigin).trans hatom)

/-- A draft is rebased on any content its source is turned into. -/
theorem rebaseBuffer_rebased (buffer : ContentBuffer) (content : List InlineContent)
    (mapping : List ContentRangeChange) (origins : Origins)
    (hinc : Increasing buffer.source.length 0 buffer.pieces)
    (h : Turns buffer.source mapping (contentAtoms content) origins) :
    ∃ rebased changes marks, rebaseBuffer buffer content mapping = some (rebased, changes) ∧
      Rebased buffer (contentAtoms content) origins rebased changes marks := by
  refine ⟨_, _, rebasedMarks buffer (contentAtoms content) origins mapping, rebaseBuffer_eq h,
    rfl, ?_, filter_typed_rebasedMarks buffer _ origins mapping, filter_remote_rebasedMarks hinc h,
    fun _ _ _ hpieces hinserts => inserts_infix_rebasedMarks hinc h hpieces hinserts, ?_⟩
  · rw [bufferAtoms_compactPieces, List.flatMap_assoc]
    unfold rebasedMarks gathered
    rw [List.map_flatMap, Nat.sub_zero, ← List.range_eq_range']
    exact List.flatMap_congr fun i _ => rebasedPieces_atoms hinc origins mapping _ i
  · have hlength : (bufferAtoms buffer).length = (draftMarks buffer).length := by
      rw [← map_atom_draftMarks hinc, List.length_map]
    have horigins : (List.range ((contentAtoms content).length + 1)).flatMap
        (rebasedOrigins origins (visibility buffer)
          (bufferInsertions buffer (visibility buffer).insertedVisible mapping)) =
        (rebasedMarks buffer (contentAtoms content) origins mapping).map
          (visibility buffer).seen := by
      unfold rebasedMarks gathered
      rw [List.map_flatMap, Nat.sub_zero, ← List.range_eq_range']
      exact List.flatMap_congr fun i _ => rebasedOrigins_eq hinc h i
    rw [horigins, (reads_visibility hinc).visible, hlength,
      Origins.changes_changesFromOrigins (traces_seen hinc h)]
    exact congrArg some (List.map_congr_left fun mark hmark => seen_eq_idxOf hinc h hmark)

/-- `abc` with `b` deleted and `x` typed instead, while `q` was inserted before `b`. -/
def sampleBuffer : ContentBuffer :=
  ⟨[.scalar 'a', .scalar 'b', .scalar 'c'],
    [.source 0 1, .insert [.scalar 'x'], .source 2 3]⟩

def sampleContent : List InlineContent := [.markdown ['a', 'q', 'b', 'c']]

theorem rebaseBuffer_sample :
    ∃ rebased changes marks,
      rebaseBuffer sampleBuffer sampleContent [⟨1, 0, 1⟩] = some (rebased, changes) ∧
        Rebased sampleBuffer (contentAtoms sampleContent) [some 0, none, some 1, some 2]
          rebased changes marks := by
  refine rebaseBuffer_rebased sampleBuffer sampleContent [⟨1, 0, 1⟩]
    [some 0, none, some 1, some 2] ⟨by decide, by decide, by decide, by decide, by decide,
      by decide, trivial⟩ ⟨by decide, by decide, ?_⟩
  intro index origin h
  match index with
  | 0 | 1 | 2 | 3 => cases h <;> rfl
  | _ + 4 => cases h

end Neoseq.Editor
