import Neoseq.Core.Command
import Neoseq.Editor.Rebase

/-! Editing a draft and lowering it to the splices of a command. Applied in turn to the
source of the draft, the splices give what the draft shows. -/

namespace Neoseq.Editor
open Domain
open Content (InlineContent)
open Neoseq.Core (BlockContentSplice Command)

/-- Neighbouring scalars become one run of markdown. -/
def inlineContent : List ContentAtom → List InlineContent
  | [] => []
  | .reference pageId :: atoms => .pageReference pageId :: inlineContent atoms
  | .scalar value :: atoms =>
    match inlineContent atoms with
    | .markdown values :: rest => .markdown (value :: values) :: rest
    | rest => .markdown [value] :: rest

/-- What an editing function throws. -/
inductive ContentError where
  | error (message : String)
  | rangeError (message : String)
  deriving Repr, DecidableEq

/-! ## Editing -/

/-- The part of a piece between two positions in it. -/
def slicePiece (start stop : Nat) : Piece → Piece
  | .source start' _ => .source (start' + start) (start' + stop)
  | .insert atoms => .insert ((atoms.take stop).drop start)

/-- The loop of `slicePieces`, from an offset on. -/
def slicePiecesFrom (start stop offset : Nat) : List Piece → List Piece
  | [] => []
  | piece :: pieces =>
    let length := pieceLength piece
    let first := start - offset
    let last := min length (stop - offset)
    (if first < last then [slicePiece first last piece] else []) ++
      if stop ≤ offset + length then [] else slicePiecesFrom start stop (offset + length) pieces

def slicePieces (pieces : List Piece) (start stop : Nat) : List Piece :=
  slicePiecesFrom start stop 0 pieces

def piecesLength (pieces : List Piece) : Nat :=
  (pieces.map pieceLength).sum

def spliceBuffer (buffer : ContentBuffer) (index remove : Nat) (insert : List InlineContent) :
    Except ContentError ContentBuffer :=
  let length := piecesLength buffer.pieces
  if length < index + remove then .error (.rangeError "Content edit is outside its source")
  else .ok ⟨buffer.source, compactPieces (slicePieces buffer.pieces 0 index ++
    [.insert (contentAtoms insert)] ++ slicePieces buffer.pieces (index + remove) length)⟩

def settleBuffer (buffer : ContentBuffer) : ContentBuffer :=
  createContentBuffer (inlineContent (bufferAtoms buffer))

def bufferIsClean (buffer : ContentBuffer) : Bool :=
  decide (buffer.source = bufferAtoms buffer)

/-! ## Lowering -/

/-- The splices of changes that lie in the source, where `delta` is how far the splices before
them have moved it. -/
def splicesFrom (blockId : BlockId) (delta : Int) : List ContentChange → List BlockContentSplice
  | [] => []
  | change :: changes =>
    let delete := change.stop - change.start
    ⟨blockId, (change.start + delta).toNat, delete, inlineContent change.insert⟩ ::
      splicesFrom blockId (delta + (change.insert.length - delete)) changes

def bufferSplices (buffer : ContentBuffer) (blockId : BlockId) : List BlockContentSplice :=
  splicesFrom blockId 0 (bufferChanges buffer)

def bufferCommand (buffer : ContentBuffer) (owner : OutlineOwner) (blockId : BlockId) :
    Option Command :=
  if bufferIsClean buffer then none
  else match bufferSplices buffer blockId with
    | [splice] => some (.intent (.spliceBlockContent owner splice))
    | splices => some (.intent (.spliceBlockContents owner splices))

/-- How many atoms two contents share from their start on. -/
def commonPrefix : List ContentAtom → List ContentAtom → Nat
  | atom :: atoms, atom' :: atoms' => if atom = atom' then commonPrefix atoms atoms' + 1 else 0
  | _, _ => 0

def contentEditCommand (owner : OutlineOwner) (blockId : BlockId)
    (source target : List InlineContent) : Except ContentError (Option Command) := do
  let before := contentAtoms source
  let after := contentAtoms target
  let start := commonPrefix before after
  -- the second loop goes back from the ends, as far as the shared start
  let stop := commonPrefix (before.drop start).reverse (after.drop start).reverse
  let buffer ← spliceBuffer (createContentBuffer source) start (before.length - start - stop)
    (inlineContent ((after.take (after.length - stop)).drop start))
  return bufferCommand buffer owner blockId

/-- What was typed after a draft was sent, put back on the draft. -/
def restoreBuffer (original newer : ContentBuffer) (blockId : BlockId) :
    Except ContentError ContentBuffer :=
  (bufferSplices newer blockId).foldlM
    (fun result splice => spliceBuffer result splice.index splice.delete splice.insert) original

/-! ## What a command does to a content -/

/-- A splice of the core; it refuses one that is out of range. -/
def spliceContent (content : List ContentAtom) (splice : BlockContentSplice) :
    Option (List ContentAtom) :=
  if content.length < splice.index + splice.delete then none
  else some (content.take splice.index ++ contentAtoms splice.insert ++
    content.drop (splice.index + splice.delete))

def spliceContents (content : List ContentAtom) (splices : List BlockContentSplice) :
    Option (List ContentAtom) :=
  splices.foldlM spliceContent content

/-- The splices of a lowered command. -/
def contentSplices : Command → List BlockContentSplice
  | .intent (.spliceBlockContent _ splice) => [splice]
  | .intent (.spliceBlockContents _ splices) => splices
  | _ => []

/-! ## Contents -/

@[simp] theorem contentAtoms_inlineContent (atoms : List ContentAtom) :
    contentAtoms (inlineContent atoms) = atoms := by
  induction atoms with
  | nil => rfl
  | cons atom atoms ih =>
    cases atom with
    | reference pageId =>
      show ContentAtom.reference pageId :: contentAtoms (inlineContent atoms) = _
      rw [ih]
    | scalar value =>
      dsimp only [inlineContent]
      split
      · next values rest heq =>
        rw [heq] at ih
        rw [← ih]
        rfl
      · show ContentAtom.scalar value :: contentAtoms (inlineContent atoms) = _
        rw [ih]

theorem bufferAtoms_create (content : List InlineContent) :
    bufferAtoms (createContentBuffer content) = contentAtoms content := by
  unfold bufferAtoms createContentBuffer
  dsimp only
  split_ifs with h
  · exact (List.length_eq_zero_iff.mp h).symm
  · show (List.drop 0 (List.take _ _)) ++ [] = _
    rw [List.take_length, List.drop_zero, List.append_nil]

theorem increasing_create (content : List InlineContent) :
    Increasing (createContentBuffer content).source.length 0
      (createContentBuffer content).pieces := by
  unfold createContentBuffer
  dsimp only
  split_ifs with h
  · trivial
  · exact ⟨Nat.le_refl _, Nat.zero_le _, Nat.le_refl _, trivial⟩

@[simp] theorem settleBuffer_source (buffer : ContentBuffer) :
    (settleBuffer buffer).source = bufferAtoms buffer :=
  contentAtoms_inlineContent _

@[simp] theorem bufferAtoms_settle (buffer : ContentBuffer) :
    bufferAtoms (settleBuffer buffer) = bufferAtoms buffer := by
  unfold settleBuffer
  rw [bufferAtoms_create, contentAtoms_inlineContent]

/-! ## Slices -/

theorem Increasing.mono {length least least' : Nat} {pieces : List Piece} (hle : least' ≤ least)
    (h : Increasing length least pieces) : Increasing length least' pieces := by
  induction pieces generalizing least least' with
  | nil => trivial
  | cons piece pieces ih =>
    cases piece with
    | insert atoms => exact ih hle h
    | source start stop => exact ⟨hle.trans h.1, h.2⟩

theorem length_pieceAtoms {source : List ContentAtom} {least : Nat} {piece : Piece}
    {pieces : List Piece} (h : Increasing source.length least (piece :: pieces)) :
    (pieceAtoms source piece).length = pieceLength piece := by
  cases piece with
  | insert atoms => rfl
  | source start stop =>
    obtain ⟨-, -, hstop, -⟩ := h
    show ((source.take stop).drop start).length = stop - start
    rw [List.length_drop, List.length_take, Nat.min_eq_left hstop]

theorem Increasing.tail {length least : Nat} {piece : Piece} {pieces : List Piece}
    (h : Increasing length least (piece :: pieces)) : Increasing length least pieces := by
  cases piece with
  | insert atoms => exact h
  | source start stop => exact h.2.2.2.mono (h.1.trans h.2.1)

theorem piecesLength_eq {source : List ContentAtom} {least : Nat} {pieces : List Piece}
    (h : Increasing source.length least pieces) :
    piecesLength pieces = (pieces.flatMap (pieceAtoms source)).length := by
  induction pieces generalizing least with
  | nil => rfl
  | cons piece pieces ih =>
    have hlength := length_pieceAtoms h
    rw [List.flatMap_cons, List.length_append, hlength, ← ih h.tail]
    rfl

/-- The atoms of a slice of a piece are a slice of its atoms. -/
theorem pieceAtoms_slicePiece {source : List ContentAtom} {least start stop : Nat}
    {piece : Piece} {pieces : List Piece} (h : Increasing source.length least (piece :: pieces))
    (hstop : stop ≤ pieceLength piece) :
    pieceAtoms source (slicePiece start stop piece) =
      ((pieceAtoms source piece).take stop).drop start := by
  cases piece with
  | insert atoms => rfl
  | source start' stop' =>
    have hle : start' ≤ stop' := h.2.1
    have hstop : stop ≤ stop' - start' := hstop
    show (source.take (start' + stop)).drop (start' + start) =
      (((source.take stop').drop start').take stop).drop start
    rw [List.take_drop, List.drop_drop, List.take_take]
    congr 2
    omega

theorem slicePiecesFrom_atoms {source : List ContentAtom} {least start stop offset : Nat}
    {pieces : List Piece} (h : Increasing source.length least pieces) :
    (slicePiecesFrom start stop offset pieces).flatMap (pieceAtoms source) =
      ((pieces.flatMap (pieceAtoms source)).take (stop - offset)).drop (start - offset) := by
  induction pieces generalizing least offset with
  | nil => simp [slicePiecesFrom]
  | cons piece pieces ih =>
    have hlength := length_pieceAtoms h
    -- the slice of this piece, which may be empty
    have hhead : (if start - offset < min (pieceLength piece) (stop - offset) then
          [slicePiece (start - offset) (min (pieceLength piece) (stop - offset)) piece]
        else []).flatMap (pieceAtoms source) =
        ((pieceAtoms source piece).take (stop - offset)).drop (start - offset) := by
      split_ifs with hlt
      · rw [List.flatMap_singleton, pieceAtoms_slicePiece h (Nat.min_le_left _ _), ← hlength,
          Nat.min_comm, ← List.take_eq_take_min]
      · rw [List.flatMap_nil, eq_comm, List.drop_eq_nil_iff, List.length_take, hlength]
        omega
    dsimp only [slicePiecesFrom]
    rw [List.flatMap_append, hhead, List.flatMap_cons, List.take_append, List.drop_append,
      List.length_take, hlength]
    congr 1
    split_ifs with hstop
    · rw [show stop - offset - pieceLength piece = 0 by omega]
      simp
    · rw [ih h.tail, Nat.sub_add_eq, Nat.sub_add_eq,
        Nat.min_eq_right (by omega : pieceLength piece ≤ stop - offset)]

/-! ## The pieces stay increasing -/

/-- Where the source pieces end. -/
def reach (least : Nat) : List Piece → Nat
  | [] => least
  | .insert _ :: pieces => reach least pieces
  | .source _ stop :: pieces => reach stop pieces

theorem increasing_append {length least : Nat} {pieces pieces' : List Piece} :
    Increasing length least (pieces ++ pieces') ↔
      Increasing length least pieces ∧ Increasing length (reach least pieces) pieces' := by
  induction pieces generalizing least with
  | nil => exact (true_and _).to_iff.symm
  | cons piece pieces ih =>
    cases piece with
    | insert atoms => exact ih
    | source start stop =>
      show _ ∧ _ ∧ _ ∧ Increasing length stop (pieces ++ pieces') ↔
        (_ ∧ _ ∧ _ ∧ Increasing length stop pieces) ∧ Increasing length (reach stop pieces) pieces'
      rw [ih, and_assoc, and_assoc, and_assoc]

theorem increasing_compactPiece {length least : Nat} {compact pieces : List Piece} {piece : Piece}
    (h : Increasing length least (compact ++ piece :: pieces)) :
    Increasing length least (compactPiece compact piece ++ pieces) := by
  have hkeep : Increasing length least ((compact ++ [piece]) ++ pieces) := by
    rwa [List.append_assoc]
  unfold compactPiece
  split_ifs with hlength
  · obtain ⟨hcompact, hpieces⟩ := increasing_append.mp h
    exact increasing_append.mpr ⟨hcompact, hpieces.tail⟩
  · split
    · next start stop start' stop' hlast =>
      split_ifs with htouch
      · subst htouch
        rw [← List.dropLast_append_getLast? _ hlast, List.append_assoc] at h
        obtain ⟨hinit, hstart, hstop, -, -, hstop', hlength, hpieces⟩ := increasing_append.mp h
        rw [List.append_assoc]
        exact increasing_append.mpr ⟨hinit, hstart, hstop.trans hstop', hlength, hpieces⟩
      · exact hkeep
    · next atoms atoms' hlast =>
      rw [← List.dropLast_append_getLast? _ hlast, List.append_assoc] at h
      obtain ⟨hinit, hrest⟩ := increasing_append.mp h
      rw [List.append_assoc]
      exact increasing_append.mpr ⟨hinit, hrest⟩
    · exact hkeep

theorem increasing_compactPieces {length : Nat} {pieces : List Piece}
    (h : Increasing length 0 pieces) : Increasing length 0 (compactPieces pieces) := by
  have hfold (compact pieces : List Piece) (h : Increasing length 0 (compact ++ pieces)) :
      Increasing length 0 (pieces.foldl compactPiece compact) := by
    induction pieces generalizing compact with
    | nil => rwa [List.append_nil] at h
    | cons piece pieces ih => exact ih _ (increasing_compactPiece h)
  exact hfold [] pieces h

theorem increasing_inserts {length least : Nat} {inserts pieces : List Piece}
    (hinserts : ∀ piece ∈ inserts, piece.isInsert = true) :
    Increasing length least (inserts ++ pieces) ↔ Increasing length least pieces := by
  induction inserts with
  | nil => rfl
  | cons piece inserts ih =>
    have ⟨hpiece, hrest⟩ := List.forall_mem_cons.mp hinserts
    cases piece with
    | insert atoms => exact ih hrest
    | source start stop => cases hpiece

theorem slicePiecesFrom_of_le {start stop offset : Nat} (hle : stop ≤ offset)
    (pieces : List Piece) : slicePiecesFrom start stop offset pieces = [] := by
  cases pieces with
  | nil => rfl
  | cons piece pieces =>
    dsimp only [slicePiecesFrom]
    rw [if_neg (by omega), if_pos (by omega), List.append_nil]

theorem slicePiecesFrom_cons (start stop offset : Nat) (piece : Piece) (pieces : List Piece) :
    slicePiecesFrom start stop offset (piece :: pieces) =
      (if start - offset < min (pieceLength piece) (stop - offset) then
          [slicePiece (start - offset) (min (pieceLength piece) (stop - offset)) piece]
        else []) ++ slicePiecesFrom start stop (offset + pieceLength piece) pieces := by
  rw [slicePiecesFrom]
  congr 1
  split_ifs with hle
  · exact (slicePiecesFrom_of_le hle pieces).symm
  · rfl

/-- What is left before and after a stretch of the pieces, with inserts in its place. -/
theorem Increasing.sliced {length least index stop total offset : Nat} {pieces inserts : List Piece}
    (h : Increasing length least pieces) (hle : index ≤ stop)
    (hinserts : ∀ piece ∈ inserts, piece.isInsert = true) :
    Increasing length least (slicePiecesFrom 0 index offset pieces ++
      (inserts ++ slicePiecesFrom stop total offset pieces)) := by
  induction pieces generalizing least offset with
  | nil => exact (increasing_inserts hinserts).mpr trivial
  | cons piece pieces ih =>
    rw [slicePiecesFrom_cons, slicePiecesFrom_cons]
    cases piece with
    | insert atoms =>
      have hhead (first last : Nat) (p : Prop) [Decidable p] : ∀ piece ∈
          (if p then [slicePiece first last (.insert atoms)] else []), piece.isInsert = true := by
        intro piece hpiece
        split_ifs at hpiece
        · rw [List.mem_singleton.mp hpiece]
          rfl
        · cases hpiece
      have hrest := @ih least (offset + pieceLength (.insert atoms)) h
      rw [List.append_assoc, increasing_inserts (hhead _ _ _)]
      obtain ⟨hbefore, hafter⟩ := increasing_append.mp hrest
      rw [increasing_inserts hinserts] at hafter
      refine increasing_append.mpr ⟨hbefore, ?_⟩
      rwa [increasing_inserts hinserts, increasing_inserts (hhead _ _ _)]
    | source start stop' =>
      obtain ⟨hleast, hstart, hlength, h⟩ := h
      have hrest := @ih stop' (offset + pieceLength (.source start stop')) h
      have hsize : pieceLength (.source start stop') = stop' - start := rfl
      rw [List.append_assoc]
      -- the part before is empty, or ends inside the piece
      have hput (p : Prop) [Decidable p] {last : Nat} {rest : List Piece}
          (hlast : last ≤ stop' - start) (hrest : Increasing length (start + last) rest) :
          Increasing length least
            ((if p then [slicePiece (0 - offset) last (.source start stop')] else []) ++ rest) := by
        split_ifs
        · show least ≤ start + (0 - offset) ∧ start + (0 - offset) ≤ start + last ∧
            start + last ≤ length ∧ Increasing length (start + last) rest
          refine ⟨by omega, by omega, by omega, hrest⟩
        · exact hrest.mono (by omega)
      refine hput _ (Nat.min_le_left _ _) ?_
      by_cases hstop : stop - offset < min (pieceLength (.source start stop')) (total - offset)
      · rw [if_pos hstop, slicePiecesFrom_of_le (by omega), List.nil_append,
          increasing_inserts hinserts]
        rw [slicePiecesFrom_of_le (by omega), List.nil_append, increasing_inserts hinserts]
          at hrest
        refine ⟨by omega, ?_, ?_, ?_⟩
        · omega
        · omega
        · exact hrest.mono (by omega)
      · rw [if_neg hstop, List.nil_append]
        exact hrest.mono (by omega)

/-! ## The operations -/

theorem spliceBuffer_ok {buffer next : ContentBuffer} {index remove : Nat}
    {insert : List InlineContent} (hinc : Increasing buffer.source.length 0 buffer.pieces) :
    spliceBuffer buffer index remove insert = .ok next →
      index + remove ≤ (bufferAtoms buffer).length ∧ next.source = buffer.source ∧
      Increasing next.source.length 0 next.pieces ∧
      bufferAtoms next = (bufferAtoms buffer).take index ++ contentAtoms insert ++
        (bufferAtoms buffer).drop (index + remove) := by
  intro h
  unfold spliceBuffer at h
  dsimp only at h
  split_ifs at h with hrange
  cases h
  have hlength : piecesLength buffer.pieces = (bufferAtoms buffer).length := piecesLength_eq hinc
  refine ⟨by omega, rfl, ?_, ?_⟩
  · refine increasing_compactPieces ?_
    rw [List.append_assoc]
    exact hinc.sliced (by omega) (fun piece hpiece => by rw [List.mem_singleton.mp hpiece]; rfl)
  · rw [bufferAtoms_compactPieces, List.flatMap_append, List.flatMap_append,
      List.flatMap_singleton]
    unfold slicePieces
    rw [slicePiecesFrom_atoms hinc, slicePiecesFrom_atoms hinc, hlength]
    show ((bufferAtoms buffer).take index).drop 0 ++ contentAtoms insert ++
      ((bufferAtoms buffer).take (bufferAtoms buffer).length).drop (index + remove - 0) = _
    rw [List.take_length, List.drop_zero, Nat.sub_zero]

theorem spliceBuffer_isOk {buffer : ContentBuffer} {index remove : Nat}
    (insert : List InlineContent) (hinc : Increasing buffer.source.length 0 buffer.pieces)
    (hrange : index + remove ≤ (bufferAtoms buffer).length) :
    ∃ next, spliceBuffer buffer index remove insert = .ok next := by
  have hlength : piecesLength buffer.pieces = (bufferAtoms buffer).length := piecesLength_eq hinc
  unfold spliceBuffer
  dsimp only
  rw [if_neg (by omega)]
  exact ⟨_, rfl⟩

/-- The splice of one change, where `shown` stands for the source up to it. -/
theorem spliceContents_change {source shown insert : List ContentAtom} {start stop : Nat}
    (blockId : BlockId) (changes : List ContentChange) (hle : start ≤ stop)
    (hstop : stop ≤ source.length) :
    spliceContents (shown ++ source.drop start)
        (splicesFrom blockId (shown.length - start) (⟨start, stop, insert⟩ :: changes)) =
      spliceContents (shown ++ insert ++ source.drop stop)
        (splicesFrom blockId ((shown ++ insert).length - stop) changes) := by
  have hindex : ((start : Int) + ((shown.length : Int) - start)).toNat = shown.length := by omega
  have hdelta : (shown.length : Int) - start + (insert.length - (stop - start : Nat)) =
      (shown ++ insert).length - stop := by
    rw [List.length_append]
    omega
  have hsplice : spliceContent (shown ++ source.drop start)
      ⟨blockId, shown.length, stop - start, inlineContent insert⟩ =
      some (shown ++ insert ++ source.drop stop) := by
    unfold spliceContent
    rw [if_neg (by rw [List.length_append, List.length_drop]; dsimp only; omega)]
    dsimp only
    rw [contentAtoms_inlineContent, List.take_left, ← List.drop_drop, List.drop_left,
      List.drop_drop, Nat.add_sub_cancel' hle]
  unfold spliceContents
  rw [splicesFrom, hdelta, hindex, List.foldlM_cons, hsplice]
  rfl

/-- The splices of the changes from a source position on, where `shown` stands for the source
up to it. -/
theorem spliceContents_from {source shown insert : List ContentAtom} {start : Nat}
    (blockId : BlockId) {pieces : List Piece} (hstart : start ≤ source.length)
    (hinc : Increasing source.length start pieces) :
    spliceContents (shown ++ source.drop start)
        (splicesFrom blockId (shown.length - start)
          (bufferChangesFrom source.length start insert pieces)) =
      some (shown ++ insert ++ pieces.flatMap (pieceAtoms source)) := by
  induction pieces generalizing start shown insert with
  | nil =>
    rw [bufferChangesFrom, List.flatMap_nil, List.append_nil]
    split_ifs with hchange
    · rw [spliceContents_change blockId [] hstart (Nat.le_refl _), List.drop_length,
        List.append_nil]
      rfl
    · have hinsert : insert = [] := List.length_eq_zero_iff.mp (by omega)
      rw [List.drop_of_length_le (by omega), hinsert]
      rfl
  | cons piece pieces ih =>
    cases piece with
    | insert atoms =>
      rw [bufferChangesFrom, ih hstart hinc, List.flatMap_cons]
      simp only [pieceAtoms, List.append_assoc]
    | source start' stop' =>
      obtain ⟨hleast, hle, hlength, hinc⟩ := hinc
      -- the source up to the end of the piece is shown now
      have hrest (shown : List ContentAtom) :
          spliceContents (shown ++ source.drop start')
              (splicesFrom blockId (shown.length - start')
                (bufferChangesFrom source.length stop' [] pieces)) =
            some (shown ++ (pieceAtoms source (.source start' stop') ++
              pieces.flatMap (pieceAtoms source))) := by
        have hpiece : (pieceAtoms source (.source start' stop')).length = stop' - start' :=
          @length_pieceAtoms source _ _ [] ⟨hleast, hle, hlength, trivial⟩
        have hcontent : source.drop start' =
            pieceAtoms source (.source start' stop') ++ source.drop stop' := by
          show source.drop start' = (source.take stop').drop start' ++ source.drop stop'
          rw [← List.drop_append_of_le_length (by rw [List.length_take]; omega),
            List.take_append_drop]
        have hshown : ((shown ++ pieceAtoms source (.source start' stop')).length : Int) - stop' =
            shown.length - start' := by
          rw [List.length_append, hpiece]
          omega
        have h := @ih (shown ++ pieceAtoms source (.source start' stop')) [] stop' hlength hinc
        rwa [hshown, List.append_assoc, ← hcontent, List.append_nil, List.append_assoc] at h
      rw [bufferChangesFrom, List.flatMap_cons]
      split_ifs with hchange
      · rw [spliceContents_change blockId _ hleast (hle.trans hlength), hrest]
      · have hinsert : insert = [] := List.length_eq_zero_iff.mp (by omega)
        have hstart : start = start' := by omega
        rw [hstart, hinsert, List.append_nil, hrest]

/-- Applied to the source of a draft, its splices give what it shows. -/
theorem spliceContents_bufferSplices {buffer : ContentBuffer} (blockId : BlockId)
    (hinc : Increasing buffer.source.length 0 buffer.pieces) :
    spliceContents buffer.source (bufferSplices buffer blockId) = some (bufferAtoms buffer) := by
  have h := @spliceContents_from _ [] [] _ blockId _ (Nat.zero_le _) hinc
  exact h

theorem contentSplices_bufferCommand {buffer : ContentBuffer} {owner : OutlineOwner}
    {blockId : BlockId} {command : Command} :
    bufferCommand buffer owner blockId = some command →
      contentSplices command = bufferSplices buffer blockId := by
  intro h
  unfold bufferCommand at h
  split_ifs at h
  split at h
  · next splice hsplices =>
    cases h
    exact hsplices.symm
  · cases h
    rfl

theorem bufferCommand_eq_none {buffer : ContentBuffer} {owner : OutlineOwner}
    {blockId : BlockId} :
    bufferCommand buffer owner blockId = none ↔ buffer.source = bufferAtoms buffer := by
  unfold bufferCommand bufferIsClean
  split_ifs with hclean
  · exact iff_of_true rfl (of_decide_eq_true hclean)
  · refine iff_of_false ?_ (fun h => hclean (decide_eq_true h))
    split <;> exact Option.some_ne_none _

/-- Splices that fit what a draft shows can be made to the draft. -/
theorem foldlM_spliceBuffer {splices : List BlockContentSplice} {buffer : ContentBuffer}
    {atoms : List ContentAtom} (hinc : Increasing buffer.source.length 0 buffer.pieces)
    (h : spliceContents (bufferAtoms buffer) splices = some atoms) :
    ∃ result, splices.foldlM
        (fun result splice => spliceBuffer result splice.index splice.delete splice.insert)
        buffer = .ok result ∧
      result.source = buffer.source ∧ Increasing result.source.length 0 result.pieces ∧
      bufferAtoms result = atoms := by
  induction splices generalizing buffer with
  | nil => exact ⟨buffer, rfl, rfl, hinc, Option.some.inj h⟩
  | cons splice splices ih =>
    obtain ⟨content, hcontent, hrest⟩ := Option.bind_eq_some_iff.mp h
    unfold spliceContent at hcontent
    split_ifs at hcontent with hrange
    obtain ⟨next, hnext⟩ := @spliceBuffer_isOk _ splice.index splice.delete
      splice.insert hinc (by omega)
    obtain ⟨-, hsource, hnextinc, hatoms⟩ := spliceBuffer_ok hinc hnext
    rw [← Option.some.inj hcontent, ← hatoms] at hrest
    obtain ⟨result, hresult, hsource', hinc', hatoms'⟩ := ih hnextinc hrest
    refine ⟨result, ?_, hsource'.trans hsource, hinc', hatoms'⟩
    rw [List.foldlM_cons, hnext]
    exact hresult

/-- What was typed on what a draft showed is shown on the draft again. -/
theorem restoreBuffer_ok {original newer : ContentBuffer} (blockId : BlockId)
    (hinc : Increasing original.source.length 0 original.pieces)
    (hnewer : Increasing newer.source.length 0 newer.pieces)
    (hsource : newer.source = bufferAtoms original) :
    ∃ result, restoreBuffer original newer blockId = .ok result ∧
      result.source = original.source ∧ Increasing result.source.length 0 result.pieces ∧
      bufferAtoms result = bufferAtoms newer :=
  foldlM_spliceBuffer hinc (hsource ▸ spliceContents_bufferSplices blockId hnewer)

/-! ## Rebased drafts -/

theorem increasing_rebasedPieces {origins : Origins} (visibility : Visibility)
    (insertions : Insertions) {start count : Nat} :
    Increasing origins.length start
      ((List.range' start count).flatMap (rebasedPieces origins visibility insertions)) := by
  induction count generalizing start with
  | zero => trivial
  | succ count ih =>
    rw [List.range'_succ, List.flatMap_cons]
    have hrest : Increasing origins.length start ((List.range' (start + 1) count).flatMap
        (rebasedPieces origins visibility insertions)) := ih.mono (Nat.le_succ start)
    have hsource (hlt : start < origins.length) : Increasing origins.length start
        ([.source start (start + 1)] ++ (List.range' (start + 1) count).flatMap
          (rebasedPieces origins visibility insertions)) :=
      ⟨Nat.le_refl _, Nat.le_succ _, hlt, ih⟩
    have hinserts : ∀ piece ∈ ((insertions.found start).map fun i => Piece.insert i.atoms).toList,
        piece.isInsert = true := by
      intro piece hpiece
      obtain ⟨insertion, -, rfl⟩ := Option.map_eq_some_iff.mp (Option.mem_toList.mp hpiece)
      rfl
    unfold rebasedPieces
    rw [List.append_assoc, increasing_inserts hinserts]
    split
    · exact hrest
    · next hsome => exact hsource (List.getElem?_eq_some_iff.mp hsome).1
    · next hsome =>
      split_ifs
      · exact hsource (List.getElem?_eq_some_iff.mp hsome).1
      · exact hrest

theorem rebaseBuffer_some {buffer rebased : ContentBuffer} {content : List InlineContent}
    {mapping changes : List ContentRangeChange} :
    rebaseBuffer buffer content mapping = some (rebased, changes) →
      rebased.source = contentAtoms content ∧
        Increasing rebased.source.length 0 rebased.pieces := by
  intro h
  unfold rebaseBuffer at h
  obtain ⟨origins, -, h⟩ := Option.bind_eq_some_iff.mp h
  dsimp only at h
  split_ifs at h with hlength
  cases h
  refine ⟨rfl, increasing_compactPieces ?_⟩
  rw [← not_not.mp hlength, List.range_eq_range']
  exact increasing_rebasedPieces _ _

/-! ## The command between two contents -/

theorem commonPrefix_le (atoms atoms' : List ContentAtom) :
    commonPrefix atoms atoms' ≤ atoms.length ∧ commonPrefix atoms atoms' ≤ atoms'.length := by
  induction atoms generalizing atoms' with
  | nil => exact ⟨Nat.zero_le _, Nat.zero_le _⟩
  | cons atom atoms ih =>
    cases atoms' with
    | nil => exact ⟨Nat.zero_le _, Nat.zero_le _⟩
    | cons atom' atoms' =>
      obtain ⟨hleft, hright⟩ := ih atoms'
      rw [commonPrefix, List.length_cons, List.length_cons]
      split_ifs <;> omega

theorem take_commonPrefix (atoms atoms' : List ContentAtom) :
    atoms.take (commonPrefix atoms atoms') = atoms'.take (commonPrefix atoms atoms') := by
  induction atoms generalizing atoms' with
  | nil => rfl
  | cons atom atoms ih =>
    cases atoms' with
    | nil => rfl
    | cons atom' atoms' =>
      rw [commonPrefix]
      split_ifs with heq
      · rw [List.take_succ_cons, List.take_succ_cons, heq, ih]
      · rfl

/-- What two contents share at their ends, behind a start. -/
theorem drop_commonSuffix (before after : List ContentAtom) (start : Nat) :
    before.drop (before.length -
        commonPrefix (before.drop start).reverse (after.drop start).reverse) =
      after.drop (after.length -
        commonPrefix (before.drop start).reverse (after.drop start).reverse) := by
  have ⟨stop, hstop⟩ : ∃ stop,
      stop = commonPrefix (before.drop start).reverse (after.drop start).reverse := ⟨_, rfl⟩
  obtain ⟨hbefore, hafter⟩ :=
    commonPrefix_le (before.drop start).reverse (after.drop start).reverse
  have htake := take_commonPrefix (before.drop start).reverse (after.drop start).reverse
  rw [← hstop] at hbefore hafter htake ⊢
  rw [List.length_reverse, List.length_drop] at hbefore hafter
  rw [List.take_reverse, List.take_reverse, List.drop_drop, List.drop_drop, List.length_drop,
    List.length_drop] at htake
  have h := List.reverse_injective htake
  by_cases hzero : stop = 0
  · rw [hzero, Nat.sub_zero, Nat.sub_zero, List.drop_length, List.drop_length]
  · rwa [show start + (before.length - start - stop) = before.length - stop by omega,
      show start + (after.length - start - stop) = after.length - stop by omega] at h

/-- The command between two contents turns the one into the other; there is none where they
agree. -/
theorem contentEditCommand_ok (owner : OutlineOwner) (blockId : BlockId)
    (source target : List InlineContent) :
    ∃ command, contentEditCommand owner blockId source target = .ok command ∧
      (command = none ↔ contentAtoms source = contentAtoms target) ∧
      ∀ c, command = some c →
        spliceContents (contentAtoms source) (contentSplices c) = some (contentAtoms target) := by
  have ⟨before, hbefore⟩ : ∃ before, before = contentAtoms source := ⟨_, rfl⟩
  have ⟨after, hafter⟩ : ∃ after, after = contentAtoms target := ⟨_, rfl⟩
  have ⟨start, hstart⟩ : ∃ start, start = commonPrefix before after := ⟨_, rfl⟩
  have ⟨stop, hstop⟩ : ∃ stop,
      stop = commonPrefix (before.drop start).reverse (after.drop start).reverse := ⟨_, rfl⟩
  obtain ⟨hlebefore, hleafter⟩ := commonPrefix_le before after
  obtain ⟨hstopbefore, hstopafter⟩ :=
    commonPrefix_le (before.drop start).reverse (after.drop start).reverse
  rw [← hstop, List.length_reverse, List.length_drop] at hstopbefore hstopafter
  rw [← hstart] at hlebefore hleafter
  have hinc := increasing_create source
  have hatoms : bufferAtoms (createContentBuffer source) = before := by
    rw [bufferAtoms_create, hbefore]
  obtain ⟨buffer, hbuffer⟩ := @spliceBuffer_isOk _ start (before.length - start - stop)
    (inlineContent ((after.take (after.length - stop)).drop start)) hinc
    (by rw [hatoms]; omega)
  obtain ⟨-, hsource, hnextinc, hnext⟩ := spliceBuffer_ok hinc hbuffer
  -- the shared start, the new middle and the shared end are the target
  have hend : before.drop (before.length - stop) = after.drop (after.length - stop) :=
    hstop ▸ drop_commonSuffix before after start
  have hshown : bufferAtoms buffer = after := by
    rw [hnext, hatoms, contentAtoms_inlineContent,
      show start + (before.length - start - stop) = before.length - stop by omega, hend,
      hstart, take_commonPrefix, ← hstart, List.append_assoc,
      ← List.drop_append_of_le_length (by rw [List.length_take]; omega), List.take_append_drop,
      List.take_append_drop]
  have hsource : buffer.source = before := hsource.trans hbefore.symm
  refine ⟨bufferCommand buffer owner blockId, ?_, ?_, ?_⟩
  · unfold contentEditCommand
    dsimp only
    rw [← hbefore, ← hafter, ← hstart, ← hstop, hbuffer]
    rfl
  · rw [bufferCommand_eq_none, hsource, hshown, ← hbefore, ← hafter]
  · intro c hc
    rw [contentSplices_bufferCommand hc, ← hbefore, ← hafter, ← hshown, ← hsource]
    exact spliceContents_bufferSplices blockId hnextinc

end Neoseq.Editor
