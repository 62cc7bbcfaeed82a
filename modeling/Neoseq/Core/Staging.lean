import Neoseq.Core.Outlines

/-! Splices of block contents. They are checked on the strings of the blocks, which are cut at
bytes, one after the other; and then applied to the texts, which are cut at scalars. -/

namespace Neoseq.Core
open Domain Document Collections Content

/-! ## Strings -/

/-- The string of a stored text. -/
def storedText (text : List Piece) : Text := text.map (Sum.elim id fun _ => pageReferenceChar)

/-- `char_indices`, from a byte on. -/
def charIndices (start : Nat) : Text → List (Nat × Char)
  | [] => []
  | c :: rest => (start, c) :: charIndices (start + c.utf8Size) rest

/-- The byte at which a scalar starts, and the end of the string where there is none. -/
def scalarStart (current : Text) (index : Nat) : Nat :=
  ((charIndices 0 current)[index]?.map Prod.fst).getD (utf8Len current)

/-- `replace_range`, which panics where an end of the range is no boundary or they are the
wrong way round. -/
def replaceRange (current : Text) (start stop : Nat) (inserted : Text) : Option Text :=
  if start ≤ stop then do
    let before ← cutAt start current
    let after ← cutAt stop current
    return before.1 ++ inserted ++ after.2
  else none

/-! ## Staging -/

/-- `checked_text_range` of a range that is given, on the string. -/
def checkedStringRange (current : Text) (index delete insertedBytes : Nat) :
    Except CoreError Unit := do
  if index + delete > current.length then invalid "block content splice is out of bounds"
  let deletedBytes := utf8Len ((current.drop index).take delete)
  if utf8Len current - deletedBytes + insertedBytes > maxBlockTextBytes then throw .textTooLong

/-- The string of an atom. -/
def atomString : InlineAtom → Text
  | .text value => value
  | .pageReference _ => [pageReferenceChar]

/-- The string that a splice leaves of a block. -/
def stageSplice (current : Text) (splice : BlockContentSplice) (atoms : List InlineAtom)
    (bytes : Nat) : Except Halt Text := do
  (checkedStringRange current splice.index splice.delete bytes).mapError .refused
  let start := scalarStart current splice.index
  let stop := scalarStart current (splice.index + splice.delete)
  orElse (replaceRange current start stop (atoms.flatMap atomString)) .panic

/-- The loop of `SpliceBlockContents`, with the strings it has staged. -/
def stageContentSplices (d : GraphDoc) (owner : OutlineOwner) :
    List BlockContentSplice → (staged : BTreeMap BlockId Text) →
      Except Halt (List PrimitiveOp × BTreeMap BlockId Text)
  | [], staged => .ok ([], staged)
  | splice :: rest, staged => do
    (d.requireBlock owner splice.blockId).mapError .refused
    let current ← match staged.get splice.blockId with
      | some current => pure current
      | none => ((d.blockText owner splice.blockId).map storedText).mapError .refused
    let (atoms, bytes) ← (normalizeInlineInsert d splice.insert).mapError .refused
    let next ← stageSplice current splice atoms bytes
    let operation := inlineOperation ⟨owner, splice.blockId, splice.index, splice.delete⟩ atoms
    let (operations, staged) ← stageContentSplices d owner rest
      (staged.insert splice.blockId next)
    return (operation :: operations, staged)

/-! ## Bytes and scalars -/

theorem charIndices_fst (text : Text) (start index : Nat) :
    (charIndices start text)[index]?.map Prod.fst =
      if index < text.length then some (start + utf8Len (text.take index)) else none := by
  induction text generalizing start index with
  | nil => simp [charIndices]
  | cons c rest ih =>
    cases index with
    | zero => simp [charIndices]
    | succ index =>
      simp only [charIndices, List.getElem?_cons_succ, ih, List.length_cons, Nat.add_lt_add_iff_right,
        List.take_succ_cons, utf8Len_cons, Nat.add_assoc]

/-- A scalar starts where those before it end. -/
theorem scalarStart_eq (text : Text) (index : Nat) :
    scalarStart text index = utf8Len (text.take index) := by
  unfold scalarStart
  rw [charIndices_fst]
  split_ifs with h
  · exact Nat.zero_add _
  · rw [List.take_of_length_le (by omega)]
    rfl

/-- Cut at the bytes where scalars start, a string is cut at these scalars. -/
theorem replaceRange_scalars {text : Text} {index delete : Nat} (inserted : Text) :
    replaceRange text (scalarStart text index) (scalarStart text (index + delete)) inserted =
      some (text.take index ++ inserted ++ text.drop (index + delete)) := by
  have hcut (index : Nat) : cutAt (utf8Len (text.take index)) text =
      some (text.take index, text.drop index) := by
    have h := cutAt_append (text.take index) (text.drop index)
    rwa [List.take_append_drop] at h
  have hle : utf8Len (text.take index) ≤ utf8Len (text.take (index + delete)) := by
    rw [List.take_add, utf8Len_append]
    exact Nat.le_add_right _ _
  unfold replaceRange
  rw [scalarStart_eq, scalarStart_eq, if_pos hle, hcut, hcut]
  rfl

/-! ## Strings of texts -/

@[simp] theorem storedText_append (text text' : List Piece) :
    storedText (text ++ text') = storedText text ++ storedText text' := List.map_append

@[simp] theorem length_storedText (text : List Piece) : (storedText text).length = text.length :=
  List.length_map _

theorem utf8Len_storedText (text : List Piece) : utf8Len (storedText text) = storedBytes text := by
  unfold utf8Len storedText storedBytes
  rw [List.map_map]
  refine congrArg List.sum (List.map_congr_left fun piece _ => ?_)
  cases piece <;> rfl

theorem storedText_pieces (atoms : List InlineAtom) :
    storedText (atoms.flatMap InlineAtom.pieces) = atoms.flatMap atomString := by
  induction atoms with
  | nil => rfl
  | cons atom atoms ih =>
    rw [List.flatMap_cons, List.flatMap_cons, storedText_append, ih]
    congr 1
    cases atom with
    | text value =>
      show List.map _ (List.map _ value) = value
      rw [List.map_map]
      exact List.map_id value
    | pageReference pageId => rfl

/-- The range is checked alike on a text and on its string. -/
theorem checkedStringRange_storedText (text : List Piece) (index delete bytes : Nat) :
    checkedStringRange (storedText text) index delete bytes =
      (checkedTextRange text (some (index, delete)) bytes "block content splice").map
        fun _ => () := by
  unfold checkedStringRange checkedTextRange
  have hdeleted : utf8Len (((storedText text).drop index).take delete) =
      storedBytes ((text.drop index).take delete) := by
    rw [← utf8Len_storedText]
    unfold storedText
    rw [List.map_take, List.map_drop]
  rw [hdeleted, utf8Len_storedText, length_storedText]
  show (if _ then _ else _) = Except.map _ (if _ then _ else _)
  split_ifs with hrange
  · rfl
  · show (if _ then _ else _) = Except.map _ (if _ then _ else _)
    split_ifs <;> rfl

theorem checkedTextRange_ok {text : List Piece} {index delete bytes : Nat} {operation : String}
    {range : Nat × Nat}
    (h : checkedTextRange text (some (index, delete)) bytes operation = .ok range) :
    index + delete ≤ text.length ∧
      storedBytes text - storedBytes ((text.drop index).take delete) + bytes ≤
        maxBlockTextBytes := by
  unfold checkedTextRange at h
  dsimp only [Option.getD] at h
  by_cases hrange : index + delete > text.length
  · rw [if_pos hrange] at h
    cases h
  · rw [if_neg hrange] at h
    by_cases hbytes : storedBytes text - storedBytes ((text.drop index).take delete) + bytes >
        maxBlockTextBytes
    · rw [if_pos hbytes] at h
      cases h
    · exact ⟨by omega, by omega⟩

theorem storedBytes_append (text text' : List Piece) :
    storedBytes (text ++ text') = storedBytes text + storedBytes text' := by
  rw [← utf8Len_storedText, storedText_append, utf8Len_append, utf8Len_storedText,
    utf8Len_storedText]

theorem utf8Len_string_snoc (atoms : List InlineAtom) (atom : InlineAtom) :
    utf8Len ((atoms ++ [atom]).flatMap atomString) =
      utf8Len (atoms.flatMap atomString) + utf8Len (atomString atom) := by
  rw [List.flatMap_append, utf8Len_append, List.flatMap_singleton]

/-- The bytes that are counted are those of the atoms. -/
theorem inlineAtoms_bytes {d : GraphDoc} {content : List InlineContent}
    {atoms atoms' : List InlineAtom} {bytes bytes' : Nat}
    (h : inlineAtoms d content atoms bytes = .ok (atoms', bytes'))
    (hbytes : bytes = utf8Len (atoms.flatMap atomString)) :
    bytes' = utf8Len (atoms'.flatMap atomString) := by
  induction content generalizing atoms bytes with
  | nil =>
    cases h
    exact hbytes
  | cons item rest ih =>
    cases item with
    | markdown value =>
      rw [inlineAtoms] at h
      by_cases hreserved : value.contains pageReferenceChar = true
      · rw [if_pos hreserved] at h
        cases h
      · rw [if_neg hreserved] at h
        refine ih h ?_
        cases value with
        | nil => exact hbytes
        | cons c value =>
          dsimp only [List.isEmpty_cons]
          rw [if_neg Bool.false_ne_true]
          split
          · next previous hlast =>
            have hsplit : atoms = atoms.dropLast ++ [.text previous] :=
              (List.dropLast_append_getLast? _ hlast).symm
            rw [utf8Len_string_snoc, hbytes]
            conv_lhs => rw [hsplit]
            rw [utf8Len_string_snoc]
            show _ + utf8Len previous + _ = _ + utf8Len (previous ++ c :: value)
            rw [utf8Len_append, Nat.add_assoc]
          · rw [utf8Len_string_snoc, hbytes]
            rfl
    | pageReference pageId =>
      rw [inlineAtoms] at h
      obtain ⟨page, -, h⟩ := bind_eq_ok.mp h
      refine ih h ?_
      rw [utf8Len_string_snoc, hbytes]
      rfl

theorem normalizeInlineInsert_bytes {d : GraphDoc} {content : List InlineContent}
    {atoms : List InlineAtom} {bytes : Nat}
    (h : normalizeInlineInsert d content = .ok (atoms, bytes)) :
    bytes = utf8Len (atoms.flatMap atomString) := by
  obtain ⟨⟨atoms', bytes'⟩, hatoms, h⟩ := bind_eq_ok.mp h
  dsimp only at h
  split_ifs at h
  · cases h
  · cases h
    exact @inlineAtoms_bytes d content [] _ 0 _ hatoms rfl

/-! ## Applying -/

section Apply
variable {host : Host} {source : IdSource} {now : Timestamp} {owner : OutlineOwner}
  {d : GraphDoc} {o : Outline} {b : BlockId}

/-- Atoms that go in one after the other go in as one text. -/
theorem run_insertInlineAtoms (atoms : List InlineAtom) {index : Nat}
    (ho : d.outline owner = .ok o) (hb : b ∈ o.tree.labels)
    (hindex : index ≤ (o.metas b).content.length) :
    (insertInlineAtoms owner b index atoms).run d = (.ok (), d.putOutline owner
      (o.setContent b ((o.metas b).content.take index ++ atoms.flatMap InlineAtom.pieces ++
        (o.metas b).content.drop index))) := by
  induction atoms generalizing d o index with
  | nil =>
    rw [List.flatMap_nil, List.append_nil, List.take_append_drop, Outline.setContent_self,
      GraphDoc.putOutline_self ho]
    rfl
  | cons atom atoms ih =>
    have hinsert : insertText index atom.pieces (o.metas b).content =
        .ok ((o.metas b).content.take index ++ atom.pieces ++ (o.metas b).content.drop index) :=
      if_pos hindex
    refine (Edit.run_bind_ok (run_inText ho hb hinsert)).trans ?_
    have htake : ((o.metas b).content.take index ++ atom.pieces ++
        (o.metas b).content.drop index).take (index + atom.pieces.length) =
          (o.metas b).content.take index ++ atom.pieces :=
      List.take_left' (by rw [List.length_append, List.length_take, Nat.min_eq_left hindex])
    have hdrop : ((o.metas b).content.take index ++ atom.pieces ++
        (o.metas b).content.drop index).drop (index + atom.pieces.length) =
          (o.metas b).content.drop index :=
      List.drop_left' (by rw [List.length_append, List.length_take, Nat.min_eq_left hindex])
    have hlength : index + atom.pieces.length ≤ ((o.metas b).content.take index ++ atom.pieces ++
        (o.metas b).content.drop index).length := by
      rw [List.length_append, List.length_append, List.length_take, Nat.min_eq_left hindex]
      exact Nat.le_add_right _ _
    have hrest := @ih (d.putOutline owner (o.setContent b ((o.metas b).content.take index ++
      atom.pieces ++ (o.metas b).content.drop index))) _ (index + atom.pieces.length)
      (GraphDoc.outline_putOutline ho) hb (by rw [Outline.content_setContent_same]; exact hlength)
    rw [Outline.content_setContent_same, htake, hdrop, GraphDoc.putOutline_putOutline,
      Outline.setContent_setContent] at hrest
    rw [hrest, List.flatMap_cons, List.append_assoc ((o.metas b).content.take index)]

theorem plainPieces_plainText {atoms : List InlineAtom} {insert : Text}
    (h : plainText atoms = some insert) :
    plainPieces insert = atoms.flatMap InlineAtom.pieces := by
  induction atoms generalizing insert with
  | nil =>
    cases h
    rfl
  | cons atom atoms ih =>
    cases atom with
    | text value =>
      obtain ⟨rest, hrest, rfl⟩ := Option.map_eq_some_iff.mp h
      rw [List.flatMap_cons, ← ih hrest]
      exact List.map_append
    | pageReference pageId => cases h

theorem run_applyTextRange {target : TextTarget} (ho : d.outline target.owner = .ok o)
    (hb : target.blockId ∈ o.tree.labels)
    (hrange : target.index + target.delete ≤ (o.metas target.blockId).content.length) :
    (applyTextRange target).run d = (.ok (), d.putOutline target.owner (o.setContent target.blockId
      ((o.metas target.blockId).content.take target.index ++
        (o.metas target.blockId).content.drop (target.index + target.delete)))) := by
  have hread : (Edit.read fun d : GraphDoc => d.blockText target.owner target.blockId).run d =
      (.ok (o.metas target.blockId).content, d) :=
    Edit.run_read ((GraphDoc.blockText_ok ho).mpr ⟨hb, rfl⟩)
  refine (Edit.run_bind_ok hread).trans ?_
  by_cases hdelete : target.delete > 0
  · rw [if_pos hdelete]
    exact run_inText ho hb (if_pos hrange)
  · rw [if_neg hdelete, show target.delete = 0 by omega, Nat.add_zero, List.take_append_drop,
      Outline.setContent_self, GraphDoc.putOutline_self ho]
    rfl

/-- The operation of a splice puts its atoms in the place of its range. -/
theorem run_inlineOperation (host : Host) (source : IdSource) (now : Timestamp)
    (target : TextTarget) (atoms : List InlineAtom)
    (ho : d.outline target.owner = .ok o) (hb : target.blockId ∈ o.tree.labels)
    (hrange : target.index + target.delete ≤ (o.metas target.blockId).content.length) :
    (applyOperation host source now (inlineOperation target atoms)).run d =
      (.ok change, d.putOutline target.owner (o.setContent target.blockId
        ((o.metas target.blockId).content.take target.index ++ atoms.flatMap InlineAtom.pieces ++
          (o.metas target.blockId).content.drop (target.index + target.delete)))) := by
  have hcut := run_applyTextRange ho hb hrange
  have hleft : ((o.metas target.blockId).content.take target.index).length = target.index := by
    rw [List.length_take]
    omega
  let cut := o.setContent target.blockId ((o.metas target.blockId).content.take target.index ++
    (o.metas target.blockId).content.drop (target.index + target.delete))
  have hcutOutline : (d.putOutline target.owner cut).outline target.owner = .ok cut :=
    GraphDoc.outline_putOutline ho
  have hlength : target.index ≤ ((o.metas target.blockId).content.take target.index ++
      (o.metas target.blockId).content.drop (target.index + target.delete)).length := by
    rw [List.length_append, hleft]
    exact Nat.le_add_right _ _
  unfold inlineOperation
  cases hplain : plainText atoms with
  | none =>
    show (applyTextRange target >>= fun _ => insertInlineAtoms target.owner target.blockId
      target.index atoms >>= fun _ => pure change).run d = _
    rw [Edit.run_bind_ok hcut]
    have hindex : target.index ≤ (cut.metas target.blockId).content.length := by
      rw [Outline.content_setContent_same]
      exact hlength
    have hinsert := run_insertInlineAtoms atoms hcutOutline hb hindex
    rw [Outline.content_setContent_same, List.take_left' hleft, List.drop_left' hleft,
      GraphDoc.putOutline_putOutline, Outline.setContent_setContent] at hinsert
    exact (Edit.run_bind_ok hinsert).trans rfl
  | some insert =>
    have hpieces := plainPieces_plainText hplain
    show (applyTextRange target >>= fun _ => _).run d = _
    rw [Edit.run_bind_ok hcut]
    by_cases hempty : insert.isEmpty
    · rw [List.isEmpty_iff.mp hempty] at hpieces ⊢
      rw [← hpieces]
      show (Except.ok change, _) = _
      rw [show plainPieces [] = [] from rfl, List.append_nil]
    · have hinsert : insertText target.index (plainPieces insert)
          ((o.setContent target.blockId ((o.metas target.blockId).content.take target.index ++
            (o.metas target.blockId).content.drop (target.index + target.delete))).metas
              target.blockId).content =
          .ok ((o.metas target.blockId).content.take target.index ++ plainPieces insert ++
            (o.metas target.blockId).content.drop (target.index + target.delete)) := by
        unfold insertText
        rw [Outline.content_setContent_same, if_pos hlength, List.take_left' hleft,
          List.drop_left' hleft]
      have hrun := run_inText hcutOutline hb hinsert
      rw [GraphDoc.putOutline_putOutline, Outline.setContent_setContent] at hrun
      have hsome : (!insert.isEmpty) = true := by simp [hempty]
      rw [← hpieces]
      dsimp only
      rw [if_pos hsome]
      exact (Edit.run_bind_ok hrun).trans rfl

/-! ## Staged and applied -/

/-- The range of text that an operation splices. -/
def PrimitiveOp.textTarget : PrimitiveOp → Option TextTarget
  | .spliceText target _ => some target
  | .spliceInline target _ => some target
  | _ => none

/-- An operation splices a range that the text has. -/
def PrimitiveOp.InRange (o : Outline) (op : PrimitiveOp) : Prop :=
  ∃ target, op.textTarget = some target ∧
    target.index + target.delete ≤ (o.metas target.blockId).content.length

/-- What splices leave of an outline: its nodes, and texts that are as they were or short
enough. -/
structure Spliced (o o₁ : Outline) : Prop where
  tree : o₁.tree = o.tree
  texts : ∀ b, (o₁.metas b).content = (o.metas b).content ∨
    storedBytes (o₁.metas b).content ≤ maxBlockTextBytes

theorem Spliced.refl (o : Outline) : Spliced o o := ⟨rfl, fun _ => .inl rfl⟩

theorem Spliced.setContent {o₁ : Outline} (h : Spliced o o₁) {content : List Piece}
    (hbytes : storedBytes content ≤ maxBlockTextBytes) : Spliced o (o₁.setContent b content) := by
  refine ⟨h.tree, fun x => ?_⟩
  rw [Outline.content_setContent]
  split_ifs
  · exact .inr hbytes
  · exact h.texts x

theorem textTarget_inlineOperation (target : TextTarget) (atoms : List InlineAtom) :
    (inlineOperation target atoms).textTarget = some target := by
  unfold inlineOperation
  cases plainText atoms <;> rfl

/-- The text that a splice leaves. -/
def splicedText (current : List Piece) (splice : BlockContentSplice) (atoms : List InlineAtom) :
    List Piece :=
  current.take splice.index ++ atoms.flatMap InlineAtom.pieces ++
    current.drop (splice.index + splice.delete)

theorem storedBytes_pieces (atoms : List InlineAtom) :
    storedBytes (atoms.flatMap InlineAtom.pieces) = utf8Len (atoms.flatMap atomString) := by
  rw [← utf8Len_storedText, storedText_pieces]

/-- A splice that passes its check leaves a text within the limit. -/
theorem storedBytes_splicedText {current : List Piece} {splice : BlockContentSplice}
    {atoms : List InlineAtom} {bytes : Nat} {operation : String} {range : Nat × Nat}
    (hrange : checkedTextRange current (some (splice.index, splice.delete)) bytes operation =
      .ok range) (hbytes : bytes = utf8Len (atoms.flatMap atomString)) :
    storedBytes (splicedText current splice atoms) ≤ maxBlockTextBytes := by
  obtain ⟨-, hlimit⟩ := checkedTextRange_ok hrange
  have hparts : storedBytes current = storedBytes (current.take splice.index) +
      (storedBytes ((current.drop splice.index).take splice.delete) +
        storedBytes (current.drop (splice.index + splice.delete))) := by
    rw [← List.drop_drop, ← storedBytes_append, List.take_append_drop, ← storedBytes_append,
      List.take_append_drop]
  unfold splicedText
  rw [storedBytes_append, storedBytes_append, storedBytes_pieces, ← hbytes]
  omega

/-- The string of a block is spliced as its text is. -/
theorem stageSplice_storedText {current : List Piece} {splice : BlockContentSplice}
    {atoms : List InlineAtom} {bytes : Nat} {range : Nat × Nat}
    (hrange : checkedTextRange current (some (splice.index, splice.delete)) bytes
      "block content splice" = .ok range) :
    stageSplice (storedText current) splice atoms bytes =
      .ok (storedText (splicedText current splice atoms)) := by
  unfold stageSplice
  rw [checkedStringRange_storedText, hrange]
  show orElse (replaceRange _ _ _ _) _ = _
  rw [replaceRange_scalars]
  refine congrArg Except.ok ?_
  unfold splicedText
  rw [storedText_append, storedText_append, storedText_pieces]
  unfold storedText
  rw [List.map_take, List.map_drop]

/-- What the first of some splices that are accepted has passed. -/
theorem lowerContentSplices_cons {splice : BlockContentSplice} {splices : List BlockContentSplice}
    {staged : BTreeMap BlockId (List Piece)} {ops : List PrimitiveOp}
    (ho : d.outline owner = .ok o)
    (h : lowerContentSplices d owner (splice :: splices) staged = .ok ops) :
    ∃ current atoms bytes range ops', splice.blockId ∈ o.tree.labels ∧
      current = (staged.get splice.blockId).getD (o.metas splice.blockId).content ∧
      normalizeInlineInsert d splice.insert = .ok (atoms, bytes) ∧
      checkedTextRange current (some (splice.index, splice.delete)) bytes "block content splice" =
        .ok range ∧
      lowerContentSplices d owner splices
        (staged.insert splice.blockId (splicedText current splice atoms)) = .ok ops' ∧
      ops = inlineOperation ⟨owner, splice.blockId, splice.index, splice.delete⟩ atoms :: ops' := by
  rw [lowerContentSplices] at h
  obtain ⟨⟨⟩, hblock, h⟩ := bind_eq_ok.mp h
  have hb := (GraphDoc.requireBlock_ok ho).mp hblock
  cases hget : staged.get splice.blockId with
  | none =>
    rw [hget] at h
    obtain ⟨current, hcurrent, h⟩ := bind_eq_ok.mp h
    obtain ⟨⟨atoms, bytes⟩, hatoms, h⟩ := bind_eq_ok.mp h
    obtain ⟨range, hrange, h⟩ := bind_eq_ok.mp h
    obtain ⟨ops', hops, h⟩ := bind_eq_ok.mp h
    have htext := ((GraphDoc.blockText_ok ho).mp hcurrent).2
    exact ⟨current, atoms, bytes, range, ops', hb, htext.symm, hatoms, hrange, hops,
      (Except.ok.inj h).symm⟩
  | some current =>
    rw [hget] at h
    obtain ⟨current', hcurrent, h⟩ := bind_eq_ok.mp h
    obtain rfl := Except.ok.inj hcurrent
    obtain ⟨⟨atoms, bytes⟩, hatoms, h⟩ := bind_eq_ok.mp h
    obtain ⟨range, hrange, h⟩ := bind_eq_ok.mp h
    obtain ⟨ops', hops, h⟩ := bind_eq_ok.mp h
    exact ⟨current, atoms, bytes, range, ops', hb, rfl, hatoms, hrange, hops,
      (Except.ok.inj h).symm⟩

/-- A splice that is accepted is staged on the string of the block. -/
theorem stageContentSplices_cons {splice : BlockContentSplice} {splices : List BlockContentSplice}
    {staged final : BTreeMap BlockId Text} {ops : List PrimitiveOp} {current : List Piece}
    {atoms : List InlineAtom} {bytes : Nat} {range : Nat × Nat}
    (ho : d.outline owner = .ok o) (hb : splice.blockId ∈ o.tree.labels)
    (hcurrent : (staged.get splice.blockId).getD (storedText (o.metas splice.blockId).content) =
      storedText current)
    (hatoms : normalizeInlineInsert d splice.insert = .ok (atoms, bytes))
    (hrange : checkedTextRange current (some (splice.index, splice.delete)) bytes
      "block content splice" = .ok range)
    (hrest : stageContentSplices d owner splices
      (staged.insert splice.blockId (storedText (splicedText current splice atoms))) =
        .ok (ops, final)) :
    stageContentSplices d owner (splice :: splices) staged = .ok
      (inlineOperation ⟨owner, splice.blockId, splice.index, splice.delete⟩ atoms :: ops, final) := by
  have hblock := (GraphDoc.requireBlock_ok ho).mpr hb
  have htext : d.blockText owner splice.blockId = .ok (o.metas splice.blockId).content :=
    (GraphDoc.blockText_ok ho).mpr ⟨hb, rfl⟩
  have hstage : stageSplice (storedText current) splice atoms bytes =
      .ok (storedText (splicedText current splice atoms)) := stageSplice_storedText hrange
  rw [stageContentSplices, hblock, htext, hatoms]
  cases hget : staged.get splice.blockId with
  | none =>
    rw [hget] at hcurrent
    show stageSplice (storedText (o.metas splice.blockId).content) splice atoms bytes >>= _ = _
    rw [show storedText (o.metas splice.blockId).content = storedText current from hcurrent, hstage]
    show stageContentSplices d owner splices _ >>= _ = _
    rw [hrest]
    rfl
  | some text =>
    rw [hget] at hcurrent
    show stageSplice text splice atoms bytes >>= _ = _
    rw [show text = storedText current from hcurrent, hstage]
    show stageContentSplices d owner splices _ >>= _ = _
    rw [hrest]
    rfl

/-- Splices that are accepted are staged, and every beginning of their operations runs well. -/
theorem staged_applied (host : Host) (source : IdSource) (now : Timestamp) {splices : List BlockContentSplice}
    {staged : BTreeMap BlockId (List Piece)} {strings : BTreeMap BlockId Text}
    {ops : List PrimitiveOp} {o₁ : Outline} (ho : d.outline owner = .ok o) (hs : Spliced o o₁)
    (htexts : ∀ b, (o₁.metas b).content = (staged.get b).getD (o.metas b).content)
    (hstrings : ∀ b, strings.get b = (staged.get b).map storedText)
    (h : lowerContentSplices d owner splices staged = .ok ops) :
    ∃ final, stageContentSplices d owner splices strings = .ok (ops, final) ∧
      ∀ done rest outcome, ops = done ++ rest → ∃ outcome' o₂,
        (applyOperations host source now done outcome).run (d.putOutline owner o₁) =
          (.ok outcome', d.putOutline owner o₂) ∧
        Spliced o o₂ ∧ (∀ op, rest.head? = some op → op.InRange o₂) ∧
        (rest = [] → ∀ b, storedText (o₂.metas b).content =
          (final.get b).getD (storedText (o.metas b).content)) := by
  induction splices generalizing staged strings ops o₁ with
  | nil =>
    cases h
    refine ⟨strings, rfl, fun done rest outcome hsplit => ?_⟩
    obtain ⟨rfl, rfl⟩ := List.append_eq_nil_iff.mp hsplit.symm
    refine ⟨outcome, o₁, ?_, hs, ?_, fun _ b => ?_⟩
    · rfl
    · intro op hop
      cases hop
    rw [htexts, hstrings]
    cases staged.get b <;> rfl
  | cons splice splices ih =>
    obtain ⟨current, atoms, bytes, range, ops', hb, hcurrent, hatoms, hrange, hlower, rfl⟩ :=
      lowerContentSplices_cons ho h
    have hbytes := normalizeInlineInsert_bytes hatoms
    have htext : (o₁.metas splice.blockId).content = current := by rw [htexts, hcurrent]
    have hfits : splice.index + splice.delete ≤ (o₁.metas splice.blockId).content.length := by
      rw [htext]
      exact (checkedTextRange_ok hrange).1
    let text := splicedText current splice atoms
    have htexts' : ∀ b, ((o₁.setContent splice.blockId text).metas b).content =
        ((staged.insert splice.blockId text).get b).getD (o.metas b).content := by
      intro b
      rw [Outline.content_setContent, BTreeMap.get_insert, htexts]
      split_ifs <;> rfl
    have hstrings' : ∀ b, (strings.insert splice.blockId (storedText text)).get b =
        ((staged.insert splice.blockId text).get b).map storedText := by
      intro b
      rw [BTreeMap.get_insert, BTreeMap.get_insert, hstrings]
      split_ifs <;> rfl
    obtain ⟨final, hstage, hruns⟩ :=
      ih (hs.setContent (storedBytes_splicedText hrange hbytes)) htexts' hstrings' hlower
    refine ⟨final, stageContentSplices_cons ho hb ?_ hatoms hrange hstage,
      fun done rest outcome hsplit => ?_⟩
    · rw [hstrings, hcurrent]
      cases staged.get splice.blockId <;> rfl
    cases done with
    | nil =>
      obtain rfl : _ = rest := hsplit
      refine ⟨outcome, o₁, ?_, hs, fun op hop => ?_, ?_⟩
      · rfl
      · obtain rfl := Option.some.inj hop
        exact ⟨_, textTarget_inlineOperation _ _, hfits⟩
      · intro hend
        cases hend
    | cons op done =>
      obtain ⟨rfl, htail⟩ := List.cons.inj hsplit
      have ho₁ : (d.putOutline owner o₁).outline owner = .ok o₁ := GraphDoc.outline_putOutline ho
      have hop := run_inlineOperation host source now
        ⟨owner, splice.blockId, splice.index, splice.delete⟩ atoms ho₁
        (by rw [hs.tree]; exact hb) hfits
      obtain ⟨outcome', o₂, hrun, hspliced, hhead, hend⟩ :=
        hruns done rest (outcome.merge change) htail
      refine ⟨outcome', o₂, ?_, hspliced, hhead, hend⟩
      rw [applyOperations, Edit.run_bind_ok hop, GraphDoc.putOutline_putOutline, htext]
      exact hrun

/-- Splices that the command accepts are staged without a panic. Every operation of theirs finds
its range in the text it comes to, every text that it leaves is short enough, and at the end
the string of every block is the one that was staged. -/
theorem spliceBlockContents_staged {splices : List BlockContentSplice}
    {t : NormalizedTransition}
    (h : prepareTransition host d (.spliceBlockContents owner splices) = .ok t) :
    ∃ o final, d.outline owner = .ok o ∧
      stageContentSplices d owner splices ∅ = .ok (t.operations, final) ∧
      ∀ done rest, t.operations = done ++ rest → ∃ outcome o₁,
        (applyOperations host source now done {}).run d =
          (.ok outcome, d.putOutline owner o₁) ∧
        Spliced o o₁ ∧ (∀ op, rest.head? = some op → op.InRange o₁) ∧
        (rest = [] → ∀ b, storedText (o₁.metas b).content =
          (final.get b).getD (storedText (o.metas b).content)) := by
  obtain ⟨ops, hops, rfl⟩ := map_eq_ok.mp h
  obtain ⟨⟨⟩, hbatch, hlower⟩ := bind_eq_ok.mp hops
  obtain ⟨o, ho⟩ : ∃ o, d.outline owner = .ok o := by
    cases splices with
    | nil => cases hbatch
    | cons splice splices =>
      rw [lowerContentSplices] at hlower
      obtain ⟨⟨⟩, hblock, -⟩ := bind_eq_ok.mp hlower
      exact GraphDoc.outline_of_requireBlock hblock
  obtain ⟨final, hstage, hruns⟩ := staged_applied host source now ho (.refl o) (fun _ => rfl)
    (fun _ => (rfl : (∅ : BTreeMap BlockId Text).get _ = _)) hlower
  refine ⟨o, final, ho, hstage, fun done rest hsplit => ?_⟩
  obtain ⟨outcome, o₁, hrun, h⟩ := hruns done rest {} hsplit
  rw [GraphDoc.putOutline_self ho] at hrun
  exact ⟨outcome, o₁, hrun, h⟩

end Apply

def sampleBlock : BlockId := ⟨"block", block_valid⟩

/-- One block with a text. -/
def sampleOutline (content : List Piece) : Outline where
  tree := Forest.single sampleBlock .nil
  known := [sampleBlock]
  metas := fun _ => { content }
  nodup := List.nodup_singleton _
  issued := fun _ h => h

/-- Two splices of a block, the second of which cuts what the first has put there. -/
def sampleSplices : List BlockContentSplice :=
  [⟨sampleBlock, 1, 0, [.markdown ['x'], .pageReference samplePage, .markdown ['y', 'z']]⟩,
    ⟨sampleBlock, 2, 2, [.markdown ['\u00e9']]⟩]

def sampleText : GraphDoc := pageWith (sampleOutline [.inl '\u00e9', .inl 'b'])

theorem spliceBlockContents_staged_sample :
    ∃ t outcome o, prepareTransition sampleHost sampleText
        (.spliceBlockContents (.page samplePage) sampleSplices) = .ok t ∧
      (applyOperations sampleHost ⟨fun _ => sampleBlock, 0, nofun⟩ stagedTime t.operations {}).run
        sampleText = (.ok outcome, sampleText.putOutline (.page samplePage) o) ∧
      storedText (o.metas sampleBlock).content = ['\u00e9', 'x', '\u00e9', 'z', 'b'] := by
  obtain ⟨t, hprepare⟩ : ∃ t, prepareTransition sampleHost sampleText
      (.spliceBlockContents (.page samplePage) sampleSplices) = .ok t := ⟨_, rfl⟩
  obtain ⟨o, final, -, hstage, hruns⟩ := @spliceBlockContents_staged sampleHost
    ⟨fun _ => sampleBlock, 0, nofun⟩ stagedTime _ _ _ _ hprepare
  obtain ⟨outcome, o₁, hrun, -, -, htexts⟩ := hruns t.operations [] (List.append_nil _).symm
  have hfinal : (stageContentSplices sampleText (.page samplePage) sampleSplices ∅).map
      (fun staged => staged.2.get sampleBlock) =
        .ok (some ['\u00e9', 'x', '\u00e9', 'z', 'b']) := rfl
  rw [hstage] at hfinal
  have hget : final.get sampleBlock = some ['\u00e9', 'x', '\u00e9', 'z', 'b'] :=
    Except.ok.inj hfinal
  refine ⟨t, outcome, o₁, hprepare, hrun, ?_⟩
  rw [htexts rfl, hget]
  rfl

end Neoseq.Core
