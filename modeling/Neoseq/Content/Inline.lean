import Neoseq.Domain.Ids

/-! Block content with inline page references. A block's text holds one reserved
character for each reference; `materializeBlockContent` expands each of them to
the page's title, and pasting a fragment collapses the expanded spans back. -/

namespace Neoseq.Content
open Domain

/-- A string as its Unicode scalars. -/
abbrev Text := List Char

def utf8Len (t : Text) : Nat := (t.map Char.utf8Size).sum

@[simp] theorem utf8Len_nil : utf8Len [] = 0 := rfl

@[simp] theorem utf8Len_cons (c : Char) (text : Text) :
    utf8Len (c :: text) = c.utf8Size + utf8Len text := by
  simp [utf8Len]

@[simp] theorem utf8Len_append (text text' : Text) :
    utf8Len (text ++ text') = utf8Len text + utf8Len text' := by
  simp [utf8Len]

/-- A string cut at a byte; `none` where that is no boundary of scalars. -/
def cutAt : (byte : Nat) → Text → Option (Text × Text)
  | 0, text => some ([], text)
  | _, [] => none
  | byte, c :: rest =>
    if c.utf8Size ≤ byte then (cutAt (byte - c.utf8Size) rest).map fun cut => (c :: cut.1, cut.2)
    else none

theorem cutAt_append (before after : Text) :
    cutAt (utf8Len before) (before ++ after) = some (before, after) := by
  induction before with
  | nil => cases after <;> rfl
  | cons c rest ih =>
    have hpos := c.utf8Size_pos
    have hbyte : utf8Len (c :: rest) = (c.utf8Size - 1 + utf8Len rest) + 1 := by
      rw [utf8Len_cons]
      omega
    rw [hbyte, List.cons_append, cutAt, if_pos (by omega),
      show c.utf8Size - 1 + utf8Len rest + 1 - c.utf8Size = utf8Len rest by omega, ih]
    · rfl
    · intro h
      omega

/-- Behind a part of the string the cut is one of what follows it. -/
theorem cutAt_add (before text : Text) (byte : Nat) :
    cutAt (utf8Len before + byte) (before ++ text) =
      (cutAt byte text).map fun cut => (before ++ cut.1, cut.2) := by
  induction before with
  | nil =>
    rw [utf8Len_nil, Nat.zero_add, List.nil_append]
    cases cutAt byte text <;> rfl
  | cons c rest ih =>
    have hpos := c.utf8Size_pos
    obtain ⟨k, hk⟩ : ∃ k, utf8Len (c :: rest) + byte = k + 1 :=
      ⟨utf8Len (c :: rest) + byte - 1, by rw [utf8Len_cons]; omega⟩
    have hrest : k + 1 - c.utf8Size = utf8Len rest + byte := by
      rw [← hk, utf8Len_cons]
      omega
    have hsize : c.utf8Size ≤ k + 1 := by
      rw [← hk, utf8Len_cons]
      omega
    rw [hk, List.cons_append, cutAt, if_pos hsize, hrest, ih, Option.map_map]
    · rfl
    · intro hzero
      cases hzero

theorem cutAt_eq_some {byte : Nat} {text before after : Text} :
    cutAt byte text = some (before, after) ↔ text = before ++ after ∧ utf8Len before = byte := by
  refine ⟨fun h => ?_, fun ⟨htext, hbyte⟩ => by rw [htext, ← hbyte, cutAt_append]⟩
  induction text generalizing byte before with
  | nil =>
    cases byte with
    | zero => cases h; exact ⟨rfl, rfl⟩
    | succ byte => cases h
  | cons c rest ih =>
    cases byte with
    | zero => cases h; exact ⟨rfl, rfl⟩
    | succ byte =>
      rw [cutAt] at h
      · split_ifs at h with hsize
        obtain ⟨⟨before', after'⟩, hcut, heq⟩ := Option.map_eq_some_iff.mp h
        obtain ⟨rfl, rfl⟩ := Prod.mk.inj heq
        obtain ⟨rfl, hbyte⟩ := ih hcut
        refine ⟨rfl, ?_⟩
        rw [utf8Len_cons, hbyte]
        omega
      · intro hzero
        cases hzero

def pageReferenceChar : Char := '\ufffc'
def maxBlockTextBytes : Nat := 1048576

/-- The value of the page reference mark on a segment. -/
inductive MarkValue where
  | string (value : String)
  | other
  deriving Repr, DecidableEq

/-- A segment of the stored rich text, with its page reference mark. -/
inductive TextDelta where
  | insert (insert : Text) (mark : Option MarkValue)
  | retain
  | delete
  deriving Repr, DecidableEq

structure PageReferenceSpan where
  start : Nat
  stop : Nat
  index : Nat
  pageId : PageId
  deriving DecidableEq

inductive InlineContent where
  | markdown (value : Text)
  | pageReference (pageId : PageId)
  deriving DecidableEq

inductive InlineAtom where
  | text (value : Text)
  | pageReference (pageId : PageId)
  deriving DecidableEq

inductive PlannedBlockContent where
  | markdown (value : Text)
  | inline (atoms : List InlineAtom)
  deriving DecidableEq

inductive FragmentError where
  | invalidHierarchy (message : String)
  | textTooLong
  deriving Repr, DecidableEq

/-! ## Materializing a block -/

/-- The variables of `materialize_block_content`. -/
structure Materialized where
  markdown : Text := []
  references : List PageReferenceSpan := []
  content : List InlineContent := []
  plain : Text := []
  displayIndex : Nat := 0
  logicalIndex : Nat := 0
  quarantined : List String := []

namespace Materialized

/-- Pending plain text becomes one piece of content. -/
def flush (m : Materialized) : Materialized :=
  if m.plain.isEmpty then m
  else { m with content := m.content ++ [.markdown m.plain], plain := [] }

def pushPlain (m : Materialized) (c : Char) : Materialized :=
  { m with
    markdown := m.markdown ++ [c]
    plain := m.plain ++ [c]
    displayIndex := m.displayIndex + 1
    logicalIndex := m.logicalIndex + 1 }

def pushReference (m : Materialized) (pageId : PageId) (source : Text) : Materialized :=
  let m := m.flush
  { m with
    content := m.content ++ [.pageReference pageId]
    markdown := m.markdown ++ source
    references := m.references ++
      [⟨m.displayIndex, m.displayIndex + source.length, m.logicalIndex, pageId⟩]
    displayIndex := m.displayIndex + source.length
    logicalIndex := m.logicalIndex + 1 }

def quarantine (m : Materialized) (message : String) : Materialized :=
  { m with quarantined := m.quarantined ++ [message] }

end Materialized

/-- `[[title]]`, with the id where the page has no title. -/
def referenceSource (pageTitle : PageId → Option String) (pageId : PageId) : Text :=
  '[' :: '[' :: (((pageTitle pageId).getD pageId.asStr).toList ++ [']', ']'])

def markedPage (mark : Option MarkValue) : Option PageId :=
  match mark with
  | some (.string value) => (OpaqueString.new value).toOption
  | _ => none

def pushChar (pageTitle : PageId → Option String) (owner : String) (marked : Option PageId)
    (m : Materialized) (c : Char) : Materialized :=
  if c = pageReferenceChar then
    match marked with
    | some pageId => m.pushReference pageId (referenceSource pageTitle pageId)
    | none => (m.pushPlain '\ufffd').quarantine (owner ++ ":page-reference:invalid-atom")
  else m.pushPlain c

def pushSegment (pageTitle : PageId → Option String) (owner : String) (m : Materialized)
    (segment : TextDelta) : Materialized :=
  match segment with
  | .insert insert mark =>
    let m := if (markedPage mark).isSome && !insert.contains pageReferenceChar then
      m.quarantine (owner ++ ":page-reference:mark-without-atom") else m
    insert.foldl (pushChar pageTitle owner (markedPage mark)) m
  | _ => m.quarantine (owner ++ ":page-reference:invalid-delta")

def materializeBlockContent (segments : List TextDelta) (pageTitle : PageId → Option String)
    (owner : String) : Materialized :=
  (segments.foldl (pushSegment pageTitle owner) {}).flush

/-! ## Pasting a fragment -/

/-- The loop of `validate_fragment_page_references`. -/
def validateSpans (length : Nat) :
    List PageReferenceSpan → (previousEnd collapsed : Nat) → Except FragmentError Unit
  | [], _, _ => .ok ()
  | reference :: rest, previousEnd, collapsed =>
    if reference.start < previousEnd || reference.start ≥ reference.stop ||
        reference.stop > length || reference.index != reference.start - collapsed then
      .error (.invalidHierarchy "outline fragment contains an invalid inline page reference")
    else
      validateSpans length rest reference.stop
        (collapsed + (reference.stop - reference.start - 1))

def validateFragmentPageReferences (markdown : Text) (references : List PageReferenceSpan) :
    Except FragmentError Unit :=
  validateSpans markdown.length references 0 0

/-- `points[cursor..start]` as an atom, nothing when it is empty. -/
def textAtom (value : Text) : List InlineAtom :=
  if value.isEmpty then [] else [.text value]

/-- The loop over the references; a validated span never leaves `points`. -/
def collapse (pages : PageId → Option PageId) (points : Text) :
    List PageReferenceSpan → (cursor : Nat) → Except FragmentError (List InlineAtom)
  | [], cursor => .ok (textAtom (points.drop cursor))
  | reference :: rest, cursor =>
    match pages reference.pageId with
    | none => .error (.invalidHierarchy
        ("outline fragment page reference is missing: " ++ reference.pageId.asStr))
    | some pageId => do
      let atoms ← collapse pages points rest reference.stop
      return textAtom ((points.drop cursor).take (reference.start - cursor)) ++
        .pageReference pageId :: atoms

def InlineAtom.storedBytes : InlineAtom → Nat
  | .text value => utf8Len value
  | .pageReference _ => pageReferenceChar.utf8Size

/-- The content part of `resolve_fragment_item`. -/
def resolveFragmentContent (pages : PageId → Option PageId) (markdown : Text)
    (references : List PageReferenceSpan) : Except FragmentError PlannedBlockContent :=
  if references.isEmpty then .ok (.markdown markdown)
  else do
    let atoms ← collapse pages markdown references 0
    if (atoms.map InlineAtom.storedBytes).sum > maxBlockTextBytes then throw .textTooLong
    return .inline atoms

/-! ## What a text says -/

/-- One piece of a block text: a plain character or a page reference. -/
abbrev Piece := Char ⊕ PageId

/-- A segment that a checked document can hold: plain text without the reserved
character, or reserved characters marked with one page. -/
inductive TextDelta.Holds : TextDelta → List Piece → Prop where
  | plain (t : Text) (h : pageReferenceChar ∉ t) : Holds (.insert t none) (t.map .inl)
  | marked (n : Nat) (p : PageId) :
    Holds (.insert (List.replicate n pageReferenceChar) (some (.string p.asStr)))
      (List.replicate n (.inr p))

/-- The pieces of a text, segment by segment. -/
inductive Says : List TextDelta → List Piece → Prop where
  | nil : Says [] []
  | cons {segment : TextDelta} {segments : List TextDelta} {xs ys : List Piece}
    (first : segment.Holds xs) (rest : Says segments ys) : Says (segment :: segments) (xs ++ ys)

def InlineAtom.pieces : InlineAtom → List Piece
  | .text value => value.map .inl
  | .pageReference p => [.inr p]

def PlannedBlockContent.pieces : PlannedBlockContent → List Piece
  | .markdown value => value.map .inl
  | .inline atoms => atoms.flatMap InlineAtom.pieces

/-- The bytes of a text as stored, every reference being one character. -/
def storedBytes (xs : List Piece) : Nat :=
  (xs.map (Sum.elim Char.utf8Size fun _ => pageReferenceChar.utf8Size)).sum

/-! ## Expanding -/

section Expand
variable (pageTitle : PageId → Option String)

def display (xs : List Piece) : Text :=
  xs.flatMap (Sum.elim (fun c => [c]) (referenceSource pageTitle))

/-- The spans of the references when display and logical position start here. -/
def spans : (displayIndex logicalIndex : Nat) → List Piece → List PageReferenceSpan
  | _, _, [] => []
  | d, i, .inl _ :: xs => spans (d + 1) (i + 1) xs
  | d, i, .inr p :: xs =>
    let stop := d + (referenceSource pageTitle p).length
    ⟨d, stop, i, p⟩ :: spans stop (i + 1) xs

@[simp] theorem display_nil : display pageTitle [] = [] := rfl
@[simp] theorem display_inl (c : Char) (xs : List Piece) :
    display pageTitle (.inl c :: xs) = c :: display pageTitle xs := rfl
@[simp] theorem display_inr (p : PageId) (xs : List Piece) :
    display pageTitle (.inr p :: xs) = referenceSource pageTitle p ++ display pageTitle xs := rfl

theorem spans_append (d i : Nat) (xs ys : List Piece) :
    spans pageTitle d i (xs ++ ys) = spans pageTitle d i xs ++
      spans pageTitle (d + (display pageTitle xs).length) (i + xs.length) ys := by
  induction xs generalizing d i with
  | nil => simp [spans]
  | cons x xs ih =>
    cases x with
    | inl c =>
      have hd : d + 1 + (display pageTitle xs).length =
          d + (display pageTitle (.inl c :: xs)).length := by simp; omega
      have hi : i + 1 + xs.length = i + (Sum.inl c :: xs).length := by simp; omega
      rw [List.cons_append, spans, ih, spans, hd, hi]
    | inr p =>
      have hd : d + (referenceSource pageTitle p).length + (display pageTitle xs).length =
          d + (display pageTitle (.inr p :: xs)).length := by simp; omega
      have hi : i + 1 + xs.length = i + (Sum.inr p :: xs).length := by simp; omega
      rw [List.cons_append, spans, ih, spans, hd, hi, List.cons_append]

/-- The state of materialization after the pieces `xs`. -/
structure Expanded (xs : List Piece) (m : Materialized) : Prop where
  markdown : m.markdown = display pageTitle xs
  references : m.references = spans pageTitle 0 0 xs
  display : m.displayIndex = (display pageTitle xs).length
  logical : m.logicalIndex = xs.length

variable {pageTitle} {xs : List Piece} {m : Materialized}

theorem Expanded.flush (h : Expanded pageTitle xs m) : Expanded pageTitle xs m.flush := by
  unfold Materialized.flush
  split
  · exact h
  · exact ⟨h.markdown, h.references, h.display, h.logical⟩

theorem Expanded.pushPlain (h : Expanded pageTitle xs m) (c : Char) :
    Expanded pageTitle (xs ++ [.inl c]) (m.pushPlain c) where
  markdown := by simp [Materialized.pushPlain, h.markdown, Content.display]
  references := by simp [Materialized.pushPlain, h.references, spans_append, spans]
  display := by simp [Materialized.pushPlain, h.display, Content.display]
  logical := by simp [Materialized.pushPlain, h.logical]

theorem Expanded.pushReference (h : Expanded pageTitle xs m) (p : PageId) :
    Expanded pageTitle (xs ++ [.inr p]) (m.pushReference p (referenceSource pageTitle p)) where
  markdown := by simp [Materialized.pushReference, h.flush.markdown, Content.display]
  references := by
    simp [Materialized.pushReference, h.flush.references, h.flush.display, h.flush.logical,
      spans_append, spans]
  display := by simp [Materialized.pushReference, h.flush.display, Content.display]
  logical := by simp [Materialized.pushReference, h.flush.logical]

theorem Expanded.pushPlains (h : Expanded pageTitle xs m) {t : Text}
    (ht : pageReferenceChar ∉ t) (owner : String) :
    Expanded pageTitle (xs ++ t.map .inl) (t.foldl (pushChar pageTitle owner none) m) := by
  induction t generalizing xs m with
  | nil => simpa using h
  | cons c t ih =>
    rw [List.mem_cons, not_or] at ht
    have hc : pushChar pageTitle owner none m c = m.pushPlain c := if_neg (Ne.symm ht.1)
    rw [List.foldl_cons, hc, List.map_cons, List.append_cons]
    exact ih (h.pushPlain c) ht.2

theorem Expanded.pushReferences (h : Expanded pageTitle xs m) (n : Nat) (p : PageId)
    (owner : String) :
    Expanded pageTitle (xs ++ List.replicate n (.inr p))
      ((List.replicate n pageReferenceChar).foldl (pushChar pageTitle owner (some p)) m) := by
  induction n generalizing xs m with
  | zero => simpa using h
  | succ n ih =>
    rw [List.replicate_succ, List.replicate_succ, List.foldl_cons, List.append_cons]
    exact ih (h.pushReference p)

theorem Expanded.pushSegment (h : Expanded pageTitle xs m) {segment : TextDelta}
    {ys : List Piece} (hs : segment.Holds ys) (owner : String) :
    Expanded pageTitle (xs ++ ys) (pushSegment pageTitle owner m segment) := by
  cases hs with
  | plain t ht => exact h.pushPlains ht owner
  | marked n p =>
    have hm : markedPage (some (.string p.asStr)) = some p := by
      rw [markedPage, p.new_asStr]; rfl
    unfold Content.pushSegment
    simp only [hm]
    refine Expanded.pushReferences ?_ n p owner
    split
    · exact ⟨h.markdown, h.references, h.display, h.logical⟩
    · exact h

theorem expanded_materialize {segments : List TextDelta} {xs : List Piece}
    (h : Says segments xs) (owner : String) :
    Expanded pageTitle xs (materializeBlockContent segments pageTitle owner) := by
  have key : ∀ {ys : List Piece} {m : Materialized}, Expanded pageTitle ys m →
      Expanded pageTitle (ys ++ xs) (segments.foldl (pushSegment pageTitle owner) m) := by
    induction h with
    | nil =>
      intro ys m hm
      simpa using hm
    | cons first _ ih =>
      intro ys m hm
      rw [List.foldl_cons, ← List.append_assoc]
      exact ih (hm.pushSegment first owner)
  have hstart : Expanded pageTitle [] {} := ⟨rfl, rfl, rfl, rfl⟩
  exact (key hstart).flush

end Expand

/-! ## Collapsing -/

section Collapse
variable {pageTitle : PageId → Option String}

theorem validateSpans_spans (xs : List Piece) {d i length previousEnd collapsed : Nat}
    (hd : previousEnd ≤ d) (hi : d = i + collapsed)
    (hl : d + (display pageTitle xs).length ≤ length) :
    validateSpans length (spans pageTitle d i xs) previousEnd collapsed = .ok () := by
  induction xs generalizing d i previousEnd collapsed with
  | nil => rfl
  | cons x xs ih =>
    cases x with
    | inl c =>
      simp only [display_inl, List.length_cons] at hl
      exact ih (by omega) (by omega) (by omega)
    | inr p =>
      have hpos : 0 < (referenceSource pageTitle p).length := by simp [referenceSource]
      simp only [display_inr, List.length_append] at hl
      have hindex : (i != d - collapsed) = false := by simp; omega
      have h1 : ¬d < previousEnd := by omega
      have h2 : ¬d ≥ d + (referenceSource pageTitle p).length := by omega
      have h3 : ¬d + (referenceSource pageTitle p).length > length := by omega
      rw [spans, validateSpans]
      simp only [h1, h2, h3, hindex, decide_false, Bool.or_self, Bool.false_eq_true, ↓reduceIte]
      exact ih (by omega) (by omega) (by omega)

/-- The atoms of a text after the plain characters `pending`. -/
def merged : (pending : Text) → List Piece → List InlineAtom
  | pending, [] => textAtom pending
  | pending, .inl c :: xs => merged (pending ++ [c]) xs
  | pending, .inr p :: xs => textAtom pending ++ .pageReference p :: merged [] xs

theorem pieces_textAtom (t : Text) : (textAtom t).flatMap InlineAtom.pieces = t.map .inl := by
  cases t <;> simp [textAtom, InlineAtom.pieces]

theorem pieces_merged (pending : Text) (xs : List Piece) :
    (merged pending xs).flatMap InlineAtom.pieces = pending.map .inl ++ xs := by
  induction xs generalizing pending with
  | nil => simp [merged, pieces_textAtom]
  | cons x xs ih =>
    cases x with
    | inl c => simp [merged, ih]
    | inr p => simp [merged, ih, pieces_textAtom, InlineAtom.pieces]

theorem storedBytes_merged (pending : Text) (xs : List Piece) :
    ((merged pending xs).map InlineAtom.storedBytes).sum = utf8Len pending + storedBytes xs := by
  have ht : ∀ t, ((textAtom t).map InlineAtom.storedBytes).sum = utf8Len t := fun t => by
    cases t <;> simp [textAtom, InlineAtom.storedBytes, utf8Len]
  induction xs generalizing pending with
  | nil => simp [merged, ht, storedBytes]
  | cons x xs ih =>
    cases x with
    | inl c =>
      rw [merged, ih]
      simp [utf8Len, storedBytes, Nat.add_assoc]
    | inr p =>
      rw [merged, List.map_append, List.sum_append, ht, List.map_cons, List.sum_cons, ih]
      simp [InlineAtom.storedBytes, storedBytes, utf8Len]

/-- Collapsing the spans of a text undoes its expansion: `points` continues at
the cursor with the pending plain text and then the display of the rest. -/
theorem collapse_spans (xs : List Piece) {points pending : Text} {cursor d i : Nat}
    (hp : points.drop cursor = pending ++ display pageTitle xs) (hd : d = cursor + pending.length) :
    collapse some points (spans pageTitle d i xs) cursor = .ok (merged pending xs) := by
  induction xs generalizing pending cursor d i with
  | nil =>
    rw [display_nil, List.append_nil] at hp
    rw [spans, collapse, hp, merged]
  | cons x xs ih =>
    cases x with
    | inl c =>
      rw [display_inl, List.append_cons] at hp
      exact ih hp (by simp; omega)
    | inr p =>
      have htake : (points.drop cursor).take (d - cursor) = pending := by
        rw [hp, hd, Nat.add_sub_cancel_left, List.take_left']
        rfl
      have hrest : points.drop (d + (referenceSource pageTitle p).length) =
          [] ++ display pageTitle xs := by
        rw [hd, Nat.add_assoc, ← List.drop_drop, hp, display_inr, List.nil_append]
        simp [List.drop_append]
      have hi : collapse some points
          (spans pageTitle (d + (referenceSource pageTitle p).length) (i + 1) xs)
          (d + (referenceSource pageTitle p).length) = .ok (merged [] xs) := ih hrest rfl
      rw [spans, collapse]
      simp only [htake, hi, merged, bind, Except.bind]
      rfl

theorem spans_eq_nil_iff {xs : List Piece} {d i : Nat} :
    spans pageTitle d i xs = [] ↔ ∀ p, .inr p ∉ xs := by
  induction xs generalizing d i with
  | nil => simp [spans]
  | cons x xs ih =>
    cases x with
    | inl c => simp [spans, ih]
    | inr p => exact iff_of_false (by simp [spans]) fun h => h p (List.mem_cons_self ..)

theorem display_plain {xs : List Piece} (h : ∀ p, .inr p ∉ xs) :
    (display pageTitle xs).map .inl = xs := by
  induction xs with
  | nil => rfl
  | cons x xs ih =>
    cases x with
    | inl c => rw [display_inl, List.map_cons, ih fun p hp => h p (List.mem_cons_of_mem _ hp)]
    | inr p => exact absurd (List.mem_cons_self ..) (h p)

theorem resolve_plain {xs : List Piece} (h : ∀ p, .inr p ∉ xs) :
    resolveFragmentContent some (display pageTitle xs) (spans pageTitle 0 0 xs) =
      .ok (.markdown (display pageTitle xs)) := by
  unfold resolveFragmentContent
  rw [spans_eq_nil_iff.mpr h]
  rfl

/-- A text with references is pasted atom by atom, unless it is too long. -/
theorem resolve_marked {xs : List Piece} (h : ∃ p, .inr p ∈ xs) :
    resolveFragmentContent some (display pageTitle xs) (spans pageTitle 0 0 xs) =
      if storedBytes xs > maxBlockTextBytes then .error .textTooLong
      else .ok (.inline (merged [] xs)) := by
  obtain ⟨p, hp⟩ := h
  have he : (spans pageTitle 0 0 xs).isEmpty = false := by
    simpa using fun hs => spans_eq_nil_iff.mp hs p hp
  have hc : collapse some (display pageTitle xs) (spans pageTitle 0 0 xs) 0 =
      .ok (merged [] xs) := collapse_spans xs rfl rfl
  have hb : ((merged [] xs).map InlineAtom.storedBytes).sum = storedBytes xs := by
    rw [storedBytes_merged]; simp [utf8Len]
  unfold resolveFragmentContent
  simp only [he, hc, hb, bind, Except.bind, Bool.false_eq_true, ↓reduceIte]
  split <;> rfl

end Collapse

/-! ## The round trip -/

/-- A text that a block can hold is accepted as a fragment, and resolving it with
every page kept gives back its pieces, or is refused for its length. -/
theorem fragment_round_trip {segments : List TextDelta} {xs : List Piece}
    (h : Says segments xs) (pageTitle : PageId → Option String) (owner : String) :
    let m := materializeBlockContent segments pageTitle owner
    validateFragmentPageReferences m.markdown m.references = .ok () ∧
    (((∃ p, .inr p ∈ xs) ∧ storedBytes xs > maxBlockTextBytes) →
      resolveFragmentContent some m.markdown m.references = .error .textTooLong) ∧
    (¬((∃ p, .inr p ∈ xs) ∧ storedBytes xs > maxBlockTextBytes) →
      ∃ planned, resolveFragmentContent some m.markdown m.references = .ok planned ∧
        planned.pieces = xs) := by
  intro m
  have hm : Expanded pageTitle xs m := expanded_materialize h owner
  rw [hm.markdown, hm.references]
  refine ⟨validateSpans_spans xs (Nat.le_refl 0) rfl (by omega), ?_, ?_⟩
  · rintro ⟨hp, hlong⟩
    rw [resolve_marked hp, if_pos hlong]
  · intro hshort
    by_cases hp : ∃ p, .inr p ∈ xs
    · rw [resolve_marked hp, if_neg fun hlong => hshort ⟨hp, hlong⟩]
      exact ⟨_, rfl, pieces_merged [] xs⟩
    · have hn : ∀ p, .inr p ∉ xs := fun p hm => hp ⟨p, hm⟩
      rw [resolve_plain hn]
      exact ⟨_, rfl, display_plain hn⟩

/-- A page to refer to in examples. -/
def samplePage : PageId := ⟨"page-1", by decide⟩

/-- Text around two adjacent references, the first of them at the very start. -/
theorem fragment_round_trip_sample :
    let m := materializeBlockContent
      [.insert [pageReferenceChar, pageReferenceChar] (some (.string "page-1")),
        .insert ['a', ']'] none] (fun _ => some "[x") "block"
    validateFragmentPageReferences m.markdown m.references = .ok () ∧
    ∃ planned, resolveFragmentContent some m.markdown m.references = .ok planned ∧
      planned.pieces = [.inr samplePage, .inr samplePage, .inl 'a', .inl ']'] := by
  have hs : Says [.insert [pageReferenceChar, pageReferenceChar] (some (.string "page-1")),
      .insert ['a', ']'] none] [.inr samplePage, .inr samplePage, .inl 'a', .inl ']'] :=
    .cons (.marked 2 samplePage) (.cons (.plain ['a', ']'] (by decide)) .nil)
  obtain ⟨hv, _, hr⟩ := fragment_round_trip hs (fun _ => some "[x") "block"
  exact ⟨hv, hr fun h => absurd h.2 (by decide)⟩

/-- `n` plain characters and then one reference. -/
def longSegments (n : Nat) : List TextDelta :=
  [.insert (List.replicate n 'a') none,
    .insert (List.replicate 1 pageReferenceChar) (some (.string samplePage.asStr))]

def longPieces (n : Nat) : List Piece :=
  (List.replicate n 'a').map .inl ++ ([.inr samplePage] ++ [])

theorem says_long (n : Nat) : Says (longSegments n) (longPieces n) := by
  have hp : pageReferenceChar ∉ List.replicate n 'a' := fun h =>
    absurd (List.eq_of_mem_replicate h) (by decide)
  exact .cons (.plain _ hp) (.cons (.marked 1 samplePage) .nil)

theorem resolve_long {n : Nat} (hn : maxBlockTextBytes ≤ n)
    (pageTitle : PageId → Option String) (owner : String) :
    let m := materializeBlockContent (longSegments n) pageTitle owner
    resolveFragmentContent some m.markdown m.references = .error .textTooLong := by
  intro m
  have hm : Expanded pageTitle (longPieces n) m := expanded_materialize (says_long n) owner
  have hlong : storedBytes (longPieces n) = n + 3 := by
    simp [storedBytes, longPieces, Char.utf8Size, pageReferenceChar]
  rw [hm.markdown, hm.references, resolve_marked ⟨samplePage, by simp [longPieces]⟩,
    if_pos (by omega)]

/-- A mebibyte of text and one reference materialize, and are refused again. -/
theorem fragment_round_trip_long :
    ¬∀ segments xs, Says segments xs → ∀ (pageTitle : PageId → Option String) (owner : String),
      let m := materializeBlockContent segments pageTitle owner
      validateFragmentPageReferences m.markdown m.references = .ok () ∧
        ∃ planned, resolveFragmentContent some m.markdown m.references = .ok planned ∧
          planned.pieces = xs := by
  intro hall
  have hlong : ∃ n, maxBlockTextBytes ≤ n := ⟨_, Nat.le_refl _⟩
  obtain ⟨n, hn⟩ := hlong
  obtain ⟨_, planned, hr, _⟩ := hall _ _ (says_long n) (fun _ => none) ""
  have hl := resolve_long hn (fun _ => none) ""
  simp only [hl] at hr
  cases hr

end Neoseq.Content
