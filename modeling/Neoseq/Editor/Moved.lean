import Neoseq.Editor.Target

/-! What becomes of a draft that is moved onto another content: where each atom it shows was
shown before. -/

namespace Neoseq.Editor
open Content (InlineContent)

/-- A draft was moved onto a content, through the changes that were announced where they lead
there from its source, and through a diff otherwise. Of each atom that is shown now `places`
has the place it was shown at before. -/
def Moved (announced : List ContentRangeChange) (before : ContentBuffer)
    (content : List ContentAtom) (after : ContentBuffer) (places : Origins) : Prop :=
  ∃ mapping origins changes marks,
    (mapping = announced ∨ mapping = diffContent before.source content) ∧
    Turns before.source mapping content origins ∧
    Rebased before content origins after changes marks ∧
    places = marks.map (draftMarks before).idxOf?

variable {before after : ContentBuffer} {content : List ContentAtom}
  {announced : List ContentRangeChange} {places : Origins}

theorem Moved.traces (h : Moved announced before content after places) :
    Origins.Traces (bufferAtoms before).length places := by
  obtain ⟨mapping, origins, changes, marks, -, -, hrebased, rfl⟩ := h
  exact (Origins.mapped_of_changes (Origins.mapped_nil _) hrebased.mapping).traces

theorem Moved.length (h : Moved announced before content after places) :
    places.length = (bufferAtoms after).length := by
  obtain ⟨mapping, origins, changes, marks, -, -, hrebased, rfl⟩ := h
  rw [hrebased.atoms, List.length_map, List.length_map]

/-- What is shown at a place is what was shown at the place it had. -/
theorem Moved.same (h : Moved announced before content after places)
    (hinc : Increasing before.source.length 0 before.pieces) {place origin : Nat}
    (hplace : places[place]? = some (some origin)) :
    (bufferAtoms after)[place]? = (bufferAtoms before)[origin]? := by
  obtain ⟨mapping, origins, changes, marks, -, -, hrebased, rfl⟩ := h
  rw [List.getElem?_map, Option.map_eq_some_iff] at hplace
  obtain ⟨mark, hmark, horigin⟩ := hplace
  obtain ⟨hlt, hget, _⟩ := List.idxOf?_eq_some_iff.mp horigin
  rw [hrebased.atoms, ← map_atom_draftMarks hinc, List.getElem?_map, List.getElem?_map, hmark,
    List.getElem?_eq_getElem hlt, hget]

theorem rebaseOnto_moved {mapping : Option (List ContentRangeChange)}
    {changes : List ContentRangeChange}
    (hinc : Increasing before.source.length 0 before.pieces) :
    rebaseOnto before (inlineContent content) mapping = .ok (after, changes) →
      after.source = content ∧ Increasing after.source.length 0 after.pieces ∧
        ∃ places, Moved (mapping.getD []) before content after places := by
  intro h
  -- the changes that were used lead to the content
  have hused : ∃ used origins, (used = mapping.getD [] ∨ used = diffContent before.source content) ∧
      Turns before.source used content origins ∧
      rebaseBuffer before (inlineContent content) used = some (after, changes) := by
    unfold rebaseOnto at h
    rw [contentAtoms_inlineContent] at h
    split at h
    · next mapped hmapped =>
      cases h
      obtain ⟨used, hused, hresult⟩ := Option.bind_eq_some_iff.mp hmapped
      obtain ⟨origins, hturns⟩ := rebaseBuffer_turns hresult
      rw [contentAtoms_inlineContent] at hturns
      exact ⟨used, origins, .inl (by rw [hused]; rfl), hturns, hresult⟩
    · split at h
      · next diffed hdiffed =>
        cases h
        obtain ⟨origins, hturns⟩ := rebaseBuffer_turns hdiffed
        rw [contentAtoms_inlineContent] at hturns
        exact ⟨_, origins, .inr rfl, hturns, hdiffed⟩
      · cases h
  obtain ⟨used, origins, hannounced, hturns, hresult⟩ := hused
  obtain ⟨rebased, changes', marks, hrebased, hspec⟩ := rebaseBuffer_rebased before
    (inlineContent content) used origins hinc (by rwa [contentAtoms_inlineContent])
  rw [hresult] at hrebased
  cases hrebased
  rw [contentAtoms_inlineContent] at hspec
  obtain ⟨hsource, hincreasing⟩ := rebaseBuffer_some hresult
  rw [contentAtoms_inlineContent] at hsource
  exact ⟨hsource, hincreasing, _, used, origins, changes, marks, hannounced, hturns, hspec, rfl⟩

/-! ## The marks of a draft and of a content -/

theorem mem_draftMarks {mark : Mark} (h : mark ∈ draftMarks before) :
    (∃ index atom, mark = .source index atom ∧ index < before.source.length) ∨
      ∃ number atom, mark = .typed number atom := by
  have hmarks (number : Nat) (pieces : List Piece)
      (h : mark ∈ marksFrom before.source number pieces) :
      (∃ index atom, mark = .source index atom ∧ index < before.source.length) ∨
        ∃ number atom, mark = .typed number atom := by
    induction pieces generalizing number with
    | nil => cases h
    | cons piece pieces ih =>
      cases piece with
      | insert atoms =>
        rcases List.mem_append.mp h with h | h
        · exact .inr (mem_typedMarks h)
        · exact ih _ h
      | source start stop =>
        rcases List.mem_append.mp h with h | h
        · obtain ⟨index, -, hmark⟩ := List.mem_filterMap.mp h
          obtain ⟨atom, hatom, rfl⟩ := Option.map_eq_some_iff.mp hmark
          exact .inl ⟨index, atom, rfl, (List.getElem?_eq_some_iff.mp hatom).1⟩
        · exact ih _ h
  exact hmarks 0 _ h

theorem map_atom_contentMarks {origins : Origins} (h : origins.length = content.length) :
    (contentMarks origins content).map Mark.atom = content := by
  unfold contentMarks
  rw [List.map_filterMap]
  have hatom : ∀ i ∈ List.range content.length,
      (contentMark origins content i).map Mark.atom = content[i]? := by
    intro i hi
    rw [List.mem_range] at hi
    have hplace : i < origins.length := h ▸ hi
    unfold contentMark
    rw [List.getElem?_eq_getElem hi, List.getElem?_eq_getElem hplace]
    cases origins[i] <;> rfl
  rw [List.filterMap_congr hatom, List.range_eq_range', List.filterMap_eq_flatMap_toList]
  have hall := slice_eq_cells content 0 content.length
  rw [List.take_length, List.drop_zero] at hall
  exact hall.symm

theorem contentMark_not_remote {length : Nat} {mark : Mark}
    (h : mark ∈ contentMarks (Origins.identity length) content) : mark.isRemote = false := by
  obtain ⟨index, -, hmark⟩ := List.mem_filterMap.mp h
  unfold contentMark at hmark
  split at hmark
  · cases hmark
    rfl
  · next atom hnone hatom =>
    obtain ⟨origin, -, horigin⟩ := List.mem_map.mp (List.mem_of_getElem? hnone)
    cases horigin
  · cases hmark

/-! ## Moves that show the same -/

/-- A draft whose source stays in place shows what it showed. -/
theorem Rebased.atoms_identity {changes : List ContentRangeChange} {marks : List Mark}
    (hinc : Increasing before.source.length 0 before.pieces)
    (h : Rebased before content (Origins.identity before.source.length) after changes marks) :
    bufferAtoms after = bufferAtoms before := by
  have hremote : ∀ mark ∈ marks, mark.isRemote = false := by
    intro mark hmark
    cases mark with
    | source index atom => rfl
    | typed number atom => rfl
    | remote index atom =>
      have hmem : Mark.remote index atom ∈ marks.filter fun m => !m.isTyped :=
        List.mem_filter.mpr ⟨hmark, rfl⟩
      rw [h.content] at hmem
      exact contentMark_not_remote (List.mem_of_mem_filter hmem)
  have hmarks : marks.filter (fun m => !m.isRemote) = marks :=
    List.filter_eq_self.mpr fun mark hmark => by rw [hremote mark hmark]; rfl
  have hdraft : (draftMarks before).filter (Mark.sourceIn fun i =>
      decide (some i ∈ Origins.identity before.source.length)) = draftMarks before := by
    refine List.filter_eq_self.mpr fun mark hmark => ?_
    rcases mem_draftMarks hmark with ⟨index, atom, rfl, hlt⟩ | ⟨number, atom, rfl⟩
    · refine decide_eq_true ?_
      exact List.mem_map.mpr ⟨index, List.mem_range.mpr hlt, rfl⟩
    · rfl
  rw [h.atoms, ← hmarks, h.draft, hdraft, map_atom_draftMarks hinc]

theorem canonicalBuffer_source (canonical : List ContentAtom) :
    (canonicalBuffer canonical).source = canonical :=
  contentAtoms_inlineContent canonical

theorem bufferAtoms_canonical (canonical : List ContentAtom) :
    bufferAtoms (canonicalBuffer canonical) = canonical := by
  unfold canonicalBuffer
  rw [bufferAtoms_create, contentAtoms_inlineContent]

/-- Nothing is typed in a content without a draft, and all of it is shown. -/
theorem canonicalBuffer_pieces (canonical : List ContentAtom) :
    (∀ mark ∈ draftMarks (canonicalBuffer canonical), mark.isTyped = false) ∧
      ∀ index, index < canonical.length → shown (canonicalBuffer canonical).pieces index = true := by
  have hpieces : (canonicalBuffer canonical).pieces =
      if canonical.length = 0 then [] else [.source 0 canonical.length] := by
    unfold canonicalBuffer createContentBuffer
    rw [contentAtoms_inlineContent]
  unfold draftMarks
  rw [hpieces]
  split_ifs with hempty
  · exact ⟨nofun, fun index hlt => absurd hlt (by omega)⟩
  · refine ⟨fun mark hmark => ?_, fun index hlt => ?_⟩
    · rcases List.mem_append.mp hmark with h | h
      · obtain ⟨index, -, hsource⟩ := List.mem_filterMap.mp h
        obtain ⟨atom, -, rfl⟩ := Option.map_eq_some_iff.mp hsource
        rfl
      · cases h
    · exact List.any_eq_true.mpr ⟨_, List.mem_singleton_self _,
        decide_eq_true ⟨Nat.zero_le index, hlt⟩⟩

/-- A content without a draft is moved like a draft that nothing was typed in. -/
theorem moved_canonical (announced : List ContentRangeChange)
    (canonical content : List ContentAtom) :
    ∃ places, Moved announced (canonicalBuffer canonical) content (canonicalBuffer content)
      places := by
  have hinc : Increasing (canonicalBuffer canonical).source.length 0
      (canonicalBuffer canonical).pieces := increasing_create _
  have hturns := turns_diffContent (canonicalBuffer canonical).source content
  obtain ⟨rebased, changes, marks, -, h⟩ := rebaseBuffer_rebased (canonicalBuffer canonical)
    (inlineContent content) _ _ hinc (by rw [contentAtoms_inlineContent]; exact hturns)
  rw [contentAtoms_inlineContent] at h
  obtain ⟨hnone, hshown⟩ := canonicalBuffer_pieces canonical
  have htyped : ∀ mark ∈ marks, mark.isTyped = false := by
    intro mark hmark
    cases mark with
    | source index atom => rfl
    | remote index atom => rfl
    | typed number atom =>
      have hmem : Mark.typed number atom ∈ marks.filter fun m => !m.isRemote :=
        List.mem_filter.mpr ⟨hmark, rfl⟩
      rw [h.draft] at hmem
      exact hnone _ (List.mem_of_mem_filter hmem)
  have hmarks : marks.filter (fun m => !m.isTyped) = marks :=
    List.filter_eq_self.mpr fun mark hmark => by rw [htyped mark hmark]; rfl
  have hcontent : (contentMarks (diffOrigins (canonicalBuffer canonical).source content)
      content).filter (Mark.sourceIn (shown (canonicalBuffer canonical).pieces)) =
      contentMarks (diffOrigins (canonicalBuffer canonical).source content) content := by
    refine List.filter_eq_self.mpr fun mark hmark => ?_
    obtain ⟨index, -, hmark⟩ := List.mem_filterMap.mp hmark
    unfold contentMark at hmark
    split at hmark
    · next origin atom horigin hatom =>
      cases hmark
      have hsame := hturns.same index origin horigin
      rw [hatom, canonicalBuffer_source] at hsame
      exact hshown origin (List.getElem?_eq_some_iff.mp hsame).1
    · cases hmark
      rfl
    · cases hmark
  refine ⟨_, _, _, changes, marks, .inr rfl, hturns, ?_, rfl⟩
  refine { h with source := canonicalBuffer_source content, atoms := ?_ }
  rw [bufferAtoms_canonical, ← hmarks, h.content, hcontent, map_atom_contentMarks hturns.length]

end Neoseq.Editor
