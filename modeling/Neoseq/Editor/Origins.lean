import Neoseq.Editor.Buffer

/-! What changes do to the places of atoms: positions stay between the atoms they were
between, and the changes read off a list of places lead to that list. -/

namespace Neoseq.Editor

namespace Origins

/-- The places that are left are ascending and of the content before. -/
def Traces (length : Nat) (origins : Origins) : Prop :=
  (origins.filterMap id).Sublist (List.range length)

theorem traces_identity (length : Nat) : Traces length (identity length) := by
  unfold Traces identity
  rw [List.filterMap_map, show id ∘ some = (some : Nat → Option Nat) from rfl, List.filterMap_some]

theorem change_eq_some {origins origins' : Origins} {change : ContentRangeChange} :
    origins.change change = some origins' ↔
      change.index + change.delete ≤ origins.length ∧
        origins' = origins.take change.index ++ List.replicate change.insert none ++
          origins.drop (change.index + change.delete) := by
  unfold Origins.change
  by_cases h : origins.length < change.index + change.delete
  · rw [if_pos h]
    exact ⟨nofun, fun h' => absurd h'.1 (by omega)⟩
  · rw [if_neg h]
    exact ⟨fun h' => ⟨by omega, (Option.some.inj h').symm⟩, fun h' => congrArg some h'.2.symm⟩

theorem Traces.change {length : Nat} {origins origins' : Origins} {change : ContentRangeChange}
    (h : Traces length origins) (hchange : origins.change change = some origins') :
    Traces length origins' := by
  obtain ⟨_, rfl⟩ := change_eq_some.mp hchange
  refine List.Sublist.trans ?_ h
  have hnone : (List.replicate change.insert (none : Option Nat)).filterMap id = [] :=
    List.filterMap_eq_nil_iff.mpr fun o ho => List.eq_of_mem_replicate ho
  rw [List.filterMap_append, List.filterMap_append, hnone, List.append_nil]
  -- what is cut out lies between the two parts
  conv_rhs => rw [← List.take_append_drop change.index origins, List.filterMap_append]
  refine List.Sublist.append_left (List.Sublist.filterMap id ?_) _
  rw [← List.drop_drop]
  exact List.drop_sublist _ _

theorem Traces.lt {length : Nat} {origins : Origins} (h : Traces length origins) {i : Nat}
    (hi : some i ∈ origins) : i < length :=
  List.mem_range.mp (h.subset (List.mem_filterMap.mpr ⟨some i, hi, rfl⟩))

theorem Traces.pairwise {length : Nat} {origins : Origins} (h : Traces length origins) :
    origins.Pairwise fun a b => ∀ i ∈ a, ∀ j ∈ b, i < j :=
  List.pairwise_filterMap.mp (List.pairwise_lt_range.sublist h)

/-- Later atoms come from later places. -/
theorem Traces.ascending {length : Nat} {origins : Origins} (h : Traces length origins)
    {j k a b : Nat} (ha : origins[j]? = some (some a)) (hb : origins[k]? = some (some b))
    (hjk : j < k) : a < b := by
  obtain ⟨hj, hja⟩ := List.getElem?_eq_some_iff.mp ha
  obtain ⟨hk, hkb⟩ := List.getElem?_eq_some_iff.mp hb
  exact List.pairwise_iff_getElem.mp h.pairwise j k hj hk hjk a hja b hkb

/-! ## Positions -/

/-- The atoms from places before `p` are those before `q`. -/
def Splits (origins : Origins) (p q : Nat) : Prop :=
  ∀ j i, origins[j]? = some (some i) → (i < p ↔ j < q)

theorem splits_identity (length p : Nat) : (identity length).Splits p p := by
  intro j i h
  unfold identity at h
  rw [List.getElem?_map, Option.map_eq_some_iff] at h
  obtain ⟨k, hk, hki⟩ := h
  obtain ⟨_, hk⟩ := List.getElem?_eq_some_iff.mp hk
  rw [List.getElem_range] at hk
  obtain rfl := Option.some.inj hki
  rw [hk]

theorem splits_zero (origins : Origins) : origins.Splits 0 0 := fun _ _ _ => by omega

theorem Traces.splits_last {length q : Nat} {origins : Origins} (h : Traces length origins)
    (hq : origins.length ≤ q) : origins.Splits length q := by
  intro j i hj
  obtain ⟨hlt, hji⟩ := List.getElem?_eq_some_iff.mp hj
  exact iff_of_true (h.lt (hji ▸ List.getElem_mem hlt)) (hlt.trans_le hq)

theorem change_getElem? {origins origins' : Origins} {change : ContentRangeChange}
    (h : origins.change change = some origins') (j : Nat) :
    origins'[j]? =
      if j < change.index then origins[j]?
      else if j < change.index + change.insert then some none
      else origins[j - change.insert + change.delete]? := by
  obtain ⟨hle, rfl⟩ := change_eq_some.mp h
  have htake : (origins.take change.index).length = change.index := by
    rw [List.length_take]
    omega
  rw [List.append_assoc]
  split_ifs with hbefore hwithin
  · rw [List.getElem?_append_left (by omega), List.getElem?_take, if_pos hbefore]
  · rw [List.getElem?_append_right (by omega), htake, List.getElem?_append_left
      (by rw [List.length_replicate]; omega), List.getElem?_replicate, if_pos (by omega)]
  · rw [List.getElem?_append_right (by omega), htake, List.getElem?_append_right
      (by rw [List.length_replicate]; omega), List.length_replicate, List.getElem?_drop]
    congr 1
    omega

theorem mapContentChange_after (p : Nat) (change : ContentRangeChange) :
    mapContentChange .after p change =
      if p < change.index then p
      else if change.index + change.delete ≤ p then p + change.insert - change.delete
      else change.index + change.insert := by
  simp [mapContentChange]

theorem Splits.change {origins origins' : Origins} {p q : Nat} {change : ContentRangeChange}
    (h : origins.Splits p q) (hchange : origins.change change = some origins') :
    origins'.Splits p (mapContentChange .after q change) := by
  intro j i hj
  rw [change_getElem? hchange] at hj
  rw [mapContentChange_after]
  split_ifs at hj with hbefore hwithin
  · -- an atom before the change
    have h := h j i hj
    split_ifs <;> omega
  · cases hj
  · -- an atom after the change
    have h := h _ i hj
    split_ifs <;> omega

theorem mapContentChange_mono (change : ContentRangeChange) :
    Monotone fun p => mapContentChange .after p change := by
  intro p q hpq
  show mapContentChange .after p change ≤ mapContentChange .after q change
  rw [mapContentChange_after, mapContentChange_after]
  split_ifs <;> omega

theorem mapContentChange_le {origins origins' : Origins} {change : ContentRangeChange}
    (hchange : origins.change change = some origins') {p : Nat} (hp : p ≤ origins.length) :
    mapContentChange .after p change ≤ origins'.length := by
  obtain ⟨hle, rfl⟩ := change_eq_some.mp hchange
  rw [mapContentChange_after, List.length_append, List.length_append, List.length_take,
    List.length_replicate, List.length_drop]
  split_ifs <;> omega

/-- What a valid mapping does to the places of the atoms and to positions. -/
structure Mapped (length : Nat) (mapping : List ContentRangeChange) (origins : Origins) : Prop where
  traces : Traces length origins
  splits : ∀ p, p ≤ length → origins.Splits p (mapContentPosition .after p mapping)
  mono : Monotone fun p => mapContentPosition .after p mapping
  le : ∀ p, p ≤ length → mapContentPosition .after p mapping ≤ origins.length

theorem mapped_nil (length : Nat) : Mapped length [] (identity length) where
  traces := traces_identity length
  splits p _ := splits_identity length p
  mono _ _ h := h
  le p hp := by
    unfold identity
    rw [List.length_map, List.length_range]
    exact hp

theorem Mapped.change {length : Nat} {mapping : List ContentRangeChange}
    {origins origins' : Origins} (h : Mapped length mapping origins) {change : ContentRangeChange}
    (hchange : origins.change change = some origins') :
    Mapped length (mapping ++ [change]) origins' := by
  have hmap (p : Nat) : mapContentPosition .after p (mapping ++ [change]) =
      mapContentChange .after (mapContentPosition .after p mapping) change := by
    unfold mapContentPosition
    rw [List.foldl_append]
    rfl
  constructor
  · exact h.traces.change hchange
  · intro p hp
    rw [hmap]
    exact (h.splits p hp).change hchange
  · intro p q hpq
    show mapContentPosition .after p _ ≤ mapContentPosition .after q _
    rw [hmap, hmap]
    exact mapContentChange_mono change (h.mono hpq)
  · intro p hp
    rw [hmap]
    exact mapContentChange_le hchange (h.le p hp)

theorem mapped_of_changes {length : Nat} {mapping done : List ContentRangeChange}
    {origins origins' : Origins} (h : Mapped length done origins)
    (hchanges : origins.changes mapping = some origins') :
    Mapped length (done ++ mapping) origins' := by
  induction mapping generalizing done origins with
  | nil =>
    obtain rfl := Option.some.inj hchanges
    rw [List.append_nil]
    exact h
  | cons change mapping ih =>
    unfold Origins.changes at hchanges
    rw [List.foldlM_cons, Option.bind_eq_bind, Option.bind_eq_some_iff] at hchanges
    obtain ⟨next, hnext, hrest⟩ := hchanges
    have h := ih (h.change hnext) hrest
    rwa [List.append_assoc] at h

/-- The places between two positions are those of the source between their counterparts. -/
theorem segment_eq {length : Nat} {origins : Origins} (h : Traces length origins) {p q p' q' : Nat}
    (hp : origins.Splits p p') (hq : origins.Splits q q') :
    (List.range' p' (q' - p')).filterMap (fun j => (origins[j]?).join) =
      (List.range' p (q - p)).filter fun i => decide (some i ∈ origins) := by
  have hleft : ((List.range' p' (q' - p')).filterMap
      (fun j => (origins[j]?).join)).Pairwise (· < ·) := by
    refine List.pairwise_filterMap.mpr ((List.pairwise_lt_range' 1 Nat.one_pos).imp ?_)
    intro j k hjk a ha b hb
    exact h.ascending (Option.join_eq_some_iff.mp ha) (Option.join_eq_some_iff.mp hb) hjk
  have hright : ((List.range' p (q - p)).filter
      fun i => decide (some i ∈ origins)).Pairwise (· < ·) :=
    (List.pairwise_lt_range' 1 Nat.one_pos).sublist List.filter_sublist
  refine hleft.eq_of_mem_iff hright fun {i} => ?_
  rw [List.mem_filterMap, List.mem_filter, decide_eq_true_iff]
  constructor
  · rintro ⟨j, hj, hji⟩
    have hji := Option.join_eq_some_iff.mp hji
    have hrange := List.mem_range'_1.mp hj
    have hlow := hp j i hji
    have hhigh := hq j i hji
    exact ⟨List.mem_range'_1.mpr (by omega), List.mem_of_getElem? hji⟩
  · rintro ⟨hi, hmem⟩
    obtain ⟨j, hj, hji⟩ := List.getElem_of_mem hmem
    have hji : origins[j]? = some (some i) := List.getElem?_eq_some_iff.mpr ⟨hj, hji⟩
    have hrange := List.mem_range'_1.mp hi
    have hlow := hp j i hji
    have hhigh := hq j i hji
    exact ⟨j, List.mem_range'_1.mpr (by omega), Option.join_eq_some_iff.mpr hji⟩

/-! ## Reading the changes off -/

/-- The changes so far lead to the places that were read, all but the last new ones, and
then the rest of the content. -/
structure Scanned (length : Nat) (origins : Origins) (scan : OriginScan) (done : Origins) :
    Prop where
  read : origins = done ++ List.replicate scan.insert none
  cursor : scan.cursor ≤ length
  last : scan.cursor = 0 ∨ some (scan.cursor - 1) ∈ origins
  index : (done.length : Int) = scan.cursor + scan.delta
  leads : (identity length).changes scan.changes =
    some (done ++ (List.range' scan.cursor (length - scan.cursor)).map some)

theorem changes_append (origins : Origins) (mapping mapping' : List ContentRangeChange) :
    origins.changes (mapping ++ mapping') =
      (origins.changes mapping).bind fun o => o.changes mapping' :=
  List.foldlM_append

/-- Emitting up to a position brings in what is pending and drops what was skipped. -/
theorem Scanned.emit {length : Nat} {origins done : Origins} {scan : OriginScan}
    (h : Scanned length origins scan done) {stop : Nat} (hcursor : scan.cursor ≤ stop)
    (hstop : stop ≤ length) :
    (identity length).changes (scan.emit stop).changes =
        some (origins ++ (List.range' stop (length - stop)).map some) ∧
      (scan.emit stop).insert = 0 ∧ (origins.length : Int) = stop + (scan.emit stop).delta := by
  have hindex := h.index
  have hlength : origins.length = done.length + scan.insert := by
    rw [h.read, List.length_append, List.length_replicate]
  unfold OriginScan.emit
  by_cases hemit : scan.cursor < stop ∨ 0 < scan.insert
  · rw [if_pos hemit]
    refine ⟨?_, rfl, ?_⟩
    · have hplace : (scan.cursor + scan.delta).toNat = done.length := by omega
      show (identity length).changes (scan.changes ++ [_]) = _
      rw [changes_append, h.leads, Option.bind_some, hplace]
      -- the segment up to the position is cut out of the rest
      have hrest : (List.range' scan.cursor (length - scan.cursor)).map some =
          (List.range' scan.cursor (stop - scan.cursor)).map some ++
            (List.range' stop (length - stop)).map some := by
        rw [← List.map_append]
        have hsplit := List.range'_append_1 (s := scan.cursor) (m := stop - scan.cursor)
          (n := length - stop)
        rw [show scan.cursor + (stop - scan.cursor) = stop by omega,
          show stop - scan.cursor + (length - stop) = length - scan.cursor by omega] at hsplit
        rw [hsplit]
      have hcut : ((List.range' scan.cursor (stop - scan.cursor)).map some).length =
          stop - scan.cursor := by
        rw [List.length_map, List.length_range']
      rw [hrest]
      show Option.bind (Origins.change _ _) _ = _
      rw [change_eq_some.mpr ⟨?_, rfl⟩]
      · show some _ = some _
        rw [List.take_left, ← List.drop_drop, List.drop_left, List.drop_left' hcut, h.read]
      · rw [List.length_append, List.length_append, hcut]
        show done.length + (stop - scan.cursor) ≤ _
        omega
    · show (origins.length : Int) = stop + (scan.delta + (scan.insert - (stop - scan.cursor)))
      omega
  · rw [if_neg hemit]
    have hinsert : scan.insert = 0 := by omega
    have hsame : scan.cursor = stop := by omega
    refine ⟨?_, rfl, ?_⟩
    · show (identity length).changes scan.changes = _
      rw [h.leads, h.read, hinsert, hsame, List.replicate_zero, List.append_nil]
    · show (origins.length : Int) = stop + scan.delta
      omega

theorem Scanned.push {length : Nat} {origins done : Origins} {scan : OriginScan}
    (h : Scanned length origins scan done) {origin : Option Nat}
    (htraces : Traces length (origins ++ [origin])) :
    ∃ done', Scanned length (origins ++ [origin]) (scan.push origin) done' := by
  cases origin with
  | none =>
    refine ⟨done, ?_, h.cursor, ?_, h.index, h.leads⟩
    · show _ = done ++ List.replicate (scan.insert + 1) none
      rw [h.read, List.replicate_succ', List.append_assoc]
    · exact h.last.imp_right fun hlast => List.mem_append_left _ hlast
  | some i =>
    have hlt : i < length := htraces.lt (List.mem_append_right _ (List.mem_singleton_self _))
    have hcursor : scan.cursor ≤ i := by
      rcases h.last with hzero | hlast
      · omega
      · have hpairs := (List.pairwise_append.mp htraces.pairwise).2.2
        have := hpairs _ hlast _ (List.mem_singleton_self _) _ rfl _ rfl
        omega
    obtain ⟨hleads, hinsert, hdelta⟩ := h.emit hcursor hlt.le
    refine ⟨origins ++ [some i], ?_, ?_, ?_, ?_, ?_⟩
    · show _ = _ ++ List.replicate (scan.emit i).insert none
      rw [hinsert, List.replicate_zero, List.append_nil]
    · exact hlt
    · exact .inr (List.mem_append_right _ (List.mem_singleton_self _))
    · show ((origins ++ [some i]).length : Int) = ((i + 1 : Nat) : Int) + (scan.emit i).delta
      rw [List.length_append, List.length_singleton]
      omega
    · show (identity length).changes (scan.emit i).changes = _
      rw [hleads, show length - i = (length - (i + 1)) + 1 by omega, List.range'_succ,
        List.map_cons, List.append_assoc]
      rfl

theorem Scanned.foldl {length : Nat} {read done : Origins} (rest : Origins) {scan : OriginScan}
    (h : Scanned length read scan done) (htraces : Traces length (read ++ rest)) :
    ∃ done', Scanned length (read ++ rest) (rest.foldl OriginScan.push scan) done' := by
  induction rest generalizing read done scan with
  | nil =>
    rw [List.append_nil]
    exact ⟨done, h⟩
  | cons origin rest ih =>
    rw [List.append_cons] at htraces ⊢
    have hfirst : Traces length (read ++ [origin]) :=
      ((List.sublist_append_left _ rest).filterMap id).trans htraces
    obtain ⟨_, h⟩ := h.push hfirst
    exact ih h htraces

/-- The changes read off a list of places lead to it. -/
theorem changes_changesFromOrigins {length : Nat} {origins : Origins}
    (h : Traces length origins) :
    (identity length).changes (changesFromOrigins length origins) = some origins := by
  have hstart : Scanned length [] {} [] := by
    refine ⟨rfl, Nat.zero_le _, .inl rfl, rfl, ?_⟩
    show some (identity length) = _
    unfold identity
    rw [List.range_eq_range']
    rfl
  obtain ⟨_, hscan⟩ := hstart.foldl origins h
  have hleads := (hscan.emit hscan.cursor le_rfl).1
  rw [Nat.sub_self, List.nil_append] at hleads
  exact hleads.trans (by rw [List.range'_zero, List.map_nil, List.append_nil])

end Origins

end Neoseq.Editor
