import Neoseq.Editor.Diff

/-! A diff is shortest. With each edit the search gets as far on every diagonal as any way with
that many edits, so it ends with as few edits as the contents allow. -/

namespace Neoseq.Editor
open Content (InlineContent)

variable {before after : List ContentAtom} {edits : Nat}

/-! ## Ways over the grid -/

/-- A way from the start of both contents to a place, with this many edits. -/
inductive Way (before after : List ContentAtom) : (edits x y : Nat) → Prop
  | start : Way before after 0 0 0
  | delete {edits x y : Nat} : Way before after edits x y → x < before.length →
    Way before after (edits + 1) (x + 1) y
  | insert {edits x y : Nat} : Way before after edits x y → y < after.length →
    Way before after (edits + 1) x (y + 1)
  | keep {edits x y : Nat} : Way before after edits x y → x < before.length →
    y < after.length → before[x]? = after[y]? → Way before after edits (x + 1) (y + 1)

theorem Way.onRound {x y : Nat} (h : Way before after edits x y) : OnRound edits (x - y) := by
  unfold OnRound
  induction h with
  | start => decide
  | delete _ _ ih => omega
  | insert _ _ ih => omega
  | keep _ _ _ _ ih => omega

/-- A way goes on through what both contents have in common. -/
theorem Way.through {x y : Nat} {common : List ContentAtom} (h : Way before after edits x y)
    (hx : x ≤ before.length) (hy : y ≤ after.length) (hbefore : common.Sublist (before.drop x))
    (hafter : common.Sublist (after.drop y)) :
    ∃ more, Way before after (edits + more) before.length after.length ∧
      more + 2 * common.length = before.length - x + (after.length - y) := by
  obtain ⟨size, hsize⟩ : ∃ size, size = before.length - x + (after.length - y) := ⟨_, rfl⟩
  induction size using Nat.strongRecOn generalizing edits x y common with
  | ind size ih =>
    by_cases hxlt : x < before.length
    · have hdrop := List.drop_eq_getElem_cons hxlt
      rw [hdrop] at hbefore
      rcases List.sublist_cons_iff.mp hbefore with hskip | ⟨rest, hcommon, hrest⟩
      · obtain ⟨more, hway, hmore⟩ := ih _ (by omega) (h.delete hxlt) hxlt hy hskip hafter rfl
        exact ⟨1 + more, by rwa [← Nat.add_assoc], by omega⟩
      · have hylt : y < after.length := by
          by_contra hend
          rw [List.drop_eq_nil_of_le (Nat.not_lt.mp hend), hcommon] at hafter
          cases hafter
        rw [List.drop_eq_getElem_cons hylt] at hafter
        rcases List.sublist_cons_iff.mp hafter with hskip | ⟨rest', hcommon', hrest'⟩
        · obtain ⟨more, hway, hmore⟩ := ih _ (by omega) (h.insert hylt) hx hylt
            (hdrop ▸ hbefore) hskip rfl
          exact ⟨1 + more, by rwa [← Nat.add_assoc], by omega⟩
        · obtain ⟨hatom, rfl⟩ := List.cons.inj (hcommon.symm.trans hcommon')
          have hsame : before[x]? = after[y]? := by
            rw [List.getElem?_eq_getElem hxlt, List.getElem?_eq_getElem hylt, hatom]
          obtain ⟨more, hway, hmore⟩ :=
            ih _ (by omega) (h.keep hxlt hylt hsame) hxlt hylt hrest hrest' rfl
          refine ⟨more, hway, ?_⟩
          rw [hcommon, List.length_cons]
          omega
    · have hnil : common = [] := by
        rw [List.drop_eq_nil_of_le (Nat.not_lt.mp hxlt)] at hbefore
        exact List.sublist_nil.mp hbefore
      subst hnil
      by_cases hylt : y < after.length
      · obtain ⟨more, hway, hmore⟩ :=
          ih _ (by omega) (h.insert hylt) hx hylt (List.nil_sublist _) (List.nil_sublist _) rfl
        exact ⟨1 + more, by rwa [← Nat.add_assoc], by omega⟩
      · have hxend : x = before.length := by omega
        have hyend : y = after.length := by omega
        subst hxend hyend
        exact ⟨0, h, by simp⟩

/-! ## The search gets as far as any way -/

/-- After the rounds so far a frontier is as far as any way with as many edits. -/
def Far (before after : List ContentAtom) (edits : Nat) (frontier : Frontier) : Prop :=
  ∀ x y, Way before after edits x y → x ≤ frontier (x - y)

theorem getElem?_commonPrefix_ne {atoms atoms' : List ContentAtom}
    (hlt : commonPrefix atoms atoms' < atoms.length)
    (hlt' : commonPrefix atoms atoms' < atoms'.length) :
    atoms[commonPrefix atoms atoms']? ≠ atoms'[commonPrefix atoms atoms']? := by
  induction atoms generalizing atoms' with
  | nil => cases hlt
  | cons atom atoms ih =>
    cases atoms' with
    | nil => cases hlt'
    | cons atom' atoms' =>
      rw [commonPrefix] at hlt hlt' ⊢
      split_ifs at hlt hlt' ⊢ with hatom
      · rw [List.getElem?_cons_succ, List.getElem?_cons_succ]
        exact ih (Nat.lt_of_succ_lt_succ hlt) (Nat.lt_of_succ_lt_succ hlt')
      · rw [List.getElem?_cons_zero, List.getElem?_cons_zero]
        exact fun h => hatom (Option.some.inj h)

/-- A diagonal is followed to its first pair of different atoms. -/
theorem lt_reached {frontier : Frontier} {x y : Nat} {diagonal : Int}
    (hdiagonal : diagonal = x - y) (hlow : diagonal ≤ frontier.entered edits diagonal)
    (hx : x ≤ frontier.reached before after edits diagonal) (hxlt : x < before.length)
    (hylt : y < after.length) (hsame : before[x]? = after[y]?) :
    x + 1 ≤ frontier.reached before after edits diagonal := by
  by_contra hend
  have hxeq : x = frontier.entered edits diagonal +
      commonPrefix (before.drop (frontier.entered edits diagonal))
        (after.drop (frontier.entered edits diagonal - diagonal).toNat) := by
    show x = frontier.reached before after edits diagonal
    omega
  obtain ⟨entered, hentered⟩ : ∃ n, n = frontier.entered edits diagonal := ⟨_, rfl⟩
  obtain ⟨entered', hentered'⟩ : ∃ n, n = (entered - diagonal).toNat := ⟨_, rfl⟩
  rw [← hentered] at hxeq hlow
  rw [← hentered'] at hxeq
  have hyeq : y = entered' + commonPrefix (before.drop entered) (after.drop entered') := by omega
  refine @getElem?_commonPrefix_ne (before.drop entered) (after.drop entered') ?_ ?_ ?_
  · rw [List.length_drop]
    omega
  · rw [List.length_drop]
    omega
  · rw [List.getElem?_drop, List.getElem?_drop, ← hxeq, ← hyeq, hsame]

theorem le_keep {frontier next : Frontier} {x y : Nat}
    (hnext : ∀ d, OnRound edits d → next d = frontier.reached before after edits d)
    (hlow : ∀ d, OnRound edits d → d ≤ frontier.entered edits d)
    (hway : Way before after edits x y) (hxlt : x < before.length) (hylt : y < after.length)
    (hsame : before[x]? = after[y]?) (hx : x ≤ next (x - y)) :
    x + 1 ≤ next (((x + 1 : Nat) : Int) - ((y + 1 : Nat) : Int)) := by
  have hround := hway.onRound
  have hdiagonal : ((x + 1 : Nat) : Int) - ((y + 1 : Nat) : Int) = x - y := by omega
  rw [hnext _ hround] at hx
  rw [hdiagonal, hnext _ hround]
  exact lt_reached rfl (hlow _ hround) hx hxlt hylt hsame

theorem far_zero {next : Frontier}
    (hnext : ∀ d, OnRound 0 d → next d = Frontier.start.reached before after 0 d) :
    Far before after 0 next := by
  intro x y hway
  have hlow (d : Int) (hround : OnRound 0 d) : d ≤ Frontier.start.entered 0 d := by
    have hzero : d = 0 := by
      unfold OnRound at hround
      omega
    subst hzero
    exact Int.natCast_nonneg _
  obtain ⟨edits, hedits⟩ : ∃ edits, edits = 0 := ⟨_, rfl⟩
  rw [← hedits] at hway
  induction hway with
  | start => exact Nat.zero_le _
  | delete => omega
  | insert => omega
  | @keep edits x y hway hxlt hylt hsame ih =>
    subst hedits
    exact le_keep hnext hlow hway hxlt hylt hsame (ih rfl)

/-- A round takes each diagonal as far as one more edit can. -/
theorem Far.step {frontier next : Frontier} (hfar : Far before after edits frontier)
    (h : Furthest before after edits frontier)
    (hnext : ∀ d, OnRound (edits + 1) d →
      next d = frontier.reached before after (edits + 1) d) :
    Far before after (edits + 1) next := by
  have hle {d : Int} (hround : OnRound (edits + 1) d) :
      frontier.entered (edits + 1) d ≤ next d := hnext d hround ▸ entered_le_reached
  intro x y hway
  obtain ⟨total, htotal⟩ : ∃ total, total = edits + 1 := ⟨_, rfl⟩
  rw [← htotal] at hway
  induction hway with
  | start => omega
  | @delete total x y hway hxlt =>
    obtain rfl : total = edits := by omega
    have hround := (hway.delete hxlt).onRound
    have hdiagonal : ((x + 1 : Nat) : Int) - y - 1 = x - y := by omega
    have hx := hfar x y hway
    have hentered := lt_entered_of_below frontier hround (by rw [hdiagonal]; exact hway.onRound)
    rw [hdiagonal] at hentered
    have hreached := hle hround
    omega
  | @insert total x y hway hylt =>
    obtain rfl : total = edits := by omega
    have hround := (hway.insert hylt).onRound
    have hdiagonal : (x : Int) - ((y + 1 : Nat) : Int) + 1 = x - y := by omega
    have hx := hfar x y hway
    have hentered := le_entered_of_above frontier hround (by rw [hdiagonal]; exact hway.onRound)
    rw [hdiagonal] at hentered
    have hreached := hle hround
    omega
  | @keep total x y hway hxlt hylt hsame ih =>
    subst htotal
    exact le_keep hnext (fun _ hround => h.low_entered hround) hway hxlt hylt hsame (ih rfl)

/-! ## The search ends in time -/

/-- A search that may still try as many edits as a way has finds a way with no more. -/
theorem searchTrace_of_way {frontier : Frontier} {trace : List Frontier} {remaining : Nat}
    (h : Traced before after (frontier :: trace))
    (hfar : ∀ edits, trace.length = edits + 1 → Far before after edits frontier)
    (hway : Way before after edits before.length after.length) (hle : trace.length ≤ edits)
    (hremaining : edits < trace.length + remaining) :
    ∃ result, searchTrace before after frontier trace remaining = some result ∧
      result.length ≤ edits + 1 := by
  induction remaining generalizing frontier trace with
  | zero => omega
  | succ remaining ih =>
    obtain ⟨-, hnone⟩ := @searchRound_spec before after trace.length
      (diagonals trace.length) frontier (fun _ => mem_diagonals.mp)
    rw [searchTrace]
    dsimp only
    split_ifs with hend
    · exact ⟨_, rfl, by rw [List.length_cons]; omega⟩
    · obtain ⟨hmoved, -⟩ := hnone (Bool.not_eq_true _ ▸ hend)
      have hnext (d : Int) (hround : OnRound trace.length d) :=
        (hmoved d (mem_diagonals.mpr hround)).2
      have hnotEnd (d : Int) (hround : OnRound trace.length d) :
          ¬AtEnd before after ((searchRound before after trace.length (diagonals trace.length)
            frontier).1 d) d := by
        rw [hnext d hround]
        exact (hmoved d (mem_diagonals.mpr hround)).1
      have hfurthest : Furthest before after trace.length
          (searchRound before after trace.length (diagonals trace.length) frontier).1 := by
        cases h with
        | start => exact furthest_zero hnext hnotEnd
        | round _ _ hfurthest => exact hfurthest.step hnext hnotEnd
      have hfar' : Far before after trace.length
          (searchRound before after trace.length (diagonals trace.length) frontier).1 := by
        cases h with
        | start => exact far_zero hnext
        | round _ _ hprevious => exact (hfar _ rfl).step hprevious hnext
      -- a round with as many edits as the way would have reached the end
      have hlt : trace.length < edits := by
        refine Nat.lt_of_le_of_ne hle fun heq => ?_
        subst heq
        have hx := hfar' _ _ hway
        refine hnotEnd _ hway.onRound ⟨hx, ?_⟩
        omega
      obtain ⟨result, hresult, hlength⟩ := ih (.round h hnext hfurthest)
        (fun n hn => by
          obtain rfl : trace.length = n := by
            rw [List.length_cons] at hn
            omega
          exact hfar')
        (by rw [List.length_cons]; omega) (by rw [List.length_cons]; omega)
      exact ⟨result, hresult, hlength⟩

/-! ## The number of edits -/

/-- The atoms that changes delete and insert. -/
def editCount (changes : List ContentRangeChange) : Nat :=
  (changes.map fun change => change.delete + change.insert).sum

theorem editCount_append (changes changes' : List ContentRangeChange) :
    editCount (changes ++ changes') = editCount changes + editCount changes' := by
  unfold editCount
  rw [List.map_append, List.sum_append]

theorem editCount_emit {scan : OriginScan} {stop : Nat} (hcursor : scan.cursor ≤ stop) :
    editCount (scan.emit stop).changes + scan.cursor =
      editCount scan.changes + scan.insert + stop := by
  unfold OriginScan.emit
  by_cases hemit : scan.cursor < stop ∨ 0 < scan.insert
  · rw [if_pos hemit]
    dsimp only
    have hlast : editCount [⟨(scan.cursor + scan.delta).toNat, stop - scan.cursor, scan.insert⟩] =
        stop - scan.cursor + scan.insert := by simp [editCount]
    rw [editCount_append, hlast]
    omega
  · rw [if_neg hemit]
    dsimp only
    omega

theorem emit_insert (scan : OriginScan) (stop : Nat) : (scan.emit stop).insert = 0 := by
  unfold OriginScan.emit
  split_ifs <;> rfl

/-- Each place that is left saves a deleted and an inserted atom. -/
theorem editCount_foldl {length : Nat} (origins : Origins) {scan : OriginScan}
    (hcursor : scan.cursor ≤ length) (hlow : ∀ i, some i ∈ origins → scan.cursor ≤ i)
    (htraces : origins.Traces length) :
    editCount ((origins.foldl OriginScan.push scan).emit length).changes +
        2 * (origins.filterMap id).length + scan.cursor =
      editCount scan.changes + scan.insert + origins.length + length := by
  induction origins generalizing scan with
  | nil =>
    have hlast := editCount_emit hcursor
    simp only [List.foldl_nil, List.filterMap_nil, List.length_nil]
    omega
  | cons origin origins ih =>
    have hrest : Origins.Traces length origins :=
      ((List.sublist_cons_self origin origins).filterMap id).trans htraces
    rw [List.foldl_cons]
    cases origin with
    | none =>
      have hrun := @ih (scan.push none) hcursor
        (fun i hi => hlow i (List.mem_cons_of_mem _ hi)) hrest
      have hinsert : (scan.push none).insert = scan.insert + 1 := rfl
      have hchanges : (scan.push none).changes = scan.changes := rfl
      have hplace : (scan.push none).cursor = scan.cursor := rfl
      rw [hinsert, hchanges, hplace] at hrun
      rw [List.filterMap_cons_none rfl, List.length_cons]
      omega
    | some i =>
      have hi : scan.cursor ≤ i := hlow i List.mem_cons_self
      have hilt : i < length := htraces.lt List.mem_cons_self
      have hplace : (scan.push (some i)).cursor = i + 1 := rfl
      have hinsert : (scan.push (some i)).insert = 0 := emit_insert scan i
      have hchanges : (scan.push (some i)).changes = (scan.emit i).changes := rfl
      have hafter (j : Nat) (hj : some j ∈ origins) : (scan.push (some i)).cursor ≤ j :=
        (List.pairwise_cons.mp htraces.pairwise).1 _ hj i rfl j rfl
      have hrun := @ih (scan.push (some i)) hilt hafter hrest
      have hemitted := editCount_emit hi
      rw [hinsert, hchanges, hplace] at hrun
      have hfound : (some i :: origins).filterMap id = i :: origins.filterMap id := rfl
      rw [hfound, List.length_cons, List.length_cons]
      omega

theorem editCount_changesFromOrigins {length : Nat} {origins : Origins}
    (h : origins.Traces length) :
    editCount (changesFromOrigins length origins) + 2 * (origins.filterMap id).length =
      origins.length + length := by
  have hall := @editCount_foldl length origins {} (Nat.zero_le _) (fun _ _ => Nat.zero_le _) h
  have hnone : editCount ({} : OriginScan).changes = 0 := rfl
  have hinsert : ({} : OriginScan).insert = 0 := rfl
  have hcursor : ({} : OriginScan).cursor = 0 := rfl
  rw [hnone, hinsert, hcursor] at hall
  unfold changesFromOrigins
  omega

/-- No changes have fewer edits than their places ask for. -/
theorem places_le_editCount {length : Nat} {changes : List ContentRangeChange} {origins origins' : Origins}
    {done : Nat} (hdone : length + origins.length ≤ done + 2 * (origins.filterMap id).length)
    (hchanges : origins.changes changes = some origins') :
    length + origins'.length ≤ done + editCount changes + 2 * (origins'.filterMap id).length := by
  induction changes generalizing origins done with
  | nil =>
    obtain rfl := Option.some.inj hchanges
    exact hdone
  | cons change changes ih =>
    unfold Origins.changes at hchanges
    rw [List.foldlM_cons, Option.bind_eq_bind, Option.bind_eq_some_iff] at hchanges
    obtain ⟨next, hnext, hrest⟩ := hchanges
    have hcount : editCount (change :: changes) =
        change.delete + change.insert + editCount changes := by simp [editCount]
    obtain ⟨hle, rfl⟩ := Origins.change_eq_some.mp hnext
    obtain ⟨next, hnext⟩ : ∃ n, n = done + change.delete + change.insert := ⟨_, rfl⟩
    have hrun := @ih _ next ?_ hrest
    · rw [hcount]
      omega
    · rw [hnext]
      -- of the deleted atoms each was one that was left at most
      have hsplit : origins = origins.take change.index ++
          ((origins.drop change.index).take change.delete ++
            origins.drop (change.index + change.delete)) := by
        rw [← List.drop_drop, List.take_append_drop, List.take_append_drop]
      have hall : (origins.filterMap id).length =
          ((origins.take change.index).filterMap id).length +
            ((((origins.drop change.index).take change.delete).filterMap id).length +
              ((origins.drop (change.index + change.delete)).filterMap id).length) := by
        conv_lhs => rw [hsplit]
        rw [List.filterMap_append, List.filterMap_append, List.length_append, List.length_append]
      have hdeleted : (((origins.drop change.index).take change.delete).filterMap id).length ≤
          change.delete :=
        (List.length_filterMap_le _ _).trans (List.length_take_le _ _)
      simp only [List.filterMap_append, List.length_append, List.length_take, List.length_drop,
        List.length_replicate]
      omega

/-! ## What a diff keeps -/

theorem lookup_of_mem {middle : List (Nat × Nat)}
    (hascending : middle.Pairwise fun p q => p.1 < q.1 ∧ p.2 < q.2) {pair : Nat × Nat}
    (hpair : pair ∈ middle) : middle.lookup pair.1 = some pair.2 := by
  induction middle with
  | nil => cases hpair
  | cons first middle ih =>
    obtain ⟨hfirst, hrest⟩ := List.pairwise_cons.mp hascending
    rcases List.mem_cons.mp hpair with rfl | hpair
    · exact List.lookup_cons_self
    · have hne : (pair.1 == first.1) = false :=
        beq_eq_false_iff_ne.mpr (Nat.ne_of_gt (hfirst pair hpair).1)
      rw [List.lookup_cons, hne]
      exact ih hrest hpair

theorem length_filterMap_lookup {middle : List (Nat × Nat)} {start stop : Nat}
    (hascending : middle.Pairwise fun p q => p.1 < q.1 ∧ p.2 < q.2)
    (hinside : ∀ (pair : Nat × Nat), pair ∈ middle → start ≤ pair.1 ∧ pair.1 < stop) :
    ((List.range' start (stop - start)).filterMap fun index => middle.lookup index).length =
      middle.length := by
  have hindices : (List.range' start (stop - start)).filter
      (fun index => (middle.lookup index).isSome) = middle.map Prod.fst := by
    refine List.Pairwise.eq_of_mem_iff (r := (· < ·))
      ((List.pairwise_lt_range' 1 Nat.one_pos).sublist List.filter_sublist)
      (List.pairwise_map.mpr (hascending.imp fun h => h.1)) fun index => ?_
    rw [List.mem_filter, List.mem_map, List.mem_range'_1]
    constructor
    · rintro ⟨-, hsome⟩
      obtain ⟨place, hplace⟩ := Option.isSome_iff_exists.mp hsome
      obtain ⟨left, right, heq, -⟩ := List.lookup_eq_some_iff.mp hplace
      refine ⟨(index, place), ?_, rfl⟩
      rw [heq]
      exact List.mem_append_right _ List.mem_cons_self
    · rintro ⟨pair, hpair, rfl⟩
      have hbounds := hinside pair hpair
      rw [lookup_of_mem hascending hpair]
      exact ⟨by omega, rfl⟩
  rw [List.length_filterMap_eq_countP, List.countP_eq_length_filter, hindices, List.length_map]

/-- A match of the middle has as many pairs as the search allows. -/
theorem length_matchMiddle {start beforeEnd afterEnd : Nat} {result : List Frontier}
    (hresult : searchTrace ((before.take beforeEnd).drop start) ((after.take afterEnd).drop start)
      .start [] (min (((before.take beforeEnd).drop start).length +
        ((after.take afterEnd).drop start).length) diffEditLimit + 1) = some result) :
    result.length + 2 * (matchMiddle before start beforeEnd after start afterEnd).length =
      ((before.take beforeEnd).drop start).length + ((after.take afterEnd).drop start).length + 1 ∧
      ∀ (pair : Nat × Nat), pair ∈ matchMiddle before start beforeEnd after start afterEnd →
        start ≤ pair.1 ∧ pair.1 < afterEnd := by
  obtain ⟨hkept, hlength⟩ := searchTrace_kept .start hresult
  have heq : matchMiddle before start beforeEnd after start afterEnd =
      (backtrack result ((before.take beforeEnd).drop start).length
        ((after.take afterEnd).drop start).length []).map
          (Prod.map (start + ·) (start + ·)) := by
    unfold matchMiddle
    dsimp only
    rw [hresult]
    rfl
  rw [heq]
  refine ⟨by rw [List.length_map]; exact hlength, fun pair hpair => ?_⟩
  obtain ⟨q, hq, rfl⟩ := List.mem_map.mp hpair
  obtain ⟨hlt, hsame⟩ := hkept.same q hq
  rw [List.getElem?_eq_getElem hlt] at hsame
  have hafter := (List.getElem?_eq_some_iff.mp hsame.symm).1
  rw [List.length_drop, List.length_take] at hafter
  rw [Prod.map_fst]
  omega

/-- What is left of a common part without both ends is common to what is left of the contents. -/
theorem middle_sublist (start same : Nat) {atoms common : List ContentAtom}
    (h : common.Sublist atoms) :
    ((common.take (common.length - same)).drop start).Sublist
      ((atoms.take (atoms.length - same)).drop start) := by
  have hreversed := h.reverse.drop same
  rw [List.drop_reverse, List.drop_reverse, List.reverse_sublist] at hreversed
  exact hreversed.drop start

theorem traces_diffOrigins (before after : List ContentAtom) :
    Origins.Traces before.length (diffOrigins before after) := by
  have hmapped := Origins.mapped_of_changes (Origins.mapped_nil before.length)
    (turns_diffContent before after).changes
  exact hmapped.traces

theorem filterMap_getElem? (atoms : List ContentAtom) :
    (List.range atoms.length).filterMap (fun i => atoms[i]?) = atoms := by
  induction atoms with
  | nil => rfl
  | cons atom atoms ih =>
    rw [List.length_cons, List.range_succ_eq_map, List.filterMap_cons, List.getElem?_cons_zero,
      List.filterMap_map]
    exact congrArg (atom :: ·) ih

theorem sublist_of_same {origins : Origins} {atoms : List ContentAtom}
    (hlength : origins.length = atoms.length)
    (hsame : ∀ (index origin : Nat), origins[index]? = some (some origin) →
      before[origin]? = atoms[index]?) :
    ((origins.filterMap id).filterMap fun i => before[i]?).Sublist atoms := by
  induction origins generalizing atoms with
  | nil => exact List.nil_sublist _
  | cons origin origins ih =>
    cases atoms with
    | nil => cases hlength
    | cons atom atoms =>
      have hrest := ih (Nat.succ.inj hlength) fun index place hplace => hsame (index + 1) place hplace
      cases origin with
      | none => exact hrest.cons atom
      | some place =>
        have hatom : before[place]? = some atom := hsame 0 place rfl
        have hfound : ((some place :: origins).filterMap id).filterMap (fun i => before[i]?) =
            atom :: (origins.filterMap id).filterMap fun i => before[i]? :=
          List.filterMap_cons_some hatom
        rw [hfound]
        exact hrest.cons_cons atom

/-- The kept atoms are common to both contents. -/
theorem Turns.common {changes : List ContentRangeChange} {origins : Origins}
    (h : Turns before changes after origins) :
    ∃ common : List ContentAtom, common.Sublist before ∧ common.Sublist after ∧
      common.length = (origins.filterMap id).length := by
  have htraces : Origins.Traces before.length origins :=
    (Origins.mapped_of_changes (Origins.mapped_nil before.length) h.changes).traces
  refine ⟨(origins.filterMap id).filterMap fun i => before[i]?, ?_, ?_, ?_⟩
  · conv_rhs => rw [← filterMap_getElem? before]
    exact List.Sublist.filterMap _ htraces
  · exact sublist_of_same h.length h.same
  · have hin (i : Nat) (hi : i ∈ origins.filterMap id) : (before[i]?).isSome := by
      have hlt : i < before.length := List.mem_range.mp (htraces.subset hi)
      rw [List.getElem?_eq_getElem hlt]
      rfl
    rw [List.length_filterMap_eq_countP]
    exact List.countP_eq_length.mpr hin

/-- A longest list of atoms that both contents have in this order. -/
structure LongestCommon (before after common : List ContentAtom) : Prop where
  inBefore : common.Sublist before
  inAfter : common.Sublist after
  longest : ∀ (other : List ContentAtom), other.Sublist before → other.Sublist after →
    other.length ≤ common.length

theorem exists_longestCommon (before after : List ContentAtom) :
    ∃ common, LongestCommon before after common := by
  classical
  have hshort : ∃ n, ∃ common : List ContentAtom, common.Sublist before ∧
      common.Sublist after ∧ common.length + n = before.length :=
    ⟨before.length, [], List.nil_sublist _, List.nil_sublist _, Nat.zero_add _⟩
  obtain ⟨common, hbefore, hafter, hlength⟩ := Nat.find_spec hshort
  refine ⟨common, hbefore, hafter, fun other hother hother' => ?_⟩
  have hle := hother.length_le
  have hleast := @Nat.find_min' _ _ hshort (before.length - other.length)
    ⟨other, hother, hother', by omega⟩
  omega

/-- Any changes have at least as many edits as a longest common part leaves. -/
theorem LongestCommon.le_editCount {common : List ContentAtom}
    (h : LongestCommon before after common) {changes : List ContentRangeChange}
    {origins : Origins} (hturns : Turns before changes after origins) :
    before.length + after.length ≤ editCount changes + 2 * common.length := by
  obtain ⟨kept, hbefore, hafter, hlength⟩ := hturns.common
  have hle := h.longest kept hbefore hafter
  have hidentity : (Origins.identity before.length).filterMap id = List.range before.length := by
    unfold Origins.identity
    rw [List.filterMap_map]
    exact List.filterMap_some
  have hcount := @places_le_editCount before.length changes (Origins.identity before.length) origins 0
    (by rw [hidentity]; simp [Origins.identity]; omega) hturns.changes
  rw [hturns.length] at hcount
  omega

/-- A diff has no more edits than a longest common part leaves, if these are not too many. -/
theorem LongestCommon.editCount_le {common : List ContentAtom}
    (h : LongestCommon before after common)
    (hlimit : before.length + after.length ≤ diffEditLimit + 2 * common.length) :
    editCount (diffContent before after) + 2 * common.length ≤ before.length + after.length := by
  obtain ⟨start, hstart⟩ : ∃ n, n = commonPrefix before after := ⟨_, rfl⟩
  obtain ⟨same, hsame⟩ : ∃ n, n =
    commonPrefix (before.drop start).reverse (after.drop start).reverse := ⟨_, rfl⟩
  have hends := middle_common before after
  rw [← hstart, ← hsame] at hends
  obtain ⟨hbeforeLe, hafterLe⟩ := commonPrefix_le before after
  obtain ⟨hbeforeSame, hafterSame⟩ :=
    commonPrefix_le (before.drop start).reverse (after.drop start).reverse
  rw [← hsame, List.length_reverse, List.length_drop] at hbeforeSame hafterSame
  rw [← hstart] at hbeforeLe hafterLe
  obtain ⟨before', hbefore'⟩ : ∃ l, l = (before.take (before.length - same)).drop start := ⟨_, rfl⟩
  obtain ⟨after', hafter'⟩ : ∃ l, l = (after.take (after.length - same)).drop start := ⟨_, rfl⟩
  have hlength : before'.length = before.length - same - start := by
    rw [hbefore', List.length_drop, List.length_take]
    omega
  have hlength' : after'.length = after.length - same - start := by
    rw [hafter', List.length_drop, List.length_take]
    omega
  -- the common part of the middle gives the search a way
  obtain ⟨middle, hmiddle⟩ : ∃ l, l = (common.take (common.length - same)).drop start := ⟨_, rfl⟩
  have hmiddleLength : common.length ≤ middle.length + start + same := by
    rw [hmiddle, List.length_drop, List.length_take]
    omega
  have hinBefore : middle.Sublist (before'.drop 0) := by
    rw [List.drop_zero, hmiddle, hbefore']
    exact middle_sublist start same h.inBefore
  have hinAfter : middle.Sublist (after'.drop 0) := by
    rw [List.drop_zero, hmiddle, hafter']
    exact middle_sublist start same h.inAfter
  obtain ⟨edits, hway, hedits⟩ := (@Way.start before' after').through (Nat.zero_le _)
    (Nat.zero_le _) hinBefore hinAfter
  rw [Nat.zero_add] at hway
  obtain ⟨result, hresult, hle⟩ := @searchTrace_of_way before' after' edits .start []
    (min (before'.length + after'.length) diffEditLimit + 1) .start (fun _ h => by cases h) hway
    (Nat.zero_le _) (by rw [List.length_nil]; omega)
  rw [hbefore', hafter'] at hresult
  obtain ⟨hmatched, hinside⟩ := length_matchMiddle hresult
  rw [← hbefore', ← hafter'] at hmatched
  have hkept := (@middleKept_matchMiddle before after start (before.length - same)
    (after.length - same)).ascending
  have hlookup := length_filterMap_lookup hkept hinside
  have horigins : diffOrigins before after = (List.range start).map some ++
      (List.range' start (after.length - same - start)).map (fun index =>
        (matchMiddle before start (before.length - same) after start
          (after.length - same)).lookup index) ++
      (List.range' (after.length - same) (after.length - (after.length - same))).map fun index =>
        some (before.length - same + index - (after.length - same)) := by
    rw [hsame, hstart]
    rfl
  have hcount := editCount_changesFromOrigins (traces_diffOrigins before after)
  have hplaces : ((diffOrigins before after).filterMap id).length =
      start + (matchMiddle before start (before.length - same) after start
        (after.length - same)).length + same := by
    rw [horigins, List.filterMap_append, List.filterMap_append, List.filterMap_map,
      List.filterMap_map, List.filterMap_map]
    rw [List.length_append, List.length_append]
    have hfirst : ((List.range start).filterMap (id ∘ some)).length = start := by simp
    have hlast : ((List.range' (after.length - same) (after.length - (after.length - same))).filterMap
        (id ∘ fun index => some (before.length - same + index - (after.length - same)))).length =
        same := by
      simp
      omega
    rw [hfirst, hlast]
    exact congrArg (start + · + same) hlookup
  have hall := (turns_diffContent before after).length
  unfold diffContent
  omega

/-- A mapping that leads from the source of a draft to a content moves the draft. -/
theorem Turns.rebaseBuffer {buffer : ContentBuffer} {content : List InlineContent}
    {mapping : List ContentRangeChange} {origins : Origins}
    (h : Turns buffer.source mapping (contentAtoms content) origins) :
    ∃ result, rebaseBuffer buffer content mapping = some result := by
  unfold Editor.rebaseBuffer
  rw [h.changes, Option.bind_eq_bind, Option.bind_some]
  dsimp only
  rw [if_neg (not_not.mpr h.length), if_neg]
  · exact ⟨_, rfl⟩
  · intro hany
    obtain ⟨⟨origin, atom⟩, hmem, hne⟩ := List.any_eq_true.mp hany
    obtain ⟨index, hindex⟩ := List.mem_iff_getElem?.mp hmem
    obtain ⟨horigin, hatom⟩ := List.getElem?_zip_eq_some.mp hindex
    cases origin with
    | none => cases hne
    | some place => exact of_decide_eq_true hne (by rw [h.same index place horigin, hatom])

theorem rebaseOnto_total (buffer : ContentBuffer) (content : List InlineContent)
    (mapping : Option (List ContentRangeChange)) :
    ∃ result, rebaseOnto buffer content mapping = .ok result := by
  unfold rebaseOnto
  cases hmapped : mapping.bind (rebaseBuffer buffer content) with
  | some mapped => exact ⟨mapped, rfl⟩
  | none =>
    obtain ⟨diffed, hdiffed⟩ := (turns_diffContent buffer.source (contentAtoms content)).rebaseBuffer
    refine ⟨diffed, ?_⟩
    dsimp only
    rw [hdiffed]

/-- A diff leads from the one content to the other and keeps equal atoms in their order. Where
the least possible number of edits is within the limit it has just as many, and a draft can
always be moved through it. -/
theorem diffContent_shortest :
    (∀ before after, ∃ origins, Turns before (diffContent before after) after origins ∧
      Origins.Traces before.length origins) ∧
    (∀ before after, (∃ common, LongestCommon before after common) ∧
      ∀ common, LongestCommon before after common →
        (∀ changes origins, Turns before changes after origins →
          before.length + after.length - 2 * common.length ≤ editCount changes) ∧
        (before.length + after.length - 2 * common.length ≤ diffEditLimit →
          editCount (diffContent before after) =
            before.length + after.length - 2 * common.length)) ∧
    ∀ buffer content mapping, ∃ result, rebaseOnto buffer content mapping = .ok result := by
  refine ⟨fun before after => ?_, fun before after => ?_, rebaseOnto_total⟩
  · exact ⟨_, turns_diffContent before after, traces_diffOrigins before after⟩
  · refine ⟨exists_longestCommon before after, fun common hcommon => ⟨?_, ?_⟩⟩
    · intro changes origins hturns
      have hle := hcommon.le_editCount hturns
      omega
    · intro hlimit
      have hge := hcommon.le_editCount (turns_diffContent before after)
      have hle := hcommon.editCount_le (by omega)
      omega

end Neoseq.Editor
