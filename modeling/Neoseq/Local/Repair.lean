import Neoseq.Local.Agreement

/-! What a repair leaves of a graph with an outbox. The rows after the frontier go, and the
records of the outbox that refer to them stay; such a graph does not open again. -/

namespace Neoseq.Local
open Collections

variable {D E : Type} {lib : Library D E} {start : D} {log : List UpdateRecord}
  {graph graph' : BrowserGraph}

/-- What the repair of a graph is for: the graph opens, every record that is left has its
payload, and a second open finds the same document and nothing corrupt in the tail. -/
structure Usable (lib : Library D E) (graph : BrowserGraph) (recovery : BrowserRecovery D) :
    Prop where
  opens : ∃ opened, (BrowserGraph.openGraph lib graph).1 = .ok opened
  outbox : ∀ o ∈ (BrowserGraph.openGraph lib graph).2.outbox,
    (∃ payload, o.payload = some payload ∧ o.messageId = lib.checksum payload) ∨
    ∃ u ∈ (BrowserGraph.openGraph lib graph).2.updates,
      u.localSequence = o.localSequence ∧ lib.checksum u.bytes = o.messageId
  again : ∃ opened,
    (BrowserGraph.openGraph lib (BrowserGraph.openGraph lib graph).2).1 = .ok opened ∧
      opened.core = recovery.core ∧
      ∃ checkpoints : List CheckpointRecord, opened.report.quarantinedRecords =
        checkpoints.map fun c => "checkpoint-" ++ toString c.localSequence

/-- The row of every pending record has its checksum, and so has every row before it that is
newer than all valid checkpoints. -/
def Unharmed (lib : Library D E) (graph : BrowserGraph) : Prop :=
  ∀ o ∈ graph.outbox, o.payload = none →
    (∃ u ∈ graph.updates, u.localSequence = o.localSequence ∧
      lib.validChecksum u.checksum u.bytes = true) ∧
    ∀ v ∈ graph.updates, v.localSequence ≤ o.localSequence →
      (∀ c ∈ graph.checkpoints, lib.validChecksum c.checksum c.bytes = true →
        c.localSequence < v.localSequence) → lib.validChecksum v.checksum v.bytes = true

/-! ## Where a tail is cut -/

/-- A valid part of the tail replays. -/
theorem Logged.replays_prefix (h : Logged lib start log graph) {base : CheckpointRecord} {doc : D}
    (hbase : Base lib start log graph.metadata.replicaId graph.checkpoints base doc)
    {first rest : List UpdateRecord}
    (hrows : graph.updatesAfter base.localSequence = first ++ rest)
    (hvalid : ∀ u ∈ first, lib.validChecksum u.checksum u.bytes = true) :
    Replays lib doc first := by
  refine ⟨hvalid, ?_⟩
  have hkept := h.rows_after hbase.mem
  rw [hrows] at hkept
  generalize hlog : Log.after UpdateRecord.localSequence log base.localSequence = kept at hkept
  have hfirst := List.forall₂_take first.length hkept
  rw [List.take_left] at hfirst
  rw [← kept_eq_of_intact hfirst hvalid]
  have hreplays := h.replays
  rw [← h.replay_after hbase, hlog, ← List.take_append_drop first.length kept, replay_append]
    at hreplays
  cases hdoc : replay lib doc (kept.take first.length) with
  | none =>
    rw [hdoc] at hreplays
    cases hreplays
  | some _ => rfl

/-- A replay takes the rows up to the first corrupt one. -/
theorem Logged.cut_at (h : Logged lib start log graph) {base : CheckpointRecord} {doc : D}
    (hbase : Base lib start log graph.metadata.replicaId graph.checkpoints base doc)
    {replayed : TailReplay D}
    (hreplay : replayTail lib doc base.localSequence (graph.updatesAfter base.localSequence) =
      replayed) :
    (∀ v ∈ graph.updatesAfter base.localSequence, v.localSequence ≤ replayed.validThrough →
      lib.validChecksum v.checksum v.bytes = true) ∧
    (replayed.corruptTail ≠ [] → ∃ w ∈ graph.updatesAfter base.localSequence,
      lib.validChecksum w.checksum w.bytes = false ∧
      ∀ v ∈ graph.updates, replayed.validThrough < v.localSequence →
        w.localSequence ≤ v.localSequence) := by
  obtain ⟨taken, left, hlongest, _, hthrough, _, _, hleft⟩ :=
    replayTail_longest lib doc base.localSequence (graph.updatesAfter base.localSequence)
  rw [hreplay] at hthrough hleft
  have hordered : Log.Ordered UpdateRecord.localSequence (taken ++ left) :=
    hlongest.split ▸ h.updates_ordered.after base.localSequence
  obtain ⟨htaken, hrest, hcross⟩ := List.pairwise_append.mp hordered
  have hmem (u : UpdateRecord) (hu : u ∈ graph.updatesAfter base.localSequence) :
      u ∈ graph.updates ∧ base.localSequence < u.localSequence :=
    Log.mem_after.mp hu
  have hbelow : base.localSequence ≤ replayed.validThrough ∧
      (∀ v ∈ taken, v.localSequence ≤ replayed.validThrough) ∧
      ∀ v ∈ left, replayed.validThrough < v.localSequence := by
    rcases List.eq_nil_or_concat taken with rfl | ⟨init, last, rfl⟩
    · have hv : replayed.validThrough = base.localSequence := hthrough
      rw [hv]
      refine ⟨le_rfl, nofun, fun v hv => (hmem v ?_).2⟩
      rw [hlongest.split]
      exact hv
    · have hv : replayed.validThrough = last.localSequence := by
        rw [hthrough, List.concat_eq_append, List.getLast?_append, List.getLast?_singleton]
        rfl
      have hlast : last ∈ graph.updatesAfter base.localSequence := by
        rw [hlongest.split]
        exact List.mem_append_left _ (by simp)
      rw [hv]
      refine ⟨(hmem last hlast).2.le, fun v hv => ?_, fun v hv => hcross last (by simp) v hv⟩
      rw [List.concat_eq_append] at hv htaken
      rcases List.mem_append.mp hv with hv | hv
      · exact ((List.pairwise_append.mp htaken).2.2 v hv last (List.mem_singleton_self _)).le
      · rw [List.mem_singleton.mp hv]
  obtain ⟨hbase', hlow, hhigh⟩ := hbelow
  constructor
  · intro v hv hle
    rw [hlongest.split] at hv
    rcases List.mem_append.mp hv with hv | hv
    · exact hlongest.valid.1 v hv
    · exact absurd (hhigh v hv) (not_lt.mpr hle)
  · intro hcorrupt
    cases left with
    | nil => exact absurd (List.forall₂_nil_left_iff.mp hleft) hcorrupt
    | cons w rest =>
      refine ⟨w, by rw [hlongest.split]; exact List.mem_append_right _ List.mem_cons_self, ?_,
        fun v hv hlt => ?_⟩
      · -- with its checksum the row would replay
        refine Bool.eq_false_iff.mpr fun hvalid => hlongest.longest w rest rfl ?_
        have hrows : graph.updatesAfter base.localSequence = (taken ++ [w]) ++ rest := by
          rw [hlongest.split, List.append_assoc]
          rfl
        refine h.replays_prefix hbase hrows fun u hu => ?_
        rcases List.mem_append.mp hu with hu | hu
        · exact hlongest.valid.1 u hu
        · rw [List.mem_singleton.mp hu]
          exact hvalid
      · have hv' : v ∈ taken ++ w :: rest := by
          rw [← hlongest.split]
          exact Log.mem_after.mpr ⟨hv, hbase'.trans_lt hlt⟩
        rcases List.mem_append.mp hv' with hv' | hv'
        · exact absurd hlt (not_lt.mpr (hlow v hv'))
        · rcases List.mem_cons.mp hv' with rfl | hv'
          · exact le_rfl
          · exact ((List.pairwise_cons.mp hrest).1 v hv').le

/-! ## The outbox after a recovery -/

/-- The outbox is settled where the rows of its records are there and have their checksums. -/
theorem settled_iff (h : Logged lib start log graph) (haddressed : Addressed lib graph) :
    Settled lib graph ↔ ∀ o ∈ graph.outbox, o.payload = none →
      ∃ u ∈ graph.updates, u.localSequence = o.localSequence ∧
        lib.validChecksum u.checksum u.bytes = true := by
  constructor
  · intro hsettled o ho hpayload
    obtain ⟨payload, hdelivers, _⟩ := hsettled o ho
    rcases hdelivers with hp | ⟨_, u, hu, hbytes, hsum⟩
    · rw [hpayload] at hp
      cases hp
    · obtain ⟨hmem, heq⟩ := mem_of_find?_decide hu
      refine ⟨u, hmem, heq, decide_eq_true ?_⟩
      rw [hbytes, hsum]
  · intro hrows o ho
    cases hpayload : o.payload with
    | some payload => exact ⟨payload, .inl hpayload, (haddressed.carried o ho payload hpayload).2⟩
    | none =>
      obtain ⟨u, hu, heq, hvalid⟩ := hrows o ho hpayload
      have hsum : u.checksum = lib.checksum u.bytes := (of_decide_eq_true hvalid).symm
      refine ⟨u.bytes, h.delivers hpayload hu heq hsum, ?_⟩
      rw [← hsum]
      exact ((haddressed.named o ho hpayload).2 u hu heq).symm

/-- Whether the outbox can be read after a recovery was decided before it. -/
theorem settled_recover_iff (hexports : Exports lib) (hsnapshots : ExportsSnapshot lib)
    (h : Logged lib start log graph) (haddressed : Addressed lib graph)
    {recovery : BrowserRecovery D}
    (hrecovered : (BrowserGraph.recover lib graph).1 = .ok recovery) :
    Settled lib (BrowserGraph.recover lib graph).2 ↔ Unharmed lib graph := by
  obtain ⟨hlogged', haddressed', _⟩ := h.recovered hexports hsnapshots haddressed
  rw [settled_iff hlogged' haddressed']
  rcases h.recover_cases with ⟨base, doc, records, quarantine, taken, left, replayed, hbase,
    hreplay, hreplayed, _, heq⟩ | ⟨_, quarantine, heq⟩
  · obtain ⟨hbelow, hcut⟩ := h.cut_at hbase hreplay
    have hstops := hreplayed.stops h.ordered hbase.replays
    have hnewer (v : UpdateRecord) : (∀ c ∈ graph.checkpoints,
        lib.validChecksum c.checksum c.bytes = true → c.localSequence < v.localSequence) ↔
          base.localSequence < v.localSequence :=
      ⟨fun hv => hv base hbase.mem hbase.valid,
        fun hlt c hc hvalid => (hbase.newest c hc hvalid).trans_lt hlt⟩
    -- without a cut no row after the checkpoint is corrupt
    have hclean (hwhole : replayed.corruptTail = []) (v : UpdateRecord) (hv : v ∈ graph.updates)
        (hlt : base.localSequence < v.localSequence) :
        lib.validChecksum v.checksum v.bytes = true :=
      hreplayed.intact.mp (hreplayed.tail.mp (by rw [hwhole]; rfl)) v
        (Log.mem_after.mpr ⟨hv, hlt⟩)
    have hunharmed (hwhole : replayed.corruptTail = []) : Unharmed lib graph ↔
        ∀ o ∈ graph.outbox, o.payload = none → ∃ u ∈ graph.updates,
          u.localSequence = o.localSequence ∧ lib.validChecksum u.checksum u.bytes = true := by
      refine forall_congr' fun o => forall_congr' fun ho => forall_congr' fun hpayload => ?_
      refine and_iff_left fun v hv _ hnew => ?_
      exact hclean hwhole v hv ((hnewer v).mp hnew)
    have hfinished := finishTail_finished lib { graph with quarantine := quarantine } records
      base.localSequence replayed
    rw [← heq] at hfinished
    clear heq
    generalize BrowserGraph.recover lib graph = result at hfinished hrecovered ⊢
    cases hfinished with
    | failed error => cases hrecovered
    | current whole _ => exact (hunharmed whole).symm
    | upgraded whole _ installed =>
      rw [hunharmed whole]
      obtain ⟨_, _, installed⟩ := bind_eq_ok.mp installed
      obtain rfl := pure_eq_ok.mp installed
      refine forall_congr' fun o => forall_congr' fun ho => forall_congr' fun hpayload => ?_
      constructor
      · intro ⟨u, hu, hsequence⟩
        exact ⟨u, (List.mem_filter.mp hu).1, hsequence⟩
      · intro ⟨u, hu, hsequence, hvalid⟩
        have hpinned : u.localSequence ∈ BrowserGraph.pinned graph.outbox := by
          refine List.mem_filter.mpr ⟨List.mem_map.mpr ⟨o, ho, hsequence.symm⟩, decide_eq_true ?_⟩
          exact (h.row_drawn hu).1
        refine ⟨u, List.mem_filter.mpr ⟨hu, Bool.or_eq_true_iff.mpr (.inr ?_)⟩, hsequence, hvalid⟩
        exact List.contains_iff_mem.mpr hpinned
    | repaired cut _ =>
      obtain ⟨w, hw, hcorrupt, hfirst⟩ := hcut cut
      obtain ⟨hw, hnew⟩ := Log.mem_after.mp hw
      refine forall_congr' fun o => forall_congr' fun ho => forall_congr' fun hpayload => ?_
      constructor
      · intro ⟨u, hu, hsequence, hvalid⟩
        obtain ⟨hu, hle⟩ := List.mem_filter.mp hu
        have hle := of_decide_eq_true hle
        refine ⟨⟨u, hu, hsequence, hvalid⟩, fun v hv hvo hnewest => ?_⟩
        exact hbelow v (Log.mem_after.mpr ⟨hv, (hnewer v).mp hnewest⟩) (by omega)
      · intro ⟨⟨u, hu, hsequence, hvalid⟩, hbefore⟩
        refine ⟨u, List.mem_filter.mpr ⟨hu, decide_eq_true ?_⟩, hsequence, hvalid⟩
        -- a row after the frontier comes after the first corrupt one
        by_contra hgt
        have hle := hfirst u hu (not_le.mp hgt)
        have hvalid' := hbefore w hw (by omega) ((hnewer w).mpr hnew)
        rw [hcorrupt] at hvalid'
        cases hvalid'
  · rw [heq] at hrecovered
    cases hrecovered

/-! ## Opening a graph again -/

theorem selectCheckpoint_records (lib : Library D E) (peer : Nat)
    (checkpoints : List CheckpointRecord) :
    ∃ struck : List CheckpointRecord, (selectCheckpoint lib peer checkpoints).1.map
      QuarantineRecord.exportHandle = struck.map fun c => "checkpoint-" ++ toString c.localSequence := by
  induction checkpoints with
  | nil => exact ⟨[], rfl⟩
  | cons c rest ih =>
    unfold selectCheckpoint
    cases loadCheckpoint lib peer c with
    | ok doc => exact ⟨[], rfl⟩
    | error reason =>
      obtain ⟨struck, hstruck⟩ := ih
      refine ⟨c :: struck, ?_⟩
      show _ :: List.map _ _ = _
      rw [hstruck]
      rfl

/-- A clean graph recovers its log, and nothing of the tail goes to quarantine. -/
theorem Logged.recover_clean (h : Logged lib start log graph) (hclean : Clean lib graph)
    (hschema : schemaVersion ≤ graph.metadata.schemaVersion) :
    ∃ recovery quarantine, BrowserGraph.recover lib graph =
        (.ok recovery, { graph with quarantine := quarantine }) ∧
      replay lib start log = some recovery.core ∧
      ∃ checkpoints : List CheckpointRecord, recovery.report.quarantinedRecords =
        checkpoints.map fun c => "checkpoint-" ++ toString c.localSequence := by
  obtain ⟨newest, hmem, hvalid, hnewest, hrows⟩ := hclean
  rcases h.recover_cases with ⟨base, doc, records, quarantine, taken, left, replayed, hbase,
    hreplay, hreplayed, hselect, heq⟩ | ⟨hnone, _⟩
  · obtain rfl := hbase.unique h.descending hmem hvalid hnewest
    have hleft := hreplayed.intact.mpr hrows
    have htail := List.isEmpty_iff.mp (hreplayed.tail.mpr hleft)
    have hstops := hreplayed.stops h.ordered hbase.replays
    refine ⟨BrowserGraph.tailRecovery records newest.localSequence replayed, quarantine, ?_, ?_, ?_⟩
    · rw [heq]
      unfold BrowserGraph.finishTail BrowserGraph.upgradeCheckpoint
      rw [htail, List.isEmpty_nil, if_pos rfl, if_pos hschema]
    · have hreplays := hstops.replays
      rwa [hstops.whole hleft] at hreplays
    · obtain ⟨struck, hstruck⟩ := selectCheckpoint_records lib graph.metadata.replicaId
        graph.checkpoints
      rw [hselect] at hstruck
      refine ⟨struck, ?_⟩
      show (records ++ replayed.corruptTail).map QuarantineRecord.exportHandle = _
      rw [htail, List.append_nil]
      exact hstruck
  · rw [hnone newest hmem] at hvalid
    cases hvalid

theorem openGraph_of_settled {recovery : BrowserRecovery D}
    (hschema : supportsDocumentSchema graph.metadata.schemaVersion = true)
    (hrecover : BrowserGraph.recover lib graph = (.ok recovery, graph'))
    (hsettled : Settled lib graph') :
    BrowserGraph.openGraph lib graph = (.ok recovery, graph') := by
  unfold BrowserGraph.openGraph
  rw [hschema, if_neg (by simp), hrecover]
  simp only [normalizeOutbox_of_settled hsettled]

theorem openGraph_of_unsettled {recovery : BrowserRecovery D} (haddressed : Addressed lib graph')
    (hschema : supportsDocumentSchema graph.metadata.schemaVersion = true)
    (hrecover : BrowserGraph.recover lib graph = (.ok recovery, graph'))
    (hsettled : ¬Settled lib graph') :
    ∃ error, (BrowserGraph.openGraph lib graph).1 = .error error := by
  have hsame := haddressed.normalize
  unfold BrowserGraph.openGraph
  rw [hschema, if_neg (by simp), hrecover]
  dsimp only
  split
  · exact ⟨_, rfl⟩
  · next opened hnormalized =>
    rw [hnormalized] at hsame
    obtain rfl : opened = graph' := hsame
    exact absurd (settled_of_normalizeOutbox hnormalized) hsettled

/-- A recovery that ends well leaves a usable graph exactly where the rows of the pending
records are not harmed. -/
theorem usable_iff_unharmed {faults : Prop} (hexports : Exports lib)
    (hsnapshots : ExportsSnapshot lib) (hhistory : BrowserHistory lib faults start log graph)
    {recovery : BrowserRecovery D}
    (hrecovered : (BrowserGraph.recover lib graph).1 = .ok recovery) :
    Usable lib graph recovery ↔ Unharmed lib graph := by
  obtain ⟨h, haddressed⟩ := stored_of_history hexports hsnapshots hhistory
  obtain ⟨hlogged, haddressed', hleft⟩ := h.recovered hexports hsnapshots haddressed
  have hleft := hleft recovery hrecovered
  rw [← settled_recover_iff hexports hsnapshots h haddressed hrecovered]
  have hrecover : BrowserGraph.recover lib graph =
      (.ok recovery, (BrowserGraph.recover lib graph).2) := by rw [← hrecovered]
  generalize (BrowserGraph.recover lib graph).2 = graph' at hlogged haddressed' hleft hrecover ⊢
  generalize recoveredLog (BrowserGraph.recover lib graph).1 log = log' at hlogged hleft
  constructor
  · intro husable
    by_contra hsettled
    obtain ⟨opened, hopened⟩ := husable.opens
    obtain ⟨error, herror⟩ := openGraph_of_unsettled haddressed' h.schema hrecover hsettled
    rw [hopened] at herror
    cases herror
  · intro hsettled
    have hopen := openGraph_of_settled h.schema hrecover hsettled
    obtain ⟨again, quarantine, hagain, hcore, hquarantined⟩ :=
      hlogged.recover_clean hleft.clean hleft.schema
    have hsettled' : Settled lib { graph' with quarantine := quarantine } := hsettled
    refine ⟨⟨recovery, by rw [hopen]⟩, fun o ho => ?_, again, ?_, ?_, hquarantined⟩
    · rw [hopen] at ho ⊢
      obtain ⟨payload, hdelivers, hid⟩ := hsettled o ho
      rcases hdelivers with hp | ⟨_, u, hu, hbytes, _⟩
      · exact .inl ⟨payload, hp, hid⟩
      · obtain ⟨hmem, heq⟩ := mem_of_find?_decide hu
        exact .inr ⟨u, hmem, heq, by rw [hbytes, hid]⟩
    · rw [hopen]
      show (BrowserGraph.openGraph lib graph').1 = _
      rw [openGraph_of_settled hlogged.schema hagain hsettled']
    · rw [hleft.replays] at hcore
      exact (Option.some.inj hcore).symm

/-- A second update waits, which no checkpoint holds. -/
def unsentGraph : BrowserGraph :=
  (pendingGraph.appendUpdate byteLibrary [8] "2026-01-02T00:00:00Z" (some [7])).2

theorem unsentGraph_history {faults : Prop} : BrowserHistory byteLibrary faults []
    [pendingUpdate, ⟨2, byteLibrary.checksum [8], [8]⟩] unsentGraph :=
  pendingGraph_history.append [8] "2026-01-02T00:00:00Z" (some [7]) ⟨[7], [7, 8], rfl, rfl⟩

/-- The checkpoint is corrupt and the rows are intact. -/
theorem usable_unsentGraph :
    Usable byteLibrary (unsentGraph.strikeCheckpoint 1 []) ⟨[7, 8], 2, ⟨0, 2, ["checkpoint-1"]⟩⟩ := by
  have hstruck : BrowserHistory byteLibrary True []
      [pendingUpdate, ⟨2, byteLibrary.checksum [8], [8]⟩] (unsentGraph.strikeCheckpoint 1 []) :=
    unsentGraph_history.strikeCheckpoint trivial 1 [] (by decide)
  have hunharmed : Unharmed byteLibrary (unsentGraph.strikeCheckpoint 1 []) := by
    unfold Unharmed
    decide
  exact (usable_iff_unharmed exports_byteLibrary exportsSnapshot_byteLibrary hstruck rfl).mpr
    hunharmed

/-- The repair deletes the row of a pending record, and the graph does not open again. -/
theorem unsent_update_lost : ∃ graph recovery, BrowserHistory byteLibrary True []
    [pendingUpdate, ⟨2, byteLibrary.checksum [8], [8]⟩] graph ∧
      (BrowserGraph.recover byteLibrary graph).1 = .ok recovery ∧
      (BrowserGraph.openGraph byteLibrary graph).1 =
        .error (.storage ⟨"storage_corrupt", "outbox update 2 is missing", false⟩) ∧
      (BrowserGraph.openGraph byteLibrary (BrowserGraph.openGraph byteLibrary graph).2).1 =
        .error (.storage ⟨"storage_corrupt", "outbox update 2 is missing", false⟩) ∧
      ¬Usable byteLibrary graph recovery := by
  have hstruck : BrowserHistory byteLibrary True []
      [pendingUpdate, ⟨2, byteLibrary.checksum [8], [8]⟩] (unsentGraph.strikeUpdate 2 []) :=
    unsentGraph_history.strikeUpdate trivial 2 [] (by decide)
  refine ⟨_, ⟨[7], 1, ⟨1, 0, ["update-2"]⟩⟩, hstruck, rfl, rfl, rfl, fun husable => ?_⟩
  obtain ⟨opened, hopened⟩ := husable.opens
  have herror : (BrowserGraph.openGraph byteLibrary (unsentGraph.strikeUpdate 2 [])).1 =
      .error (.storage ⟨"storage_corrupt", "outbox update 2 is missing", false⟩) := rfl
  rw [hopened] at herror
  cases herror

end Neoseq.Local
