import Neoseq.Local.Retention

/-! The two ways to recover a stored graph. On the rows of a log the fast path, which
validates the document once, and the replay that validates it after every record lead to the
same document and the same state. -/

namespace Neoseq.Local
open Collections

variable {D E : Type} {lib : Library D E} {start : D} {log : List UpdateRecord}
  {graph graph' : BrowserGraph}

/-! ## A tail all at once -/

theorem replay_valid {doc doc' : D} {rows : List UpdateRecord} (hvalid : lib.validate doc = .ok ())
    (h : replay lib doc rows = some doc') : lib.validate doc' = .ok () := by
  induction rows generalizing doc with
  | nil =>
    obtain rfl := Option.some.inj h
    exact hvalid
  | cons row rows ih =>
    unfold replay at h
    rw [List.foldlM_cons] at h
    cases himport : lib.importRecoveryUpdate doc row.bytes with
    | error error =>
      rw [himport] at h
      cases h
    | ok next =>
      rw [himport] at h
      exact ih (importRecoveryUpdate_valid himport) h

/-- An update that is validated on its own is staged the same. -/
theorem stageRecoveryUpdate_of_import {doc doc' : D} {bytes : Bytes}
    (h : lib.importRecoveryUpdate doc bytes = .ok doc') :
    lib.stageRecoveryUpdate doc bytes = .ok doc' := by
  obtain ⟨⟨candidate, pending⟩, himport, h⟩ := bind_eq_ok.mp h
  obtain ⟨_, hpending, h⟩ := bind_eq_ok.mp h
  obtain ⟨_, _, h⟩ := bind_eq_ok.mp h
  obtain rfl := pure_eq_ok.mp h
  exact bind_eq_ok.mpr ⟨(candidate, pending), himport, bind_eq_ok.mpr ⟨(), hpending, rfl⟩⟩

theorem stageTail_of_replay {doc doc' : D} {rows : List UpdateRecord}
    (hvalid : lib.validate doc = .ok ()) (h : replay lib doc rows = some doc') :
    BrowserGraph.stageTail lib doc rows = .ok doc' := by
  have hstaged : rows.foldlM (fun doc u => lib.stageRecoveryUpdate doc u.bytes) doc = .ok doc' := by
    have hreplay := h
    clear hvalid h
    induction rows generalizing doc with
    | nil =>
      obtain rfl := Option.some.inj hreplay
      rfl
    | cons row rows ih =>
      unfold replay at hreplay
      rw [List.foldlM_cons] at hreplay ⊢
      cases himport : lib.importRecoveryUpdate doc row.bytes with
      | error error =>
        rw [himport] at hreplay
        cases hreplay
      | ok next =>
        rw [himport] at hreplay
        rw [stageRecoveryUpdate_of_import himport]
        exact ih hreplay
  exact bind_eq_ok.mpr ⟨doc', hstaged, bind_eq_ok.mpr ⟨(), replay_valid hvalid h, rfl⟩⟩

/-! ## The tail of a stored graph -/

theorem Logged.rows_after (h : Logged lib start log graph) {c : CheckpointRecord}
    (hc : c ∈ graph.checkpoints) :
    List.Forall₂ (Kept lib) (Log.after UpdateRecord.localSequence log c.localSequence)
      (graph.updatesAfter c.localSequence) := by
  obtain ⟨kept, _, hrows, hafter⟩ := h.rows
  rw [← hafter c hc]
  exact kept_filter (p := fun n => decide (c.localSequence < n)) hrows

theorem Logged.replay_after (h : Logged lib start log graph) {base : CheckpointRecord} {doc : D}
    (hbase : Base lib start log graph.metadata.replicaId graph.checkpoints base doc) :
    replay lib doc (Log.after UpdateRecord.localSequence log base.localSequence) =
      replay lib start log := by
  conv_rhs => rw [← Log.upTo_append_after h.ordered base.localSequence, replay_append, hbase.replays]
  rfl

theorem Logged.replayed (h : Logged lib start log graph) {base : CheckpointRecord} {doc : D}
    (hbase : Base lib start log graph.metadata.replicaId graph.checkpoints base doc) :
    ∃ taken left, Replayed lib doc base.localSequence
      (Log.after UpdateRecord.localSequence log base.localSequence)
      (graph.updatesAfter base.localSequence)
      (replayTail lib doc base.localSequence (graph.updatesAfter base.localSequence)) taken left := by
  refine replayTail_replayed (fromRecoverySnapshot_valid hbase.load).2 (h.rows_after hbase.mem) ?_
  rw [h.replay_after hbase]
  exact h.replays

/-- A tail without a corrupt row is that of the log. -/
theorem Logged.replay_intact (h : Logged lib start log graph) {base : CheckpointRecord} {doc : D}
    (hbase : Base lib start log graph.metadata.replicaId graph.checkpoints base doc)
    (hvalid : ∀ u ∈ graph.updatesAfter base.localSequence,
      lib.validChecksum u.checksum u.bytes = true) :
    replay lib doc (graph.updatesAfter base.localSequence) = replay lib start log := by
  rw [← kept_eq_of_intact (h.rows_after hbase.mem) hvalid, h.replay_after hbase]

/-- The tail is staged exactly where the replay would take it whole. -/
theorem Logged.recoverTail_eq (h : Logged lib start log graph) {base : CheckpointRecord} {doc : D}
    (hbase : Base lib start log graph.metadata.replicaId graph.checkpoints base doc)
    (records : List QuarantineRecord) :
    BrowserGraph.recoverTail lib graph records doc base.localSequence =
      BrowserGraph.finishTail lib graph records base.localSequence
        (replayTail lib doc base.localSequence (graph.updatesAfter base.localSequence)) := by
  unfold BrowserGraph.recoverTail BrowserGraph.stagedTail
  cases hall : BrowserGraph.allValid lib (graph.updatesAfter base.localSequence) with
  | true =>
    have hvalid := List.all_eq_true.mp hall
    obtain ⟨final, hfinal⟩ := Option.isSome_iff_exists.mp h.replays
    have hreplay := (h.replay_intact hbase hvalid).trans hfinal
    have hstaged := stageTail_of_replay (fromRecoverySnapshot_valid hbase.load).2 hreplay
    simp only [hall, if_true, hstaged, replayTail_of_replays base.localSequence hvalid hreplay]
    rfl
  | false =>
    obtain ⟨taken, left, hreplayed⟩ := h.replayed hbase
    have hfinish : lib.finishRecovery (replayTail lib doc base.localSequence
      (graph.updatesAfter base.localSequence)).doc = .ok () := hreplayed.valid
    simp only [hall, Bool.false_eq_true, if_false, hfinish]

theorem foldl_putQuarantine (records : List QuarantineRecord) (graph : BrowserGraph) :
    ∃ quarantine, records.foldl .quarantineRecord graph = { graph with quarantine := quarantine } := by
  induction records generalizing graph with
  | nil => exact ⟨graph.quarantine, rfl⟩
  | cons record records ih => exact ih (graph.quarantineRecord record)

theorem Logged.quarantine (h : Logged lib start log graph) (quarantine : List QuarantineRecord) :
    Logged lib start log { graph with quarantine := quarantine } :=
  ⟨h.ordered, h.next, h.drawn, h.identity, h.replays, h.schema, h.two, h.descending, h.pointer,
    h.rows, h.covers⟩

/-! ## The two paths -/

/-- The recovery that validates the document after every record, without a fast path. -/
def BrowserGraph.recoverEach (lib : Library D E) (graph : BrowserGraph) :
    Except (WorkerError E) (BrowserRecovery D) × BrowserGraph :=
  let (quarantined, selected) :=
    selectCheckpoint lib graph.metadata.replicaId graph.checkpoints
  let graph := quarantined.foldl .quarantineRecord graph
  match selected with
  | some (doc, sequence) => finishTail lib graph quarantined sequence
      (replayTail lib doc sequence (graph.updatesAfter sequence))
  | none => (.error (.storage noneValid), graph)

theorem Logged.recoverRecords_eq (h : Logged lib start log graph) :
    BrowserGraph.recoverRecords lib graph = graph.recoverEach lib := by
  unfold BrowserGraph.recoverRecords BrowserGraph.recoverEach
  rcases selectCheckpoint_cases h.covers h.descending with
    ⟨base, doc, records, hbase, hselect⟩ | ⟨_, records, hselect⟩
  · obtain ⟨quarantine, hfold⟩ := foldl_putQuarantine records graph
    simp only [hselect, hfold]
    exact (h.quarantine quarantine).recoverTail_eq hbase records
  · obtain ⟨quarantine, hfold⟩ := foldl_putQuarantine records graph
    obtain ⟨first, hfirst, _⟩ := h.pointer
    have hsome : graph.checkpoints.isEmpty = false := by
      rw [List.isEmpty_eq_false_iff]
      exact List.ne_nil_of_mem hfirst
    simp only [hselect, hfold, hsome, Bool.false_eq_true, if_false]

/-- The newest checkpoint and the rows after it have their checksums. -/
def Intact (lib : Library D E) (graph : BrowserGraph) : Prop :=
  ∃ newest, graph.checkpoints.head? = some newest ∧
    lib.validChecksum newest.checksum newest.bytes = true ∧
    ∀ u ∈ graph.updatesAfter newest.localSequence, lib.validChecksum u.checksum u.bytes = true

/-- The checkpoint an intact graph is recovered from. -/
theorem Logged.intact_base (h : Logged lib start log graph) {newest : CheckpointRecord}
    (hnewest : graph.checkpoints.head? = some newest)
    (hvalid : lib.validChecksum newest.checksum newest.bytes = true) :
    ∃ doc, Base lib start log graph.metadata.replicaId graph.checkpoints newest doc ∧
      lib.fromSnapshot graph.metadata.replicaId newest.bytes = .ok doc ∧
      selectCheckpoint lib graph.metadata.replicaId graph.checkpoints =
        ([], some (doc, newest.localSequence)) := by
  cases hcheckpoints : graph.checkpoints with
  | nil =>
    rw [hcheckpoints] at hnewest
    cases hnewest
  | cons first rest =>
    rw [hcheckpoints] at hnewest
    obtain rfl := Option.some.inj hnewest
    have hmem : first ∈ graph.checkpoints := by
      rw [hcheckpoints]
      exact List.mem_cons_self
    rcases (h.covers first hmem).load with ⟨_, doc, hload, hdoc⟩ | ⟨hcorrupt, _⟩
    · have hloads := (loadCheckpoint_eq_ok.mp hload).2.2
      refine ⟨doc, ⟨List.mem_cons_self, hvalid, hloads, hdoc, fun c hc _ => ?_⟩,
        (fromRecoverySnapshot_valid hloads).1, ?_⟩
      · have hdescending := h.descending
        rw [hcheckpoints] at hdescending
        rcases List.mem_cons.mp hc with rfl | hc
        · exact le_rfl
        · exact ((List.pairwise_cons.mp hdescending).1 c hc).le
      · unfold selectCheckpoint
        rw [hload]
    · rw [hvalid] at hcorrupt
      cases hcorrupt

/-- An intact graph is staged as its log. -/
theorem Logged.stageIntact_eq (h : Logged lib start log graph) {newest : CheckpointRecord}
    (hnewest : graph.checkpoints.head? = some newest)
    (hvalid : lib.validChecksum newest.checksum newest.bytes = true)
    (hrows : ∀ u ∈ graph.updatesAfter newest.localSequence,
      lib.validChecksum u.checksum u.bytes = true) :
    ∃ doc final, Base lib start log graph.metadata.replicaId graph.checkpoints newest doc ∧
      replay lib start log = some final ∧
      replayTail lib doc newest.localSequence (graph.updatesAfter newest.localSequence) =
        { doc := final
          validThrough := BrowserGraph.lastSequence newest.localSequence
            (graph.updatesAfter newest.localSequence)
          replayed := (graph.updatesAfter newest.localSequence).length } ∧
      BrowserGraph.stageIntact lib graph = some (BrowserGraph.tailRecovery [] newest.localSequence
        (replayTail lib doc newest.localSequence (graph.updatesAfter newest.localSequence))) := by
  obtain ⟨doc, hbase, hload, _⟩ := h.intact_base hnewest hvalid
  obtain ⟨final, hfinal⟩ := Option.isSome_iff_exists.mp h.replays
  have hreplay := (h.replay_intact hbase hrows).trans hfinal
  have hstaged := stageTail_of_replay (fromRecoverySnapshot_valid hbase.load).2 hreplay
  have htail := replayTail_of_replays newest.localSequence hrows hreplay
  refine ⟨doc, final, hbase, hfinal, htail, ?_⟩
  have hschema := (h.covers newest hbase.mem).schema
  have hall : BrowserGraph.allValid lib (graph.updatesAfter newest.localSequence) = true :=
    List.all_eq_true.mpr hrows
  have hbind : (lib.fromSnapshot graph.metadata.replicaId newest.bytes >>=
      fun core => BrowserGraph.stageTail lib core (graph.updatesAfter newest.localSequence)) =
        .ok final := bind_eq_ok.mpr ⟨doc, hload, hstaged⟩
  unfold BrowserGraph.stageIntact
  simp only [hnewest, hschema, hvalid, hall, hbind, htail, Bool.true_eq_false, or_self, if_false]
  rfl

theorem stageIntact_eq_none (h : ¬Intact lib graph) :
    BrowserGraph.stageIntact lib graph = none := by
  unfold BrowserGraph.stageIntact
  cases hnewest : graph.checkpoints.head? with
  | none => rfl
  | some newest =>
    refine if_pos ?_
    by_contra hnot
    obtain ⟨_, hnot⟩ := not_or.mp hnot
    obtain ⟨hvalid, hall⟩ := not_or.mp hnot
    exact h ⟨newest, hnewest, Bool.not_eq_false _ ▸ hvalid,
      List.all_eq_true.mp (Bool.not_eq_false _ ▸ hall)⟩

/-- Both ways of a recovery come to the same. -/
theorem Logged.recover_eq (h : Logged lib start log graph) :
    BrowserGraph.recover lib graph = graph.recoverEach lib := by
  unfold BrowserGraph.recover BrowserGraph.recoverIntact
  by_cases hintact : Intact lib graph
  · obtain ⟨newest, hnewest, hvalid, hrows⟩ := hintact
    obtain ⟨doc, final, hbase, _, htail, hstage⟩ := h.stageIntact_eq hnewest hvalid hrows
    obtain ⟨doc', hbase', _, hselect⟩ := h.intact_base hnewest hvalid
    obtain rfl : doc = doc' := Except.ok.inj (hbase.load.symm.trans hbase'.load)
    unfold BrowserGraph.recoverEach
    simp only [hstage, hselect, List.foldl_nil]
    unfold BrowserGraph.finishTail
    rw [htail]
    simp only [List.isEmpty_nil, if_true]
    unfold BrowserGraph.tailRecovery
    dsimp only
    cases BrowserGraph.upgradeCheckpoint lib graph final (BrowserGraph.lastSequence
      newest.localSequence (graph.updatesAfter newest.localSequence)) <;> rfl
  · simp only [stageIntact_eq_none hintact]
    exact h.recoverRecords_eq

/-! ## What a recovery leaves -/

/-- How a recovery ends, once the tail is replayed. -/
inductive Finished (lib : Library D E) (graph : BrowserGraph) (recovery : BrowserRecovery D)
    (replay : TailReplay D) : Except (WorkerError E) (BrowserRecovery D) × BrowserGraph → Prop
  | failed (error : WorkerError E) : Finished lib graph recovery replay (.error error, graph)
  | current (whole : replay.corruptTail = [])
    (schema : schemaVersion ≤ graph.metadata.schemaVersion) :
    Finished lib graph recovery replay (.ok recovery, graph)
  | upgraded {graph' : BrowserGraph} {snapshot : Bytes} (whole : replay.corruptTail = [])
    (exported : lib.exportSnapshot replay.doc = .ok snapshot)
    (installed : graph.installCheckpoint lib snapshot replay.validThrough schemaVersion =
      .ok graph') :
    Finished lib graph recovery replay (.ok recovery, graph')
  | repaired {checkpoint : Bytes} (cut : replay.corruptTail ≠ [])
    (exported : lib.exportGcCheckpoint replay.doc = .ok checkpoint) :
    Finished lib graph recovery replay (.ok recovery, graph.repairCorruptTail lib checkpoint
      replay.validThrough schemaVersion replay.corruptTail)

theorem finishTail_finished (lib : Library D E) (graph : BrowserGraph)
    (records : List QuarantineRecord) (sequence : Nat) (replay : TailReplay D) : Finished lib graph
      (BrowserGraph.tailRecovery records sequence replay) replay
      (BrowserGraph.finishTail lib graph records sequence replay) := by
  unfold BrowserGraph.finishTail
  cases htail : replay.corruptTail with
  | nil =>
    rw [List.isEmpty_nil, if_pos rfl]
    unfold BrowserGraph.upgradeCheckpoint
    by_cases hschema : schemaVersion ≤ graph.metadata.schemaVersion
    · rw [if_pos hschema]
      exact .current htail hschema
    · rw [if_neg hschema]
      cases hexport : lib.exportSnapshot replay.doc with
      | error error => exact .failed _
      | ok snapshot =>
        cases hinstalled : graph.installCheckpoint lib snapshot replay.validThrough schemaVersion with
        | error error =>
          simp only [Except.mapError, bind, Except.bind, hinstalled]
          exact .failed _
        | ok graph' =>
          simp only [Except.mapError, bind, Except.bind, hinstalled]
          exact .upgraded htail hexport hinstalled
  | cons record rest =>
    rw [List.isEmpty_cons, if_neg Bool.false_ne_true]
    cases hexport : lib.exportGcCheckpoint replay.doc with
    | error error => exact .failed _
    | ok checkpoint =>
      rw [← htail]
      exact .repaired (by rw [htail]; exact List.cons_ne_nil _ _) hexport

/-- A recovery replays the tail after the newest valid checkpoint, or there is none. -/
theorem Logged.recover_cases (h : Logged lib start log graph) :
    (∃ base doc records quarantine taken left replayed,
      Base lib start log graph.metadata.replicaId graph.checkpoints base doc ∧
      replayTail lib doc base.localSequence (graph.updatesAfter base.localSequence) = replayed ∧
      Replayed lib doc base.localSequence
        (Log.after UpdateRecord.localSequence log base.localSequence)
        (graph.updatesAfter base.localSequence) replayed taken left ∧
      selectCheckpoint lib graph.metadata.replicaId graph.checkpoints =
        (records, some (doc, base.localSequence)) ∧
      BrowserGraph.recover lib graph = BrowserGraph.finishTail lib
        { graph with quarantine := quarantine } records base.localSequence replayed) ∨
    ((∀ c ∈ graph.checkpoints, lib.validChecksum c.checksum c.bytes = false) ∧
      ∃ quarantine, BrowserGraph.recover lib graph =
        (.error (.storage BrowserGraph.noneValid), { graph with quarantine := quarantine })) := by
  rw [h.recover_eq]
  unfold BrowserGraph.recoverEach
  rcases selectCheckpoint_cases h.covers h.descending with
    ⟨base, doc, records, hbase, hselect⟩ | ⟨hnone, records, hselect⟩
  · obtain ⟨quarantine, hfold⟩ := foldl_putQuarantine records graph
    obtain ⟨taken, left, hreplayed⟩ := h.replayed hbase
    refine .inl ⟨base, doc, records, quarantine, taken, left, _, hbase, rfl, hreplayed, hselect, ?_⟩
    simp only [hselect, hfold]
    rfl
  · obtain ⟨quarantine, hfold⟩ := foldl_putQuarantine records graph
    refine .inr ⟨hnone, quarantine, ?_⟩
    simp only [hselect, hfold]

/-- Where the replay stops the document is that of the log up to there. -/
theorem holds_validThrough (peer : Nat) {sequence : Nat} {doc : D} {bytes : Bytes}
    {replayed : TailReplay D} {rows taken left : List UpdateRecord}
    (hstops : Stops lib start log sequence replayed taken left)
    (hreplayed : Replayed lib doc sequence (Log.after UpdateRecord.localSequence log sequence)
      rows replayed taken left)
    (hloads : lib.fromSnapshot peer bytes = .ok replayed.doc) :
    Holds lib start log peer replayed.validThrough bytes :=
  ⟨replayed.doc, bind_eq_ok.mpr ⟨_, hloads, bind_eq_ok.mpr ⟨(), hreplayed.valid, rfl⟩⟩,
    hstops.replays⟩

/-- The place where a replay stops is drawn. -/
theorem Logged.validThrough_drawn (h : Logged lib start log graph) {base : CheckpointRecord}
    (hbase : base ∈ graph.checkpoints) {replayed : TailReplay D} {taken left : List UpdateRecord}
    (hstops : Stops lib start log base.localSequence replayed taken left) :
    replayed.validThrough < graph.metadata.nextSequence := by
  rcases hstops.through with hthrough | ⟨u, hu, hthrough⟩
  · rw [hthrough]
    exact (h.covers base hbase).drawn
  · rw [← hthrough]
    exact (h.drawn u hu).2

/-- No row of the tail after the newest valid checkpoint is corrupt. -/
def Clean (lib : Library D E) (graph : BrowserGraph) : Prop :=
  ∃ base ∈ graph.checkpoints, lib.validChecksum base.checksum base.bytes = true ∧
    (∀ c ∈ graph.checkpoints, lib.validChecksum c.checksum c.bytes = true →
      c.localSequence ≤ base.localSequence) ∧
    ∀ u ∈ graph.updatesAfter base.localSequence, lib.validChecksum u.checksum u.bytes = true

/-- What is left by a recovery that ends well. -/
structure Left (lib : Library D E) (start : D) (log : List UpdateRecord) (core : D)
    (graph : BrowserGraph) : Prop where
  replays : replay lib start log = some core
  schema : schemaVersion ≤ graph.metadata.schemaVersion
  clean : Clean lib graph

/-- A new checkpoint that no valid one is above leaves a clean tail. -/
theorem clean_retained {row : CheckpointRecord} {metadata : MetadataRecord}
    {updates : List UpdateRecord} {quarantine : List QuarantineRecord}
    (h : Logged lib start log graph)
    (hrow : lib.validChecksum row.checksum row.bytes = true)
    (hbase : ∃ c ∈ graph.checkpoints, c.localSequence ≤ row.localSequence)
    (hnewest : ∀ c ∈ graph.checkpoints, lib.validChecksum c.checksum c.bytes = true →
      c.localSequence ≤ row.localSequence)
    (hupdates : ∀ u ∈ updates, row.localSequence < u.localSequence →
      lib.validChecksum u.checksum u.bytes = true) :
    Clean lib { graph with
      metadata := metadata
      checkpoints := retained (upsertCheckpoint row graph.checkpoints)
      updates := updates
      quarantine := quarantine } := by
  obtain ⟨_, _, hmem⟩ := retained_descending row h.descending
  refine ⟨row, mem_retained h.two (.inr hbase), hrow, fun c hc hvalid => ?_, fun u hu => ?_⟩
  · rcases hmem c hc with rfl | hc
    · exact le_rfl
    · exact hnewest c hc hvalid
  · obtain ⟨hu, hlt⟩ := List.mem_filter.mp hu
    exact hupdates u hu (of_decide_eq_true hlt)

theorem Logged.recovered (hexports : Exports lib) (hsnapshots : ExportsSnapshot lib)
    (h : Logged lib start log graph) (haddressed : Addressed lib graph) :
    Logged lib start (recoveredLog (BrowserGraph.recover lib graph).1 log)
        (BrowserGraph.recover lib graph).2 ∧
      Addressed lib (BrowserGraph.recover lib graph).2 ∧
      ∀ recovery, (BrowserGraph.recover lib graph).1 = .ok recovery →
        Left lib start (recoveredLog (BrowserGraph.recover lib graph).1 log) recovery.core
          (BrowserGraph.recover lib graph).2 := by
  rcases h.recover_cases with ⟨base, doc, records, quarantine, taken, left, replayed, hbase, _,
    hreplayed, _, heq⟩ | ⟨_, quarantine, heq⟩
  · have hstops := hreplayed.stops h.ordered hbase.replays
    have hquarantined := h.quarantine quarantine
    have haddressed' : Addressed lib { graph with quarantine := quarantine } :=
      ⟨haddressed.distinct, haddressed.carried, haddressed.named⟩
    have hwhole (htail : replayed.corruptTail = []) :
        Log.upTo UpdateRecord.localSequence log replayed.validThrough = log ∧
          ∀ u ∈ graph.updatesAfter base.localSequence,
            lib.validChecksum u.checksum u.bytes = true := by
      have hleft : left = [] := hreplayed.tail.mp (by rw [htail]; rfl)
      exact ⟨hstops.whole hleft, hreplayed.intact.mp hleft⟩
    have hfinished := finishTail_finished lib { graph with quarantine := quarantine } records
      base.localSequence replayed
    rw [← heq] at hfinished
    clear heq
    generalize BrowserGraph.recover lib graph = result at hfinished ⊢
    cases hfinished with
    | failed error =>
      refine ⟨hquarantined, haddressed', fun recovery hok => ?_⟩
      cases hok
    | current whole schema =>
      obtain ⟨hlog, hvalid⟩ := hwhole whole
      have hlog' : recoveredLog (E := E) (.ok (BrowserGraph.tailRecovery records
          base.localSequence replayed)) log = log := hlog
      rw [hlog']
      refine ⟨hquarantined, haddressed', fun recovery hok => ?_⟩
      obtain rfl := Except.ok.inj hok
      refine ⟨?_, schema, ⟨base, hbase.mem, hbase.valid, hbase.newest, hvalid⟩⟩
      rw [← hlog]
      exact hstops.replays
    | upgraded whole exported installed =>
      obtain ⟨hlog, hvalid⟩ := hwhole whole
      have hlog' : recoveredLog (E := E) (.ok (BrowserGraph.tailRecovery records
          base.localSequence replayed)) log = log := hlog
      rw [hlog']
      have hholds := holds_validThrough graph.metadata.replicaId hstops hreplayed
        (hsnapshots _ _ _ exported)
      refine ⟨hquarantined.install supports_schemaVersion hholds installed,
        haddressed'.install installed, fun recovery hok => ?_⟩
      obtain rfl := Except.ok.inj hok
      obtain ⟨_, _, installed⟩ := bind_eq_ok.mp installed
      obtain rfl := pure_eq_ok.mp installed
      refine ⟨?_, le_rfl, clean_retained hquarantined (decide_eq_true rfl) ⟨base, hbase.mem, hstops.base⟩
        (fun c hc hc' => (hbase.newest c hc hc').trans hstops.base) fun u hu hlt => ?_⟩
      · rw [← hlog]
        exact hstops.replays
      · have hu := (List.mem_filter.mp hu).1
        exact hvalid u (List.mem_filter.mpr ⟨hu, decide_eq_true (hstops.base.trans_lt hlt)⟩)
    | repaired cut exported =>
      have hholds := holds_validThrough graph.metadata.replicaId hstops hreplayed
        (hexports _ _ _ exported)
      have hdrawn := h.validThrough_drawn hbase.mem hstops
      have hnewest (c : CheckpointRecord) (hc : c ∈ graph.checkpoints)
          (hc' : lib.validChecksum c.checksum c.bytes = true) :
          c.localSequence ≤ replayed.validThrough := (hbase.newest c hc hc').trans hstops.base
      have hold : ∃ c ∈ graph.checkpoints, c.localSequence ≤ replayed.validThrough :=
        ⟨base, hbase.mem, hstops.base⟩
      refine ⟨hquarantined.repair replayed.corruptTail hdrawn hnewest hold hholds,
        haddressed'.repair _ _ _ _, fun recovery hok => ?_⟩
      obtain rfl := Except.ok.inj hok
      refine ⟨hstops.replays, le_rfl, clean_retained hquarantined (decide_eq_true rfl) hold hnewest
        fun u hu hlt => ?_⟩
      have hle := of_decide_eq_true (List.mem_filter.mp hu).2
      exact absurd hlt (not_lt.mpr hle)
  · rw [heq]
    refine ⟨h.quarantine quarantine, ⟨haddressed.distinct, haddressed.carried, haddressed.named⟩,
      fun recovery hok => ?_⟩
    cases hok

/-- In every run the rows of a graph are of its log, and its outbox has content ids. -/
theorem stored_of_history {faults : Prop} (hexports : Exports lib)
    (hsnapshots : ExportsSnapshot lib) (h : BrowserHistory lib faults start log graph) :
    Logged lib start log graph ∧ Addressed lib graph := by
  induction h with
  | imported replicaId schemaVersion checkpoint historyEpoch serverBase schema loads =>
    exact ⟨logged_imported schema loads, .of_empty rfl⟩
  | created replicaId loads installed =>
    have hlogged := logged_created loads installed
    obtain ⟨_, _, installed⟩ := bind_eq_ok.mp installed
    obtain rfl := pure_eq_ok.mp installed
    exact ⟨hlogged, .of_empty rfl⟩
  | upgraded legacy normalized =>
    obtain ⟨hlogged, _, haddressed, _⟩ := legacy.normalized normalized
    exact ⟨hlogged, haddressed⟩
  | append _ payload now outbox made ih =>
    exact ⟨ih.1.append made, ih.2.append ih.1 payload now outbox⟩
  | acknowledge _ messageIds ih => exact ⟨ih.1.acknowledge messageIds, ih.2.acknowledge messageIds⟩
  | install _ checkpoint sequence schemaVersion schema holds installed ih =>
    exact ⟨ih.1.install schema holds installed, ih.2.install installed⟩
  | replace _ checkpoint historyEpoch baseVersionVector rebasedTail schemaVersion now schema loads
      made ih =>
    exact ⟨ih.1.replace schema loads made, addressed_replace ih.1.next checkpoint historyEpoch
      baseVersionVector rebasedTail schemaVersion now⟩
  | normalize _ ih =>
    rw [ih.2.normalize]
    exact ih
  | recover _ _ ih =>
    obtain ⟨hlogged, haddressed, _⟩ := ih.1.recovered hexports hsnapshots ih.2
    exact ⟨hlogged, haddressed⟩
  | strikeCheckpoint _ _ sequence bytes corrupt ih =>
    exact ⟨ih.1.strikeCheckpoint corrupt, ih.2.strikeCheckpoint sequence bytes⟩
  | strikeUpdate _ _ sequence bytes corrupt ih =>
    exact ⟨ih.1.strikeUpdate corrupt, ih.2.strikeUpdate sequence bytes⟩

/-! ## Agreement -/

/-- How the two ways to recover a graph compare. -/
structure Agreement (lib : Library D E) (start : D) (log : List UpdateRecord)
    (graph : BrowserGraph) : Prop where
  /-- An intact graph is staged as what the validating replay finds, which quarantines
  nothing. -/
  intact : ∀ newest, graph.checkpoints.head? = some newest →
    lib.validChecksum newest.checksum newest.bytes = true →
    (∀ u ∈ graph.updatesAfter newest.localSequence, lib.validChecksum u.checksum u.bytes = true) →
    ∃ base recovery, lib.fromRecoverySnapshot graph.metadata.replicaId newest.bytes = .ok base ∧
      BrowserGraph.stageIntact lib graph = some recovery ∧
      replay lib start log = some recovery.core ∧
      recovery.report.quarantinedRecords = [] ∧
      replayTail lib base newest.localSequence (graph.updatesAfter newest.localSequence) =
        { doc := recovery.core
          validThrough := recovery.appliedThrough
          replayed := recovery.report.replayedUpdates }
  fails : BrowserGraph.stageIntact lib graph = none ↔ ¬Intact lib graph
  /-- Where the fast path fails it leaves the graph as it is. -/
  discarded : BrowserGraph.stageIntact lib graph = none →
    BrowserGraph.recoverIntact lib graph = (.ok none, graph)
  /-- The slow path stops at the longest valid part of the tail after the newest valid
  checkpoint. -/
  longest : ∀ base ∈ graph.checkpoints, lib.validChecksum base.checksum base.bytes = true →
    (∀ c ∈ graph.checkpoints, lib.validChecksum c.checksum c.bytes = true →
      c.localSequence ≤ base.localSequence) →
    ∃ doc taken left, lib.fromRecoverySnapshot graph.metadata.replicaId base.bytes = .ok doc ∧
      LongestValid lib doc (graph.updatesAfter base.localSequence) taken left ∧
      ∀ recovery, (BrowserGraph.recoverRecords lib graph).1 = .ok recovery →
        replay lib doc taken = some recovery.core ∧
        recovery.appliedThrough = BrowserGraph.lastSequence base.localSequence taken ∧
        recovery.report.checkpointSequence = base.localSequence ∧
        recovery.report.replayedUpdates = taken.length ∧
        ∃ handles, recovery.report.quarantinedRecords =
          handles ++ left.map fun u => "update-" ++ toString u.localSequence
  none : (∀ c ∈ graph.checkpoints, lib.validChecksum c.checksum c.bytes = false) →
    (BrowserGraph.recoverRecords lib graph).1 = .error (.storage BrowserGraph.noneValid)
  /-- A recovery comes to the same as the replay of every record on its own. -/
  same : BrowserGraph.recover lib graph = graph.recoverEach lib

theorem Base.unique {peer : Nat} {checkpoints : List CheckpointRecord}
    {base other : CheckpointRecord} {doc : D}
    (hdescending : checkpoints.Pairwise fun a b => b.localSequence < a.localSequence)
    (h : Base lib start log peer checkpoints base doc) (hother : other ∈ checkpoints)
    (hvalid : lib.validChecksum other.checksum other.bytes = true)
    (hnewest : ∀ c ∈ checkpoints, lib.validChecksum c.checksum c.bytes = true →
      c.localSequence ≤ other.localSequence) : other = base := by
  have hle := h.newest other hother hvalid
  have hge := hnewest base h.mem h.valid
  have hordered : Log.Ordered CheckpointRecord.localSequence checkpoints.reverse :=
    List.pairwise_reverse.mpr hdescending
  exact hordered.eq_of_key (List.mem_reverse.mpr hother) (List.mem_reverse.mpr h.mem)
    (le_antisymm hle hge)

theorem finishTail_ok {records : List QuarantineRecord} {sequence : Nat} {replay : TailReplay D}
    {recovery : BrowserRecovery D}
    (h : (BrowserGraph.finishTail lib graph records sequence replay).1 = .ok recovery) :
    recovery = BrowserGraph.tailRecovery records sequence replay := by
  have hfinished := finishTail_finished lib graph records sequence replay
  generalize BrowserGraph.finishTail lib graph records sequence replay = result at h hfinished
  cases hfinished with
  | failed error => cases h
  | current _ _ => exact (Except.ok.inj h).symm
  | upgraded _ _ _ => exact (Except.ok.inj h).symm
  | repaired _ _ => exact (Except.ok.inj h).symm

theorem handles_quarantined {left : List UpdateRecord} {records : List QuarantineRecord}
    (h : List.Forall₂ (fun row record => ∃ reason, record = quarantinedUpdate row reason) left
      records) : records.map QuarantineRecord.exportHandle =
        left.map fun u => "update-" ++ toString u.localSequence := by
  induction h with
  | nil => rfl
  | cons hrecord _ ih =>
    obtain ⟨reason, rfl⟩ := hrecord
    rw [List.map_cons, List.map_cons, ih]
    rfl

/-- In every run, whatever became corrupt, both ways of recovery agree. -/
theorem recovery_paths_agree {faults : Prop} (hexports : Exports lib)
    (hsnapshots : ExportsSnapshot lib) (hhistory : BrowserHistory lib faults start log graph) :
    Agreement lib start log graph := by
  obtain ⟨h, _⟩ := stored_of_history hexports hsnapshots hhistory
  constructor
  · intro newest hnewest hvalid hrows
    obtain ⟨doc, final, hbase, hfinal, htail, hstage⟩ := h.stageIntact_eq hnewest hvalid hrows
    rw [htail] at hstage
    exact ⟨doc, _, hbase.load, hstage, hfinal, rfl, htail⟩
  · refine ⟨fun hnone hintact => ?_, stageIntact_eq_none⟩
    obtain ⟨newest, hnewest, hvalid, hrows⟩ := hintact
    obtain ⟨_, _, _, _, _, hstage⟩ := h.stageIntact_eq hnewest hvalid hrows
    rw [hnone] at hstage
    cases hstage
  · intro hnone
    unfold BrowserGraph.recoverIntact
    rw [hnone]
  · intro base hmem hvalid hnewest
    rcases selectCheckpoint_cases h.covers h.descending with
      ⟨base', doc, records, hbase, hselect⟩ | ⟨hnone, _⟩
    · obtain rfl := hbase.unique h.descending hmem hvalid hnewest
      obtain ⟨taken, left, hlongest, hdoc, hthrough, hcount, _, hleft⟩ :=
        replayTail_longest lib doc base.localSequence (graph.updatesAfter base.localSequence)
      refine ⟨doc, taken, left, hbase.load, hlongest, fun recovery hok => ?_⟩
      rw [h.recoverRecords_eq] at hok
      unfold BrowserGraph.recoverEach at hok
      obtain ⟨quarantine, hfold⟩ := foldl_putQuarantine records graph
      simp only [hselect, hfold] at hok
      obtain rfl := finishTail_ok hok
      refine ⟨hdoc, hthrough, rfl, hcount, records.map QuarantineRecord.exportHandle, ?_⟩
      rw [← handles_quarantined hleft]
      exact List.map_append
    · rw [hnone base hmem] at hvalid
      cases hvalid
  · intro hnone
    rw [h.recoverRecords_eq]
    unfold BrowserGraph.recoverEach
    rcases selectCheckpoint_cases h.covers h.descending with
      ⟨base, doc, records, hbase, hselect⟩ | ⟨_, records, hselect⟩
    · have hvalid := hbase.valid
      rw [hnone base hbase.mem] at hvalid
      cases hvalid
    · simp only [hselect]
  · exact h.recover_eq

/-- The newest checkpoint is corrupt, and the tail is replayed from the other. -/
theorem recovery_paths_agree_pendingGraph :
    Agreement byteLibrary [] [pendingUpdate] (pendingGraph.strikeCheckpoint 1 []) := by
  have hstruck : BrowserHistory byteLibrary True [] [pendingUpdate]
      (pendingGraph.strikeCheckpoint 1 []) :=
    pendingGraph_history.strikeCheckpoint trivial 1 [] (by decide)
  exact recovery_paths_agree exports_byteLibrary exportsSnapshot_byteLibrary hstruck

end Neoseq.Local
