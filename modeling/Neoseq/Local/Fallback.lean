import Neoseq.Local.Replay

/-! Which checkpoint is left when the newest one is corrupt. Records become corrupt at any
time; whether the fallback recovers the log depends on the records that were corrupt
already, since retention counts checkpoints whether they can be used or not. -/

namespace Neoseq.Local
open Collections

variable {D E : Type}

/-! ## Runs -/

def SqliteGraph.strikeCheckpoint (graph : SqliteGraph) (sequence : Nat) (bytes : Bytes) :
    SqliteGraph :=
  { graph with checkpoints := strikeCheckpoints sequence bytes graph.checkpoints }

def SqliteGraph.strikeUpdate (graph : SqliteGraph) (sequence : Nat) (bytes : Bytes) :
    SqliteGraph :=
  { graph with updates := strikeUpdates sequence bytes graph.updates }

/-- A graph with two valid checkpoints and the updates after the older one. -/
structure Ready (lib : Library D E) (start : D) (log : List UpdateRecord) (graph : SqliteGraph) :
    Prop where
  ordered : Log.Ordered UpdateRecord.localSequence log
  drawn : ∀ u ∈ log, u.localSequence < graph.metadata.nextSequence
  identity : ∀ u ∈ log, u.checksum = lib.checksum u.bytes
  replays : (replay lib start log).isSome = true
  schema : supportsDocumentSchema graph.metadata.schemaVersion = true
  checkpoints : ∃ newest fallback, graph.checkpoints = [newest, fallback] ∧
    fallback.localSequence < newest.localSequence ∧
    graph.updates = Log.after UpdateRecord.localSequence log fallback.localSequence
  valid : ∀ c ∈ graph.checkpoints, supportsDocumentSchema c.schemaVersion = true ∧
    c.localSequence < graph.metadata.nextSequence ∧
    Holds lib start log graph.metadata.replicaId c.localSequence c.bytes

/-- The update that an append adds to the log. -/
def SqliteGraph.inserted (lib : Library D E) (graph : SqliteGraph) (update : Bytes) :
    List UpdateRecord :=
  if graph.updates.any fun u => u.checksum = lib.checksum update then []
  else [⟨graph.metadata.nextSequence, lib.checksum update, update⟩]

/-- The updates that were appended and are not cut off, and the rows that are left. -/
inductive History (lib : Library D E) (start : D) : List UpdateRecord → SqliteGraph → Prop
  | start {log : List UpdateRecord} {graph : SqliteGraph} (ready : Ready lib start log graph) :
    History lib start log graph
  /-- An update is appended that was made on the document of the log. -/
  | append {log : List UpdateRecord} {graph : SqliteGraph} (history : History lib start log graph)
    (update : Bytes)
    (made : ∃ doc doc', replay lib start log = some doc ∧
      lib.importRecoveryUpdate doc update = .ok doc') :
    History lib start (log ++ graph.inserted lib update) (graph.appendUpdate lib update).2
  /-- A checkpoint is installed that holds the updates up to its sequence. -/
  | install {log : List UpdateRecord} {graph graph' : SqliteGraph}
    (history : History lib start log graph) (checkpoint : Bytes) (sequence : Nat)
    (holds : Holds lib start log graph.metadata.replicaId sequence checkpoint)
    (installed : graph.installCheckpoint lib checkpoint sequence = .ok graph') :
    History lib start log graph'
  | recover {log : List UpdateRecord} {graph : SqliteGraph}
    (history : History lib start log graph) :
    History lib start (cutOff graph.updates (recoverGraph lib graph).2.updates log)
      (recoverGraph lib graph).2
  | strikeCheckpoint {log : List UpdateRecord} {graph : SqliteGraph}
    (history : History lib start log graph) (sequence : Nat) (bytes : Bytes)
    (corrupt : ∀ c ∈ graph.checkpoints, c.localSequence = sequence →
      lib.validChecksum c.checksum bytes = false) :
    History lib start log (graph.strikeCheckpoint sequence bytes)
  | strikeUpdate {log : List UpdateRecord} {graph : SqliteGraph}
    (history : History lib start log graph) (sequence : Nat) (bytes : Bytes)
    (corrupt : ∀ u ∈ graph.updates, u.localSequence = sequence →
      lib.validChecksum u.checksum bytes = false) :
    History lib start log (graph.strikeUpdate sequence bytes)

/-! ## The statement -/

/-- A retained checkpoint other than the one of a sequence is valid, and with it and the
updates after it every update of the log is recovered. -/
def Survives (lib : Library D E) (start : D) (log : List UpdateRecord) (graph : SqliteGraph)
    (sequence : Nat) : Prop :=
  ∃ fallback ∈ graph.checkpoints, fallback.localSequence ≠ sequence ∧
    lib.validChecksum fallback.checksum fallback.bytes = true ∧
    ∃ doc report, (recoverGraph lib graph).1 = .ok (doc, report) ∧
      report.checkpointSequence = fallback.localSequence ∧
      report.replayedUpdates =
        (Log.after UpdateRecord.localSequence log fallback.localSequence).length ∧
      replay lib start log = some doc

/-- No record is corrupt already: no other checkpoint, and no update after one. -/
def Undamaged (lib : Library D E) (graph : SqliteGraph) (sequence : Nat) : Prop :=
  ∀ c ∈ graph.checkpoints, c.localSequence ≠ sequence →
    lib.validChecksum c.checksum c.bytes = true ∧
      ∀ u ∈ graph.updates, c.localSequence < u.localSequence →
        lib.validChecksum u.checksum u.bytes = true

/-! ## The invariant -/

structure Sound (lib : Library D E) (start : D) (log : List UpdateRecord) (graph : SqliteGraph) :
    Prop where
  ordered : Log.Ordered UpdateRecord.localSequence log
  drawn : ∀ u ∈ log, u.localSequence < graph.metadata.nextSequence
  identity : ∀ u ∈ log, u.checksum = lib.checksum u.bytes
  replays : (replay lib start log).isSome = true
  schema : supportsDocumentSchema graph.metadata.schemaVersion = true
  checkpoints : ∃ newest fallback floor, graph.checkpoints = [newest, fallback] ∧
    fallback.localSequence < newest.localSequence ∧ floor ≤ fallback.localSequence ∧
    List.Forall₂ (Kept lib) (Log.after UpdateRecord.localSequence log floor) graph.updates
  covers : ∀ c ∈ graph.checkpoints,
    Covers lib start log graph.metadata.replicaId graph.metadata.nextSequence c

variable {lib : Library D E} {start : D} {log : List UpdateRecord} {graph : SqliteGraph}

theorem Ready.sound (h : Ready lib start log graph) : Sound lib start log graph := by
  obtain ⟨newest, fallback, hcheckpoints, hlt, hupdates⟩ := h.checkpoints
  refine ⟨h.ordered, h.drawn, h.identity, h.replays, h.schema,
    ⟨newest, fallback, _, hcheckpoints, hlt, le_rfl, ?_⟩, fun c hc => ?_⟩
  · rw [hupdates]
    exact List.forall₂_same.mpr fun u _ => ⟨rfl, rfl, .inl rfl⟩
  · obtain ⟨hschema, hdrawn, hholds⟩ := h.valid c hc
    exact ⟨hschema, hdrawn, fun _ => hholds⟩

theorem kept_after {floor n : Nat} {log rows : List UpdateRecord} (hfloor : floor ≤ n)
    (h : List.Forall₂ (Kept lib) (Log.after UpdateRecord.localSequence log floor) rows) :
    List.Forall₂ (Kept lib) (Log.after UpdateRecord.localSequence log n)
      (rows.filter fun u => decide (n < u.localSequence)) := by
  rw [← Log.after_after hfloor]
  exact kept_filter (p := fun k => decide (n < k)) h

theorem kept_upTo {floor n : Nat} {log rows : List UpdateRecord}
    (h : List.Forall₂ (Kept lib) (Log.after UpdateRecord.localSequence log floor) rows) :
    List.Forall₂ (Kept lib)
      (Log.after UpdateRecord.localSequence (Log.upTo UpdateRecord.localSequence log n) floor)
      (rows.filter fun u => decide (u.localSequence ≤ n)) := by
  rw [Log.after_upTo]
  exact kept_filter (p := fun k => decide (k ≤ n)) h

/-- Of two checkpoints and a new one two stay, none below the older one. -/
theorem retained_upsert (row : CheckpointRecord) {newest fallback : CheckpointRecord}
    (h : fallback.localSequence < newest.localSequence) :
    ∃ x y, retained (upsertCheckpoint row [newest, fallback]) = [x, y] ∧
      y.localSequence < x.localSequence ∧ fallback.localSequence ≤ y.localSequence ∧
      x ∈ [newest, fallback, row] ∧ y ∈ [newest, fallback, row] := by
  unfold retained upsertCheckpoint
  rcases lt_trichotomy row.localSequence fallback.localSequence with hlow | heq | hhigh
  · refine ⟨newest, fallback, ?_, h, le_rfl, by simp, by simp⟩
    simp [hlow, show row.localSequence < newest.localSequence by omega]
  · refine ⟨newest, row, ?_, by omega, heq.ge, by simp, by simp⟩
    simp [heq, h, show ¬newest.localSequence < fallback.localSequence by omega]
  · have hnot : ¬row.localSequence < fallback.localSequence := by omega
    rcases lt_trichotomy row.localSequence newest.localSequence with hmid | heq | htop
    · refine ⟨newest, row, ?_, hmid, hhigh.le, by simp, by simp⟩
      simp [hmid, hnot]
    · refine ⟨row, fallback, ?_, hhigh, le_rfl, by simp, by simp⟩
      simp [heq, h, show ¬newest.localSequence < fallback.localSequence by omega]
    · refine ⟨row, newest, ?_, htop, h.le, by simp, by simp⟩
      simp [htop, hnot, show ¬row.localSequence < newest.localSequence by omega]

/-! ## What a recovery does -/

/-- Of every pair of rows each step keeps what it needs; the quarantine is on its own. -/
theorem Sound.quarantine (h : Sound lib start log graph) (quarantine : List QuarantineRecord) :
    Sound lib start log { graph with quarantine := quarantine } :=
  ⟨h.ordered, h.drawn, h.identity, h.replays, h.schema, h.checkpoints, h.covers⟩

/-- The rows that are there are newer than no checkpoint is old. -/
theorem Sound.rows (h : Sound lib start log graph) : ∃ floor,
    (∀ c ∈ graph.checkpoints, floor ≤ c.localSequence) ∧
      List.Forall₂ (Kept lib) (Log.after UpdateRecord.localSequence log floor) graph.updates := by
  obtain ⟨newest, fallback, floor, hcheckpoints, hlt, hfloor, hrows⟩ := h.checkpoints
  refine ⟨floor, fun c hc => ?_, hrows⟩
  rw [hcheckpoints] at hc
  rcases List.mem_pair.mp hc with rfl | rfl
  · exact hfloor.trans hlt.le
  · exact hfloor

theorem Sound.replayed (h : Sound lib start log graph) {base : CheckpointRecord} {doc : D}
    (hbase : Base lib start log graph.metadata.replicaId graph.checkpoints base doc) :
    ∃ taken left, Replayed lib doc base.localSequence
      (Log.after UpdateRecord.localSequence log base.localSequence)
      (graph.updatesAfter base.localSequence)
      (replayTail lib doc base.localSequence (graph.updatesAfter base.localSequence)) taken left := by
  obtain ⟨floor, hfloor, hrows⟩ := h.rows
  refine replayTail_replayed (fromRecoverySnapshot_valid hbase.load).2
    (kept_after (hfloor base hbase.mem) hrows) ?_
  have hreplays := h.replays
  rw [← Log.upTo_append_after h.ordered base.localSequence, replay_append, hbase.replays] at hreplays
  exact hreplays

/-- The end of a recovery whose document is valid. -/
theorem recoverFrom_eq (quarantined : List QuarantineRecord) {doc : D} {sequence : Nat}
    {replayed : TailReplay D}
    (hreplay : replayTail lib doc sequence (graph.updatesAfter sequence) = replayed)
    (hvalid : lib.validate replayed.doc = .ok ()) :
    recoverFrom lib graph quarantined doc sequence =
      if replayed.corruptTail.isEmpty then
        (.ok (replayed.doc, ⟨sequence, replayed.replayed,
          (quarantined ++ replayed.corruptTail).map QuarantineRecord.exportHandle⟩), graph)
      else match lib.exportGcCheckpoint replayed.doc with
        | .error error => (.error (.core error), graph)
        | .ok checkpoint =>
          (.ok (replayed.doc, ⟨sequence, replayed.replayed,
              (quarantined ++ replayed.corruptTail).map QuarantineRecord.exportHandle⟩),
            graph.repairCorruptTail lib checkpoint replayed.validThrough replayed.corruptTail) := by
  subst hreplay
  unfold recoverFrom
  dsimp only
  split
  · next error herror =>
    unfold Library.finishRecovery at herror
    rw [hvalid] at herror
    cases herror
  · rfl

/-- A checkpoint covers a log that is cut off no earlier than where it stands. -/
theorem Covers.cutOff {peer next n : Nat} {c : CheckpointRecord}
    (h : Covers lib start log peer next c)
    (hbelow : lib.validChecksum c.checksum c.bytes = true → c.localSequence ≤ n) :
    Covers lib start (Log.upTo UpdateRecord.localSequence log n) peer next c := by
  refine ⟨h.schema, h.drawn, fun hvalid => ?_⟩
  obtain ⟨doc, hload, hdoc⟩ := h.holds hvalid
  refine ⟨doc, hload, ?_⟩
  rw [Log.upTo_upTo (hbelow hvalid)]
  exact hdoc

section
variable {base : CheckpointRecord} {doc : D} {taken left : List UpdateRecord}
  {replayed : TailReplay D}

/-- The document that a replay stops at is covered by the checkpoint made of it. -/
theorem Sound.covers_replayed (hexports : Exports lib) (h : Sound lib start log graph)
    (hbase : Base lib start log graph.metadata.replicaId graph.checkpoints base doc)
    (hreplayed : Replayed lib doc base.localSequence
      (Log.after UpdateRecord.localSequence log base.localSequence)
      (graph.updatesAfter base.localSequence) replayed taken left)
    {bytes : Bytes} (hexport : lib.exportGcCheckpoint replayed.doc = .ok bytes) :
    Covers lib start (Log.upTo UpdateRecord.localSequence log replayed.validThrough)
      graph.metadata.replicaId graph.metadata.nextSequence
      ⟨replayed.validThrough, schemaVersion, lib.checksum bytes, bytes⟩ := by
  have hstops := hreplayed.stops h.ordered hbase.replays
  have hdrawn : replayed.validThrough < graph.metadata.nextSequence := by
    rcases hstops.through with heq | ⟨u, hu, heq⟩
    · rw [heq]
      exact (h.covers base hbase.mem).drawn
    · rw [← heq]
      exact h.drawn u hu
  refine ⟨supports_schemaVersion, hdrawn, fun _ => ⟨replayed.doc, ?_, ?_⟩⟩
  · exact bind_eq_ok.mpr ⟨_, hexports _ _ _ hexport, bind_eq_ok.mpr ⟨(), hreplayed.valid, rfl⟩⟩
  · rw [Log.upTo_upTo le_rfl]
    exact hstops.replays

/-- A repair cuts the log off where the replay stopped. -/
theorem Sound.repaired (hexports : Exports lib) (h : Sound lib start log graph)
    (hbase : Base lib start log graph.metadata.replicaId graph.checkpoints base doc)
    (hreplayed : Replayed lib doc base.localSequence
      (Log.after UpdateRecord.localSequence log base.localSequence)
      (graph.updatesAfter base.localSequence) replayed taken left)
    {bytes : Bytes} (hexport : lib.exportGcCheckpoint replayed.doc = .ok bytes)
    (records : List QuarantineRecord) :
    Sound lib start (Log.upTo UpdateRecord.localSequence log replayed.validThrough)
      (graph.repairCorruptTail lib bytes replayed.validThrough records) := by
  have hstops := hreplayed.stops h.ordered hbase.replays
  have hcovers := h.covers_replayed hexports hbase hreplayed hexport
  obtain ⟨newest, fallback, floor, hcheckpoints, hlt, hfloor, hrows⟩ := h.checkpoints
  obtain ⟨x, y, hretained, hxy, hy, hx, hy'⟩ := retained_upsert
    ⟨replayed.validThrough, schemaVersion, lib.checksum bytes, bytes⟩ hlt
  have hcoversAll (c : CheckpointRecord) (hc : c ∈ [newest, fallback,
      ⟨replayed.validThrough, schemaVersion, lib.checksum bytes, bytes⟩]) :
      Covers lib start (Log.upTo UpdateRecord.localSequence log replayed.validThrough)
        graph.metadata.replicaId graph.metadata.nextSequence c := by
    rw [List.mem_cons, List.mem_cons, List.mem_singleton, ← or_assoc] at hc
    rcases hc with hc | rfl
    · have hc : c ∈ graph.checkpoints := by
        rw [hcheckpoints]
        exact List.mem_pair.mpr hc
      exact (h.covers c hc).cutOff fun hvalid => (hbase.newest c hc hvalid).trans hstops.base
    · exact hcovers
  refine ⟨h.ordered.upTo _, fun u hu => h.drawn u (Log.mem_upTo.mp hu).1,
    fun u hu => h.identity u (Log.mem_upTo.mp hu).1, ?_, supports_schemaVersion,
    ⟨x, y, floor, ?_, hxy, hfloor.trans hy, kept_upTo hrows⟩, fun c hc => ?_⟩
  · rw [hstops.replays]
    rfl
  · show retained (upsertCheckpoint _ graph.checkpoints) = [x, y]
    rw [hcheckpoints]
    exact hretained
  · have hc : c ∈ retained (upsertCheckpoint _ graph.checkpoints) := hc
    rw [hcheckpoints, hretained] at hc
    rcases List.mem_pair.mp hc with rfl | rfl
    · exact hcoversAll _ hx
    · exact hcoversAll _ hy'

end

/-- A recovery from a checkpoint of the log ends well, or in an export that fails. -/
theorem Sound.recoverFrom (hexports : Exports lib) (h : Sound lib start log graph)
    {base : CheckpointRecord} {doc : D}
    (hbase : Base lib start log graph.metadata.replicaId graph.checkpoints base doc)
    (quarantined : List QuarantineRecord) :
    let recovered := (recoverFrom lib graph quarantined doc base.localSequence).2
    Sound lib start (cutOff graph.updates recovered.updates log) recovered := by
  intro recovered
  obtain ⟨taken, left, hreplayed⟩ := h.replayed hbase
  generalize hreplay : replayTail lib doc base.localSequence
    (graph.updatesAfter base.localSequence) = replayed at hreplayed
  have hunchanged (hsame : recovered = graph) :
      Sound lib start (cutOff graph.updates recovered.updates log) recovered := by
    rw [hsame, cutOff_self]
    exact h
  have hrecovered : recovered =
      (Local.recoverFrom lib graph quarantined doc base.localSequence).2 := rfl
  rw [recoverFrom_eq _ hreplay hreplayed.valid] at hrecovered
  by_cases hleft : left = []
  · rw [if_pos (hreplayed.tail.mpr hleft)] at hrecovered
    exact hunchanged hrecovered
  · rw [if_neg fun he => hleft (hreplayed.tail.mp he)] at hrecovered
    cases hexport : lib.exportGcCheckpoint replayed.doc with
    | error error =>
      rw [hexport] at hrecovered
      exact hunchanged hrecovered
    | ok bytes =>
      rw [hexport] at hrecovered
      obtain ⟨floor, hfloor, hrows⟩ := h.rows
      have hbase' := (hfloor base hbase.mem).trans
        (hreplayed.stops h.ordered hbase.replays).base
      have hlog : cutOff graph.updates recovered.updates log =
          Log.upTo UpdateRecord.localSequence log replayed.validThrough := by
        rw [hrecovered]
        exact cutOff_upTo hrows fun u hu hlt => Log.mem_after.mpr ⟨hu, hbase'.trans_lt hlt⟩
      rw [hlog, hrecovered]
      exact h.repaired hexports hbase hreplayed hexport replayed.corruptTail

/-- The rows without the quarantine are those before. -/
theorem foldl_quarantineRecord (records : List QuarantineRecord) (graph : SqliteGraph) :
    ∃ quarantine, records.foldl .quarantineRecord graph = { graph with quarantine := quarantine } := by
  induction records generalizing graph with
  | nil => exact ⟨graph.quarantine, rfl⟩
  | cons record records ih => exact ih (graph.quarantineRecord record)

theorem Sound.descending (h : Sound lib start log graph) :
    graph.checkpoints.Pairwise fun a b => b.localSequence < a.localSequence := by
  obtain ⟨newest, fallback, _, hcheckpoints, hlt, _⟩ := h.checkpoints
  rw [hcheckpoints]
  exact List.pairwise_pair.mpr hlt

/-- A recovery takes the newest valid checkpoint, or there is none. -/
theorem recoverGraph_cases {next : Nat}
    (hschema : supportsDocumentSchema graph.metadata.schemaVersion = true)
    (hcovers : ∀ c ∈ graph.checkpoints, Covers lib start log graph.metadata.replicaId next c)
    (hdescending : graph.checkpoints.Pairwise fun a b => b.localSequence < a.localSequence)
    (hsome : graph.checkpoints.isEmpty = false) :
    (∃ base doc records quarantine,
      Base lib start log graph.metadata.replicaId graph.checkpoints base doc ∧
      selectCheckpoint lib graph.metadata.replicaId graph.checkpoints =
        (records, some (doc, base.localSequence)) ∧
      recoverGraph lib graph =
        Local.recoverFrom lib { graph with quarantine := quarantine } records doc base.localSequence) ∨
    ((∀ c ∈ graph.checkpoints, lib.validChecksum c.checksum c.bytes = false) ∧
      ∃ quarantine, recoverGraph lib graph =
        (.error .noValidCheckpoint, { graph with quarantine := quarantine })) := by
  rcases selectCheckpoint_cases hcovers hdescending with
    ⟨base, doc, records, hbase, hselect⟩ | ⟨hnone, records, hselect⟩
  · obtain ⟨quarantine, hfold⟩ := foldl_quarantineRecord records graph
    refine .inl ⟨base, doc, records, quarantine, hbase, hselect, ?_⟩
    unfold recoverGraph
    rw [hschema, if_neg (by simp), hselect]
    simp only [hfold]
  · obtain ⟨quarantine, hfold⟩ := foldl_quarantineRecord records graph
    refine .inr ⟨hnone, quarantine, ?_⟩
    unfold recoverGraph
    rw [hschema, if_neg (by simp), hselect]
    simp only [hfold, hsome, Bool.false_eq_true, if_false]

theorem Sound.some_checkpoint (h : Sound lib start log graph) :
    graph.checkpoints.isEmpty = false := by
  obtain ⟨newest, fallback, _, hcheckpoints, _⟩ := h.checkpoints
  rw [hcheckpoints]
  rfl

/-! ## The steps -/

theorem Sound.recover (hexports : Exports lib) (h : Sound lib start log graph) :
    Sound lib start (cutOff graph.updates (recoverGraph lib graph).2.updates log)
      (recoverGraph lib graph).2 := by
  rcases recoverGraph_cases h.schema h.covers h.descending h.some_checkpoint with
    ⟨base, doc, records, quarantine, hbase, _, heq⟩ | ⟨_, quarantine, heq⟩
  · rw [heq]
    exact (h.quarantine quarantine).recoverFrom hexports hbase records
  · rw [heq, cutOff_self]
    exact h.quarantine quarantine

theorem find?_eq_none_of_any {rows : List UpdateRecord} {digest : String}
    (h : (rows.any fun u => u.checksum = digest) = false) :
    (rows.find? fun u => u.checksum = digest) = none := by
  refine List.find?_eq_none.mpr fun u hu => ?_
  exact List.any_eq_false.mp h u hu

theorem Sound.append (h : Sound lib start log graph) {update : Bytes}
    (hmade : ∃ doc doc', replay lib start log = some doc ∧
      lib.importRecoveryUpdate doc update = .ok doc') :
    Sound lib start (log ++ graph.inserted lib update) (graph.appendUpdate lib update).2 := by
  unfold SqliteGraph.inserted SqliteGraph.appendUpdate
  cases hany : graph.updates.any fun u => u.checksum = lib.checksum update with
  | true =>
    rw [if_pos rfl, List.append_nil]
    cases hfind : graph.updates.find? fun u => u.checksum = lib.checksum update with
    | some row =>
      simp only [hfind]
      exact h
    | none =>
      obtain ⟨u, hu, heq⟩ := List.any_eq_true.mp hany
      exact absurd heq (List.find?_eq_none.mp hfind u hu)
  | false =>
    rw [if_neg Bool.false_ne_true]
    simp only [find?_eq_none_of_any hany]
    obtain ⟨newest, fallback, floor, hcheckpoints, hlt, hfloor, hrows⟩ := h.checkpoints
    have hnewest : newest ∈ graph.checkpoints := by
      rw [hcheckpoints]
      exact List.mem_cons_self
    have hdrawn := (h.covers newest hnewest).drawn
    refine ⟨h.ordered.snoc h.drawn, ?_, ?_, ?_, h.schema,
      ⟨newest, fallback, floor, hcheckpoints, hlt, hfloor, ?_⟩, fun c hc => ?_⟩
    · intro u hu
      show u.localSequence < graph.metadata.nextSequence + 1
      rcases List.mem_append.mp hu with hu | hu
      · exact (h.drawn u hu).trans (Nat.lt_succ_self _)
      · rw [List.mem_singleton.mp hu]
        exact Nat.lt_succ_self _
    · intro u hu
      rcases List.mem_append.mp hu with hu | hu
      · exact h.identity u hu
      · rw [List.mem_singleton.mp hu]
    · obtain ⟨doc, doc', hdoc, himport⟩ := hmade
      rw [replay_append, hdoc, Option.bind_some]
      unfold replay
      rw [List.foldlM_cons, himport]
      rfl
    · have hlast : floor < graph.metadata.nextSequence := by omega
      rw [Log.after_snoc log hlast]
      exact List.rel_append hrows (.cons ⟨rfl, rfl, .inl rfl⟩ .nil)
    · have hold := h.covers c hc
      refine ⟨hold.schema, hold.drawn.trans (Nat.lt_succ_self _), fun hvalid => ?_⟩
      obtain ⟨d, hload, hd⟩ := hold.holds hvalid
      exact ⟨d, hload, by rw [Log.upTo_snoc log hold.drawn]; exact hd⟩

theorem Sound.install (h : Sound lib start log graph) {graph' : SqliteGraph} {checkpoint : Bytes}
    {sequence : Nat} (hholds : Holds lib start log graph.metadata.replicaId sequence checkpoint)
    (hinstalled : graph.installCheckpoint lib checkpoint sequence = .ok graph') :
    Sound lib start log graph' := by
  obtain ⟨_, hrange, hinstalled⟩ := bind_eq_ok.mp hinstalled
  have hrange := not_or.mp (refuse_eq_ok.mp hrange)
  obtain rfl := pure_eq_ok.mp hinstalled
  obtain ⟨newest, fallback, floor, hcheckpoints, hlt, hfloor, hrows⟩ := h.checkpoints
  obtain ⟨x, y, hretained, hxy, hy, hx, hy'⟩ := retained_upsert
    ⟨sequence, schemaVersion, lib.checksum checkpoint, checkpoint⟩ hlt
  have hcovers (c : CheckpointRecord) (hc : c ∈ [newest, fallback,
      ⟨sequence, schemaVersion, lib.checksum checkpoint, checkpoint⟩]) :
      Covers lib start log graph.metadata.replicaId graph.metadata.nextSequence c := by
    rw [List.mem_cons, List.mem_cons, List.mem_singleton, ← or_assoc] at hc
    rcases hc with hc | rfl
    · refine h.covers c ?_
      rw [hcheckpoints]
      exact List.mem_pair.mpr hc
    · exact ⟨supports_schemaVersion, not_le.mp hrange.2, fun _ => hholds⟩
  refine ⟨h.ordered, h.drawn, h.identity, h.replays, supports_schemaVersion,
    ⟨x, y, y.localSequence, ?_, hxy, le_rfl, ?_⟩, fun c hc => ?_⟩
  · show retained (upsertCheckpoint _ graph.checkpoints) = [x, y]
    rw [hcheckpoints]
    exact hretained
  · show List.Forall₂ _ _ (SqliteGraph.reclaim (retained (upsertCheckpoint _ graph.checkpoints)) _)
    rw [hcheckpoints, hretained]
    exact kept_after (hfloor.trans hy) hrows
  · have hc : c ∈ retained (upsertCheckpoint _ graph.checkpoints) := hc
    rw [hcheckpoints, hretained] at hc
    have hold : Covers lib start log graph.metadata.replicaId graph.metadata.nextSequence c := by
      rcases List.mem_pair.mp hc with rfl | rfl
      · exact hcovers _ hx
      · exact hcovers _ hy'
    exact ⟨hold.schema, hold.drawn, hold.holds⟩

theorem Sound.strikeCheckpoint (h : Sound lib start log graph) {sequence : Nat} {bytes : Bytes}
    (hcorrupt : ∀ c ∈ graph.checkpoints, c.localSequence = sequence →
      lib.validChecksum c.checksum bytes = false) :
    Sound lib start log (graph.strikeCheckpoint sequence bytes) := by
  obtain ⟨newest, fallback, floor, hcheckpoints, hlt, hfloor, hrows⟩ := h.checkpoints
  have hstruck (c : CheckpointRecord) : (if c.localSequence = sequence then
      { c with bytes := bytes } else c).localSequence = c.localSequence := by
    split <;> rfl
  refine ⟨h.ordered, h.drawn, h.identity, h.replays, h.schema,
    ⟨if newest.localSequence = sequence then { newest with bytes := bytes } else newest,
      if fallback.localSequence = sequence then { fallback with bytes := bytes } else fallback,
      floor, ?_, ?_, ?_, hrows⟩, covers_strike h.covers hcorrupt⟩
  · show graph.checkpoints.map _ = _
    rw [hcheckpoints]
    rfl
  · rw [hstruck, hstruck]
    exact hlt
  · rw [hstruck]
    exact hfloor

theorem Sound.strikeUpdate (h : Sound lib start log graph) {sequence : Nat} {bytes : Bytes}
    (hcorrupt : ∀ u ∈ graph.updates, u.localSequence = sequence →
      lib.validChecksum u.checksum bytes = false) :
    Sound lib start log (graph.strikeUpdate sequence bytes) := by
  obtain ⟨newest, fallback, floor, hcheckpoints, hlt, hfloor, hrows⟩ := h.checkpoints
  exact ⟨h.ordered, h.drawn, h.identity, h.replays, h.schema,
    ⟨newest, fallback, floor, hcheckpoints, hlt, hfloor, kept_strike hrows hcorrupt⟩, h.covers⟩

/-- Every history is sound. -/
theorem sound_of_history (hexports : Exports lib) (h : History lib start log graph) :
    Sound lib start log graph := by
  induction h with
  | start ready => exact ready.sound
  | append _ update made ih => exact ih.append made
  | install _ checkpoint sequence holds installed ih => exact ih.install holds installed
  | recover _ ih => exact ih.recover hexports
  | strikeCheckpoint _ sequence bytes corrupt ih => exact ih.strikeCheckpoint corrupt
  | strikeUpdate _ sequence bytes corrupt ih => exact ih.strikeUpdate corrupt

/-! ## The fallback -/

/-- A recovery reports the checkpoint it starts from and the updates it took. -/
theorem recoverFrom_report {quarantined : List QuarantineRecord} {doc doc' : D} {sequence : Nat}
    {replayed : TailReplay D} {report : RecoveryReport}
    (hreplay : replayTail lib doc sequence (graph.updatesAfter sequence) = replayed)
    (hvalid : lib.validate replayed.doc = .ok ())
    (h : (recoverFrom lib graph quarantined doc sequence).1 = .ok (doc', report)) :
    report.checkpointSequence = sequence ∧ report.replayedUpdates = replayed.replayed := by
  rw [recoverFrom_eq _ hreplay hvalid] at h
  split at h
  · cases h
    exact ⟨rfl, rfl⟩
  · cases hexport : lib.exportGcCheckpoint replayed.doc with
    | error error =>
      rw [hexport] at h
      cases h
    | ok bytes =>
      rw [hexport] at h
      cases h
      exact ⟨rfl, rfl⟩

theorem mem_strikeCheckpoint {sequence : Nat} {bytes : Bytes} {c : CheckpointRecord}
    (hne : c.localSequence ≠ sequence) :
    c ∈ (graph.strikeCheckpoint sequence bytes).checkpoints ↔ c ∈ graph.checkpoints := by
  show c ∈ graph.checkpoints.map _ ↔ _
  rw [List.mem_map]
  constructor
  · intro ⟨old, hold, heq⟩
    split at heq
    · next hstruck =>
      rw [← heq] at hne
      exact absurd hstruck hne
    · rwa [← heq]
  · intro hc
    exact ⟨c, hc, if_neg hne⟩

/-- The checkpoint that is struck is corrupt. -/
theorem corrupt_strikeCheckpoint {sequence : Nat} {bytes : Bytes} {c : CheckpointRecord}
    (hcorrupt : ∀ c ∈ graph.checkpoints, c.localSequence = sequence →
      lib.validChecksum c.checksum bytes = false)
    (hc : c ∈ (graph.strikeCheckpoint sequence bytes).checkpoints)
    (heq : c.localSequence = sequence) : lib.validChecksum c.checksum c.bytes = false := by
  obtain ⟨old, hold, rfl⟩ := List.mem_map.mp hc
  split at heq
  · next hstruck =>
    rw [if_pos hstruck]
    exact hcorrupt old hold hstruck
  · next hkept => exact absurd heq hkept

/-- Of the two checkpoints one is left beside the one of a sequence. -/
theorem Sound.other (h : Sound lib start log graph) {base c d : CheckpointRecord}
    (hbase : base ∈ graph.checkpoints) (hc : c ∈ graph.checkpoints) (hd : d ∈ graph.checkpoints)
    (hne : c.localSequence ≠ base.localSequence) (hne' : d.localSequence ≠ base.localSequence) :
    c = d := by
  obtain ⟨newest, fallback, _, hcheckpoints, _⟩ := h.checkpoints
  rw [hcheckpoints] at hbase hc hd
  rcases List.mem_pair.mp hbase with rfl | rfl <;> rcases List.mem_pair.mp hc with rfl | rfl <;>
    rcases List.mem_pair.mp hd with rfl | rfl <;> first | rfl | exact absurd rfl ‹_›

/-- When the checkpoint that recovery selects becomes corrupt, the fallback recovers the
log if and only if no other record was corrupt already. -/
theorem survives_iff_undamaged (hexports : Exports lib) (hhistory : History lib start log graph)
    {selected : D} {sequence : Nat} {bytes : Bytes}
    (hselected : (selectCheckpoint lib graph.metadata.replicaId graph.checkpoints).2 =
      some (selected, sequence))
    (hcorrupt : ∀ c ∈ graph.checkpoints, c.localSequence = sequence →
      lib.validChecksum c.checksum bytes = false) :
    Survives lib start log (graph.strikeCheckpoint sequence bytes) sequence ↔
      Undamaged lib graph sequence := by
  have hsound := sound_of_history hexports hhistory
  have hstruck := hsound.strikeCheckpoint hcorrupt
  have hbase : ∃ base ∈ graph.checkpoints, base.localSequence = sequence := by
    rcases recoverGraph_cases hsound.schema hsound.covers hsound.descending
      hsound.some_checkpoint with ⟨base, doc, records, _, hbase, hselect, _⟩ | ⟨hnone, _⟩
    · rw [hselect] at hselected
      cases hselected
      exact ⟨base, hbase.mem, rfl⟩
    · obtain ⟨base, hmem, heq, hvalid⟩ := selectCheckpoint_mem hselected
      rw [hnone base hmem] at hvalid
      cases hvalid
  obtain ⟨base, hbase, rfl⟩ := hbase
  constructor
  · intro ⟨fallback, hfallback, hne, hvalid, doc, report, hrecover, hsequence, hcount, _⟩ c hc hc'
    obtain rfl := hsound.other hbase hc ((mem_strikeCheckpoint hne).mp hfallback) hc' hne
    refine ⟨hvalid, ?_⟩
    rcases recoverGraph_cases hstruck.schema hstruck.covers hstruck.descending
      hstruck.some_checkpoint with
        ⟨base', doc', records, quarantine, hbase', _, heq⟩ | ⟨hnone, _⟩
    · obtain ⟨taken, left, hreplayed⟩ := (hstruck.quarantine quarantine).replayed hbase'
      rw [heq] at hrecover
      obtain ⟨hsequence', hcount'⟩ := recoverFrom_report rfl hreplayed.valid hrecover
      rw [hsequence] at hsequence'
      rw [hcount, hreplayed.count, hsequence', hreplayed.split, List.length_append] at hcount'
      have hleft : left = [] := List.eq_nil_of_length_eq_zero (by omega)
      have hintact := hreplayed.intact.mp hleft
      intro u hu hlt
      exact hintact u (List.mem_filter.mpr ⟨hu, decide_eq_true (by omega)⟩)
    · rw [hnone c hfallback] at hvalid
      cases hvalid
  · intro hundamaged
    obtain ⟨c, hc, hne⟩ : ∃ c ∈ graph.checkpoints, c.localSequence ≠ base.localSequence := by
      obtain ⟨newest, fallback, _, hcheckpoints, hlt, _⟩ := hsound.checkpoints
      rw [hcheckpoints] at hbase ⊢
      rcases List.mem_pair.mp hbase with rfl | rfl
      · exact ⟨fallback, by simp, by omega⟩
      · exact ⟨newest, by simp, by omega⟩
    obtain ⟨hvalid, hrows⟩ := hundamaged c hc hne
    have hmem : c ∈ (graph.strikeCheckpoint base.localSequence bytes).checkpoints :=
      (mem_strikeCheckpoint hne).mpr hc
    refine ⟨c, hmem, hne, hvalid, ?_⟩
    rcases recoverGraph_cases hstruck.schema hstruck.covers hstruck.descending
      hstruck.some_checkpoint with
        ⟨base', doc', records, quarantine, hbase', _, heq⟩ | ⟨hnone, _⟩
    · have hne' : base'.localSequence ≠ base.localSequence := by
        intro he
        have hvalid' := hbase'.valid
        rw [corrupt_strikeCheckpoint hcorrupt hbase'.mem he] at hvalid'
        cases hvalid'
      obtain rfl := hsound.other hbase hc ((mem_strikeCheckpoint hne').mp hbase'.mem) hne hne'
      obtain ⟨taken, left, hreplayed⟩ := (hstruck.quarantine quarantine).replayed hbase'
      have hleft : left = [] := by
        refine hreplayed.intact.mpr fun u hu => ?_
        obtain ⟨hu, hlt⟩ := List.mem_filter.mp hu
        exact hrows u hu (of_decide_eq_true hlt)
      have hstops := hreplayed.stops hstruck.ordered hbase'.replays
      have hreplays := hstops.replays
      rw [hstops.whole hleft] at hreplays
      have hrecover := recoverFrom_eq records rfl hreplayed.valid
      rw [if_pos (hreplayed.tail.mpr hleft), ← heq] at hrecover
      refine ⟨_, _, congrArg Prod.fst hrecover, rfl, ?_, hreplays⟩
      rw [hreplayed.count, hreplayed.split, hleft, List.append_nil]
    · rw [hnone c hmem] at hvalid
      cases hvalid

/-! ## A run that loses the log -/

def savedUpdate : UpdateRecord := ⟨1, byteLibrary.checksum [7], [7]⟩

/-- One update, with the checkpoints before and after it. -/
def savedGraph : SqliteGraph where
  metadata := ⟨11, 9, 2, 1, 1, 0, 0⟩
  checkpoints := [⟨1, 9, byteLibrary.checksum [7], [7]⟩, ⟨0, 9, byteLibrary.checksum [], []⟩]
  updates := [savedUpdate]
  quarantine := []

theorem savedGraph_ready : Ready byteLibrary [] [savedUpdate] savedGraph where
  ordered := List.pairwise_singleton _ _
  drawn := by decide
  identity := by decide
  replays := rfl
  schema := rfl
  checkpoints := ⟨_, _, rfl, by decide, rfl⟩
  valid := by
    intro c hc
    rcases List.mem_pair.mp hc with rfl | rfl
    · exact ⟨rfl, by decide, [7], rfl, rfl⟩
    · exact ⟨rfl, by decide, [], rfl, rfl⟩

theorem survives_savedGraph :
    Survives byteLibrary [] [savedUpdate] (savedGraph.strikeCheckpoint 1 []) 1 := by
  have hundamaged : Undamaged byteLibrary savedGraph 1 := by
    unfold Undamaged
    decide
  have hselected : (selectCheckpoint byteLibrary 11 savedGraph.checkpoints).2 = some ([7], 1) := rfl
  exact (survives_iff_undamaged exports_byteLibrary (.start savedGraph_ready) hselected
    (by decide)).mpr hundamaged

/-- The newest checkpoint becomes corrupt and a recovery falls back to the other. -/
def fallenBack : SqliteGraph := (recoverGraph byteLibrary (savedGraph.strikeCheckpoint 1 [])).2

/-- An update and a checkpoint are written, and the corrupt checkpoint is kept for the
fallback while the valid one is dropped. -/
def compactedAgain : SqliteGraph where
  metadata := ⟨11, 9, 3, 2, 3, 0, 0⟩
  checkpoints := [⟨2, 9, byteLibrary.checksum [7, 8, 8], [7, 8, 8]⟩,
    ⟨1, 9, byteLibrary.checksum [7], []⟩]
  updates := [⟨2, byteLibrary.checksum [8, 8], [8, 8]⟩]
  quarantine := fallenBack.quarantine

theorem compactedAgain_history : History byteLibrary []
    [savedUpdate, ⟨2, byteLibrary.checksum [8, 8], [8, 8]⟩] compactedAgain := by
  have hstruck : History byteLibrary [] [savedUpdate] (savedGraph.strikeCheckpoint 1 []) :=
    .strikeCheckpoint (.start savedGraph_ready) 1 [] (by decide)
  have hrecovered : History byteLibrary [] [savedUpdate] fallenBack := hstruck.recover
  have happended : History byteLibrary []
      [savedUpdate, ⟨2, byteLibrary.checksum [8, 8], [8, 8]⟩]
      (fallenBack.appendUpdate byteLibrary [8, 8]).2 :=
    hrecovered.append [8, 8] ⟨[7], [7, 8, 8], rfl, rfl⟩
  exact happended.install [7, 8, 8] 2 ⟨[7, 8, 8], rfl, rfl⟩ rfl

/-- After one fallback a second corrupt checkpoint loses the graph. -/
theorem fallback_lost : ∃ log graph,
    Exports byteLibrary ∧ History byteLibrary [] log graph ∧
      (selectCheckpoint byteLibrary graph.metadata.replicaId graph.checkpoints).2 =
        some ([7, 8, 8], 2) ∧
      (∀ c ∈ graph.checkpoints, c.localSequence = 2 →
        byteLibrary.validChecksum c.checksum [] = false) ∧
      ¬Survives byteLibrary [] log (graph.strikeCheckpoint 2 []) 2 := by
  refine ⟨_, _, exports_byteLibrary, compactedAgain_history, rfl, by decide, ?_⟩
  intro ⟨fallback, hfallback, _, hvalid, _⟩
  have hcorrupt : ∀ c ∈ (compactedAgain.strikeCheckpoint 2 []).checkpoints,
      byteLibrary.validChecksum c.checksum c.bytes = false := by decide
  rw [hcorrupt fallback hfallback] at hvalid
  cases hvalid

end Neoseq.Local
