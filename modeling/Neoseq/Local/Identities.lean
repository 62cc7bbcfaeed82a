import Neoseq.Local.Native

/-! Which ids the operations of a replica have, in the browser and on the native host. A
command takes the counters after those of the document, so an id is new as long as the
document keeps what was appended. A recovery goes on under the same replica id with what is
left of the tail. -/

namespace Neoseq.Local
open Collections

variable {D E : Type}

structure OperationId where
  peer : Nat
  counter : Nat
  deriving DecidableEq

/-- The operations of a replica that one document has after another. -/
def operations (version : D → Nat → Nat) (peer : Nat) (doc doc' : D) : List OperationId :=
  (List.range' (version doc peer) (version doc' peer - version doc peer)).map (OperationId.mk peer)

/-- An import brings operations and takes none away. -/
def Grows (lib : Library D E) (version : D → Nat → Nat) : Prop :=
  ∀ doc bytes doc' peer, lib.importRecoveryUpdate doc bytes = .ok doc' →
    version doc peer ≤ version doc' peer

/-- No corrupt row is between the newest valid checkpoint and an update of the replica. -/
def Spared (lib : Library D E) (own : List Nat) (checkpoints : List CheckpointRecord)
    (updates : List UpdateRecord) : Prop :=
  ∀ sequence ∈ own, ∀ u ∈ updates, u.localSequence ≤ sequence →
    (∀ c ∈ checkpoints, lib.validChecksum c.checksum c.bytes = true →
      c.localSequence < u.localSequence) → lib.validChecksum u.checksum u.bytes = true

/-- The runs of a replica in the browser, with the ids of the operations that it appended,
the sequences of their updates and the log. When they are `careful` a recovery takes place
only where it finds the updates of the replica. -/
inductive BrowserRun (lib : Library D E) (version : D → Nat → Nat) (careful : Prop) (start : D) :
    List OperationId → List Nat → List UpdateRecord → BrowserGraph → Prop
  | imported (replicaId schemaVersion : Nat) (checkpoint : Bytes) (historyEpoch : Nat)
    (serverBase : Bool) (schema : supportsDocumentSchema schemaVersion = true)
    (loads : lib.fromRecoverySnapshot replicaId checkpoint = .ok start) :
    BrowserRun lib version careful start [] [] [] (BrowserGraph.installImportedGraph lib replicaId
      schemaVersion checkpoint historyEpoch serverBase)
  | created (replicaId : Nat) {snapshot : Bytes} {graph : BrowserGraph}
    (loads : lib.fromRecoverySnapshot replicaId snapshot = .ok start)
    (installed : (BrowserGraph.opened replicaId).installCheckpoint lib snapshot 0
      schemaVersion = .ok graph) :
    BrowserRun lib version careful start [] [] [] graph
  /-- A command makes operations on the document, and their update gets a row. -/
  | command {issued : List OperationId} {own : List Nat} {log : List UpdateRecord}
    {graph : BrowserGraph} (run : BrowserRun lib version careful start issued own log graph)
    (payload : Bytes) (now : String) (outbox : Option Bytes) {doc doc' : D}
    (current : replay lib start log = some doc)
    (made : lib.importRecoveryUpdate doc payload = .ok doc')
    (stored : graph.inserted lib payload ≠ []) :
    BrowserRun lib version careful start
      (issued ++ operations version graph.metadata.replicaId doc doc')
      (own ++ [graph.metadata.nextSequence]) (log ++ graph.inserted lib payload)
      (graph.appendUpdate lib payload now outbox).2
  /-- An update of other replicas is appended, or bytes that are there already. -/
  | append {issued : List OperationId} {own : List Nat} {log : List UpdateRecord}
    {graph : BrowserGraph} (run : BrowserRun lib version careful start issued own log graph)
    (payload : Bytes) (now : String) (outbox : Option Bytes)
    (made : ∃ doc doc', replay lib start log = some doc ∧
      lib.importRecoveryUpdate doc payload = .ok doc') :
    BrowserRun lib version careful start issued own (log ++ graph.inserted lib payload)
      (graph.appendUpdate lib payload now outbox).2
  | acknowledge {issued : List OperationId} {own : List Nat} {log : List UpdateRecord}
    {graph : BrowserGraph} (run : BrowserRun lib version careful start issued own log graph)
    (messageIds : List String) :
    BrowserRun lib version careful start issued own log (graph.acknowledge messageIds)
  | install {issued : List OperationId} {own : List Nat} {log : List UpdateRecord}
    {graph graph' : BrowserGraph} (run : BrowserRun lib version careful start issued own log graph)
    (checkpoint : Bytes) (sequence schemaVersion : Nat)
    (schema : supportsDocumentSchema schemaVersion = true)
    (holds : Holds lib start log graph.metadata.replicaId sequence checkpoint)
    (installed : graph.installCheckpoint lib checkpoint sequence schemaVersion = .ok graph') :
    BrowserRun lib version careful start issued own log graph'
  | normalize {issued : List OperationId} {own : List Nat} {log : List UpdateRecord}
    {graph : BrowserGraph} (run : BrowserRun lib version careful start issued own log graph) :
    BrowserRun lib version careful start issued own log (graph.normalizeOutbox lib).2
  | recover {issued : List OperationId} {own : List Nat} {log : List UpdateRecord}
    {graph : BrowserGraph} (run : BrowserRun lib version careful start issued own log graph)
    (spared : careful → Spared lib own graph.checkpoints graph.updates) :
    BrowserRun lib version careful start issued own
      (recoveredLog (BrowserGraph.recover lib graph).1 log) (BrowserGraph.recover lib graph).2
  | strikeCheckpoint {issued : List OperationId} {own : List Nat} {log : List UpdateRecord}
    {graph : BrowserGraph} (run : BrowserRun lib version careful start issued own log graph)
    (sequence : Nat) (bytes : Bytes)
    (corrupt : ∀ c ∈ graph.checkpoints, c.localSequence = sequence →
      lib.validChecksum c.checksum bytes = false) :
    BrowserRun lib version careful start issued own log (graph.strikeCheckpoint sequence bytes)
  | strikeUpdate {issued : List OperationId} {own : List Nat} {log : List UpdateRecord}
    {graph : BrowserGraph} (run : BrowserRun lib version careful start issued own log graph)
    (sequence : Nat) (bytes : Bytes)
    (corrupt : ∀ u ∈ graph.updates, u.localSequence = sequence →
      lib.validChecksum u.checksum bytes = false) :
    BrowserRun lib version careful start issued own log (graph.strikeUpdate sequence bytes)

/-- The runs of a replica on the native host. A graph is opened for the first time with the
document that its recovery makes, of which it writes a checkpoint. -/
inductive NativeRun (lib : Library D E) (version : D → Nat → Nat) (careful : Prop)
    (start : D) : List OperationId → List Nat → List UpdateRecord → SqliteGraph → Prop
  | opened (replicaId : Nat) {report : RecoveryReport} {snapshot : Bytes} {graph : SqliteGraph}
    (recovered : (recoverGraph lib (SqliteGraph.opened replicaId)).1 = .ok (start, report))
    (exported : lib.exportSnapshot start = .ok snapshot)
    (installed : (SqliteGraph.opened replicaId).installCheckpoint lib snapshot 0 = .ok graph) :
    NativeRun lib version careful start [] [] [] graph
  | command {issued : List OperationId} {own : List Nat} {log : List UpdateRecord}
    {graph : SqliteGraph} (run : NativeRun lib version careful start issued own log graph)
    (payload : Bytes) {doc doc' : D} (current : replay lib start log = some doc)
    (made : lib.importRecoveryUpdate doc payload = .ok doc')
    (stored : graph.inserted lib payload ≠ []) :
    NativeRun lib version careful start
      (issued ++ operations version graph.metadata.replicaId doc doc')
      (own ++ [graph.metadata.nextSequence]) (log ++ graph.inserted lib payload)
      (graph.appendUpdate lib payload).2
  | append {issued : List OperationId} {own : List Nat} {log : List UpdateRecord}
    {graph : SqliteGraph} (run : NativeRun lib version careful start issued own log graph)
    (payload : Bytes) (made : ∃ doc doc', replay lib start log = some doc ∧
      lib.importRecoveryUpdate doc payload = .ok doc') :
    NativeRun lib version careful start issued own (log ++ graph.inserted lib payload)
      (graph.appendUpdate lib payload).2
  | install {issued : List OperationId} {own : List Nat} {log : List UpdateRecord}
    {graph graph' : SqliteGraph}
    (run : NativeRun lib version careful start issued own log graph) (checkpoint : Bytes)
    (sequence : Nat) (holds : Holds lib start log graph.metadata.replicaId sequence checkpoint)
    (installed : graph.installCheckpoint lib checkpoint sequence = .ok graph') :
    NativeRun lib version careful start issued own log graph'
  | recover {issued : List OperationId} {own : List Nat} {log : List UpdateRecord}
    {graph : SqliteGraph} (run : NativeRun lib version careful start issued own log graph)
    (spared : careful → Spared lib own graph.checkpoints graph.updates) :
    NativeRun lib version careful start issued own
      (cutOff graph.updates (recoverGraph lib graph).2.updates log) (recoverGraph lib graph).2
  | strikeCheckpoint {issued : List OperationId} {own : List Nat} {log : List UpdateRecord}
    {graph : SqliteGraph} (run : NativeRun lib version careful start issued own log graph)
    (sequence : Nat) (bytes : Bytes)
    (corrupt : ∀ c ∈ graph.checkpoints, c.localSequence = sequence →
      lib.validChecksum c.checksum bytes = false) :
    NativeRun lib version careful start issued own log (graph.strikeCheckpoint sequence bytes)
  | strikeUpdate {issued : List OperationId} {own : List Nat} {log : List UpdateRecord}
    {graph : SqliteGraph} (run : NativeRun lib version careful start issued own log graph)
    (sequence : Nat) (bytes : Bytes)
    (corrupt : ∀ u ∈ graph.updates, u.localSequence = sequence →
      lib.validChecksum u.checksum bytes = false) :
    NativeRun lib version careful start issued own log (graph.strikeUpdate sequence bytes)

/-- The runs of a replica on either host. -/
inductive Replica (lib : Library D E) (version : D → Nat → Nat) (careful : Prop) (start : D) :
    List OperationId → Prop
  | browser {issued : List OperationId} {own : List Nat} {log : List UpdateRecord}
    {graph : BrowserGraph} (run : BrowserRun lib version careful start issued own log graph) :
    Replica lib version careful start issued
  | native {issued : List OperationId} {own : List Nat} {log : List UpdateRecord}
    {graph : SqliteGraph} (run : NativeRun lib version careful start issued own log graph) :
    Replica lib version careful start issued

variable {lib : Library D E} {version : D → Nat → Nat} {start : D} {issued : List OperationId}
  {own : List Nat} {log : List UpdateRecord} {graph : BrowserGraph}

/-! ## Versions along a log -/

theorem version_le_of_replay (hgrows : Grows lib version) (peer : Nat) {doc doc' : D}
    (h : replay lib doc log = some doc') : version doc peer ≤ version doc' peer := by
  induction log generalizing doc with
  | nil =>
    obtain rfl : doc = doc' := Option.some.inj h
    exact le_rfl
  | cons u rest ih =>
    unfold replay at h
    rw [List.foldlM_cons] at h
    cases himport : lib.importRecoveryUpdate doc u.bytes with
    | error error =>
      rw [himport] at h
      cases h
    | ok next =>
      rw [himport] at h
      exact (hgrows doc u.bytes next peer himport).trans (ih h)

/-- A longer part of a log has more operations. -/
theorem version_le_of_upTo (hgrows : Grows lib version) (peer : Nat)
    (hordered : Log.Ordered UpdateRecord.localSequence log) {n m : Nat} (hle : n ≤ m) {doc doc' : D}
    (hdoc : replay lib start (Log.upTo UpdateRecord.localSequence log n) = some doc)
    (hdoc' : replay lib start (Log.upTo UpdateRecord.localSequence log m) = some doc') :
    version doc peer ≤ version doc' peer := by
  have hsplit := Log.upTo_append_after (hordered.upTo m) n
  rw [Log.upTo_upTo hle] at hsplit
  rw [← hsplit, replay_append, hdoc, Option.bind_some] at hdoc'
  exact version_le_of_replay hgrows peer hdoc'

/-! ## The ids of a log -/

/-- The updates of the replica are in the log, and each id is below the version that the
document had after one of them. -/
structure Issued (lib : Library D E) (version : D → Nat → Nat) (start : D)
    (issued : List OperationId) (own : List Nat) (log : List UpdateRecord) : Prop where
  distinct : issued.Nodup
  present : ∀ sequence ∈ own, ∃ u ∈ log, u.localSequence = sequence
  below : ∀ id ∈ issued, ∃ sequence ∈ own, ∃ doc,
    replay lib start (Log.upTo UpdateRecord.localSequence log sequence) = some doc ∧
      id.counter < version doc id.peer

theorem Issued.nil : Issued lib version start [] [] [] := ⟨.nil, nofun, nofun⟩

theorem Issued.snoc (h : Issued lib version start issued own log) {row : UpdateRecord}
    (hlast : ∀ u ∈ log, u.localSequence < row.localSequence) :
    Issued lib version start issued own (log ++ [row]) := by
  refine ⟨h.distinct, fun sequence hown => ?_, fun id hid => ?_⟩
  · obtain ⟨u, hu, heq⟩ := h.present sequence hown
    exact ⟨u, List.mem_append_left _ hu, heq⟩
  · obtain ⟨sequence, hown, doc, hdoc, hlt⟩ := h.below id hid
    obtain ⟨u, hu, heq⟩ := h.present sequence hown
    refine ⟨sequence, hown, doc, ?_, hlt⟩
    rw [Log.upTo_snoc log (heq ▸ hlast u hu)]
    exact hdoc

theorem mem_operations {peer : Nat} {doc doc' : D} {id : OperationId} :
    id ∈ operations version peer doc doc' ↔
      id.peer = peer ∧ version doc peer ≤ id.counter ∧ id.counter < version doc' peer := by
  unfold operations
  rw [List.mem_map]
  constructor
  · intro ⟨counter, hcounter, heq⟩
    subst heq
    have hrange := List.mem_range'_1.mp hcounter
    refine ⟨rfl, hrange.1, ?_⟩
    show counter < _
    omega
  · intro ⟨hpeer, hlow, hhigh⟩
    subst hpeer
    exact ⟨id.counter, List.mem_range'_1.mpr (by omega), rfl⟩

theorem nodup_operations (peer : Nat) (doc doc' : D) :
    (operations version peer doc doc').Nodup := by
  refine List.Nodup.map (fun a b heq => ?_) List.nodup_range'
  exact congrArg OperationId.counter heq

/-- The counters of a command come after all ids of the log. -/
theorem Issued.command (hgrows : Grows lib version) (h : Issued lib version start issued own log)
    (hordered : Log.Ordered UpdateRecord.localSequence log) {row : UpdateRecord}
    (hlast : ∀ u ∈ log, u.localSequence < row.localSequence) (peer : Nat) {doc doc' : D}
    (hdoc : replay lib start log = some doc)
    (hmade : lib.importRecoveryUpdate doc row.bytes = .ok doc') :
    Issued lib version start (issued ++ operations version peer doc doc')
      (own ++ [row.localSequence]) (log ++ [row]) := by
  have hsnoc := h.snoc hlast
  have hwhole : Log.upTo UpdateRecord.localSequence log row.localSequence = log :=
    Log.upTo_eq_self fun u hu => (hlast u hu).le
  refine ⟨List.nodup_append.mpr ⟨h.distinct, nodup_operations peer doc doc', ?_⟩, ?_, ?_⟩
  · intro id hid id' hid' heq
    subst heq
    obtain ⟨sequence, hown, before, hbefore, hlt⟩ := h.below id hid
    obtain ⟨u, hu, hsequence⟩ := h.present sequence hown
    obtain ⟨hpeer, hlow, _⟩ := mem_operations.mp hid'
    have hle := version_le_of_upTo hgrows id.peer hordered (hsequence ▸ (hlast u hu).le) hbefore
      (hwhole.symm ▸ hdoc)
    rw [hpeer] at hlt hle
    omega
  · intro sequence hown
    rcases List.mem_append.mp hown with hown | hown
    · exact hsnoc.present sequence hown
    · exact ⟨row, by simp, (List.mem_singleton.mp hown).symm⟩
  · intro id hid
    rcases List.mem_append.mp hid with hid | hid
    · obtain ⟨sequence, hown, hbelow⟩ := hsnoc.below id hid
      exact ⟨sequence, List.mem_append_left _ hown, hbelow⟩
    · obtain ⟨hpeer, _, hhigh⟩ := mem_operations.mp hid
      refine ⟨row.localSequence, by simp, doc', ?_, hpeer ▸ hhigh⟩
      have hnew : Log.upTo UpdateRecord.localSequence (log ++ [row]) row.localSequence =
          log ++ [row] := by
        refine Log.upTo_eq_self fun u hu => ?_
        rcases List.mem_append.mp hu with hu | hu
        · exact (hlast u hu).le
        · rw [List.mem_singleton.mp hu]
      rw [hnew, replay_append, hdoc, Option.bind_some]
      unfold replay
      rw [List.foldlM_cons, hmade]
      rfl

theorem Issued.append (h : Issued lib version start issued own log)
    (hlogged : Logged lib start log graph) (payload : Bytes) :
    Issued lib version start issued own (log ++ graph.inserted lib payload) := by
  rcases graph.append_cases lib payload with ⟨_, _, _, _, hinserted⟩ | ⟨_, hinserted⟩
  · rw [hinserted, List.append_nil]
    exact h
  · rw [hinserted]
    exact h.snoc fun u hu => (hlogged.drawn u hu).2

theorem Issued.stored (hgrows : Grows lib version) (h : Issued lib version start issued own log)
    (hlogged : Logged lib start log graph) {payload : Bytes} {doc doc' : D}
    (hdoc : replay lib start log = some doc)
    (hmade : lib.importRecoveryUpdate doc payload = .ok doc')
    (hstored : graph.inserted lib payload ≠ []) :
    Issued lib version start (issued ++ operations version graph.metadata.replicaId doc doc')
      (own ++ [graph.metadata.nextSequence]) (log ++ graph.inserted lib payload) := by
  rcases graph.append_cases lib payload with ⟨_, _, _, _, hinserted⟩ | ⟨_, hinserted⟩
  · exact absurd hinserted hstored
  · have hmade : lib.importRecoveryUpdate doc (UpdateRecord.bytes
        ⟨graph.metadata.nextSequence, lib.checksum payload, payload⟩) = .ok doc' := hmade
    rw [hinserted]
    exact h.command hgrows hlogged.ordered (fun u hu => (hlogged.drawn u hu).2) _ hdoc hmade

/-- The ids stay where the log is cut off after all updates of the replica. -/
theorem Issued.upTo (h : Issued lib version start issued own log) {n : Nat}
    (hown : ∀ sequence ∈ own, sequence ≤ n) :
    Issued lib version start issued own (Log.upTo UpdateRecord.localSequence log n) := by
  refine ⟨h.distinct, fun sequence hs => ?_, fun id hid => ?_⟩
  · obtain ⟨u, hu, heq⟩ := h.present sequence hs
    exact ⟨u, Log.mem_upTo.mpr ⟨hu, heq ▸ hown sequence hs⟩, heq⟩
  · obtain ⟨sequence, hs, doc, hdoc, hlt⟩ := h.below id hid
    refine ⟨sequence, hs, doc, ?_, hlt⟩
    rw [Log.upTo_upTo (hown sequence hs)]
    exact hdoc

/-! ## Recovery -/

/-- A replay of the tail keeps the updates of the replica exactly where they are spared. -/
theorem Logged.keeps_iff_spared (h : Logged lib start log graph)
    (hown : ∀ sequence ∈ own, ∃ u ∈ log, u.localSequence = sequence) {base : CheckpointRecord}
    {doc : D} {replayed : TailReplay D} {taken left : List UpdateRecord}
    (hbase : Base lib start log graph.metadata.replicaId graph.checkpoints base doc)
    (hreplay : replayTail lib doc base.localSequence (graph.updatesAfter base.localSequence) =
      replayed)
    (hreplayed : Replayed lib doc base.localSequence
      (Log.after UpdateRecord.localSequence log base.localSequence)
      (graph.updatesAfter base.localSequence) replayed taken left) :
    (∀ sequence ∈ own, sequence ≤ replayed.validThrough) ↔
      Spared lib own graph.checkpoints graph.updates := by
  obtain ⟨hbelow, hcut⟩ := h.cut_at hbase hreplay
  have hstops := hreplayed.stops h.ordered hbase.replays
  constructor
  · intro hkept sequence hs u hu hle hnewer
    have hu' : u ∈ graph.updatesAfter base.localSequence :=
      Log.mem_after.mpr ⟨hu, hnewer base hbase.mem hbase.valid⟩
    exact hbelow u hu' (hle.trans (hkept sequence hs))
  · intro hspared sequence hs
    by_contra hgt
    obtain ⟨v, hv, hsequence⟩ := hown sequence hs
    have hcorrupt : replayed.corruptTail ≠ [] := by
      intro htail
      have hwhole := hstops.whole (hreplayed.tail.mp (by rw [htail]; rfl))
      rw [← hwhole] at hv
      have hle := (Log.mem_upTo.mp hv).2
      omega
    obtain ⟨w, hw, hinvalid, hfirst⟩ := hcut hcorrupt
    obtain ⟨hw, hnew⟩ := Log.mem_after.mp hw
    -- the update has a row, since it comes after the checkpoint
    have hrow : ∃ row ∈ graph.updates, row.localSequence = sequence := by
      have hbase' := hstops.base
      have hv' : v ∈ Log.after UpdateRecord.localSequence log base.localSequence :=
        Log.mem_after.mpr ⟨hv, by omega⟩
      have hmem : sequence ∈
          (graph.updatesAfter base.localSequence).map UpdateRecord.localSequence := by
        rw [kept_sequences (h.rows_after hbase.mem)]
        exact List.mem_map.mpr ⟨v, hv', hsequence⟩
      obtain ⟨row, hrow, heq⟩ := List.mem_map.mp hmem
      exact ⟨row, (Log.mem_after.mp hrow).1, heq⟩
    obtain ⟨row, hrow, hsame⟩ := hrow
    have hle := hfirst row hrow (by omega)
    have hvalid := hspared sequence hs w hw (by omega) fun c hc hc' =>
      (hbase.newest c hc hc').trans_lt hnew
    rw [hinvalid] at hvalid
    cases hvalid

/-- What is left of a log after a recovery has all updates of the replica, where they are
spared. -/
theorem Issued.recovered (h : Issued lib version start issued own log)
    (hlogged : Logged lib start log graph)
    (hspared : Spared lib own graph.checkpoints graph.updates) :
    Issued lib version start issued own
      (recoveredLog (BrowserGraph.recover lib graph).1 log) := by
  rcases hlogged.recover_cases with ⟨base, doc, records, quarantine, taken, left, replayed, hbase,
    hreplay, hreplayed, _, heq⟩ | ⟨_, quarantine, heq⟩
  · cases hrecovered : (BrowserGraph.recover lib graph).1 with
    | error _ => exact h
    | ok recovery =>
      rw [heq] at hrecovered
      obtain rfl := finishTail_ok hrecovered
      exact h.upTo ((hlogged.keeps_iff_spared h.present hbase hreplay hreplayed).mpr hspared)
  · rw [heq]
    exact h

/-! ## Runs -/

/-- The graph of a replica is the graph of its log. -/
theorem BrowserRun.history {careful : Prop}
    (h : BrowserRun lib version careful start issued own log graph) :
    BrowserHistory lib True start log graph := by
  induction h with
  | imported replicaId schemaVersion checkpoint historyEpoch serverBase schema loads =>
    exact .imported replicaId schemaVersion checkpoint historyEpoch serverBase schema loads
  | created replicaId loads installed => exact .created replicaId loads installed
  | command _ payload now outbox current made _ ih =>
    exact ih.append payload now outbox ⟨_, _, current, made⟩
  | append _ payload now outbox made ih => exact ih.append payload now outbox made
  | acknowledge _ messageIds ih => exact ih.acknowledge messageIds
  | install _ checkpoint sequence schemaVersion schema holds installed ih =>
    exact ih.install checkpoint sequence schemaVersion schema holds installed
  | normalize _ ih => exact ih.normalize
  | recover _ _ ih => exact ih.recover trivial
  | strikeCheckpoint _ sequence bytes corrupt ih =>
    exact ih.strikeCheckpoint trivial sequence bytes corrupt
  | strikeUpdate _ sequence bytes corrupt ih =>
    exact ih.strikeUpdate trivial sequence bytes corrupt

theorem BrowserRun.logged {careful : Prop} (hexports : Exports lib)
    (hsnapshots : ExportsSnapshot lib)
    (h : BrowserRun lib version careful start issued own log graph) : Logged lib start log graph :=
  (stored_of_history hexports hsnapshots h.history).1

theorem issued_of_browser (hexports : Exports lib) (hsnapshots : ExportsSnapshot lib)
    (hgrows : Grows lib version) (h : BrowserRun lib version True start issued own log graph) :
    Issued lib version start issued own log := by
  induction h with
  | imported _ _ _ _ _ _ _ => exact .nil
  | created _ _ _ => exact .nil
  | command run payload _ _ current made stored ih =>
    exact ih.stored hgrows (run.logged hexports hsnapshots) current made stored
  | append run payload _ _ _ ih => exact ih.append (run.logged hexports hsnapshots) payload
  | acknowledge _ _ ih => exact ih
  | install _ _ _ _ _ _ _ ih => exact ih
  | normalize _ ih => exact ih
  | recover run spared ih => exact ih.recovered (run.logged hexports hsnapshots) (spared trivial)
  | strikeCheckpoint _ _ _ _ ih => exact ih
  | strikeUpdate _ _ _ _ ih => exact ih

theorem valid_of_opened {replicaId : Nat} {doc : D} {report : RecoveryReport}
    (h : (recoverGraph lib (SqliteGraph.opened replicaId)).1 = .ok (doc, report)) :
    lib.validate doc = .ok () := by
  unfold recoverGraph at h
  dsimp only at h
  cases hnew : lib.new (SqliteGraph.opened replicaId).metadata.replicaId with
  | error error =>
    rw [hnew] at h
    cases h
  | ok doc' =>
    rw [hnew] at h
    have hfinish : (recoverFrom lib (SqliteGraph.opened replicaId) [] doc' 0).1 =
        .ok (doc, report) := h
    unfold recoverFrom Library.finishRecovery at hfinish
    dsimp only at hfinish
    split at hfinish
    · cases hfinish
    · next hvalid =>
      obtain rfl := (Prod.mk.inj (Except.ok.inj hfinish)).1
      exact hvalid

theorem NativeRun.logged {careful : Prop} {graph : SqliteGraph} (hexports : Exports lib)
    (hsnapshots : ExportsSnapshot lib)
    (h : NativeRun lib version careful start issued own log graph) :
    Logged lib start log graph.browser := by
  induction h with
  | opened replicaId recovered exported installed =>
    have hvalid := valid_of_opened recovered
    exact logged_opened (bind_eq_ok.mpr ⟨_, hsnapshots _ _ _ exported,
      bind_eq_ok.mpr ⟨(), hvalid, rfl⟩⟩) installed
  | command _ payload current made _ ih => exact ih.nativeAppend ⟨_, _, current, made⟩
  | append _ payload made ih => exact ih.nativeAppend made
  | install _ checkpoint sequence holds installed ih => exact ih.nativeInstall holds installed
  | recover _ _ ih =>
    rcases ih.recoverGraph_cases hexports with
      ⟨hlog, hleft⟩ | ⟨_, _, _, _, _, _, _, _, hlog, hleft⟩
    · rw [hlog]
      exact hleft
    · rw [hlog]
      exact hleft
  | strikeCheckpoint _ sequence bytes corrupt ih => exact ih.strikeCheckpoint corrupt
  | strikeUpdate _ sequence bytes corrupt ih => exact ih.strikeUpdate corrupt

theorem issued_of_native {graph : SqliteGraph} (hexports : Exports lib)
    (hsnapshots : ExportsSnapshot lib) (hgrows : Grows lib version)
    (h : NativeRun lib version True start issued own log graph) :
    Issued lib version start issued own log := by
  induction h with
  | opened _ _ _ _ => exact .nil
  | command run payload current made stored ih =>
    exact ih.stored hgrows (run.logged hexports hsnapshots) current made stored
  | append run payload _ ih => exact ih.append (run.logged hexports hsnapshots) payload
  | install _ _ _ _ _ ih => exact ih
  | recover run spared ih =>
    have hlogged := run.logged hexports hsnapshots
    rcases hlogged.recoverGraph_cases hexports with
      ⟨hlog, _⟩ | ⟨base, doc, taken, left, replayed, hbase, hreplay, hreplayed, hlog, _⟩
    · rw [hlog]
      exact ih
    · rw [hlog]
      exact ih.upTo
        ((hlogged.keeps_iff_spared ih.present hbase hreplay hreplayed).mpr (spared trivial))
  | strikeCheckpoint _ _ _ _ ih => exact ih
  | strikeUpdate _ _ _ _ ih => exact ih

/-- No id is given twice where every recovery finds the updates of the replica. -/
theorem operationIds_distinct (hexports : Exports lib) (hsnapshots : ExportsSnapshot lib)
    (hgrows : Grows lib version) (h : Replica lib version True start issued) : issued.Nodup := by
  cases h with
  | browser run => exact (issued_of_browser hexports hsnapshots hgrows run).distinct
  | native run => exact (issued_of_native hexports hsnapshots hgrows run).distinct

/-- Every byte is an operation. -/
def byteVersion (doc : Bytes) (_ : Nat) : Nat := doc.length

theorem grows_byteVersion : Grows byteLibrary byteVersion := by
  intro doc bytes doc' peer h
  obtain rfl : doc ++ bytes = doc' := Except.ok.inj h
  show doc.length ≤ (doc ++ bytes).length
  rw [List.length_append]
  exact Nat.le_add_right _ _

def newYear : String := "2026-01-01T00:00:00Z"

/-- A new replica with one operation. -/
def newReplica : BrowserGraph :=
  ((BrowserGraph.installImportedGraph byteLibrary 1 schemaVersion [] 0 false).appendUpdate
    byteLibrary [7] newYear none).2

theorem newReplica_run (careful : Prop) : BrowserRun byteLibrary byteVersion careful []
    [⟨1, 0⟩] [1] [⟨1, byteLibrary.checksum [7], [7]⟩] newReplica := by
  have himported : BrowserRun byteLibrary byteVersion careful [] [] [] []
      (BrowserGraph.installImportedGraph byteLibrary 1 schemaVersion [] 0 false) :=
    .imported 1 schemaVersion [] 0 false rfl rfl
  exact himported.command [7] newYear none rfl rfl (List.cons_ne_nil _ _)

/-- The same on the native host. -/
def newNativeReplica : SqliteGraph where
  metadata := ⟨1, schemaVersion, 2, 0, 0, 1, 1⟩
  checkpoints := [⟨0, schemaVersion, byteLibrary.checksum [], []⟩]
  updates := [⟨1, byteLibrary.checksum [7], [7]⟩]
  quarantine := []

theorem newNativeReplica_run (careful : Prop) :
    NativeRun byteLibrary byteVersion careful [] [⟨1, 0⟩] [1]
      [⟨1, byteLibrary.checksum [7], [7]⟩] newNativeReplica := by
  have hopened : NativeRun byteLibrary byteVersion careful [] [] [] [] _ :=
    .opened 1 rfl rfl rfl
  exact hopened.command [7] rfl rfl (List.cons_ne_nil _ _)

/-- A checkpoint holds the first operation. After the second one an update of another replica
becomes corrupt, and a recovery cuts it off. -/
theorem operationIds_newReplica :
    [OperationId.mk 1 0, ⟨1, 1⟩, ⟨1, 2⟩].Nodup ∧ [OperationId.mk 1 0, ⟨1, 1⟩, ⟨1, 2⟩].Nodup := by
  constructor
  · have hinstalled := (newReplica_run True).install [7] 1 schemaVersion rfl ⟨[7], rfl, rfl⟩ rfl
    have hcommand := hinstalled.command [8] newYear none rfl rfl (List.cons_ne_nil _ _)
    have hremote := hcommand.append [9] newYear none ⟨[7, 8], [7, 8, 9], rfl, rfl⟩
    have hstruck := hremote.strikeUpdate 3 [] (by decide)
    have hrecovered := hstruck.recover fun _ => by
      unfold Spared
      decide
    exact operationIds_distinct exports_byteLibrary exportsSnapshot_byteLibrary grows_byteVersion
      (.browser (hrecovered.command [10] newYear none rfl rfl (List.cons_ne_nil _ _)))
  · have hinstalled := (newNativeReplica_run True).install [7] 1 ⟨[7], rfl, rfl⟩ rfl
    have hcommand := hinstalled.command [8] rfl rfl (List.cons_ne_nil _ _)
    have hremote := hcommand.append [9] ⟨[7, 8], [7, 8, 9], rfl, rfl⟩
    have hstruck := hremote.strikeUpdate 3 [] (by decide)
    have hrecovered := hstruck.recover fun _ => by
      unfold Spared
      decide
    exact operationIds_distinct exports_byteLibrary exportsSnapshot_byteLibrary grows_byteVersion
      (.native (hrecovered.command [10] rfl rfl (List.cons_ne_nil _ _)))

/-- The row becomes corrupt, and after the recovery the next operation has its id. -/
theorem operationId_reused :
    (∃ issued own log graph,
      BrowserRun byteLibrary byteVersion False [] issued own log graph ∧ ¬issued.Nodup) ∧
    ∃ issued own log graph,
      NativeRun byteLibrary byteVersion False [] issued own log graph ∧ ¬issued.Nodup := by
  constructor
  · have hstruck := (newReplica_run False).strikeUpdate 1 [] (by decide)
    have hrecovered := hstruck.recover False.elim
    have hcommand := hrecovered.command [8] newYear none rfl rfl (List.cons_ne_nil _ _)
    refine ⟨_, _, _, _, hcommand, ?_⟩
    show ¬[OperationId.mk 1 0, ⟨1, 0⟩].Nodup
    decide
  · have hstruck := (newNativeReplica_run False).strikeUpdate 1 [] (by decide)
    have hrecovered := hstruck.recover False.elim
    have hcommand := hrecovered.command [8] rfl rfl (List.cons_ne_nil _ _)
    refine ⟨_, _, _, _, hcommand, ?_⟩
    show ¬[OperationId.mk 1 0, ⟨1, 0⟩].Nodup
    decide

end Neoseq.Local
