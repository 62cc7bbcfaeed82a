import Neoseq.Local.Fallback
import Neoseq.Local.Repair

/-! The rows of the native repository as those of a graph of the browser with nothing to
send. What holds of a log there holds of it here, and a recovery cuts it off at the same
place. -/

namespace Neoseq.Local
open Collections

variable {D E : Type} {lib : Library D E} {start : D} {log : List UpdateRecord}

namespace SqliteGraph

/-- `open` of a graph that has no metadata yet. -/
def opened (replicaId : Nat) : SqliteGraph where
  metadata := ⟨replicaId, schemaVersion, 1, 0, 0, 0, 0⟩
  checkpoints := []
  updates := []
  quarantine := []

/-- The same rows in the browser. -/
def browser (graph : SqliteGraph) : BrowserGraph where
  metadata :=
    { replicaId := graph.metadata.replicaId
      historyEpoch := 0
      schemaVersion := graph.metadata.schemaVersion
      nextSequence := graph.metadata.nextSequence
      compactedThrough := graph.metadata.compactedThrough
      checkpointBytes := graph.metadata.checkpointBytes
      tailBytes := graph.metadata.tailBytes
      tailCount := graph.metadata.tailCount }
  checkpoints := graph.checkpoints
  updates := graph.updates
  outbox := []
  quarantine := graph.quarantine
  serverBase := false

end SqliteGraph

/-- The counters of the tail and the quarantine are on their own. -/
theorem Logged.of_rows {graph graph' : BrowserGraph} (h : Logged lib start log graph)
    (hcheckpoints : graph'.checkpoints = graph.checkpoints)
    (hupdates : graph'.updates = graph.updates)
    (hreplica : graph'.metadata.replicaId = graph.metadata.replicaId)
    (hschema : graph'.metadata.schemaVersion = graph.metadata.schemaVersion)
    (hnext : graph'.metadata.nextSequence = graph.metadata.nextSequence)
    (hcompacted : graph'.metadata.compactedThrough = graph.metadata.compactedThrough) :
    Logged lib start log graph' := by
  constructor
  · exact h.ordered
  · exact hnext ▸ h.next
  · exact hnext ▸ h.drawn
  · exact h.identity
  · exact h.replays
  · exact hschema ▸ h.schema
  · exact hcheckpoints ▸ h.two
  · exact hcheckpoints ▸ h.descending
  · exact hcheckpoints ▸ hcompacted ▸ h.pointer
  · exact hcheckpoints ▸ hupdates ▸ h.rows
  · exact hcheckpoints ▸ hreplica ▸ hnext ▸ h.covers

variable {graph : SqliteGraph}

/-! ## The steps -/

theorem logged_opened {replicaId : Nat} {snapshot : Bytes} {doc : D}
    (hloads : lib.fromRecoverySnapshot replicaId snapshot = .ok doc)
    (hinstalled : (SqliteGraph.opened replicaId).installCheckpoint lib snapshot 0 = .ok graph) :
    Logged lib doc [] graph.browser := by
  obtain ⟨_, _, hinstalled⟩ := bind_eq_ok.mp hinstalled
  obtain rfl := pure_eq_ok.mp hinstalled
  have hcreated := logged_created hloads rfl
  exact hcreated.of_rows rfl rfl rfl rfl rfl rfl

theorem Logged.nativeAppend (h : Logged lib start log graph.browser) {update : Bytes}
    (hmade : ∃ doc doc', replay lib start log = some doc ∧
      lib.importRecoveryUpdate doc update = .ok doc') :
    Logged lib start (log ++ graph.inserted lib update)
      (graph.appendUpdate lib update).2.browser := by
  have happended : Logged lib start (log ++ graph.inserted lib update)
      (graph.browser.appendUpdate lib update "" none).2 := h.append hmade
  unfold SqliteGraph.appendUpdate
  dsimp only
  cases hfind : graph.updates.find? fun u => u.checksum = lib.checksum update with
  | some existing =>
    rw [BrowserGraph.appendUpdate_some hfind] at happended
    exact happended.of_rows rfl rfl rfl rfl rfl rfl
  | none =>
    rw [BrowserGraph.appendUpdate_none hfind,
      putUpdate_last fun u hu => (h.row_drawn hu).2] at happended
    exact happended.of_rows rfl rfl rfl rfl rfl rfl

/-- The last of the checkpoints is the oldest. -/
theorem getLast?_le {checkpoints : List CheckpointRecord} {oldest c : CheckpointRecord}
    (h : checkpoints.Pairwise fun a b => b.localSequence < a.localSequence)
    (holdest : checkpoints.getLast? = some oldest) (hc : c ∈ checkpoints) :
    oldest.localSequence ≤ c.localSequence := by
  obtain ⟨newer, rfl⟩ := List.getLast?_eq_some_iff.mp holdest
  rcases List.mem_append.mp hc with hc | hc
  · exact ((List.pairwise_append.mp h).2.2 c hc oldest (List.mem_singleton_self _)).le
  · rw [List.mem_singleton.mp hc]

theorem Logged.nativeInstall (h : Logged lib start log graph.browser) {graph' : SqliteGraph}
    {checkpoint : Bytes} {sequence : Nat}
    (hholds : Holds lib start log graph.metadata.replicaId sequence checkpoint)
    (hinstalled : graph.installCheckpoint lib checkpoint sequence = .ok graph') :
    Logged lib start log graph'.browser := by
  obtain ⟨_, hrange, hinstalled⟩ := bind_eq_ok.mp hinstalled
  have hrange := refuse_eq_ok.mp hrange
  obtain rfl := pure_eq_ok.mp hinstalled
  have hbrowser := h.install supports_schemaVersion hholds
    (bind_eq_ok.mpr ⟨(), refuse_eq_ok.mpr hrange, rfl⟩)
  have hdescending := hbrowser.descending
  refine ⟨h.ordered, h.next, h.drawn, h.identity, h.replays, supports_schemaVersion,
    hbrowser.two, hdescending, hbrowser.pointer, ?_, hbrowser.covers⟩
  show ∃ kept, kept.Sublist log ∧ List.Forall₂ (Kept lib) kept (SqliteGraph.reclaim
    (retained (upsertCheckpoint ⟨sequence, schemaVersion, lib.checksum checkpoint, checkpoint⟩
      graph.checkpoints)) graph.updates) ∧ _
  unfold SqliteGraph.reclaim
  have hold (c : CheckpointRecord) (hc : c ∈ retained (upsertCheckpoint
      ⟨sequence, schemaVersion, lib.checksum checkpoint, checkpoint⟩ graph.checkpoints)) :
      ∃ d ∈ graph.checkpoints, d.localSequence ≤ c.localSequence :=
    h.retained_above (not_lt.mp (not_or.mp hrange).1) hc
  split
  · next oldest holdest =>
    refine h.keep (p := fun n => decide (oldest.localSequence < n)) hold fun c hc n hn => ?_
    exact decide_eq_true ((getLast?_le hdescending holdest hc).trans_lt hn)
  · have hkeep := h.keep (p := fun _ => true) hold fun _ _ _ _ => rfl
    rw [List.filter_true] at hkeep
    exact hkeep

/-! ## Recovery -/

/-- A recovery leaves the log, or cuts it off where the replay of the tail stops. -/
theorem Logged.recoverGraph_cases (hexports : Exports lib)
    (h : Logged lib start log graph.browser) :
    (cutOff graph.updates (recoverGraph lib graph).2.updates log = log ∧
      Logged lib start log (recoverGraph lib graph).2.browser) ∨
    ∃ base doc taken left replayed,
      Base lib start log graph.metadata.replicaId graph.checkpoints base doc ∧
      replayTail lib doc base.localSequence (graph.updatesAfter base.localSequence) = replayed ∧
      Replayed lib doc base.localSequence
        (Log.after UpdateRecord.localSequence log base.localSequence)
        (graph.updatesAfter base.localSequence) replayed taken left ∧
      cutOff graph.updates (recoverGraph lib graph).2.updates log =
        Log.upTo UpdateRecord.localSequence log replayed.validThrough ∧
      Logged lib start (Log.upTo UpdateRecord.localSequence log replayed.validThrough)
        (recoverGraph lib graph).2.browser := by
  have hsome : graph.checkpoints.isEmpty = false := by
    obtain ⟨first, hfirst, _⟩ := h.pointer
    exact List.isEmpty_eq_false_iff.mpr (List.ne_nil_of_mem hfirst)
  have hunchanged (quarantine : List QuarantineRecord) :
      cutOff graph.updates graph.updates log = log ∧
        Logged lib start log { graph with quarantine := quarantine : SqliteGraph }.browser :=
    ⟨cutOff_self _, h.of_rows rfl rfl rfl rfl rfl rfl⟩
  rcases Local.recoverGraph_cases h.schema h.covers h.descending hsome with
    ⟨base, doc, records, quarantine, hbase, _, heq⟩ | ⟨_, quarantine, heq⟩
  · rw [heq]
    obtain ⟨taken, left, hreplayed⟩ := h.replayed hbase
    generalize hreplay : replayTail lib doc base.localSequence
      (graph.browser.updatesAfter base.localSequence) = replayed at hreplayed
    have hreplay' : replayTail lib doc base.localSequence
        (SqliteGraph.updatesAfter { graph with quarantine := quarantine } base.localSequence) =
          replayed := hreplay
    rw [recoverFrom_eq records hreplay' hreplayed.valid]
    split
    · exact .inl (hunchanged quarantine)
    · next hcut =>
      cases hexport : lib.exportGcCheckpoint replayed.doc with
      | error error => exact .inl (hunchanged quarantine)
      | ok bytes =>
        have hstops := hreplayed.stops h.ordered hbase.replays
        refine .inr ⟨base, doc, taken, left, replayed, hbase, hreplay, hreplayed, ?_, ?_⟩
        · obtain ⟨kept, _, hrows, hafter⟩ := h.rows
          refine cutOff_upTo hrows fun u hu hlt => ?_
          have hu : u ∈ Log.after UpdateRecord.localSequence kept base.localSequence := by
            rw [hafter base hbase.mem]
            exact Log.mem_after.mpr ⟨hu, hstops.base.trans_lt hlt⟩
          exact (Log.mem_after.mp hu).1
        · have hrepaired := h.repair replayed.corruptTail (h.validThrough_drawn hbase.mem hstops)
            (fun c hc hvalid => (hbase.newest c hc hvalid).trans hstops.base)
            ⟨base, hbase.mem, hstops.base⟩
            (holds_validThrough graph.metadata.replicaId hstops hreplayed (hexports _ _ _ hexport))
          exact hrepaired.of_rows rfl rfl rfl rfl rfl rfl
  · rw [heq]
    exact .inl (hunchanged quarantine)

end Neoseq.Local
