import Neoseq.Local.Replay
import Neoseq.Local.Worker

/-! The runs of a browser graph, and what holds of its rows in every state: they are of one
log, complete after every checkpoint, whether or not some of them have become corrupt. -/

namespace Neoseq.Local
open Collections

variable {D E : Type}

/-- The rows and checkpoints of a graph whose updates make up a log. -/
structure Logged (lib : Library D E) (start : D) (log : List UpdateRecord)
    (graph : BrowserGraph) : Prop where
  ordered : Log.Ordered UpdateRecord.localSequence log
  next : 0 < graph.metadata.nextSequence
  drawn : ∀ u ∈ log, 0 < u.localSequence ∧ u.localSequence < graph.metadata.nextSequence
  identity : ∀ u ∈ log, u.checksum = lib.checksum u.bytes
  replays : (replay lib start log).isSome = true
  schema : supportsDocumentSchema graph.metadata.schemaVersion = true
  two : graph.checkpoints.length ≤ 2
  descending : graph.checkpoints.Pairwise fun a b => b.localSequence < a.localSequence
  pointer : ∃ c ∈ graph.checkpoints, c.localSequence ≤ graph.metadata.compactedThrough
  rows : ∃ kept, kept.Sublist log ∧ List.Forall₂ (Kept lib) kept graph.updates ∧
    ∀ c ∈ graph.checkpoints, Log.after UpdateRecord.localSequence kept c.localSequence =
      Log.after UpdateRecord.localSequence log c.localSequence
  covers : ∀ c ∈ graph.checkpoints,
    Covers lib start log graph.metadata.replicaId graph.metadata.nextSequence c

/-- The records of an outbox have the content ids of their payloads. -/
structure Addressed (lib : Library D E) (graph : BrowserGraph) : Prop where
  distinct : graph.outbox.Pairwise fun a b => a.messageId ≠ b.messageId
  carried : ∀ o ∈ graph.outbox, ∀ payload, o.payload = some payload →
    o.localSequence = 0 ∧ o.messageId = lib.checksum payload
  named : ∀ o ∈ graph.outbox, o.payload = none →
    (0 < o.localSequence ∧ o.localSequence < graph.metadata.nextSequence) ∧
      ∀ u ∈ graph.updates, u.localSequence = o.localSequence → u.checksum = o.messageId

/-- The counters are those of the rows, and no row is corrupt. -/
structure Tallied (lib : Library D E) (graph : BrowserGraph) : Prop where
  intact : ∀ u ∈ graph.updates, lib.validChecksum u.checksum u.bytes = true
  valid : ∀ c ∈ graph.checkpoints, lib.validChecksum c.checksum c.bytes = true
  newest : ∃ c, graph.checkpoints.head? = some c ∧
    c.localSequence = graph.metadata.compactedThrough
  tailBytes : graph.metadata.tailBytes = updateBytes graph.updates
  tailCount : graph.metadata.tailCount = graph.updates.length

/-- A graph of the version before content ids: a record of its outbox has any id, and one
with a payload of its own is from before there were update rows. -/
structure Legacy (lib : Library D E) (start : D) (log : List UpdateRecord)
    (graph : BrowserGraph) : Prop where
  logged : Logged lib start log graph
  tallied : Tallied lib graph
  distinct : graph.outbox.Pairwise fun a b => a.messageId ≠ b.messageId
  bootstrap : ∀ o ∈ graph.outbox, o.payload.isSome = true → o.localSequence = 0

/-- The update that an append adds to the log. -/
def BrowserGraph.inserted (lib : Library D E) (graph : BrowserGraph) (payload : Bytes) :
    List UpdateRecord :=
  if graph.updates.any fun u => u.checksum = lib.checksum payload then []
  else [⟨graph.metadata.nextSequence, lib.checksum payload, payload⟩]

def BrowserGraph.strikeCheckpoint (graph : BrowserGraph) (sequence : Nat) (bytes : Bytes) :
    BrowserGraph :=
  { graph with checkpoints := strikeCheckpoints sequence bytes graph.checkpoints }

def BrowserGraph.strikeUpdate (graph : BrowserGraph) (sequence : Nat) (bytes : Bytes) :
    BrowserGraph :=
  { graph with updates := strikeUpdates sequence bytes graph.updates }

/-- The log up to the frontier that a recovery reached. -/
def recoveredLog (result : Except (WorkerError E) (BrowserRecovery D)) (log : List UpdateRecord) :
    List UpdateRecord :=
  match result with
  | .ok recovery => Log.upTo UpdateRecord.localSequence log recovery.appliedThrough
  | .error _ => log

/-- The runs of a graph, with the document it started from and the updates since. With
`faults` rows become corrupt and recoveries cut the log off. -/
inductive BrowserHistory (lib : Library D E) (faults : Prop) :
    D → List UpdateRecord → BrowserGraph → Prop
  | imported (replicaId schemaVersion : Nat) (checkpoint : Bytes) (historyEpoch : Nat)
    (serverBase : Bool) {doc : D} (schema : supportsDocumentSchema schemaVersion = true)
    (loads : lib.fromRecoverySnapshot replicaId checkpoint = .ok doc) :
    BrowserHistory lib faults doc [] (BrowserGraph.installImportedGraph lib replicaId
      schemaVersion checkpoint historyEpoch serverBase)
  | created (replicaId : Nat) {doc : D} {snapshot : Bytes} {graph : BrowserGraph}
    (loads : lib.fromRecoverySnapshot replicaId snapshot = .ok doc)
    (installed : (BrowserGraph.opened replicaId).installCheckpoint lib snapshot 0
      schemaVersion = .ok graph) :
    BrowserHistory lib faults doc [] graph
  | upgraded {start : D} {log : List UpdateRecord} {graph graph' : BrowserGraph}
    (legacy : Legacy lib start log graph)
    (normalized : graph.normalizeOutbox lib = (.ok (), graph')) :
    BrowserHistory lib faults start log graph'
  /-- An update is appended that was made on the document of the log. -/
  | append {start : D} {log : List UpdateRecord} {graph : BrowserGraph}
    (history : BrowserHistory lib faults start log graph) (payload : Bytes) (now : String)
    (outbox : Option Bytes) (made : ∃ doc doc', replay lib start log = some doc ∧
      lib.importRecoveryUpdate doc payload = .ok doc') :
    BrowserHistory lib faults start (log ++ graph.inserted lib payload)
      (graph.appendUpdate lib payload now outbox).2
  | acknowledge {start : D} {log : List UpdateRecord} {graph : BrowserGraph}
    (history : BrowserHistory lib faults start log graph) (messageIds : List String) :
    BrowserHistory lib faults start log (graph.acknowledge messageIds)
  /-- A checkpoint is installed that holds the updates up to its sequence. -/
  | install {start : D} {log : List UpdateRecord} {graph graph' : BrowserGraph}
    (history : BrowserHistory lib faults start log graph) (checkpoint : Bytes)
    (sequence schemaVersion : Nat) (schema : supportsDocumentSchema schemaVersion = true)
    (holds : Holds lib start log graph.metadata.replicaId sequence checkpoint)
    (installed : graph.installCheckpoint lib checkpoint sequence schemaVersion = .ok graph') :
    BrowserHistory lib faults start log graph'
  /-- The log starts again, with what is rebased. -/
  | replace {start : D} {log : List UpdateRecord} {graph : BrowserGraph}
    (history : BrowserHistory lib faults start log graph) (checkpoint : Bytes)
    (historyEpoch : Nat) (baseVersionVector rebasedTail : Bytes) (schemaVersion : Nat)
    (now : String) {doc : D} (schema : supportsDocumentSchema schemaVersion = true)
    (loads : lib.fromRecoverySnapshot graph.metadata.replicaId checkpoint = .ok doc)
    (made : rebasedTail ≠ [] → ∃ doc', lib.importRecoveryUpdate doc rebasedTail = .ok doc') :
    BrowserHistory lib faults doc
      (if rebasedTail = [] then []
        else [⟨graph.metadata.nextSequence, lib.checksum rebasedTail, rebasedTail⟩])
      (graph.replaceHistory lib checkpoint historyEpoch baseVersionVector rebasedTail
        schemaVersion now).2
  | normalize {start : D} {log : List UpdateRecord} {graph : BrowserGraph}
    (history : BrowserHistory lib faults start log graph) :
    BrowserHistory lib faults start log (graph.normalizeOutbox lib).2
  | recover {start : D} {log : List UpdateRecord} {graph : BrowserGraph}
    (history : BrowserHistory lib faults start log graph) (enabled : faults) :
    BrowserHistory lib faults start (recoveredLog (BrowserGraph.recover lib graph).1 log)
      (BrowserGraph.recover lib graph).2
  | strikeCheckpoint {start : D} {log : List UpdateRecord} {graph : BrowserGraph}
    (history : BrowserHistory lib faults start log graph) (enabled : faults) (sequence : Nat)
    (bytes : Bytes) (corrupt : ∀ c ∈ graph.checkpoints, c.localSequence = sequence →
      lib.validChecksum c.checksum bytes = false) :
    BrowserHistory lib faults start log (graph.strikeCheckpoint sequence bytes)
  | strikeUpdate {start : D} {log : List UpdateRecord} {graph : BrowserGraph}
    (history : BrowserHistory lib faults start log graph) (enabled : faults) (sequence : Nat)
    (bytes : Bytes) (corrupt : ∀ u ∈ graph.updates, u.localSequence = sequence →
      lib.validChecksum u.checksum bytes = false) :
    BrowserHistory lib faults start log (graph.strikeUpdate sequence bytes)

variable {lib : Library D E} {start : D} {log : List UpdateRecord} {graph : BrowserGraph}

theorem mem_of_find?_decide {α : Type} {p : α → Prop} [DecidablePred p] {rows : List α} {a : α}
    (h : rows.find? (fun x => decide (p x)) = some a) : a ∈ rows ∧ p a := by
  have hp := List.find?_some h
  exact ⟨List.mem_of_find?_eq_some h, of_decide_eq_true hp⟩

/-! ## Checkpoints that are kept -/

theorem fallbackThrough_le (checkpoints : List CheckpointRecord) (least : Nat) :
    BrowserGraph.fallbackThrough checkpoints least ≤ least ∧
      ∀ c ∈ checkpoints, BrowserGraph.fallbackThrough checkpoints least ≤ c.localSequence := by
  unfold BrowserGraph.fallbackThrough
  induction checkpoints generalizing least with
  | nil => exact ⟨le_rfl, nofun⟩
  | cons c checkpoints ih =>
    obtain ⟨hleast, hrest⟩ := ih (min least c.localSequence)
    rw [List.foldl_cons]
    refine ⟨hleast.trans (Nat.min_le_left _ _), fun d hd => ?_⟩
    rcases List.mem_cons.mp hd with rfl | hd
    · exact hleast.trans (Nat.min_le_right _ _)
    · exact hrest d hd

/-- Of the checkpoints with a new one at most two stay, in order. -/
theorem retained_descending (row : CheckpointRecord) {checkpoints : List CheckpointRecord}
    (h : checkpoints.Pairwise fun a b => b.localSequence < a.localSequence) :
    (retained (upsertCheckpoint row checkpoints)).length ≤ 2 ∧
      (retained (upsertCheckpoint row checkpoints)).Pairwise
        (fun a b => b.localSequence < a.localSequence) ∧
      ∀ c ∈ retained (upsertCheckpoint row checkpoints), c = row ∨ c ∈ checkpoints := by
  unfold retained upsertCheckpoint
  refine ⟨List.length_take_le _ _, List.Pairwise.sublist (List.take_sublist _ _) ?_,
    fun c hc => ?_⟩
  · refine List.pairwise_append.mpr ⟨h.sublist List.filter_sublist,
      List.pairwise_cons.mpr ⟨fun c hc => ?_, h.sublist List.filter_sublist⟩, fun c hc d hd => ?_⟩
    · exact of_decide_eq_true (List.mem_filter.mp hc).2
    · have hc := of_decide_eq_true (List.mem_filter.mp hc).2
      rcases List.mem_cons.mp hd with rfl | hd
      · exact hc
      · exact (of_decide_eq_true (List.mem_filter.mp hd).2).trans hc
  · rcases List.mem_append.mp (List.mem_of_mem_take hc) with hc | hc
    · exact .inr (List.mem_filter.mp hc).1
    · rcases List.mem_cons.mp hc with rfl | hc
      · exact .inl rfl
      · exact .inr (List.mem_filter.mp hc).1

/-- A new checkpoint stays where at most one is above it. -/
theorem mem_retained {row : CheckpointRecord} {checkpoints : List CheckpointRecord}
    (htwo : checkpoints.length ≤ 2)
    (h : checkpoints = [] ∨ ∃ c ∈ checkpoints, c.localSequence ≤ row.localSequence) :
    row ∈ retained (upsertCheckpoint row checkpoints) := by
  have habove : (checkpoints.filter fun r =>
      decide (row.localSequence < r.localSequence)).length < 2 := by
    rcases h with rfl | ⟨c, hc, hle⟩
    · exact Nat.succ_pos _
    · refine (List.length_filter_lt_length_iff_exists.mpr ⟨c, hc, ?_⟩).trans_le htwo
      simpa using hle
  unfold retained upsertCheckpoint
  rw [List.take_append]
  refine List.mem_append_right _ ?_
  obtain ⟨n, hn⟩ := Nat.exists_eq_add_of_lt habove
  rw [show 2 - (checkpoints.filter fun r =>
    decide (row.localSequence < r.localSequence)).length = n + 1 by omega]
  rw [List.take_succ_cons]
  exact List.mem_cons_self

/-! ## Rows that are kept -/

theorem Logged.updates_ordered (h : Logged lib start log graph) :
    Log.Ordered UpdateRecord.localSequence graph.updates := by
  obtain ⟨kept, hsub, hrows, _⟩ := h.rows
  have hkept : (kept.map UpdateRecord.localSequence).Pairwise (· < ·) :=
    List.pairwise_map.mpr (h.ordered.sublist hsub)
  rw [← kept_sequences hrows] at hkept
  exact List.pairwise_map.mp hkept

/-- A row is drawn as its update is. -/
theorem Logged.row_drawn (h : Logged lib start log graph) {u : UpdateRecord}
    (hu : u ∈ graph.updates) :
    0 < u.localSequence ∧ u.localSequence < graph.metadata.nextSequence := by
  obtain ⟨kept, hsub, hrows, _⟩ := h.rows
  have hmem : u.localSequence ∈ kept.map UpdateRecord.localSequence := by
    rw [← kept_sequences hrows]
    exact List.mem_map_of_mem hu
  obtain ⟨v, hv, heq⟩ := List.mem_map.mp hmem
  rw [← heq]
  exact h.drawn v (hsub.subset hv)

/-- Rows may go that no checkpoint needs. -/
theorem Logged.keep (h : Logged lib start log graph) {checkpoints : List CheckpointRecord}
    {p : Nat → Bool}
    (hold : ∀ c ∈ checkpoints, ∃ d ∈ graph.checkpoints, d.localSequence ≤ c.localSequence)
    (hp : ∀ c ∈ checkpoints, ∀ n, c.localSequence < n → p n = true) :
    ∃ kept, kept.Sublist log ∧
      List.Forall₂ (Kept lib) kept (graph.updates.filter fun u => p u.localSequence) ∧
      ∀ c ∈ checkpoints, Log.after UpdateRecord.localSequence kept c.localSequence =
        Log.after UpdateRecord.localSequence log c.localSequence := by
  obtain ⟨kept, hsub, hrows, hafter⟩ := h.rows
  refine ⟨_, List.filter_sublist.trans hsub, kept_filter hrows, fun c hc => ?_⟩
  obtain ⟨d, hd, hle⟩ := hold c hc
  rw [Log.after_filter kept (hp c hc), ← Log.after_after hle, hafter d hd, Log.after_after hle]

/-! ## The steps -/

theorem covers_nil {peer next sequence schemaVersion : Nat} {checkpoint : Bytes} {doc : D}
    (schema : supportsDocumentSchema schemaVersion = true) (hdrawn : sequence < next)
    (hloads : lib.fromRecoverySnapshot peer checkpoint = .ok doc) :
    Covers lib doc [] peer next ⟨sequence, schemaVersion, lib.checksum checkpoint, checkpoint⟩ :=
  ⟨schema, hdrawn, fun _ => ⟨doc, hloads, rfl⟩⟩

theorem logged_imported {replicaId schemaVersion historyEpoch : Nat} {checkpoint : Bytes}
    {serverBase : Bool} {doc : D} (schema : supportsDocumentSchema schemaVersion = true)
    (hloads : lib.fromRecoverySnapshot replicaId checkpoint = .ok doc) :
    Logged lib doc [] (BrowserGraph.installImportedGraph lib replicaId schemaVersion checkpoint
      historyEpoch serverBase) where
  ordered := .nil
  next := Nat.one_pos
  drawn := nofun
  identity := nofun
  replays := rfl
  schema := schema
  two := Nat.le_succ 1
  descending := List.pairwise_singleton _ _
  pointer := ⟨_, List.mem_cons_self, le_rfl⟩
  rows := ⟨[], List.Sublist.refl _, .nil, fun _ _ => rfl⟩
  covers := by
    intro c hc
    rw [List.mem_singleton.mp hc]
    exact covers_nil schema Nat.one_pos hloads

theorem BrowserGraph.appendUpdate_none {payload : Bytes} {now : String} {outbox : Option Bytes}
    (h : graph.updates.find? (fun u => u.checksum = lib.checksum payload) = none) :
    (graph.appendUpdate lib payload now outbox).2 =
      { graph with
        updates := putUpdate ⟨graph.metadata.nextSequence, lib.checksum payload, payload⟩
          graph.updates
        outbox := graph.pend (lib.checksum payload) graph.metadata.nextSequence now outbox
        metadata := { graph.metadata with
          nextSequence := graph.metadata.nextSequence + 1
          tailBytes := graph.metadata.tailBytes + payload.length
          tailCount := graph.metadata.tailCount + 1 } } := by
  unfold BrowserGraph.appendUpdate
  simp only [h]

theorem BrowserGraph.appendUpdate_some {payload : Bytes} {now : String} {outbox : Option Bytes}
    {existing : UpdateRecord}
    (h : graph.updates.find? (fun u => u.checksum = lib.checksum payload) = some existing) :
    (graph.appendUpdate lib payload now outbox).2 =
      { graph with
        outbox := graph.pend (lib.checksum payload) existing.localSequence now outbox } := by
  unfold BrowserGraph.appendUpdate
  simp only [h]

/-- A row of a new sequence comes last. -/
theorem putUpdate_last {row : UpdateRecord} {rows : List UpdateRecord}
    (h : ∀ u ∈ rows, u.localSequence < row.localSequence) : putUpdate row rows = rows ++ [row] := by
  have hafter : (rows.filter fun r => decide (row.localSequence < r.localSequence)) = [] := by
    refine List.filter_eq_nil_iff.mpr fun u hu hlt => ?_
    have hlt := of_decide_eq_true hlt
    have hle := h u hu
    omega
  unfold putUpdate
  rw [List.filter_eq_self.mpr fun u hu => decide_eq_true (h u hu), hafter]

/-- An append shares the row of the same bytes, or adds one. -/
theorem BrowserGraph.append_cases (lib : Library D E) (graph : BrowserGraph) (payload : Bytes) :
    (∃ existing ∈ graph.updates, existing.checksum = lib.checksum payload ∧
      graph.updates.find? (fun u => u.checksum = lib.checksum payload) = some existing ∧
      graph.inserted lib payload = []) ∨
    (graph.updates.find? (fun u => u.checksum = lib.checksum payload) = none ∧
      graph.inserted lib payload =
        [⟨graph.metadata.nextSequence, lib.checksum payload, payload⟩]) := by
  unfold BrowserGraph.inserted
  cases hfind : graph.updates.find? fun u => u.checksum = lib.checksum payload with
  | some existing =>
    obtain ⟨hmem, hdigest⟩ := mem_of_find?_decide hfind
    refine .inl ⟨existing, hmem, hdigest, rfl, if_pos ?_⟩
    exact List.any_eq_true.mpr ⟨existing, hmem, decide_eq_true hdigest⟩
  | none =>
    refine .inr ⟨rfl, if_neg fun hany => ?_⟩
    obtain ⟨u, hu, heq⟩ := List.any_eq_true.mp hany
    exact List.find?_eq_none.mp hfind u hu heq

theorem Logged.outbox (h : Logged lib start log graph) (outbox : List OutboxRecord) :
    Logged lib start log { graph with outbox := outbox } :=
  ⟨h.ordered, h.next, h.drawn, h.identity, h.replays, h.schema, h.two, h.descending, h.pointer,
    h.rows, h.covers⟩

theorem Logged.append (h : Logged lib start log graph) {payload : Bytes} {now : String}
    {outbox : Option Bytes} (hmade : ∃ doc doc', replay lib start log = some doc ∧
      lib.importRecoveryUpdate doc payload = .ok doc') :
    Logged lib start (log ++ graph.inserted lib payload)
      (graph.appendUpdate lib payload now outbox).2 := by
  rcases graph.append_cases lib payload with
    ⟨existing, _, _, hfind, hinserted⟩ | ⟨hfind, hinserted⟩
  · rw [BrowserGraph.appendUpdate_some hfind, hinserted, List.append_nil]
    exact h.outbox _
  · rw [BrowserGraph.appendUpdate_none hfind, hinserted,
      putUpdate_last fun u hu => (h.row_drawn hu).2]
    obtain ⟨kept, hsub, hrows, hafter⟩ := h.rows
    constructor
    · exact h.ordered.snoc fun u hu => (h.drawn u hu).2
    · exact Nat.succ_pos _
    · intro u hu
      show 0 < u.localSequence ∧ u.localSequence < graph.metadata.nextSequence + 1
      rcases List.mem_append.mp hu with hu | hu
      · exact ⟨(h.drawn u hu).1, (h.drawn u hu).2.trans (Nat.lt_succ_self _)⟩
      · rw [List.mem_singleton.mp hu]
        exact ⟨h.next, Nat.lt_succ_self _⟩
    · intro u hu
      rcases List.mem_append.mp hu with hu | hu
      · exact h.identity u hu
      · rw [List.mem_singleton.mp hu]
    · obtain ⟨doc, doc', hdoc, himport⟩ := hmade
      rw [replay_append, hdoc, Option.bind_some]
      unfold replay
      rw [List.foldlM_cons, himport]
      rfl
    · exact h.schema
    · exact h.two
    · exact h.descending
    · exact h.pointer
    · refine ⟨kept ++ [_], hsub.append_right _, List.rel_append hrows
        (.cons ⟨rfl, rfl, .inl rfl⟩ .nil), fun c hc => ?_⟩
      have hdrawn := (h.covers c hc).drawn
      rw [Log.after_snoc kept hdrawn, Log.after_snoc log hdrawn, hafter c hc]
    · intro c hc
      have hold := h.covers c hc
      refine ⟨hold.schema, hold.drawn.trans (Nat.lt_succ_self _), fun hvalid => ?_⟩
      obtain ⟨doc, hloads, hdoc⟩ := hold.holds hvalid
      exact ⟨doc, hloads, by rw [Log.upTo_snoc log hold.drawn]; exact hdoc⟩

/-- The outbox record goes, and its row where no checkpoint needs it. -/
theorem BrowserGraph.acknowledgeOne_cases (graph : BrowserGraph) (through : Nat)
    (messageId : String) :
    graph.acknowledgeOne through messageId =
        { graph with outbox := deleteOutbox messageId graph.outbox } ∨
      ∃ record ∈ graph.outbox, record.messageId = messageId ∧ 0 < record.localSequence ∧
        record.localSequence ≤ through ∧ ∃ update ∈ graph.updates,
          update.localSequence = record.localSequence ∧
          graph.acknowledgeOne through messageId =
            { graph with
              outbox := deleteOutbox messageId graph.outbox
              updates := graph.updates.filter fun u =>
                decide (u.localSequence ≠ record.localSequence)
              metadata := { graph.metadata with
                tailBytes := graph.metadata.tailBytes - update.bytes.length
                tailCount := graph.metadata.tailCount - 1 } } := by
  unfold BrowserGraph.acknowledgeOne
  cases hrecord : graph.outbox.find? fun r => r.messageId = messageId with
  | none => exact .inl rfl
  | some record =>
    by_cases hskip : record.localSequence = 0 ∨ through < record.localSequence
    · exact .inl (if_pos hskip)
    · simp only [if_neg hskip]
      cases hupdate : graph.updates.find? fun u => u.localSequence = record.localSequence with
      | none => exact .inl rfl
      | some update =>
        obtain ⟨hmem, hid⟩ := mem_of_find?_decide hrecord
        obtain ⟨hmem', hsequence⟩ := mem_of_find?_decide hupdate
        exact .inr ⟨record, hmem, hid, by omega, by omega, update, hmem', hsequence, rfl⟩

theorem Logged.acknowledgeOne (h : Logged lib start log graph) {through : Nat}
    (hthrough : ∀ c ∈ graph.checkpoints, through ≤ c.localSequence) (messageId : String) :
    Logged lib start log (graph.acknowledgeOne through messageId) ∧
      (graph.acknowledgeOne through messageId).checkpoints = graph.checkpoints := by
  rcases graph.acknowledgeOne_cases through messageId with
    heq | ⟨record, _, _, _, hle, update, _, _, heq⟩
  · rw [heq]
    exact ⟨h.outbox _, rfl⟩
  · rw [heq]
    refine ⟨⟨h.ordered, h.next, h.drawn, h.identity, h.replays, h.schema, h.two, h.descending,
      h.pointer, ?_, h.covers⟩, rfl⟩
    refine h.keep (p := fun n => decide (n ≠ record.localSequence)) (fun c hc => ⟨c, hc, le_rfl⟩)
      fun c hc n hn => decide_eq_true ?_
    have hle' := hthrough c hc
    omega

theorem Logged.acknowledge (h : Logged lib start log graph) (messageIds : List String) :
    Logged lib start log (graph.acknowledge messageIds) := by
  unfold BrowserGraph.acknowledge
  have hthrough := (fallbackThrough_le graph.checkpoints graph.metadata.compactedThrough).2
  generalize BrowserGraph.fallbackThrough graph.checkpoints graph.metadata.compactedThrough =
    through at hthrough
  induction messageIds generalizing graph with
  | nil => exact h
  | cons messageId messageIds ih =>
    obtain ⟨hone, hcheckpoints⟩ := h.acknowledgeOne hthrough messageId
    rw [List.foldl_cons]
    exact ih hone (by rw [hcheckpoints]; exact hthrough)

/-- The row of a new checkpoint with what it holds. -/
theorem covers_row {peer next sequence schemaVersion : Nat} {checkpoint : Bytes}
    (schema : supportsDocumentSchema schemaVersion = true) (hdrawn : sequence < next)
    (hholds : Holds lib start log peer sequence checkpoint) :
    Covers lib start log peer next
      ⟨sequence, schemaVersion, lib.checksum checkpoint, checkpoint⟩ :=
  ⟨schema, hdrawn, fun _ => hholds⟩

/-- No checkpoint that is kept with a new one is below all those before. -/
theorem Logged.retained_above (h : Logged lib start log graph) {row : CheckpointRecord}
    (hlow : graph.metadata.compactedThrough ≤ row.localSequence) {c : CheckpointRecord}
    (hc : c ∈ retained (upsertCheckpoint row graph.checkpoints)) :
    ∃ d ∈ graph.checkpoints, d.localSequence ≤ c.localSequence := by
  rcases (retained_descending row h.descending).2.2 c hc with rfl | hc
  · obtain ⟨first, hfirst, hpointer⟩ := h.pointer
    exact ⟨first, hfirst, hpointer.trans hlow⟩
  · exact ⟨c, hc, le_rfl⟩

theorem Logged.install (h : Logged lib start log graph) {graph' : BrowserGraph}
    {checkpoint : Bytes} {sequence schemaVersion : Nat}
    (schema : supportsDocumentSchema schemaVersion = true)
    (hholds : Holds lib start log graph.metadata.replicaId sequence checkpoint)
    (hinstalled : graph.installCheckpoint lib checkpoint sequence schemaVersion = .ok graph') :
    Logged lib start log graph' := by
  obtain ⟨_, hrange, hinstalled⟩ := bind_eq_ok.mp hinstalled
  obtain ⟨hlow, hhigh⟩ := not_or.mp (refuse_eq_ok.mp hrange)
  obtain rfl := pure_eq_ok.mp hinstalled
  obtain ⟨first, hfirst, hpointer⟩ := h.pointer
  have hold : ∃ c ∈ graph.checkpoints, c.localSequence ≤ sequence := ⟨first, hfirst, by omega⟩
  obtain ⟨htwo, hdescending, hmem⟩ := retained_descending
    ⟨sequence, schemaVersion, lib.checksum checkpoint, checkpoint⟩ h.descending
  have hcovers := covers_row schema (not_le.mp hhigh) hholds
  refine ⟨h.ordered, h.next, h.drawn, h.identity, h.replays, schema, htwo, hdescending,
    ⟨_, mem_retained h.two (.inr hold), Nat.le_max_right _ _⟩, ?_, fun c hc => ?_⟩
  · refine h.keep (p := fun n => decide (_ < n) || (BrowserGraph.pinned graph.outbox).contains n)
      (fun c hc => h.retained_above (not_lt.mp hlow) hc) fun c hc n hn => ?_
    refine Bool.or_eq_true_iff.mpr (.inl (decide_eq_true ?_))
    exact ((fallbackThrough_le _ sequence).2 c hc).trans_lt hn
  · rcases hmem c hc with rfl | hc
    · exact hcovers
    · exact h.covers c hc

theorem logged_created {replicaId : Nat} {snapshot : Bytes} {doc : D} {graph : BrowserGraph}
    (hloads : lib.fromRecoverySnapshot replicaId snapshot = .ok doc)
    (hinstalled : (BrowserGraph.opened replicaId).installCheckpoint lib snapshot 0 schemaVersion =
      .ok graph) : Logged lib doc [] graph := by
  obtain ⟨_, _, hinstalled⟩ := bind_eq_ok.mp hinstalled
  obtain rfl := pure_eq_ok.mp hinstalled
  have hcovers := covers_nil supports_schemaVersion (show 0 < 1 from Nat.one_pos) hloads
  refine ⟨.nil, Nat.one_pos, nofun, nofun, rfl, supports_schemaVersion, Nat.le_succ 1,
    List.pairwise_singleton _ _, ⟨_, List.mem_cons_self, le_rfl⟩,
    ⟨[], List.Sublist.refl _, .nil, fun _ _ => rfl⟩, fun c hc => ?_⟩
  rw [List.mem_singleton.mp hc]
  exact hcovers

theorem Logged.replace (h : Logged lib start log graph) {checkpoint : Bytes} {historyEpoch : Nat}
    {baseVersionVector rebasedTail : Bytes} {schemaVersion : Nat} {now : String} {doc : D}
    (schema : supportsDocumentSchema schemaVersion = true)
    (hloads : lib.fromRecoverySnapshot graph.metadata.replicaId checkpoint = .ok doc)
    (hmade : rebasedTail ≠ [] → ∃ doc', lib.importRecoveryUpdate doc rebasedTail = .ok doc') :
    Logged lib doc
      (if rebasedTail = [] then []
        else [⟨graph.metadata.nextSequence, lib.checksum rebasedTail, rebasedTail⟩])
      (graph.replaceHistory lib checkpoint historyEpoch baseVersionVector rebasedTail
        schemaVersion now).2 := by
  have hnext := h.next
  have hlast : graph.metadata.nextSequence - 1 < graph.metadata.nextSequence := by omega
  unfold BrowserGraph.replaceHistory
  cases rebasedTail with
  | nil =>
    refine ⟨.nil, hnext, nofun, nofun, rfl, schema, Nat.le_succ 1, List.pairwise_singleton _ _,
      ⟨_, List.mem_cons_self, le_rfl⟩, ⟨[], List.Sublist.refl _, .nil, fun _ _ => rfl⟩,
      fun c hc => ?_⟩
    rw [List.mem_singleton.mp hc]
    exact covers_nil schema hlast hloads
  | cons byte rest =>
    obtain ⟨doc', himport⟩ := hmade (List.cons_ne_nil _ _)
    refine ⟨List.pairwise_singleton _ _, Nat.succ_pos _, fun u hu => ?_, fun u hu => ?_, ?_, schema,
      Nat.le_succ 1, List.pairwise_singleton _ _, ⟨_, List.mem_cons_self, le_rfl⟩,
      ⟨_, List.Sublist.refl _, List.forall₂_same.mpr fun u _ => ⟨rfl, rfl, .inl rfl⟩,
        fun _ _ => rfl⟩, fun c hc => ?_⟩
    · rw [List.mem_singleton.mp hu]
      exact ⟨hnext, Nat.lt_succ_self _⟩
    · rw [List.mem_singleton.mp hu]
    · show (replay lib doc [_]).isSome = true
      unfold replay
      rw [List.foldlM_cons, himport]
      rfl
    · rw [List.mem_singleton.mp hc]
      refine ⟨schema, hlast.trans (Nat.lt_succ_self _), fun _ => ⟨doc, hloads, ?_⟩⟩
      have hnone : Log.upTo UpdateRecord.localSequence
          [⟨graph.metadata.nextSequence, lib.checksum (byte :: rest), byte :: rest⟩]
          (graph.metadata.nextSequence - 1) = [] := by
        refine List.filter_eq_nil_iff.mpr fun u hu hle => ?_
        rw [List.mem_singleton.mp hu] at hle
        have hle : graph.metadata.nextSequence ≤ graph.metadata.nextSequence - 1 :=
          of_decide_eq_true hle
        omega
      show replay lib doc (Log.upTo _ [_] _) = some doc
      rw [hnone]
      rfl

/-- A repair cuts the log off at the frontier, where its checkpoint is installed. -/
theorem Logged.repair (h : Logged lib start log graph) {validThrough : Nat} {checkpoint : Bytes}
    (records : List QuarantineRecord) (hdrawn : validThrough < graph.metadata.nextSequence)
    (hvalid : ∀ c ∈ graph.checkpoints, lib.validChecksum c.checksum c.bytes = true →
      c.localSequence ≤ validThrough)
    (hbase : ∃ c ∈ graph.checkpoints, c.localSequence ≤ validThrough)
    (hholds : Holds lib start log graph.metadata.replicaId validThrough checkpoint) :
    Logged lib start (Log.upTo UpdateRecord.localSequence log validThrough)
      (graph.repairCorruptTail lib checkpoint validThrough schemaVersion records) := by
  obtain ⟨htwo, hdescending, hmem⟩ := retained_descending
    ⟨validThrough, schemaVersion, lib.checksum checkpoint, checkpoint⟩ h.descending
  obtain ⟨kept, hsub, hrows, hafter⟩ := h.rows
  obtain ⟨doc, hloads, hdoc⟩ := hholds
  have hupTo (n : Nat) (hle : n ≤ validThrough) : Log.upTo UpdateRecord.localSequence
      (Log.upTo UpdateRecord.localSequence log validThrough) n =
        Log.upTo UpdateRecord.localSequence log n := Log.upTo_upTo hle
  refine ⟨h.ordered.upTo _, h.next, fun u hu => h.drawn u (Log.mem_upTo.mp hu).1,
    fun u hu => h.identity u (Log.mem_upTo.mp hu).1, ?_, supports_schemaVersion, htwo,
    hdescending, ⟨_, mem_retained h.two (.inr hbase), le_rfl⟩,
    ⟨Log.upTo UpdateRecord.localSequence kept validThrough, hsub.filter _,
      kept_filter (p := fun n => decide (n ≤ validThrough)) hrows, fun c hc => ?_⟩, fun c hc => ?_⟩
  · rw [hdoc]
    rfl
  · obtain ⟨d, hd, hle⟩ : ∃ d ∈ graph.checkpoints, d.localSequence ≤ c.localSequence := by
      rcases hmem c hc with rfl | hc
      · exact hbase
      · exact ⟨c, hc, le_rfl⟩
    rw [Log.after_upTo, Log.after_upTo, ← Log.after_after hle, hafter d hd, Log.after_after hle]
  · rcases hmem c hc with rfl | hc
    · exact covers_row supports_schemaVersion hdrawn
        ⟨doc, hloads, by rw [hupTo validThrough le_rfl]; exact hdoc⟩
    · have hold := h.covers c hc
      refine ⟨hold.schema, hold.drawn, fun hvalid' => ?_⟩
      obtain ⟨d, hload, hd⟩ := hold.holds hvalid'
      exact ⟨d, hload, by rw [hupTo _ (hvalid c hc hvalid')]; exact hd⟩

theorem Logged.strikeCheckpoint (h : Logged lib start log graph) {sequence : Nat} {bytes : Bytes}
    (hcorrupt : ∀ c ∈ graph.checkpoints, c.localSequence = sequence →
      lib.validChecksum c.checksum bytes = false) :
    Logged lib start log (graph.strikeCheckpoint sequence bytes) := by
  have hsequences : (strikeCheckpoints sequence bytes graph.checkpoints).map
      CheckpointRecord.localSequence = graph.checkpoints.map CheckpointRecord.localSequence := by
    unfold strikeCheckpoints
    rw [List.map_map]
    refine List.map_congr_left fun c _ => ?_
    show (if _ then _ else _ : CheckpointRecord).localSequence = _
    split <;> rfl
  have hmem (n : Nat) : (∃ c ∈ strikeCheckpoints sequence bytes graph.checkpoints,
      c.localSequence = n) ↔ ∃ c ∈ graph.checkpoints, c.localSequence = n := by
    rw [← List.mem_map, ← List.mem_map, hsequences]
  obtain ⟨kept, hsub, hrows, hafter⟩ := h.rows
  obtain ⟨first, hfirst, hpointer⟩ := h.pointer
  obtain ⟨first', hfirst', hsame⟩ := (hmem first.localSequence).mpr ⟨first, hfirst, rfl⟩
  refine ⟨h.ordered, h.next, h.drawn, h.identity, h.replays, h.schema, ?_, ?_,
    ⟨first', hfirst', hsame.trans_le hpointer⟩, ⟨kept, hsub, hrows, fun c hc => ?_⟩,
    covers_strike h.covers hcorrupt⟩
  · show (strikeCheckpoints sequence bytes graph.checkpoints).length ≤ 2
    unfold strikeCheckpoints
    rw [List.length_map]
    exact h.two
  · have hdescending : (graph.checkpoints.map CheckpointRecord.localSequence).Pairwise
        (fun a b => b < a) := List.pairwise_map.mpr h.descending
    rw [← hsequences] at hdescending
    exact List.pairwise_map.mp hdescending
  · obtain ⟨d, hd, heq⟩ := (hmem c.localSequence).mp ⟨c, hc, rfl⟩
    rw [← heq]
    exact hafter d hd

theorem Logged.strikeUpdate (h : Logged lib start log graph) {sequence : Nat} {bytes : Bytes}
    (hcorrupt : ∀ u ∈ graph.updates, u.localSequence = sequence →
      lib.validChecksum u.checksum bytes = false) :
    Logged lib start log (graph.strikeUpdate sequence bytes) := by
  obtain ⟨kept, hsub, hrows, hafter⟩ := h.rows
  exact ⟨h.ordered, h.next, h.drawn, h.identity, h.replays, h.schema, h.two, h.descending,
    h.pointer, ⟨kept, hsub, kept_strike hrows hcorrupt, hafter⟩, h.covers⟩

end Neoseq.Local
