import Neoseq.Local.Recovery

/-! The log of one graph in the browser: the rows of the native repository, and beside them
an outbox whose records wait for the server. A record names the update row that holds its
payload, so rows stay as long as a record or a checkpoint needs them. -/

namespace Neoseq.Local

structure MetadataRecord where
  replicaId : Nat
  historyEpoch : Nat
  schemaVersion : Nat
  nextSequence : Nat
  compactedThrough : Nat
  checkpointBytes : Nat
  tailBytes : Nat
  tailCount : Nat
  deriving DecidableEq

/-- Only records of an old version carry their payload. -/
structure OutboxRecord where
  messageId : String
  localSequence : Nat
  baseVersionVector : Bytes
  payload : Option Bytes
  createdAt : String
  deriving DecidableEq

structure InspectedOutboxRecord where
  persisted : OutboxRecord
  payload : Bytes
  contentId : String
  deriving DecidableEq

structure StorageError where
  code : String
  message : String
  retryable : Bool
  deriving DecidableEq

/-- The records of one graph. The outbox is in the order of `by_graph_sequence`. -/
structure BrowserGraph where
  metadata : MetadataRecord
  checkpoints : List CheckpointRecord
  updates : List UpdateRecord
  outbox : List OutboxRecord
  quarantine : List QuarantineRecord
  serverBase : Bool

/-! ## Object stores -/

/-- `put` replaces the row of the sequence. -/
def putUpdate (row : UpdateRecord) (rows : List UpdateRecord) : List UpdateRecord :=
  (rows.filter fun r => decide (r.localSequence < row.localSequence)) ++ row ::
    rows.filter fun r => decide (row.localSequence < r.localSequence)

/-- The order of the index, in which equal sequences are by the primary key. -/
def OutboxRecord.before (a b : OutboxRecord) : Bool :=
  decide (a.localSequence < b.localSequence) ||
    (decide (a.localSequence = b.localSequence) && decide (a.messageId < b.messageId))

/-- `put` replaces the record of the message. -/
def putOutbox (record : OutboxRecord) (records : List OutboxRecord) : List OutboxRecord :=
  let others := records.filter fun r => decide (r.messageId ≠ record.messageId)
  (others.filter fun r => r.before record) ++ record :: others.filter fun r => !r.before record

def deleteOutbox (messageId : String) (records : List OutboxRecord) : List OutboxRecord :=
  records.filter fun r => decide (r.messageId ≠ messageId)

def putQuarantine (rows : List QuarantineRecord) (record : QuarantineRecord) :
    List QuarantineRecord :=
  (rows.filter fun r => decide (r.exportHandle ≠ record.exportHandle)) ++ [record]

namespace BrowserGraph

variable {D E : Type}

/-- `openGraph` of a graph that has no metadata yet. -/
def opened (replicaId : Nat) : BrowserGraph where
  metadata := ⟨replicaId, 0, schemaVersion, 1, 0, 0, 0, 0⟩
  checkpoints := []
  updates := []
  outbox := []
  quarantine := []
  serverBase := false

def installImportedGraph (lib : Library D E) (replicaId schemaVersion : Nat) (checkpoint : Bytes)
    (historyEpoch : Nat) (serverBase : Bool) : BrowserGraph where
  metadata := ⟨replicaId, historyEpoch, schemaVersion, 1, 0, checkpoint.length, 0, 0⟩
  checkpoints := [⟨0, schemaVersion, lib.checksum checkpoint, checkpoint⟩]
  updates := []
  outbox := []
  quarantine := []
  serverBase := serverBase

def updatesAfter (graph : BrowserGraph) (sequence : Nat) : List UpdateRecord :=
  graph.updates.filter fun u => decide (sequence < u.localSequence)

/-- The outbox after an append that may be for the server. -/
def pend (graph : BrowserGraph) (digest : String) (sequence : Nat) (now : String)
    (outbox : Option Bytes) : List OutboxRecord :=
  match outbox with
  | some base => putOutbox ⟨digest, sequence, base, none, now⟩ graph.outbox
  | none => graph.outbox

/-- Bytes that are there already share the row. -/
def appendUpdate (lib : Library D E) (graph : BrowserGraph) (payload : Bytes) (now : String)
    (outbox : Option Bytes) : AppendReceipt × BrowserGraph :=
  let digest := lib.checksum payload
  match graph.updates.find? fun u => u.checksum = digest with
  | some existing =>
    (⟨existing.localSequence, digest⟩,
      { graph with outbox := graph.pend digest existing.localSequence now outbox })
  | none =>
    let sequence := graph.metadata.nextSequence
    (⟨sequence, digest⟩,
      { graph with
        updates := putUpdate ⟨sequence, digest, payload⟩ graph.updates
        outbox := graph.pend digest sequence now outbox
        metadata := { graph.metadata with
          nextSequence := sequence + 1
          tailBytes := graph.metadata.tailBytes + payload.length
          tailCount := graph.metadata.tailCount + 1 } })

/-! ## The outbox -/

/-- The payload of a record with the checksum of its row, or an error where that is gone. -/
def resolveOutbox (graph : BrowserGraph) (record : OutboxRecord) :
    Except StorageError (OutboxRecord × Bytes × Option String) :=
  match record.payload with
  | some payload => .ok (record, payload, none)
  | none =>
    match graph.updates.find? fun u => u.localSequence = record.localSequence with
    | some update => .ok (record, update.bytes, some update.checksum)
    | none => .error ⟨"storage_corrupt",
        "outbox update " ++ toString record.localSequence ++ " is missing", false⟩

def inspectResolved (lib : Library D E) :
    OutboxRecord × Bytes × Option String → Except StorageError InspectedOutboxRecord
  | (record, payload, storedChecksum) =>
    let digest := lib.checksum payload
    match storedChecksum with
    | some stored =>
      if stored ≠ digest then .error ⟨"storage_corrupt",
        "outbox update " ++ toString record.localSequence ++ " checksum does not match its payload",
        false⟩
      else .ok ⟨record, payload, digest⟩
    | none => .ok ⟨record, payload, digest⟩

/-- The oldest records with their content ids. -/
def inspectOutbox (lib : Library D E) (graph : BrowserGraph) (limit : Option Nat) :
    Except StorageError (List InspectedOutboxRecord) := do
  let records := match limit with
    | some limit => graph.outbox.take limit
    | none => graph.outbox
  let candidates ← records.mapM graph.resolveOutbox
  candidates.mapM (inspectResolved lib)

/-- What the outbox holds for a record, where it is still what was inspected. -/
def live (graph : BrowserGraph) (candidate : InspectedOutboxRecord) :
    Option InspectedOutboxRecord :=
  match graph.outbox.find? fun r => r.messageId = candidate.persisted.messageId with
  | none => none
  | some current =>
    if current ≠ candidate.persisted then none
    else match current.payload with
      | some payload =>
        if payload ≠ candidate.payload then none else some { candidate with persisted := current }
      | none =>
        match graph.updates.find? fun u => u.localSequence = current.localSequence with
        | none => none
        | some update =>
          if update.checksum ≠ candidate.contentId ∨ update.bytes ≠ candidate.payload then none
          else some { candidate with persisted := current }

def putNormalized (outbox : List OutboxRecord) (candidate : InspectedOutboxRecord) :
    List OutboxRecord :=
  if outbox.any fun r => r.messageId = candidate.contentId then outbox
  else putOutbox { candidate.persisted with messageId := candidate.contentId } outbox

/-- The write transaction of `normalizeOutbox`. -/
def rewriteOutbox (graph : BrowserGraph) (inspected : List InspectedOutboxRecord) : BrowserGraph :=
  let live := inspected.filterMap graph.live
  let renamed := live.filter fun c => decide (c.persisted.messageId ≠ c.contentId)
  let kept := renamed.foldl (fun outbox c => deleteOutbox c.persisted.messageId outbox) graph.outbox
  { graph with outbox := live.foldl putNormalized kept }

def isNormalized (inspected : List InspectedOutboxRecord) : Bool :=
  inspected.all fun c => c.persisted.messageId = c.contentId

def normalizeOutbox (lib : Library D E) (graph : BrowserGraph) :
    Except StorageError Unit × BrowserGraph :=
  match graph.inspectOutbox lib none with
  | .error error => (.error error, graph)
  | .ok inspected =>
    if isNormalized inspected then (.ok (), graph)
    else
      let graph := graph.rewriteOutbox inspected
      match graph.inspectOutbox lib none with
      | .error error => (.error error, graph)
      | .ok normalized =>
        if isNormalized normalized then (.ok (), graph)
        else (.error ⟨"storage_corrupt",
          "outbox changed while its content identity was being normalized", false⟩, graph)

/-! ## Retention -/

/-- The rows up to here are not needed by a checkpoint. -/
def fallbackThrough (checkpoints : List CheckpointRecord) (least : Nat) : Nat :=
  checkpoints.foldl (fun least c => min least c.localSequence) least

def acknowledgeOne (through : Nat) (graph : BrowserGraph) (messageId : String) : BrowserGraph :=
  let acknowledged := { graph with outbox := deleteOutbox messageId graph.outbox }
  match graph.outbox.find? fun r => r.messageId = messageId with
  | none => acknowledged
  | some record =>
    if record.localSequence = 0 ∨ through < record.localSequence then acknowledged
    else match graph.updates.find? fun u => u.localSequence = record.localSequence with
      | none => acknowledged
      | some update => { acknowledged with
          updates := graph.updates.filter fun u => decide (u.localSequence ≠ record.localSequence)
          metadata := { graph.metadata with
            tailBytes := graph.metadata.tailBytes - update.bytes.length
            tailCount := graph.metadata.tailCount - 1 } }

def acknowledge (graph : BrowserGraph) (messageIds : List String) : BrowserGraph :=
  messageIds.foldl
    (acknowledgeOne (fallbackThrough graph.checkpoints graph.metadata.compactedThrough)) graph

/-- The rows that records of the outbox wait with. -/
def pinned (outbox : List OutboxRecord) : List Nat :=
  (outbox.map OutboxRecord.localSequence).filter fun sequence => decide (0 < sequence)

def installCheckpoint (lib : Library D E) (graph : BrowserGraph) (payload : Bytes)
    (sequence schemaVersion : Nat) : Except StorageError BrowserGraph := do
  refuse (sequence < graph.metadata.compactedThrough ∨ graph.metadata.nextSequence ≤ sequence)
    ⟨"storage_corrupt", "checkpoint sequence is outside the durable frontier", false⟩
  let checkpoints := retained
    (upsertCheckpoint ⟨sequence, schemaVersion, lib.checksum payload, payload⟩ graph.checkpoints)
  let through := fallbackThrough checkpoints sequence
  let updates := graph.updates.filter fun u =>
    decide (through < u.localSequence) || (pinned graph.outbox).contains u.localSequence
  return { graph with
    checkpoints := checkpoints
    updates := updates
    metadata := { graph.metadata with
      schemaVersion := schemaVersion
      compactedThrough := max graph.metadata.compactedThrough sequence
      checkpointBytes := checkpointBytes checkpoints
      tailBytes := updateBytes updates
      tailCount := updates.length } }

def repairCorruptTail (lib : Library D E) (graph : BrowserGraph) (checkpoint : Bytes)
    (validThrough schemaVersion : Nat) (records : List QuarantineRecord) : BrowserGraph :=
  let checkpoints := retained (upsertCheckpoint
    ⟨validThrough, schemaVersion, lib.checksum checkpoint, checkpoint⟩ graph.checkpoints)
  let updates := graph.updates.filter fun u => decide (u.localSequence ≤ validThrough)
  { graph with
    checkpoints := checkpoints
    updates := updates
    quarantine := records.foldl putQuarantine graph.quarantine
    metadata := { graph.metadata with
      schemaVersion := schemaVersion
      compactedThrough := validThrough
      checkpointBytes := checkpointBytes checkpoints
      tailBytes := updateBytes updates
      tailCount := updates.length } }

def replaceHistory (lib : Library D E) (graph : BrowserGraph) (checkpoint : Bytes)
    (historyEpoch : Nat) (baseVersionVector rebasedTail : Bytes) (schemaVersion : Nat)
    (now : String) : Nat × BrowserGraph :=
  let checkpointSequence := graph.metadata.nextSequence - 1
  let sequence := graph.metadata.nextSequence
  let digest := lib.checksum rebasedTail
  let rebased := decide (0 < rebasedTail.length)
  (checkpointSequence,
    { graph with
      checkpoints := [⟨checkpointSequence, schemaVersion, lib.checksum checkpoint, checkpoint⟩]
      updates := if rebased then [⟨sequence, digest, rebasedTail⟩] else []
      outbox := if rebased then [⟨digest, sequence, baseVersionVector, none, now⟩] else []
      serverBase := true
      metadata := { graph.metadata with
        historyEpoch := historyEpoch
        schemaVersion := schemaVersion
        nextSequence := if rebased then sequence + 1 else sequence
        compactedThrough := checkpointSequence
        checkpointBytes := checkpoint.length
        tailBytes := rebasedTail.length
        tailCount := if rebased then 1 else 0 } })

def quarantineRecord (graph : BrowserGraph) (record : QuarantineRecord) : BrowserGraph :=
  { graph with quarantine := putQuarantine graph.quarantine record }

end BrowserGraph

end Neoseq.Local
