import Neoseq.Result

/-! The durable log of one graph on a device: update rows, checkpoints, and what was moved
to quarantine. A recovery picks a checkpoint, replays the updates after it and cuts the log
off where an update is corrupt. -/

namespace Neoseq.Local

abbrev Bytes := List UInt8

/-- What recovery asks of the document library, of the digest library and of the
validation of documents. `peer` is the identity under which a document draws operations. -/
structure Library (D E : Type) where
  checksum : Bytes → String
  new : (peer : Nat) → Except E D
  fromSnapshot : (peer : Nat) → Bytes → Except E D
  /-- The document with the update, and whether the update misses something it needs. -/
  importUpdate : D → Bytes → Except E (D × Bool)
  /-- `verify_schema` and `validate_entity_names`. -/
  validate : D → Except E Unit
  exportGcCheckpoint : D → Except E Bytes
  exportSnapshot : D → Except E Bytes
  missingDependencies : E
  unsupportedSchema : Nat → E
  display : E → String

variable {D E : Type}

namespace Library

def validChecksum (lib : Library D E) (expected : String) (bytes : Bytes) : Bool :=
  lib.checksum bytes = expected

def fromRecoverySnapshot (lib : Library D E) (peer : Nat) (snapshot : Bytes) : Except E D := do
  let doc ← lib.fromSnapshot peer snapshot
  lib.validate doc
  return doc

/-- The update goes into a fork first, which is validated; the document is as it was where
that fails. -/
def importRecoveryUpdate (lib : Library D E) (doc : D) (update : Bytes) : Except E D := do
  let (candidate, pending) ← lib.importUpdate doc update
  refuse (pending = true) lib.missingDependencies
  lib.validate candidate
  return candidate

/-- The update goes into the document itself, which is validated at the end. -/
def stageRecoveryUpdate (lib : Library D E) (doc : D) (update : Bytes) : Except E D := do
  let (staged, pending) ← lib.importUpdate doc update
  refuse (pending = true) lib.missingDependencies
  return staged

def finishRecovery (lib : Library D E) (doc : D) : Except E Unit := lib.validate doc

end Library

/-! ## Records -/

def schemaVersion : Nat := 9
def readableSchemaVersions : List Nat := [7, 8, 9]
def supportsDocumentSchema (version : Nat) : Bool := readableSchemaVersions.contains version

structure UpdateRecord where
  localSequence : Nat
  checksum : String
  bytes : Bytes
  deriving DecidableEq

structure CheckpointRecord where
  localSequence : Nat
  schemaVersion : Nat
  checksum : String
  bytes : Bytes
  deriving DecidableEq

structure QuarantineRecord where
  exportHandle : String
  recordKind : String
  localSequence : Nat
  checksum : String
  reason : String
  bytes : Bytes
  deriving DecidableEq

structure GraphMetadata where
  replicaId : Nat
  schemaVersion : Nat
  nextSequence : Nat
  compactedThrough : Nat
  checkpointBytes : Nat
  tailBytes : Nat
  tailCount : Nat
  deriving DecidableEq

structure AppendReceipt where
  localSequence : Nat
  checksum : String
  deriving DecidableEq

inductive RepositoryError where
  | corrupt (message : String)
  deriving DecidableEq

/-! ## The SQLite repository -/

/-- The rows of one graph: checkpoints by descending and updates by ascending sequences. -/
structure SqliteGraph where
  metadata : GraphMetadata
  checkpoints : List CheckpointRecord
  updates : List UpdateRecord
  quarantine : List QuarantineRecord

/-- `INSERT ... ON CONFLICT DO UPDATE` by the sequence. -/
def upsertCheckpoint (row : CheckpointRecord) (rows : List CheckpointRecord) :
    List CheckpointRecord :=
  (rows.filter fun r => decide (row.localSequence < r.localSequence)) ++ row ::
    rows.filter fun r => decide (r.localSequence < row.localSequence)

/-- `ORDER BY local_sequence DESC LIMIT 2`. -/
def retained (rows : List CheckpointRecord) : List CheckpointRecord := rows.take 2

/-- A record under a known handle gets the new reason and payload. -/
def upsertQuarantine (rows : List QuarantineRecord) (record : QuarantineRecord) :
    List QuarantineRecord :=
  if rows.any fun r => r.exportHandle = record.exportHandle then
    rows.map fun r =>
      if r.exportHandle = record.exportHandle then
        { r with reason := record.reason, bytes := record.bytes }
      else r
  else rows ++ [record]

def updateBytes (updates : List UpdateRecord) : Nat := (updates.map fun u => u.bytes.length).sum

def checkpointBytes (rows : List CheckpointRecord) : Nat := (rows.map fun c => c.bytes.length).sum

namespace SqliteGraph

def updatesAfter (graph : SqliteGraph) (localSequence : Nat) : List UpdateRecord :=
  graph.updates.filter fun u => decide (localSequence < u.localSequence)

def appendUpdate (lib : Library D E) (graph : SqliteGraph) (update : Bytes) :
    AppendReceipt × SqliteGraph :=
  let digest := lib.checksum update
  match graph.updates.find? fun u => u.checksum = digest with
  | some row => (⟨row.localSequence, digest⟩, graph)
  | none =>
    let sequence := graph.metadata.nextSequence
    (⟨sequence, digest⟩,
      { graph with
        updates := graph.updates ++ [⟨sequence, digest, update⟩]
        metadata := { graph.metadata with
          nextSequence := sequence + 1
          tailBytes := graph.metadata.tailBytes + update.length
          tailCount := graph.metadata.tailCount + 1 } })

/-- The updates that no checkpoint needs any more are dropped. -/
def reclaim (checkpoints : List CheckpointRecord) (updates : List UpdateRecord) :
    List UpdateRecord :=
  match checkpoints.getLast? with
  | some oldest => updates.filter fun u => decide (oldest.localSequence < u.localSequence)
  | none => updates

def installCheckpoint (lib : Library D E) (graph : SqliteGraph) (checkpoint : Bytes)
    (localSequence : Nat) : Except RepositoryError SqliteGraph := do
  refuse (localSequence < graph.metadata.compactedThrough ∨
      graph.metadata.nextSequence ≤ localSequence)
    (.corrupt "checkpoint sequence is outside the durable frontier")
  let row : CheckpointRecord :=
    ⟨localSequence, schemaVersion, lib.checksum checkpoint, checkpoint⟩
  let checkpoints := retained (upsertCheckpoint row graph.checkpoints)
  let updates := reclaim checkpoints graph.updates
  let tail := updates.filter fun u => decide (localSequence < u.localSequence)
  return { graph with
    checkpoints := checkpoints
    updates := updates
    metadata := { graph.metadata with
      schemaVersion := schemaVersion
      compactedThrough := max graph.metadata.compactedThrough localSequence
      checkpointBytes := checkpointBytes checkpoints
      tailBytes := updateBytes tail
      tailCount := tail.length } }

def quarantineRecord (graph : SqliteGraph) (record : QuarantineRecord) : SqliteGraph :=
  { graph with quarantine := upsertQuarantine graph.quarantine record }

def repairCorruptTail (lib : Library D E) (graph : SqliteGraph) (checkpoint : Bytes)
    (validThrough : Nat) (records : List QuarantineRecord) : SqliteGraph :=
  let row : CheckpointRecord :=
    ⟨validThrough, schemaVersion, lib.checksum checkpoint, checkpoint⟩
  let checkpoints := retained (upsertCheckpoint row graph.checkpoints)
  let updates := graph.updates.filter fun u => decide (u.localSequence ≤ validThrough)
  let tail := updates.filter fun u => decide (validThrough < u.localSequence)
  { checkpoints := checkpoints
    updates := updates
    quarantine := records.foldl upsertQuarantine graph.quarantine
    metadata := { graph.metadata with
      schemaVersion := schemaVersion
      compactedThrough := validThrough
      checkpointBytes := checkpointBytes checkpoints
      tailBytes := updateBytes tail
      tailCount := tail.length } }

end SqliteGraph

/-! ## Recovery -/

structure RecoveryReport where
  checkpointSequence : Nat
  replayedUpdates : Nat
  quarantinedRecords : List String

inductive RecoveryError (E : Type) where
  | core (error : E)
  | noValidCheckpoint

/-- Why a checkpoint is not used, or its document. -/
def loadCheckpoint (lib : Library D E) (peer : Nat) (checkpoint : CheckpointRecord) :
    Except String D :=
  if supportsDocumentSchema checkpoint.schemaVersion = false then
    .error ("unsupported-checkpoint-schema:" ++ toString checkpoint.schemaVersion)
  else if lib.validChecksum checkpoint.checksum checkpoint.bytes = false then
    .error "checkpoint-checksum-mismatch"
  else (lib.fromRecoverySnapshot peer checkpoint.bytes).mapError fun error =>
    "invalid-checkpoint:" ++ lib.display error

def quarantinedCheckpoint (checkpoint : CheckpointRecord) (reason : String) : QuarantineRecord :=
  { exportHandle := "checkpoint-" ++ toString checkpoint.localSequence
    recordKind := "checkpoint"
    localSequence := checkpoint.localSequence
    checksum := checkpoint.checksum
    reason := reason
    bytes := checkpoint.bytes }

/-- The first checkpoint that can be used, and the records of those before it. -/
def selectCheckpoint (lib : Library D E) (peer : Nat) :
    List CheckpointRecord → List QuarantineRecord × Option (D × Nat)
  | [] => ([], none)
  | checkpoint :: rest =>
    match loadCheckpoint lib peer checkpoint with
    | .ok doc => ([], some (doc, checkpoint.localSequence))
    | .error reason =>
      let (records, selected) := selectCheckpoint lib peer rest
      (quarantinedCheckpoint checkpoint reason :: records, selected)

/-- The variables of the loop over the tail. -/
structure TailReplay (D : Type) where
  doc : D
  validThrough : Nat
  replayed : Nat := 0
  tailIsCorrupt : Bool := false
  corruptTail : List QuarantineRecord := []

def quarantinedUpdate (update : UpdateRecord) (reason : String) : QuarantineRecord :=
  { exportHandle := "update-" ++ toString update.localSequence
    recordKind := "update"
    localSequence := update.localSequence
    checksum := update.checksum
    reason := reason
    bytes := update.bytes }

def TailReplay.reject (replay : TailReplay D) (update : UpdateRecord) (reason : String) :
    TailReplay D :=
  { replay with
    tailIsCorrupt := true
    corruptTail := replay.corruptTail ++ [quarantinedUpdate update reason] }

def TailReplay.step (lib : Library D E) (replay : TailReplay D) (update : UpdateRecord) :
    TailReplay D :=
  if replay.tailIsCorrupt then replay.reject update "after-corrupt-tail"
  else if lib.validChecksum update.checksum update.bytes = false then
    replay.reject update "update-checksum-mismatch"
  else match lib.importRecoveryUpdate replay.doc update.bytes with
    | .error error => replay.reject update ("invalid-update:" ++ lib.display error)
    | .ok doc =>
      { replay with
        doc := doc
        replayed := replay.replayed + 1
        validThrough := update.localSequence }

def replayTail (lib : Library D E) (doc : D) (sequence : Nat) (updates : List UpdateRecord) :
    TailReplay D :=
  updates.foldl (.step lib) { doc := doc, validThrough := sequence }

/-- The end of a recovery, from the selected document on. -/
def recoverFrom (lib : Library D E) (graph : SqliteGraph) (quarantined : List QuarantineRecord)
    (doc : D) (sequence : Nat) : Except (RecoveryError E) (D × RecoveryReport) × SqliteGraph :=
  let replay := replayTail lib doc sequence (graph.updatesAfter sequence)
  let report : RecoveryReport :=
    { checkpointSequence := sequence
      replayedUpdates := replay.replayed
      quarantinedRecords := (quarantined ++ replay.corruptTail).map QuarantineRecord.exportHandle }
  match lib.finishRecovery replay.doc with
  | .error error => (.error (.core error), graph)
  | .ok () =>
    if replay.corruptTail.isEmpty then (.ok (replay.doc, report), graph)
    else match lib.exportGcCheckpoint replay.doc with
      | .error error => (.error (.core error), graph)
      | .ok checkpoint => (.ok (replay.doc, report),
          graph.repairCorruptTail lib checkpoint replay.validThrough replay.corruptTail)

def recoverGraph (lib : Library D E) (graph : SqliteGraph) :
    Except (RecoveryError E) (D × RecoveryReport) × SqliteGraph :=
  let peer := graph.metadata.replicaId
  if supportsDocumentSchema graph.metadata.schemaVersion = false then
    (.error (.core (lib.unsupportedSchema graph.metadata.schemaVersion)), graph)
  else
    let (quarantined, selected) := selectCheckpoint lib peer graph.checkpoints
    let graph := quarantined.foldl .quarantineRecord graph
    match selected with
    | some (doc, sequence) => recoverFrom lib graph quarantined doc sequence
    | none =>
      if graph.checkpoints.isEmpty then
        match lib.new peer with
        | .error error => (.error (.core error), graph)
        | .ok doc => recoverFrom lib graph quarantined doc 0
      else (.error .noValidCheckpoint, graph)

end Neoseq.Local
