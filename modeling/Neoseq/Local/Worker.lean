import Neoseq.Local.Browser

/-! How the browser opens a stored graph. Where the newest checkpoint and its tail are
intact the document is validated once at the end; otherwise recovery goes record by record
and moves what is corrupt to quarantine. -/

namespace Neoseq.Local

variable {D E : Type}

structure BrowserRecovery (D : Type) where
  core : D
  appliedThrough : Nat
  report : RecoveryReport

inductive WorkerError (E : Type) where
  | core (error : E)
  | storage (error : StorageError)

namespace BrowserGraph

def allValid (lib : Library D E) (updates : List UpdateRecord) : Bool :=
  updates.all fun u => lib.validChecksum u.checksum u.bytes

/-- The tail on a document that is validated once, after the last update. -/
def stageTail (lib : Library D E) (doc : D) (updates : List UpdateRecord) : Except E D := do
  let core ← updates.foldlM (fun doc u => lib.stageRecoveryUpdate doc u.bytes) doc
  lib.finishRecovery core
  return core

def lastSequence (base : Nat) (updates : List UpdateRecord) : Nat :=
  (updates.getLast?.map UpdateRecord.localSequence).getD base

/-- Rewrites a checkpoint stored under an older document schema. -/
def upgradeCheckpoint (lib : Library D E) (graph : BrowserGraph) (core : D)
    (validThrough : Nat) : Except (WorkerError E) BrowserGraph :=
  if schemaVersion ≤ graph.metadata.schemaVersion then .ok graph
  else do
    let snapshot ← (lib.exportSnapshot core).mapError .core
    (graph.installCheckpoint lib snapshot validThrough schemaVersion).mapError .storage

/-- The newest checkpoint and its tail, where all of them are intact. -/
def stageIntact (lib : Library D E) (graph : BrowserGraph) : Option (BrowserRecovery D) :=
  match graph.checkpoints.head? with
  | none => none
  | some checkpoint =>
    let updates := graph.updatesAfter checkpoint.localSequence
    if supportsDocumentSchema checkpoint.schemaVersion = false ∨
        lib.validChecksum checkpoint.checksum checkpoint.bytes = false ∨
        allValid lib updates = false then none
    else
      match lib.fromSnapshot graph.metadata.replicaId checkpoint.bytes >>=
          (stageTail lib · updates) with
      | .error _ => none
      | .ok core => some
        { core := core
          appliedThrough := lastSequence checkpoint.localSequence updates
          report := ⟨checkpoint.localSequence, updates.length, []⟩ }

def recoverIntact (lib : Library D E) (graph : BrowserGraph) :
    Except (WorkerError E) (Option (BrowserRecovery D)) × BrowserGraph :=
  match stageIntact lib graph with
  | none => (.ok none, graph)
  | some recovery =>
    match upgradeCheckpoint lib graph recovery.core recovery.appliedThrough with
    | .error error => (.error error, graph)
    | .ok graph => (.ok (some recovery), graph)

/-- The tail all at once, where every checksum is right and the end is valid. -/
def stagedTail (lib : Library D E) (doc : D) (updates : List UpdateRecord) : Option D :=
  if allValid lib updates then (stageTail lib doc updates).toOption else none

/-- What a recovery returns for a tail that was replayed. -/
def tailRecovery (quarantined : List QuarantineRecord) (sequence : Nat) (replay : TailReplay D) :
    BrowserRecovery D where
  core := replay.doc
  appliedThrough := replay.validThrough
  report :=
    { checkpointSequence := sequence
      replayedUpdates := replay.replayed
      quarantinedRecords := (quarantined ++ replay.corruptTail).map QuarantineRecord.exportHandle }

/-- The end of a recovery: the corrupt tail is cut off, or an old schema is upgraded. -/
def finishTail (lib : Library D E) (graph : BrowserGraph) (quarantined : List QuarantineRecord)
    (sequence : Nat) (replay : TailReplay D) :
    Except (WorkerError E) (BrowserRecovery D) × BrowserGraph :=
  if replay.corruptTail.isEmpty then
    match upgradeCheckpoint lib graph replay.doc replay.validThrough with
    | .error error => (.error error, graph)
    | .ok graph => (.ok (tailRecovery quarantined sequence replay), graph)
  else match lib.exportGcCheckpoint replay.doc with
    | .error error => (.error (.core error), graph)
    | .ok checkpoint => (.ok (tailRecovery quarantined sequence replay),
        graph.repairCorruptTail lib checkpoint replay.validThrough schemaVersion
          replay.corruptTail)

/-- The tail after the selected checkpoint: all at once, or record by record. -/
def recoverTail (lib : Library D E) (graph : BrowserGraph) (quarantined : List QuarantineRecord)
    (doc : D) (sequence : Nat) : Except (WorkerError E) (BrowserRecovery D) × BrowserGraph :=
  let updates := graph.updatesAfter sequence
  match stagedTail lib doc updates with
  | some core => finishTail lib graph quarantined sequence
      { doc := core, validThrough := lastSequence sequence updates, replayed := updates.length }
  | none =>
    let replay := replayTail lib doc sequence updates
    match lib.finishRecovery replay.doc with
    | .error error => (.error (.core error), graph)
    | .ok () => finishTail lib graph quarantined sequence replay

/-- A graph without checkpoints starts with an empty document. -/
def recoverEmpty (lib : Library D E) (graph : BrowserGraph) :
    Except (WorkerError E) (BrowserRecovery D) × BrowserGraph :=
  let installed : Except (WorkerError E) (D × BrowserGraph) := do
    let core ← (lib.new graph.metadata.replicaId).mapError .core
    let snapshot ← (lib.exportGcCheckpoint core).mapError .core
    let graph ← (graph.installCheckpoint lib snapshot 0 schemaVersion).mapError .storage
    return (core, graph)
  match installed with
  | .error error => (.error error, graph)
  | .ok (core, graph) => recoverTail lib graph [] core 0

def noneValid : StorageError :=
  ⟨"storage_corrupt", "stored graph has checkpoints but none are valid", false⟩

/-- Record by record, from the newest valid checkpoint. -/
def recoverRecords (lib : Library D E) (graph : BrowserGraph) :
    Except (WorkerError E) (BrowserRecovery D) × BrowserGraph :=
  let (quarantined, selected) :=
    selectCheckpoint lib graph.metadata.replicaId graph.checkpoints
  let graph := quarantined.foldl .quarantineRecord graph
  match selected with
  | some (doc, sequence) => recoverTail lib graph quarantined doc sequence
  | none =>
    if graph.checkpoints.isEmpty then recoverEmpty lib graph
    else (.error (.storage noneValid), graph)

def recover (lib : Library D E) (graph : BrowserGraph) :
    Except (WorkerError E) (BrowserRecovery D) × BrowserGraph :=
  match recoverIntact lib graph with
  | (.error error, graph) => (.error error, graph)
  | (.ok (some recovery), graph) => (.ok recovery, graph)
  | (.ok none, graph) => recoverRecords lib graph

/-- A graph is opened once it is recovered and its outbox has content ids. -/
def openGraph (lib : Library D E) (graph : BrowserGraph) :
    Except (WorkerError E) (BrowserRecovery D) × BrowserGraph :=
  if supportsDocumentSchema graph.metadata.schemaVersion = false then
    (.error (.storage ⟨"unsupported_schema",
      "unsupported schema version " ++ toString graph.metadata.schemaVersion, false⟩), graph)
  else match recover lib graph with
    | (.error error, graph) => (.error error, graph)
    | (.ok recovery, graph) =>
      match graph.normalizeOutbox lib with
      | (.error error, graph) => (.error (.storage error), graph)
      | (.ok (), graph) => (.ok recovery, graph)

end BrowserGraph

end Neoseq.Local
