import Neoseq.Collections.BTreeMap
import Neoseq.Domain.Snapshot
import Neoseq.Edit
import Neoseq.Server.Store

/-! A room: the document of one graph with the sessions that follow it. Every
function runs under the lock of the room. The document library is a parameter,
and so is what the database answers besides the rows: the membership that a
request was authorized with, and which of its other calls fail. -/

namespace Neoseq.Server
open Collections
open Domain (schemaVersion supportsDocumentSchema)

structure Limits where
  maxFrameBytes : Nat
  maxUpdateBytes : Nat
  maxDecompressedBytes : Nat
  maxPresenceBytes : Nat
  sessionQueueCapacity : Nat

structure RoomConfig where
  limits : Limits
  maxSessionsPerRoom : Nat
  checkpointTailUpdates : Nat

def checkpointTailBytes : Nat := 1024 * 1024

def inlineCheckpointFrameOverhead : Nat := 64 * 1024

/-- A server graph: a document of the CRDT library. After an update that is not
admitted the document may hold rejected operations. -/
structure GraphLib (G : Type) where
  fromCheckpoint : Bytes → Option G
  stageRecoveryUpdate : G → Bytes → Option G
  finishRecovery : G → Bool
  admitUpdate : G → Bytes → Bool × G
  isVersionVector : Bytes → Bool
  versionVector : G → Bytes
  exportUpdatesSince : G → Bytes → Option Bytes
  exportSnapshot : G → Option Bytes

/-! ## Messages and queues -/

inductive ErrorCode where
  | membershipRevoked | storageUnavailable
  deriving Repr, DecidableEq

structure Update where
  historyEpoch : Nat
  messageId : String
  baseVersionVector : Bytes
  bytes : Bytes
  deriving Repr, DecidableEq

structure Ack where
  historyEpoch : Nat
  messageId : String
  serverCursor : Nat
  deriving Repr, DecidableEq

structure Presence where
  expiresInMs : Nat
  payload : Bytes
  deriving Repr, DecidableEq

inductive Message where
  | update (update : Update)
  | ack (ack : Ack)
  | presence (presence : Presence)
  | error (code : ErrorCode) (recoverable : Bool) (diagnostic : String)
  | resyncRequired (code : ErrorCode) (serverCursor historyEpoch : Nat) (diagnostic : String)
  deriving Repr, DecidableEq

/-- The sending end of a bounded channel: everything that was put into it, and how
much of that the receiver took out. -/
structure Outbound where
  channel : Nat
  capacity : Nat
  sent : List Message := []
  received : Nat := 0
  closed : Bool := false
  deriving Repr, DecidableEq

namespace Outbound

/-- There is room for one more message, and someone to take it. -/
def accepts (o : Outbound) : Bool := !o.closed && o.sent.length - o.received < o.capacity

def push (o : Outbound) (message : Message) : Outbound := { o with sent := o.sent ++ [message] }

def trySend (o : Outbound) (message : Message) : Option Outbound :=
  if o.accepts then some (o.push message) else none

/-- A send whose failure is ignored. -/
def offer (o : Outbound) (message : Message) : Outbound := (o.trySend message).getD o

end Outbound

structure SessionState where
  accountId : String
  membershipVersion : Nat
  outbound : Outbound
  deriving Repr, DecidableEq

structure Room (G : Type) where
  graph : G
  cursor : Nat
  historyEpoch : Nat
  /-- The base of the quota estimate. -/
  checkpointBytes : Nat
  tailUpdates : Nat
  tailBytes : Nat
  sessions : BTreeMap String SessionState
  valid : Bool

/-- The connection of a client, with the receiving end of its channel. -/
structure RoomConnection where
  sessionId : String
  accountId : String
  membershipVersion : Nat
  channel : Nat
  deriving Repr, DecidableEq

inductive WelcomePayload where
  | delta (update : Bytes)
  | mergeDownload
  | replaceInline (checkpoint : Bytes)
  | replaceDownload
  deriving Repr, DecidableEq

structure Welcome where
  historyEpoch : Nat
  serverVersionVector : Bytes
  payload : WelcomePayload
  deriving Repr, DecidableEq

inductive RoomError where
  | store (error : StoreError)
  | invalidVersionVector
  | invalidUpdate
  | unsupportedSchema
  | limitReached
  | invalidSession
  | slowConsumer
  | reconnectRequired
  | staleHistory
  deriving Repr, DecidableEq

/-! ## The room and its store -/

/-- A room with the rows of its graph and the channels that no session holds any
more, whose receivers may still empty them. -/
structure Site (G : Type) where
  room : Room G
  store : StoredGraph
  departed : List Outbound

abbrev RoomEdit (G : Type) := Edit RoomError (Site G)

/-- A call that fails in the database, before or after its transaction. -/
inductive Fault where
  | before | after
  deriving Repr, DecidableEq

/-- The database calls of one request that fail. -/
structure Faults where
  load : Bool := false
  commit : Option Fault := none
  compact : Option Fault := none
  deriving Repr, DecidableEq

namespace Room

variable {G : Type}

def session (room : Room G) (sessionId : String) : Option SessionState :=
  room.sessions.get sessionId

/-- The session leaves; its channel stays for its receiver. -/
def removeSession (room : Room G) (sessionId : String) : Room G :=
  { room with sessions := room.sessions.remove sessionId }

def putSession (room : Room G) (sessionId : String) (session : SessionState) : Room G :=
  { room with sessions := room.sessions.insert sessionId session }

end Room

namespace Site

variable {G : Type}

def removeSession (s : Site G) (sessionId : String) : Site G where
  room := s.room.removeSession sessionId
  store := s.store
  departed := s.departed ++ ((s.room.session sessionId).map SessionState.outbound).toList

/-- The message goes to every session but one; a session that cannot take it leaves. -/
def broadcast (s : Site G) (sender : String) (message : Message) : Site G where
  room := { s.room with
    sessions := s.room.sessions.filterMapValues fun sessionId session =>
      if sessionId = sender then some session
      else (session.outbound.trySend message).map fun o => { session with outbound := o } }
  store := s.store
  departed := s.departed ++ s.room.sessions.entries.filterMap fun e =>
    if e.1 ≠ sender ∧ e.2.outbound.accepts = false then some e.2.outbound else none

def invalidateRoom (s : Site G) (code : ErrorCode) : Site G where
  room := { s.room with valid := false, sessions := ∅ }
  store := s.store
  departed := s.departed ++ s.room.sessions.entries.map fun e =>
    e.2.outbound.offer (.resyncRequired code s.room.cursor s.room.historyEpoch
      "room was discarded; reconnect from durable state")

end Site

section

variable {G : Type} (lib : GraphLib G) (digests : Digests) (config : RoomConfig)

def stageAll : G → List StoredUpdate → Option G
  | graph, [] => some graph
  | graph, update :: rest => do
    let graph ← lib.stageRecoveryUpdate graph update.bytes
    stageAll graph rest

/-- A room without sessions from the durable checkpoint and the updates after it. -/
def loadRoom (faults : Faults) (store : StoredGraph) : Except RoomError (Room G) := do
  refuse (faults.load = true) (.store .database)
  let durable ← (store.loadGraph digests).mapError .store
  refuse (supportsDocumentSchema durable.schemaVersion = false) .unsupportedSchema
  refuse (config.limits.maxDecompressedBytes < durable.checkpoint.snapshot.length)
    (.store .quotaExceeded)
  let graph ← orElse (lib.fromCheckpoint durable.checkpoint.snapshot)
    (.store (.corrupt "checkpoint Loro snapshot is invalid"))
  let graph ← orElse (stageAll lib graph durable.updates)
    (.store (.corrupt "durable Loro update is invalid"))
  refuse (lib.finishRecovery graph = false) (.store (.corrupt "durable graph validation failed"))
  return {
    graph := graph
    cursor := durable.latestCursor
    historyEpoch := durable.historyEpoch
    checkpointBytes := durable.checkpoint.snapshot.length
    tailUpdates := durable.updates.length
    tailBytes := (durable.updates.map fun u => u.bytes.length).sum
    sessions := ∅
    valid := true }

/-! ## Opening -/

structure OpenRequest where
  sessionId : String
  accountId : String
  clientHistoryEpoch : Nat
  clientVersionVector : Bytes
  hasServerBase : Bool

/-- What a new session is welcomed with. -/
def welcomePayload (room : Room G) (request : OpenRequest) : Except RoomError WelcomePayload :=
  let epochChanged := request.clientHistoryEpoch ≠ room.historyEpoch
  let missingUpdate :=
    if !request.hasServerBase || epochChanged then none
    else lib.exportUpdatesSince room.graph request.clientVersionVector
  match missingUpdate with
  | some update =>
    if update.length ≤ config.limits.maxUpdateBytes then .ok (.delta update)
    else .ok .mergeDownload
  | none => do
    let checkpoint ← orElse (lib.exportSnapshot room.graph) .invalidUpdate
    let inlineCheckpointBytes := config.limits.maxFrameBytes - inlineCheckpointFrameOverhead
    if inlineCheckpointBytes < checkpoint.length then return .replaceDownload
    return .replaceInline checkpoint

/-- What is checked before a session is registered. `first` and `second` are the
answers of the two authorizations. -/
def admitSession (first second : Except StoreError Membership) (request : OpenRequest)
    (room : Room G) : Except RoomError (Membership × WelcomePayload) := do
  refuse (request.sessionId = "" ∨ 128 < request.sessionId.utf8ByteSize) .invalidSession
  let membership ← first.mapError .store
  refuse (supportsDocumentSchema membership.schemaVersion = false) .unsupportedSchema
  let membership ← second.mapError .store
  refuse (room.valid = false) .reconnectRequired
  refuse (config.maxSessionsPerRoom ≤ room.sessions.entries.length ∨
    (room.session request.sessionId).isSome) .limitReached
  let payload ← welcomePayload lib config room request
  return (membership, payload)

/-- `channel` is the new channel of the session. -/
def openWithBaseStatus (first second : Except StoreError Membership) (channel : Nat)
    (request : OpenRequest) : RoomEdit G (RoomConnection × Welcome) := do
  let (membership, payload) ← Edit.read fun s =>
    admitSession lib config first second request s.room
  let room ← Edit.read fun s => .ok s.room
  Edit.write fun s => { s with
    room := s.room.putSession request.sessionId
      { accountId := request.accountId
        membershipVersion := membership.version
        outbound := { channel := channel, capacity := config.limits.sessionQueueCapacity } } }
  return (⟨request.sessionId, request.accountId, membership.version, channel⟩,
    ⟨room.historyEpoch, lib.versionVector room.graph, payload⟩)

/-! ## Updates -/

def requireSameMembership (connection : RoomConnection) (membership : Membership) :
    Except RoomError Unit :=
  refuse (membership.version ≠ connection.membershipVersion) (.store .accessDenied)

/-- Replaces a document that may hold rejected operations by the durable one. -/
def restore (faults : Faults) : RoomEdit G Unit := fun s =>
  let restored := match loadRoom lib digests config faults s.store with
    | .ok restored =>
      if restored.cursor = s.room.cursor ∧ restored.historyEpoch = s.room.historyEpoch then
        Except.ok restored
      else .error RoomError.reconnectRequired
    | .error error => .error error
  match restored with
  | .ok restored => (.ok (), { s with room := { restored with sessions := s.room.sessions } })
  | .error error => (.error error, s.invalidateRoom .storageUnavailable)

/-- What is checked of a submission before its update is imported. -/
def checkUpdate (membership : Except StoreError Membership) (connection : RoomConnection)
    (update : Update) (room : Room G) : Except RoomError Unit := do
  refuse (config.limits.maxUpdateBytes < update.bytes.length ∨
    digests.contentId update.bytes ≠ update.messageId) .invalidUpdate
  let membership ← membership.mapError .store
  requireSameMembership connection membership
  refuse (room.valid = false) .reconnectRequired
  refuse (update.historyEpoch ≠ room.historyEpoch) .staleHistory
  let session ← orElse (room.session connection.sessionId) .invalidSession
  refuse (session.accountId ≠ connection.accountId ∨
    session.membershipVersion ≠ membership.version) .invalidSession
  refuse (lib.isVersionVector update.baseVersionVector = false) .invalidVersionVector
  let estimated := room.checkpointBytes + 2 * (room.tailBytes + update.bytes.length)
  refuse (config.limits.maxDecompressedBytes < estimated) (.store .quotaExceeded)

/-- The update enters the document; if it is rejected, the document is restored. -/
def admitUpdate (faults : Faults) (update : Update) : RoomEdit G Unit := fun s =>
  let (admitted, graph) := lib.admitUpdate s.room.graph update.bytes
  let s := { s with room := { s.room with graph := graph } }
  if admitted then (.ok (), s)
  else (restore lib digests config faults >>= fun _ => Edit.fail .invalidUpdate).run s

def commit (faults : Faults) (connection : RoomConnection) (update : Update) :
    RoomEdit G CommitOutcome := fun s =>
  let committed := s.store.commitUpdate digests connection.accountId update.messageId update.bytes
  match committed, faults.commit with
  | .error error, _ => (.error (.store error), s.invalidateRoom .storageUnavailable)
  | .ok (outcome, store), none => (.ok outcome, { s with store := store })
  | .ok _, some .before => (.error (.store .database), s.invalidateRoom .storageUnavailable)
  | .ok (_, store), some .after =>
    (.error (.store .database), { s with store := store }.invalidateRoom .storageUnavailable)

/-- The bookkeeping of a commit in the room. -/
def recordOutcome (update : Update) (outcome : CommitOutcome) (room : Room G) : Room G :=
  match outcome with
  | .inserted cursor =>
    { room with
      cursor := cursor
      tailUpdates := room.tailUpdates + 1
      tailBytes := room.tailBytes + update.bytes.length }
  | .duplicate _ => room

/-- The acknowledgement goes to the sender; a sender that cannot take it leaves. -/
def acknowledge (connection : RoomConnection) (update : Update) (cursor : Nat) :
    RoomEdit G Unit := fun s =>
  match s.room.session connection.sessionId with
  | none => (.error .invalidSession, s)
  | some session =>
    match session.outbound.trySend (.ack ⟨s.room.historyEpoch, update.messageId, cursor⟩) with
    | none => (.error .slowConsumer, s.removeSession connection.sessionId)
    | some outbound =>
      (.ok (), { s with
        room := s.room.putSession connection.sessionId { session with outbound := outbound } })

/-- A checkpoint that fails leaves the tail as it is. -/
def compactCheckpoint (faults : Faults) (s : Site G) : Site G :=
  match lib.exportSnapshot s.room.graph with
  | none => s
  | some snapshot =>
    let compacted := s.store.compactCheckpoint digests s.room.historyEpoch s.room.cursor
      schemaVersion snapshot
    match compacted, faults.compact with
    | .error _, _ | .ok _, some .before => s
    | .ok store, some .after => { s with store := store }
    | .ok store, none =>
      { s with
        store := store
        room := { s.room with
          checkpointBytes := snapshot.length
          tailUpdates := 0
          tailBytes := 0 } }

def needsCompaction (room : Room G) : Bool :=
  config.checkpointTailUpdates ≤ room.tailUpdates || checkpointTailBytes ≤ room.tailBytes

def publish (faults : Faults) (connection : RoomConnection) (update : Update)
    (outcome : CommitOutcome) (s : Site G) : Site G :=
  match outcome with
  | .duplicate _ => s
  | .inserted _ =>
    let s := s.broadcast connection.sessionId (.update update)
    if needsCompaction config s.room then compactCheckpoint lib digests faults s else s

def submitUpdate (membership : Except StoreError Membership) (faults : Faults)
    (connection : RoomConnection) (update : Update) : RoomEdit G Unit := do
  Edit.read fun s => checkUpdate lib digests config membership connection update s.room
  admitUpdate lib digests config faults update
  let outcome ← commit digests faults connection update
  Edit.write fun s => { s with room := recordOutcome update outcome s.room }
  acknowledge connection update outcome.cursor
  Edit.write (publish lib digests config faults connection update outcome)

/-! ## Presence, rechecks and leaving -/

def checkPresence (membership : Except StoreError Membership) (connection : RoomConnection)
    (presence : Presence) (room : Room G) : Except RoomError Unit := do
  refuse (config.limits.maxPresenceBytes < presence.payload.length ∨
    30000 < presence.expiresInMs) .invalidSession
  let membership ← membership.mapError .store
  requireSameMembership connection membership
  refuse (room.valid = false ∨ room.session connection.sessionId = none) .invalidSession

def relayPresence (membership : Except StoreError Membership) (connection : RoomConnection)
    (presence : Presence) : RoomEdit G Unit := do
  Edit.read fun s => checkPresence config membership connection presence s.room
  Edit.write fun s => s.broadcast connection.sessionId (.presence presence)

def offerFarewell (sessionId : String) (message : Message) (s : Site G) : Site G :=
  match s.room.session sessionId with
  | none => s
  | some session =>
    { s with
      room := s.room.removeSession sessionId
      departed := s.departed ++ [session.outbound.offer message] }

def recheck (membership : Except StoreError Membership) (connection : RoomConnection) :
    RoomEdit G Unit :=
  let revoked := do
    Edit.write (offerFarewell connection.sessionId
      (.error .membershipRevoked false "membership changed or was revoked"))
    Edit.fail (.store .accessDenied)
  match membership with
  | .ok membership =>
    if membership.version = connection.membershipVersion then pure () else revoked
  | .error .accessDenied => revoked
  | .error error => Edit.fail (.store error)

def disconnect (connection : RoomConnection) : RoomEdit G Unit :=
  Edit.write fun s => s.removeSession connection.sessionId

end

end Neoseq.Server
