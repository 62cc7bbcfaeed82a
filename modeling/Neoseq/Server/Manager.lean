import Neoseq.Server.Compaction
import Neoseq.Server.Room

/-! The rooms of one graph id. Requests run next to each other: each step here is what one of
them does until it waits, for a lock, for the slot that another one fills, or for the
database. -/

namespace Neoseq.Server
open Collections
open Domain (schemaVersion)

/-- What the holder of a room's lock waits for, or was answered. -/
inductive Work (G : Type) where
  | restoring
  | restored (loaded : Except RoomError (Room G))
  | committing (connection : RoomConnection) (update : Update)
  | committed (connection : RoomConnection) (update : Update)
      (answer : Except StoreError CommitOutcome)
  | compacting (snapshot : Bytes)
  | compacted (snapshot : Bytes) (done : Bool)

/-- A cell that is filled at most once. -/
inductive RoomSlot (G : Type) where
  | empty
  /-- Someone reconstructs the room, and may have read its rows already. -/
  | loading (room : Option (Room G))
  /-- `none` for a room that nobody has locked. -/
  | ready (room : Room G) (work : Option (Work G))

/-- Everything there is under one graph id. Slots are named by their place among all that
were ever made. -/
structure RoomManager (G : Type) where
  /-- Nothing reads the rows of a graph that is not there. -/
  rows : StoredGraph
  present : Bool
  slots : List (RoomSlot G)
  /-- The slot in the table. -/
  rooms : Option Nat
  /-- Submissions that gave up a room and have yet to call `evict`. -/
  evictions : Nat
  /-- Deletions that have yet to take the slot out of the table. -/
  deletions : Nat
  /-- The slots that deletions took out and have yet to revoke. -/
  revocations : List Nat
  departed : List Outbound

/-- What a request does that leaves the document alone. -/
inductive Visit where
  | opening (first second : Except StoreError Membership) (channel : Nat) (request : OpenRequest)
  | presence (membership : Except StoreError Membership) (connection : RoomConnection)
      (presence : Presence)
  | recheck (membership : Except StoreError Membership) (connection : RoomConnection)
  | disconnect (connection : RoomConnection)

inductive ManagerAction where
  /-- `room_for` makes a slot where there is none. -/
  | reserve
  | reconstruct (slot : Nat)
  /-- The rows are read, for a reconstruction or a restoration. -/
  | load (slot : Nat) (faults : Faults)
  | fill (slot : Nat)
  | visit (slot : Nat) (visit : Visit)
  | submit (slot : Nat) (membership : Except StoreError Membership) (connection : RoomConnection)
      (update : Update)
  | commit (slot : Nat) (fault : Option Fault)
  | compact (slot : Nat) (fault : Option Fault)
  /-- The holder of the lock goes on with what it was answered. -/
  | resume (slot : Nat)
  | evict
  | create (schemaVersion byteQuota : Nat) (snapshot : Bytes) (members : String → Option MemberRow)
  | delete (fault : Option Fault)
  /-- `revoke_graph` takes the slot, and revokes the room in it once nobody has it locked. -/
  | take
  | revoke (slot : Nat)
  | administer (members : String → Option MemberRow) (status : GraphStatus) (byteQuota : Nat)

section
variable {G : Type} (lib : GraphLib G) (digests : Digests) (config : RoomConfig)

def Visit.run (visit : Visit) (s : Site G) : Site G :=
  match visit with
  | .opening first second channel request =>
    ((openWithBaseStatus lib config first second channel request).run s).2
  | .presence membership connection message =>
    ((relayPresence config membership connection message).run s).2
  | .recheck membership connection => ((Server.recheck membership connection).run s).2
  | .disconnect connection => ((Server.disconnect connection).run s).2

/-- The room of a graph that was deleted. -/
def Site.revokeGraph (s : Site G) : Site G where
  room := { s.room with valid := false, sessions := ∅ }
  store := s.store
  departed := s.departed ++ s.room.sessions.entries.map fun e =>
    e.2.outbound.offer (.error .membershipRevoked false "graph access was revoked")

namespace RoomManager

def site (manager : RoomManager G) (room : Room G) : Site G := ⟨room, manager.rows, manager.departed⟩

def put (manager : RoomManager G) (slot : Nat) (cell : RoomSlot G) : RoomManager G :=
  { manager with slots := manager.slots.set slot cell }

/-- A room as a part of a request leaves it, and what its holder waits for next. -/
def leave (manager : RoomManager G) (slot : Nat) (s : Site G) (work : Option (Work G)) :
    RoomManager G :=
  { manager.put slot (.ready s.room work) with departed := s.departed }

/-- A submission gives up the room, unlocks it and goes on to evict it. -/
def giveUp (manager : RoomManager G) (slot : Nat) (s : Site G) : RoomManager G :=
  let manager := manager.leave slot (s.invalidateRoom .storageUnavailable) none
  { manager with evictions := manager.evictions + 1 }

def load (manager : RoomManager G) (faults : Faults) : Except RoomError (Room G) :=
  if manager.present then loadRoom lib digests config faults manager.rows
  else .error (.store .accessDenied)

/-- A transaction that happens or not, and is answered or not. -/
def transact {γ : Type} (manager : RoomManager G) (fault : Option Fault)
    (transaction : StoredGraph → Except StoreError (γ × StoredGraph)) :
    Except StoreError γ × RoomManager G :=
  if manager.present then
    match transaction manager.rows, fault with
    | .error error, _ => (.error error, manager)
    | .ok (answer, rows), none => (.ok answer, { manager with rows := rows })
    | .ok _, some .before => (.error .database, manager)
    | .ok (_, rows), some .after => (.error .database, { manager with rows := rows })
  else (.error .accessDenied, manager)

/-- What follows a commit, up to a compaction. -/
def announce (connection : RoomConnection) (update : Update) (outcome : CommitOutcome)
    (s : Site G) : Site G × Option (Work G) :=
  let s := { s with room := recordOutcome update outcome s.room }
  match (acknowledge connection update outcome.cursor).run s with
  | (.error _, s) => (s, none)
  | (.ok (), s) => match outcome with
    | .duplicate _ => (s, none)
    | .inserted _ =>
      let s := s.broadcast connection.sessionId (.update update)
      (s, if needsCompaction config s.room then (lib.exportSnapshot s.room.graph).map .compacting
        else none)

/-- The holder of a lock goes on. -/
def resume (manager : RoomManager G) (slot : Nat) (room : Room G) :
    Work G → Option (RoomManager G)
  | .restored (.ok restored) =>
    if restored.cursor = room.cursor ∧ restored.historyEpoch = room.historyEpoch then
      some (manager.put slot (.ready { restored with sessions := room.sessions } none))
    else some (manager.giveUp slot (manager.site room))
  | .restored (.error _) => some (manager.giveUp slot (manager.site room))
  | .committed _ _ (.error _) => some (manager.giveUp slot (manager.site room))
  | .committed connection update (.ok outcome) =>
    let (s, work) := announce lib config connection update outcome (manager.site room)
    some (manager.leave slot s work)
  | .compacted _ false => some (manager.put slot (.ready room none))
  | .compacted snapshot true =>
    some (manager.put slot (.ready
      { room with checkpointBytes := snapshot.length, tailUpdates := 0, tailBytes := 0 } none))
  | _ => none

/-- A submission up to its commit: one that the document rejects has it restored. -/
def submit (manager : RoomManager G) (slot : Nat) (room : Room G)
    (membership : Except StoreError Membership) (connection : RoomConnection) (update : Update) :
    RoomManager G :=
  match checkUpdate lib digests config membership connection update room with
  | .error _ => manager
  | .ok () =>
    let (admitted, graph) := lib.admitUpdate room.graph update.bytes
    manager.put slot (.ready { room with graph := graph }
      (some (if admitted then .committing connection update else .restoring)))

/-- `none` where an action has to wait, or there is nothing for it to do. -/
def step (manager : RoomManager G) : ManagerAction → Option (RoomManager G)
  | .reserve => match manager.rooms with
    | some _ => none
    | none => some { manager with
        slots := manager.slots ++ [.empty]
        rooms := some manager.slots.length }
  | .reconstruct slot => match manager.slots[slot]? with
    | some .empty => some (manager.put slot (.loading none))
    | _ => none
  | .load slot faults => match manager.slots[slot]? with
    | some (.loading none) => match manager.load lib digests config faults with
      | .ok room => some (manager.put slot (.loading (some room)))
      | .error _ => some (manager.put slot .empty)
    | some (.ready room (some .restoring)) =>
      some (manager.put slot
        (.ready room (some (.restored (manager.load lib digests config faults)))))
    | _ => none
  | .fill slot => match manager.slots[slot]? with
    | some (.loading (some room)) => some (manager.put slot (.ready room none))
    | _ => none
  | .visit slot visit => match manager.slots[slot]? with
    | some (.ready room none) => some (manager.leave slot (visit.run lib config (manager.site room)) none)
    | _ => none
  | .submit slot membership connection update => match manager.slots[slot]? with
    | some (.ready room none) =>
      some (manager.submit lib digests config slot room membership connection update)
    | _ => none
  | .commit slot fault => match manager.slots[slot]? with
    | some (.ready room (some (.committing connection update))) =>
      let (answer, manager) := manager.transact fault fun rows =>
        rows.commitUpdate digests connection.accountId update.messageId update.bytes
      some (manager.put slot (.ready room (some (.committed connection update answer))))
    | _ => none
  | .compact slot fault => match manager.slots[slot]? with
    | some (.ready room (some (.compacting snapshot))) =>
      let (answer, manager) := manager.transact fault fun rows =>
        (rows.compactCheckpoint digests room.historyEpoch room.cursor schemaVersion snapshot).map
          fun rows => ((), rows)
      some (manager.put slot (.ready room (some (.compacted snapshot answer.toBool))))
    | _ => none
  | .resume slot => match manager.slots[slot]? with
    | some (.ready room (some work)) => manager.resume lib config slot room work
    | _ => none
  | .evict =>
    if 0 < manager.evictions then
      some { manager with rooms := none, evictions := manager.evictions - 1 }
    else none
  | .create schemaVersion byteQuota snapshot members =>
    if manager.present then none
    else some { manager with
      rows := (GraphRows.create digests schemaVersion byteQuota snapshot members
        manager.rows.nextCursor).store
      present := true }
  | .delete fault =>
    if manager.present then match fault with
      | none => some { manager with present := false, deletions := manager.deletions + 1 }
      | some .before => none
      | some .after => some { manager with present := false }
    else none
  | .take =>
    if 0 < manager.deletions then
      some { manager with
        rooms := none
        deletions := manager.deletions - 1
        revocations := manager.revocations ++ manager.rooms.toList }
    else none
  | .revoke slot =>
    if slot ∈ manager.revocations then match manager.slots[slot]? with
      | some .empty => some { manager with revocations := manager.revocations.erase slot }
      | some (.ready room none) =>
        let manager := manager.leave slot (manager.site room).revokeGraph none
        some { manager with revocations := manager.revocations.erase slot }
      | _ => none
    else none
  | .administer members status byteQuota =>
    some { manager with
      rows := { manager.rows with members := members, status := status, byteQuota := byteQuota } }

end RoomManager

end

end Neoseq.Server
