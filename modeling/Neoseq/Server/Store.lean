import Neoseq.Result

/-! The durable store of one graph: the rows that rooms read and write. Cursors
and sizes are natural numbers, and a transaction happens whole or not at all. -/

namespace Neoseq.Server

abbrev Bytes := List UInt8

/-- Content identities and checksums, computed by the digest library. -/
structure Digests where
  contentId : Bytes → String
  checksum : Bytes → String

inductive GraphRole where
  | owner | editor | viewer
  deriving Repr, DecidableEq

def GraphRole.canWrite : GraphRole → Bool
  | .owner | .editor => true
  | .viewer => false

inductive GraphStatus where
  | active | readOnly
  deriving Repr, DecidableEq

structure Membership where
  role : GraphRole
  version : Nat
  schemaVersion : Nat
  deriving Repr, DecidableEq

inductive StoreError where
  | accessDenied
  | readOnly
  | quotaExceeded
  | invalidUpdateIdentity
  | invalidMembershipRole
  | staleHistory
  | corrupt (what : String)
  | database
  deriving Repr, DecidableEq

inductive CommitOutcome where
  | inserted (cursor : Nat)
  | duplicate (cursor : Nat)
  deriving Repr, DecidableEq

def CommitOutcome.cursor : CommitOutcome → Nat
  | .inserted cursor | .duplicate cursor => cursor

structure StoredUpdate where
  cursor : Nat
  messageId : String
  bytes : Bytes
  deriving Repr, DecidableEq

structure StoredCheckpoint where
  historyEpoch : Nat
  includedCursor : Nat
  snapshot : Bytes
  checksum : String
  deriving Repr, DecidableEq

structure GraphLoad where
  schemaVersion : Nat
  historyEpoch : Nat
  checkpoint : StoredCheckpoint
  updates : List StoredUpdate

def GraphLoad.latestCursor (load : GraphLoad) : Nat :=
  (load.updates.getLast?.map StoredUpdate.cursor).getD load.checkpoint.includedCursor

/-- The role and the version of an account's membership that is not revoked. -/
structure MemberRow where
  role : GraphRole
  version : Nat
  deriving Repr, DecidableEq

/-- The rows of one graph. Updates are in the order of their cursors, and no cursor is
drawn twice. -/
structure StoredGraph where
  schemaVersion : Nat
  historyEpoch : Nat
  status : GraphStatus
  byteQuota : Nat
  usedBytes : Nat
  checkpoint : StoredCheckpoint
  updates : List StoredUpdate
  receipts : List (String × Nat)
  nextCursor : Nat
  members : String → Option MemberRow

namespace StoredGraph

def maxRetainedReceipts : Nat := 4096

def authorize (store : StoredGraph) (account : String) : Except StoreError Membership :=
  match store.members account with
  | none => .error .accessDenied
  | some row => .ok ⟨row.role, row.version, store.schemaVersion⟩

def tail (store : StoredGraph) : List StoredUpdate :=
  store.updates.filter fun u => decide (store.checkpoint.includedCursor < u.cursor)

def loadGraph (digests : Digests) (store : StoredGraph) : Except StoreError GraphLoad := do
  refuse (digests.checksum store.checkpoint.snapshot ≠ store.checkpoint.checksum)
    (.corrupt "checkpoint checksum mismatch")
  refuse (store.checkpoint.historyEpoch ≠ store.historyEpoch)
    (.corrupt "checkpoint history epoch mismatch")
  refuse (∃ u ∈ store.tail, digests.contentId u.bytes ≠ u.messageId)
    (.corrupt "update content identity mismatch")
  return ⟨store.schemaVersion, store.historyEpoch, store.checkpoint, store.tail⟩

/-- The smallest cursor under which a message is durable. -/
def priorCursor (store : StoredGraph) (messageId : String) : Option Nat :=
  ((store.updates.filter fun u => u.messageId = messageId).map StoredUpdate.cursor ++
    (store.receipts.filter fun r => r.1 = messageId).map Prod.snd).min?

def insertUpdate (store : StoredGraph) (messageId : String) (bytes : Bytes) : StoredGraph :=
  { store with
    updates := store.updates ++ [⟨store.nextCursor, messageId, bytes⟩]
    usedBytes := store.usedBytes + bytes.length
    nextCursor := store.nextCursor + 1 }

def commitUpdate (digests : Digests) (store : StoredGraph) (account messageId : String)
    (bytes : Bytes) : Except StoreError (CommitOutcome × StoredGraph) := do
  refuse (digests.contentId bytes ≠ messageId) .invalidUpdateIdentity
  let row ← orElse (store.members account) .accessDenied
  refuse (row.role.canWrite = false ∨ store.status = .readOnly) .readOnly
  match store.priorCursor messageId with
  | some cursor => return (.duplicate cursor, store)
  | none =>
    refuse (store.byteQuota < store.usedBytes + bytes.length) .quotaExceeded
    return (.inserted store.nextCursor, store.insertUpdate messageId bytes)

/-- Those within the limit in the descending order of their cursors. -/
def newestReceipts (receipts : List (String × Nat)) : List (String × Nat) :=
  receipts.filter fun r =>
    decide ((receipts.filter fun s => decide (r.2 < s.2)).length < maxRetainedReceipts)

/-- The receipts once the updates up to a cursor have theirs: of the newest ones. -/
def receiptsUpTo (store : StoredGraph) (cursor : Nat) : List (String × Nat) :=
  let new := (store.updates.filter fun u => decide (u.cursor ≤ cursor)).filter
    fun u => !store.receipts.any fun r => r.1 = u.messageId
  newestReceipts (store.receipts ++ new.map fun u => (u.messageId, u.cursor))

def compactCheckpoint (digests : Digests) (store : StoredGraph)
    (expectedEpoch includedCursor schemaVersion : Nat) (snapshot : Bytes) :
    Except StoreError StoredGraph := do
  refuse (store.historyEpoch ≠ expectedEpoch) .staleHistory
  let priorCursor := store.checkpoint.includedCursor
  refuse (includedCursor < priorCursor) .staleHistory
  let usedBytes := snapshot.length + store.checkpoint.snapshot.length +
    (store.tail.map fun u => u.bytes.length).sum
  refuse (store.byteQuota < usedBytes) .quotaExceeded
  return { store with
    checkpoint := ⟨expectedEpoch, includedCursor, snapshot, digests.checksum snapshot⟩
    receipts := store.receiptsUpTo includedCursor
    updates := store.updates.filter fun u => decide (priorCursor < u.cursor)
    schemaVersion := schemaVersion
    usedBytes := usedBytes }

end StoredGraph

end Neoseq.Server
