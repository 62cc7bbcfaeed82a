import Neoseq.Server.Store

/-! The statements of the transactions on one graph, as they run next to each other. A
statement sees what had been committed when it started; one that has waited for the row of
the graph sees that row as it is by then, and the rows joined to it as they were. -/

namespace Neoseq.Server

/-- What has been committed under a graph id. -/
structure GraphTables where
  store : StoredGraph
  membershipVersion : Nat

inductive Write where
  | bumpMembershipVersion
  | upsertMember (account : String) (row : MemberRow)
  | revokeMember (account : String)
  | insertUpdate (messageId : String) (bytes : Bytes)
  | setUsedBytes (usedBytes : Nat)
  | deleteGraph

def Write.apply : Write → Option GraphTables → Option GraphTables
  | .bumpMembershipVersion, tables => tables.map fun t =>
    { t with membershipVersion := t.membershipVersion + 1 }
  | .upsertMember account row, tables => tables.map fun t =>
    { t with store.members := Function.update t.store.members account (some row) }
  | .revokeMember account, tables => tables.map fun t =>
    { t with store.members := Function.update t.store.members account none }
  | .insertUpdate messageId bytes, tables => tables.map fun t => { t with
      store.updates := t.store.updates ++ [⟨t.store.nextCursor, messageId, bytes⟩]
      store.nextCursor := t.store.nextCursor + 1 }
  | .setUsedBytes usedBytes, tables => tables.map fun t => { t with store.usedBytes := usedBytes }
  | .deleteGraph, _ => none

def applyWrites (tables : Option GraphTables) (writes : List Write) : Option GraphTables :=
  writes.foldl (fun tables write => write.apply tables) tables

/-- `active_membership_role`. -/
def activeMembershipRole (tables : Option GraphTables) (account : String) : Option GraphRole :=
  tables.bind fun t => (t.store.members account).map MemberRow.role

/-! ## Transactions -/

inductive Request where
  | commitUpdate (account messageId : String) (bytes : Bytes)
  | grantMembership (actor account : String) (role : GraphRole)
  | revokeMembership (actor account : String)
  | deleteGraph (actor : String)

/-- The row that `commit_update` reads and locks. -/
structure AdmittedRow where
  role : GraphRole
  status : GraphStatus
  byteQuota : Nat
  usedBytes : Nat

inductive Answer where
  | commit (outcome : CommitOutcome)
  | version (version : Nat)
  | deleted
  deriving DecidableEq

/-- How far a transaction has come. -/
inductive Progress where
  | begun
  /-- The statement that locks the row has started, with its snapshot. -/
  | started (snapshot : Option GraphTables)
  | locked
  | admitted (row : AdmittedRow)
  | unseen (nextUsed : Nat)
  | numbered (cursor nextUsed : Nat)
  | authorized
  | checked
  | bumped (version : Nat)
  | written (answer : Answer)
  | ended (result : Except StoreError Answer)

/-- What is refused before there is a transaction. -/
def Request.check (digests : Digests) : Request → Except StoreError Unit
  | .commitUpdate _ messageId bytes =>
    refuse (digests.contentId bytes ≠ messageId) .invalidUpdateIdentity
  | .grantMembership _ _ role => refuse (role = .owner) .invalidMembershipRole
  | .revokeMembership .. | .deleteGraph _ => .ok ()

def Request.actor : Request → String
  | .commitUpdate account _ _ => account
  | .grantMembership actor _ _ | .revokeMembership actor _ | .deleteGraph actor => actor

/-- Whether the locking statement finds a row in its snapshot. -/
def Request.finds (request : Request) (snapshot : Option GraphTables) : Bool :=
  match request with
  | .commitUpdate account _ _ => (activeMembershipRole snapshot account).isSome
  | .grantMembership .. | .revokeMembership .. | .deleteGraph _ => snapshot.isSome

/-- The locked row as it is now, with the membership of the snapshot. -/
def Request.acquired (request : Request) (snapshot : Option GraphTables) (now : GraphTables) :
    Except StoreError Progress :=
  match request with
  | .commitUpdate account _ _ => do
    let role ← orElse (activeMembershipRole snapshot account) .accessDenied
    return .admitted ⟨role, now.store.status, now.store.byteQuota, now.store.usedBytes⟩
  | .grantMembership .. | .revokeMembership .. | .deleteGraph _ => return .locked

/-- A statement of a transaction that has the row, with what it decides before and after. -/
def Progress.next (request : Request) (view : Option GraphTables) :
    Progress → Except StoreError (Progress × List Write)
  | .admitted row => match request with
    | .commitUpdate _ messageId bytes => do
      refuse (row.role.canWrite = false ∨ row.status = .readOnly) .readOnly
      match view.bind fun t => t.store.priorCursor messageId with
      | some cursor => return (.written (.commit (.duplicate cursor)), [])
      | none =>
        refuse (2 ^ 64 ≤ row.usedBytes + bytes.length) .quotaExceeded
        refuse (row.byteQuota < row.usedBytes + bytes.length) .quotaExceeded
        return (.unseen (row.usedBytes + bytes.length), [])
    | _ => .error .database
  | .unseen nextUsed => match request, view with
    | .commitUpdate _ messageId bytes, some t =>
      .ok (.numbered t.store.nextCursor nextUsed, [.insertUpdate messageId bytes])
    | _, _ => .error .database
  | .numbered cursor nextUsed => match request with
    | .commitUpdate .. => .ok (.written (.commit (.inserted cursor)), [.setUsedBytes nextUsed])
    | _ => .error .database
  | .locked => do
    refuse (activeMembershipRole view request.actor ≠ some .owner) .accessDenied
    return (.authorized, [])
  | .authorized => match request with
    | .grantMembership _ account _ => do
      refuse (activeMembershipRole view account = some .owner) .invalidMembershipRole
      return (.checked, [])
    | .revokeMembership _ account => do
      refuse (activeMembershipRole view account = some .owner) .invalidMembershipRole
      refuse (activeMembershipRole view account = none) .accessDenied
      return (.checked, [])
    | .deleteGraph _ => .ok (.written .deleted, [.deleteGraph])
    | .commitUpdate .. => .error .database
  | .checked => do
    let t ← orElse view .accessDenied
    return (.bumped (t.membershipVersion + 1), [.bumpMembershipVersion])
  | .bumped version => match request with
    | .grantMembership _ account role =>
      .ok (.written (.version version), [.upsertMember account ⟨role, version⟩])
    | .revokeMembership _ account => do
      refuse (activeMembershipRole view account = none) .accessDenied
      return (.written (.version version), [.revokeMember account])
    | _ => .error .database
  | .begun | .started _ | .written _ | .ended _ => .error .database

structure Transaction where
  request : Request
  progress : Progress
  writes : List Write
  /-- How many changes had been committed at the snapshot, and when the row was granted. -/
  snapshotAfter : Nat
  grantedAfter : Nat

/-! ## The transactions of a graph -/

/-- A committed change of who may write. -/
inductive Change where
  | granted (account : String) (role : GraphRole)
  | revoked (account : String)
  | deleted
  deriving DecidableEq

def Request.change : Request → Option Change
  | .commitUpdate .. => none
  | .grantMembership _ account role => some (.granted account role)
  | .revokeMembership _ account => some (.revoked account)
  | .deleteGraph _ => some .deleted

/-- An update that a commit inserted. -/
structure Insertion where
  account : String
  grantedAfter : Nat
  deriving DecidableEq

def Transaction.insertion (transaction : Transaction) : Option Insertion :=
  match transaction.request, transaction.progress with
  | .commitUpdate account _ _, .written (.commit (.inserted _)) =>
    some ⟨account, transaction.grantedAfter⟩
  | _, _ => none

/-- The statements of the transactions, whose lock on the row one of them may have. -/
structure Database where
  tables : Option GraphTables
  holder : Option Nat
  transactions : List Transaction
  /-- The committed changes, oldest first. -/
  history : List Change
  inserted : List Insertion

inductive Statement where
  | begin_ (request : Request)
  | start (transaction : Nat)
  | acquire (transaction : Nat)
  | next (transaction : Nat)
  | commit (transaction : Nat)
  | fail (transaction : Nat)

namespace Database

def open_ (tables : GraphTables) : Database := ⟨some tables, none, [], [], []⟩

def put (database : Database) (i : Nat) (transaction : Transaction) : Database :=
  { database with transactions := database.transactions.set i transaction }

/-- The transaction ends and its row is free again. -/
def release (database : Database) (i : Nat) (transaction : Transaction)
    (result : Except StoreError Answer) : Database :=
  { database.put i { transaction with progress := .ended result } with
    holder := if database.holder = some i then none else database.holder }

def start (database : Database) (i : Nat) (transaction : Transaction) : Database :=
  if transaction.request.finds database.tables then
    database.put i { transaction with
      progress := .started database.tables
      snapshotAfter := database.history.length }
  else database.release i transaction (.error .accessDenied)

def acquire (database : Database) (i : Nat) (transaction : Transaction)
    (snapshot : Option GraphTables) : Database :=
  match database.tables with
  | none => database.release i transaction (.error .accessDenied)
  | some now => match transaction.request.acquired snapshot now with
    | .error error => database.release i transaction (.error error)
    | .ok progress => { database.put i { transaction with
        progress := progress
        grantedAfter := database.history.length } with holder := some i }

def next (database : Database) (i : Nat) (transaction : Transaction) : Database :=
  match transaction.progress.next transaction.request
      (applyWrites database.tables transaction.writes) with
  | .error error => database.release i transaction (.error error)
  | .ok (progress, writes) => database.put i { transaction with
      progress := progress
      writes := transaction.writes ++ writes }

def commit (database : Database) (i : Nat) (transaction : Transaction) (answer : Answer) :
    Database :=
  { database.release i transaction (.ok answer) with
    tables := applyWrites database.tables transaction.writes
    history := database.history ++ transaction.request.change.toList
    inserted := database.inserted ++ transaction.insertion.toList }

/-- A statement whose turn it is not does nothing. -/
def step (digests : Digests) (database : Database) : Statement → Database
  | .begin_ request => match request.check digests with
    | .error error => { database with
        transactions := database.transactions ++ [⟨request, .ended (.error error), [], 0, 0⟩] }
    | .ok () => { database with
        transactions := database.transactions ++ [⟨request, .begun, [], 0, 0⟩] }
  | .start i => match database.transactions[i]? with
    | some transaction => match transaction.progress with
      | .begun => database.start i transaction
      | _ => database
    | none => database
  | .acquire i => match database.transactions[i]? with
    | some transaction => match transaction.progress with
      | .started snapshot =>
        if database.holder = none then database.acquire i transaction snapshot else database
      | _ => database
    | none => database
  | .next i => match database.transactions[i]? with
    | some transaction =>
      if database.holder = some i then match transaction.progress with
        | .written _ => database
        | _ => database.next i transaction
      else database
    | none => database
  | .commit i => match database.transactions[i]? with
    | some transaction => match transaction.progress with
      | .written answer => database.commit i transaction answer
      | _ => database
    | none => database
  | .fail i => match database.transactions[i]? with
    | some transaction => match transaction.progress with
      | .ended _ => database
      | _ => database.release i transaction (.error .database)
    | none => database

end Database

end Neoseq.Server
