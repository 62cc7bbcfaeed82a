import Neoseq.Edit

/-! Accounts and sessions. A call runs its statements in a transaction that a failure rolls
back; time is counted in seconds. -/

namespace Neoseq.Auth

inductive SessionPurpose where
  | client | admin
  deriving DecidableEq

inductive AccountStatus where
  | active | disabled
  deriving DecidableEq

inductive ServerRole where
  | user | admin
  deriving DecidableEq

structure Principal where
  id : String
  username : String
  serverRole : ServerRole
  purpose : SessionPurpose
  deriving DecidableEq

structure AccountView where
  accountId : String
  username : String
  status : AccountStatus
  serverRole : ServerRole
  createdAt : Nat
  deriving DecidableEq

structure AccountPatch where
  status : Option AccountStatus := none
  serverRole : Option ServerRole := none

inductive AuthError where
  | invalid
  | forbidden
  | conflict
  | invalidInput (what : String)
  | lastAdmin
  | unavailable
  deriving DecidableEq

/-! ## Rows -/

structure Account where
  accountId : String
  username : String
  passwordHash : String
  status : AccountStatus
  serverRole : ServerRole
  failedLoginAttempts : Nat
  loginBlockedUntil : Option Nat
  createdAt : Nat
  deriving DecidableEq

structure AccountSession where
  sessionIdHash : String
  accountId : String
  purpose : SessionPurpose
  expiresAt : Nat
  revokedAt : Option Nat
  deriving DecidableEq

structure AuditEvent where
  actor : Option String
  subject : Option String
  action : String
  deriving DecidableEq

structure Identity where
  accounts : List Account
  sessions : List AccountSession
  audits : List AuditEvent
  deriving DecidableEq

def Account.isActiveAdmin (account : Account) : Bool :=
  account.status = .active ∧ account.serverRole = .admin

def Account.view (account : Account) : AccountView :=
  ⟨account.accountId, account.username, account.status, account.serverRole, account.createdAt⟩

namespace Identity

def empty : Identity := ⟨[], [], []⟩

def account (identity : Identity) (accountId : String) : Option Account :=
  identity.accounts.find? fun account => account.accountId = accountId

def hasActiveAdmin (identity : Identity) : Bool := identity.accounts.any Account.isActiveAdmin

/-- An update of the rows under an id. -/
def updateAccount (identity : Identity) (accountId : String) (f : Account → Account) : Identity :=
  { identity with
    accounts := identity.accounts.map fun account =>
      if account.accountId = accountId then f account else account }

/-- An update of the sessions that are not revoked. -/
def revokeWhere (identity : Identity) (now : Nat) (which : AccountSession → Bool) : Identity :=
  { identity with
    sessions := identity.sessions.map fun session =>
      if which session ∧ session.revokedAt = none then { session with revokedAt := some now }
      else session }

end Identity

/-! ## The libraries -/

structure AuthLib where
  /-- `char::is_whitespace`. -/
  isWhitespace : Char → Bool
  /-- Argon2, under a salt. -/
  hashPassword : String → String → String
  /-- `none` for a hash that cannot be read. -/
  verifyPassword : String → String → Option Bool
  tokenDigest : String → String

def isAsciiLowercase (c : Char) : Bool := 'a' ≤ c ∧ c ≤ 'z'

def toAsciiLowercase (c : Char) : Char :=
  if 'A' ≤ c ∧ c ≤ 'Z' then Char.ofNat (c.toNat + 32) else c

def isUsernameLetter (c : Char) : Bool :=
  isAsciiLowercase c ∨ c.isDigit ∨ c = '.' ∨ c = '_' ∨ c = '-'

def trim (isWhitespace : Char → Bool) (letters : List Char) : List Char :=
  ((letters.dropWhile isWhitespace).reverse.dropWhile isWhitespace).reverse

def normalizeUsername (lib : AuthLib) (value : String) : Except AuthError String := do
  let letters := (trim lib.isWhitespace value.toList).map toAsciiLowercase
  let value := String.ofList letters
  refuse (value.utf8ByteSize < 3 ∨ 64 < value.utf8ByteSize ∨
      letters.head?.any isAsciiLowercase = false ∨ letters.tail.all isUsernameLetter = false)
    (.invalidInput "username must be 3-64 lowercase ASCII letters, digits, '.', '_' or '-'")
  return value

def passwordMaxBytes : Nat := 1024

def validatePassword (value : String) : Except AuthError Unit :=
  refuse (passwordMaxBytes < value.utf8ByteSize)
    (.invalidInput "password must be at most 1024 bytes")

/-! ## Statements and transactions -/

/-- What the statements of a transaction see. -/
structure Connection where
  identity : Identity
  /-- How many statements are answered before the database fails; `none` where it does not. -/
  answers : Option Nat

abbrev Statements (γ : Type) := Edit AuthError Connection γ

def answered : Statements Unit := Edit.update fun connection =>
  match connection.answers with
  | none => .ok connection
  | some 0 => .error .unavailable
  | some (answers + 1) => .ok { connection with answers := some answers }

def query {γ : Type} (f : Identity → Except AuthError γ) : Statements γ := do
  answered
  Edit.read fun connection => f connection.identity

def execute (f : Identity → Except AuthError Identity) : Statements Unit := do
  answered
  Edit.update fun connection => (f connection.identity).map fun identity =>
    { connection with identity := identity }

/-- What is decided without the database. -/
def settled {γ : Type} (x : Except AuthError γ) : Statements γ := Edit.read fun _ => x

def commit : Statements Unit := answered

/-- The statements from `begin` on; what they wrote is rolled back unless they get past their
`commit`. -/
def transact {γ : Type} (answers : Option Nat) (statements : Statements γ) (identity : Identity) :
    Except AuthError γ × Identity :=
  match statements.run ⟨identity, answers⟩ with
  | (.ok value, connection) => (.ok value, connection.identity)
  | (.error error, _) => (.error error, identity)

/-! ## Parts of transactions -/

def lockAccountMutations : Statements Unit := query fun _ => .ok ()

def requireAdmin (actor : Principal) : Statements Unit := do
  settled (refuse (actor.serverRole ≠ .admin ∨ actor.purpose ≠ .admin) .forbidden)
  query fun identity => refuse
    ((identity.accounts.any fun account =>
      account.accountId = actor.id ∧ account.isActiveAdmin) = false) .forbidden

def accountInTransaction (accountId : String) : Statements AccountView :=
  query fun identity =>
    (orElse (identity.account accountId) (.invalidInput "unknown account")).map Account.view

def revokeAccountSessions (accountId : String) (now : Nat) : Statements Unit :=
  execute fun identity => .ok (identity.revokeWhere now fun session => session.accountId = accountId)

def auditInTransaction (actor subject : Option String) (action : String) : Statements Unit :=
  execute fun identity =>
    .ok { identity with audits := identity.audits ++ [⟨actor, subject, action⟩] }

/-- Ids and usernames are unique. -/
def insertRow (row : Account) (taken : AuthError) : Statements Unit :=
  execute fun identity =>
    if identity.accounts.any fun account =>
        account.accountId = row.accountId ∨ account.username = row.username then .error taken
    else .ok { identity with accounts := identity.accounts ++ [row] }

def newAccount (accountId username passwordHash : String) (role : ServerRole) (now : Nat) :
    Account :=
  ⟨accountId, username, passwordHash, .active, role, 0, none, now⟩

/-! ## Administration -/

section
variable (lib : AuthLib) (answers : Option Nat) (now : Nat)

/-- `initialized` is what the early look for an administrator answered. -/
def bootstrapAdminIfAbsent (initialized : Bool) (username password salt accountId : String)
    (identity : Identity) : Except AuthError (Option AccountView) × Identity :=
  if initialized then (.ok none, identity)
  else
    let checked := do
      let username ← normalizeUsername lib username
      validatePassword password
      return username
    match checked with
    | .error error => (.error error, identity)
    | .ok username =>
      let row := newAccount accountId username (lib.hashPassword salt password) .admin now
      transact answers (do
        lockAccountMutations
        let existing ← query fun identity => .ok identity.hasActiveAdmin
        if existing then return none
        insertRow row .unavailable
        auditInTransaction none (some accountId) "account.bootstrap"
        let account ← accountInTransaction accountId
        commit
        return some account) identity

/-- `insert_account`. -/
def createAccount (actor : Principal) (username password : String) (role : ServerRole)
    (salt accountId : String) (identity : Identity) : Except AuthError AccountView × Identity :=
  let checked := do
    let username ← normalizeUsername lib username
    validatePassword password
    return username
  match checked with
  | .error error => (.error error, identity)
  | .ok username =>
    let row := newAccount accountId username (lib.hashPassword salt password) role now
    transact answers (do
      lockAccountMutations
      requireAdmin actor
      insertRow row .conflict
      auditInTransaction (some actor.id) (some accountId) "account.create"
      let account ← accountInTransaction accountId
      commit
      return account) identity

/-- The row as the patch leaves it, unless that is the end of the last administrator. -/
def patchedRow (identity : Identity) (current : Account) (patch : AccountPatch) :
    Except AuthError Account := do
  let next := { current with
    status := patch.status.getD current.status
    serverRole := patch.serverRole.getD current.serverRole }
  refuse (current.isActiveAdmin = true ∧ next.isActiveAdmin = false ∧
      (identity.accounts.any fun account =>
        account.accountId ≠ current.accountId ∧ account.isActiveAdmin) = false) .lastAdmin
  return next

def updateAccount (actor : Principal) (accountId : String) (patch : AccountPatch)
    (identity : Identity) : Except AuthError AccountView × Identity :=
  transact answers (do
    lockAccountMutations
    requireAdmin actor
    settled (refuse (patch.status = none ∧ patch.serverRole = none)
      (.invalidInput "no account fields were supplied"))
    let current ← query fun identity =>
      orElse (identity.account accountId) (.invalidInput "unknown account")
    let next ← query fun identity => patchedRow identity current patch
    execute fun identity => .ok (identity.updateAccount accountId fun account =>
      { account with status := next.status, serverRole := next.serverRole })
    revokeAccountSessions accountId now
    auditInTransaction (some actor.id) (some accountId) "account.update"
    let account ← accountInTransaction accountId
    commit
    return account) identity

/-- An update of one row that has to be there. -/
def updateRow (accountId : String) (which : Account → Bool) (missing : AuthError)
    (f : Account → Account) : Statements Unit :=
  execute fun identity =>
    if identity.accounts.any fun account => account.accountId = accountId ∧ which account then
      .ok (identity.updateAccount accountId fun account =>
        if which account then f account else account)
    else .error missing

def resetPassword (actor : Principal) (accountId password salt : String) (identity : Identity) :
    Except AuthError Unit × Identity :=
  match validatePassword password with
  | .error error => (.error error, identity)
  | .ok () =>
    transact answers (do
      lockAccountMutations
      requireAdmin actor
      updateRow accountId (fun _ => true) (.invalidInput "unknown account") fun account =>
        { account with
          passwordHash := lib.hashPassword salt password
          failedLoginAttempts := 0
          loginBlockedUntil := none }
      revokeAccountSessions accountId now
      auditInTransaction (some actor.id) (some accountId) "account.password.reset"
      commit) identity

def revokeSessions (actor : Principal) (accountId : String) (identity : Identity) :
    Except AuthError Unit × Identity :=
  transact answers (do
    lockAccountMutations
    requireAdmin actor
    query fun identity => refuse (identity.account accountId = none)
      (.invalidInput "unknown account")
    revokeAccountSessions accountId now
    auditInTransaction (some actor.id) (some accountId) "account.sessions.revoke"
    commit) identity

/-! ## Sessions -/

/-- `passwordHash` is what the row of the account had before the password was checked. -/
def changePassword (principal : Principal) (passwordHash currentPassword newPassword salt : String)
    (identity : Identity) : Except AuthError Unit × Identity :=
  let checked := do
    validatePassword newPassword
    let valid ← orElse (lib.verifyPassword currentPassword passwordHash) .unavailable
    refuse (valid = false) .invalid
  match checked with
  | .error error => (.error error, identity)
  | .ok () =>
    transact answers (do
      updateRow principal.id
        (fun account => account.status = .active ∧ account.passwordHash = passwordHash) .invalid
        fun account => { account with passwordHash := lib.hashPassword salt newPassword }
      revokeAccountSessions principal.id now
      auditInTransaction (some principal.id) (some principal.id) "account.password.change"
      commit) identity

def verify (identity : Identity) (token : String) : Except AuthError Principal := do
  let digest := lib.tokenDigest token
  let session ← orElse (identity.sessions.find? fun session => session.sessionIdHash = digest)
    .invalid
  let account ← orElse (identity.account session.accountId) .invalid
  refuse (session.revokedAt ≠ none ∨ session.expiresAt ≤ now ∨ account.status ≠ .active) .invalid
  return ⟨account.accountId, account.username, account.serverRole, session.purpose⟩

def logout (token : String) (identity : Identity) : Identity :=
  identity.revokeWhere now fun session => session.sessionIdHash = lib.tokenDigest token

/-! ## Login, statement by statement -/

/-- The row of the username, where it may log in. -/
def readLogin (username : String) (identity : Identity) : Except AuthError Account := do
  let username ← normalizeUsername lib username
  let row ← orElse (identity.accounts.find? fun account => account.username = username) .invalid
  refuse ((∃ until' ∈ row.loginBlockedUntil, now < until') ∨ row.status ≠ .active) .invalid
  return row

/-- Whether the password is right, which is checked outside of any statement. -/
def checkLogin (row : Account) (password : String) : Except AuthError Bool :=
  orElse (lib.verifyPassword password row.passwordHash) .unavailable

def countFailure (accountId : String) (identity : Identity) : Identity :=
  identity.updateAccount accountId fun account =>
    let attempts := match account.loginBlockedUntil with
      | some until' => if until' ≤ now then 1 else account.failedLoginAttempts + 1
      | none => account.failedLoginAttempts + 1
    { account with
      failedLoginAttempts := attempts
      loginBlockedUntil := if 5 ≤ attempts then some (now + 30) else none }

def clearFailures (accountId : String) (identity : Identity) : Identity :=
  identity.updateAccount accountId fun account =>
    { account with failedLoginAttempts := 0, loginBlockedUntil := none }

def sessionSeconds : SessionPurpose → Bool → Nat
  | .client, true => 30 * 24 * 60 * 60
  | .client, false => 12 * 60 * 60
  | .admin, _ => 60 * 60

/-- The session of a login; a digest is used once. -/
def insertSession (row : Account) (purpose : SessionPurpose) (persistent : Bool) (token : String)
    (identity : Identity) : Except AuthError Identity := do
  let digest := lib.tokenDigest token
  refuse (∃ session ∈ identity.sessions, session.sessionIdHash = digest) .unavailable
  return { identity with
    sessions := identity.sessions ++
      [⟨digest, row.accountId, purpose, now + sessionSeconds purpose persistent, none⟩] }

end

end Neoseq.Auth
