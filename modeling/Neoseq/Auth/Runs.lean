import Neoseq.Auth.Transactions

/-! The runs of an identity store: calls of administrators next to password changes, logins
and logouts, each of them one statement or one transaction at a time. A run remembers whose
sessions its commits revoked, and which login made a session. -/

namespace Neoseq.Auth

/-! ## Calls -/

/-- A call that takes the advisory lock. -/
inductive Call where
  | bootstrap (initialized : Bool) (username password salt accountId : String)
  | createAccount (actor : Principal) (username password : String) (role : ServerRole)
      (salt accountId : String)
  | updateAccount (actor : Principal) (accountId : String) (patch : AccountPatch)
  | resetPassword (actor : Principal) (accountId password salt : String)
  | revokeSessions (actor : Principal) (accountId : String)

namespace Call

def actor : Call → Option Principal
  | .bootstrap .. => none
  | .createAccount actor .. | .updateAccount actor .. | .resetPassword actor ..
  | .revokeSessions actor _ => some actor

/-- It changes an account that is there. -/
def revokes : Call → Bool
  | .bootstrap .. | .createAccount .. => false
  | .updateAccount .. | .resetPassword .. | .revokeSessions .. => true

/-- What a call answers, as the account that it made or changed. -/
def report {γ : Type} (f : γ → Option String) (outcome : Except AuthError γ × Identity) :
    Except AuthError (Option String) × Identity :=
  (outcome.1.map f, outcome.2)

def run (lib : AuthLib) (answers : Option Nat) (now : Nat) (identity : Identity) :
    Call → Except AuthError (Option String) × Identity
  | .bootstrap initialized username password salt accountId =>
    report (fun created => created.map fun _ => accountId) (bootstrapAdminIfAbsent lib answers now
      initialized username password salt accountId identity)
  | .createAccount actor username password role salt accountId =>
    report (fun _ => some accountId) (Auth.createAccount lib answers now actor username password
      role salt accountId identity)
  | .updateAccount actor accountId patch =>
    report (fun _ => some accountId) (Auth.updateAccount answers now actor accountId patch identity)
  | .resetPassword actor accountId password salt =>
    report (fun _ => some accountId) (Auth.resetPassword lib answers now actor accountId password
      salt identity)
  | .revokeSessions actor accountId =>
    report (fun _ => some accountId) (Auth.revokeSessions answers now actor accountId identity)

end Call

/-! ## Logins -/

inductive LoginStage where
  | accepted | rejected | cleared | inserted | finished
  deriving DecidableEq

/-- A login that has read its row and checked the password against it. -/
structure Login where
  row : Account
  password : String
  purpose : SessionPurpose
  persistent : Bool
  stage : LoginStage
  /-- How many commits there were when the row was read. -/
  seen : Nat
  deriving DecidableEq

structure System where
  identity : Identity
  logins : List Login
  /-- The accounts whose sessions a commit revoked, oldest first. -/
  commits : List String
  /-- Under which digest a login has put its session. -/
  origins : List (String × Login)
  /-- The accounts that a bootstrap made. -/
  bootstrapped : List String
  deriving DecidableEq

inductive Action where
  | administer (call : Call) (answers : Option Nat) (now : Nat)
  | changePassword (principal : Principal)
      (passwordHash currentPassword newPassword salt : String) (answers : Option Nat) (now : Nat)
  | readLogin (username password : String) (purpose : SessionPurpose) (persistent : Bool)
      (now : Nat)
  | countFailure (login : Nat) (now : Nat)
  | clearFailures (login : Nat)
  | insertSession (login : Nat) (token : String) (now : Nat)
  | auditLogin (login : Nat)
  | logout (token : String) (now : Nat)

namespace System

def empty : System := ⟨.empty, [], [], [], []⟩

def put (system : System) (i : Nat) (login : Login) (stage : LoginStage) : System :=
  { system with logins := system.logins.set i { login with stage := stage } }

variable (lib : AuthLib)

/-- The row and the password of a login. -/
def readLogin (system : System) (username password : String) (purpose : SessionPurpose)
    (persistent : Bool) (now : Nat) : Except AuthError Login := do
  let row ← Auth.readLogin lib now username system.identity
  let valid ← checkLogin lib row password
  refuse (valid = true ∧ purpose = .admin ∧ row.serverRole ≠ .admin) .invalid
  return ⟨row, password, purpose, persistent, if valid then .accepted else .rejected,
    system.commits.length⟩

def administer (system : System) (call : Call) (answers : Option Nat) (now : Nat) : System :=
  match call.run lib answers now system.identity with
  | (.ok (some accountId), identity) => { system with
      identity := identity
      commits := if call.revokes then system.commits ++ [accountId] else system.commits
      bootstrapped := if call.actor = none then system.bootstrapped ++ [accountId]
        else system.bootstrapped }
  | (_, identity) => { system with identity := identity }

/-- A step of a login that is not there, or at another stage, does nothing. -/
def step (system : System) : Action → System
  | .administer call answers now => system.administer lib call answers now
  | .changePassword principal passwordHash currentPassword newPassword salt answers now =>
    match Auth.changePassword lib answers now principal passwordHash currentPassword newPassword salt
      system.identity with
    | (.ok (), identity) =>
      { system with identity := identity, commits := system.commits ++ [principal.id] }
    | (.error _, identity) => { system with identity := identity }
  | .readLogin username password purpose persistent now =>
    match system.readLogin lib username password purpose persistent now with
    | .ok login => { system with logins := system.logins ++ [login] }
    | .error _ => system
  | .countFailure i now => match system.logins[i]? with
    | some login =>
      if login.stage = .rejected then { system.put i login .finished with
        identity := Auth.countFailure now login.row.accountId system.identity }
      else system
    | none => system
  | .clearFailures i => match system.logins[i]? with
    | some login =>
      if login.stage = .accepted then { system.put i login .cleared with
        identity := Auth.clearFailures login.row.accountId system.identity }
      else system
    | none => system
  | .insertSession i token now => match system.logins[i]? with
    | some login =>
      if login.stage = .cleared then
        match Auth.insertSession lib now login.row login.purpose login.persistent token
          system.identity with
        | .ok identity => { system.put i login .inserted with
            identity := identity
            origins := system.origins ++ [(lib.tokenDigest token, login)] }
        | .error _ => system.put i login .finished
      else system
    | none => system
  | .auditLogin i => match system.logins[i]? with
    | some login =>
      if login.stage = .inserted then { system.put i login .finished with
        identity := { system.identity with
          audits := system.identity.audits ++
            [⟨some login.row.accountId, some login.row.accountId, "session.login"⟩] } }
      else system
    | none => system
  | .logout token now => { system with identity := Auth.logout lib now token system.identity }

/-- A session is inserted before anything of its account is revoked that was there when the
row was read, or while the account is disabled. -/
def Timely (system : System) : Action → Prop
  | .insertSession i _ _ => ∀ login, system.logins[i]? = some login → login.stage = .cleared →
    login.row.accountId ∉ system.commits.drop login.seen ∨
      ∃ account, system.identity.account login.row.accountId = some account ∧
        account.status ≠ .active
  | _ => True

/-- The runs from an empty store. -/
inductive Run (timely : Prop) : System → Prop
  | empty : Run timely empty
  | step {system : System} (run : Run timely system) (action : Action)
    (calm : timely → system.Timely action) : Run timely (system.step lib action)

end System

end Neoseq.Auth
