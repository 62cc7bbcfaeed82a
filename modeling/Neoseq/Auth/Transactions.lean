import Neoseq.Auth.Identity

/-! What the calls of the identity store do. A call that fails leaves everything as it was;
one that ends well adds an account, or changes one and revokes its sessions. -/

namespace Neoseq.Auth

variable {lib : AuthLib} {answers : Option Nat} {now : Nat} {identity identity' : Identity}
  {connection connection' : Connection}

/-! ## Statements -/

theorem run_answered {u : Unit} (h : answered.run connection = (.ok u, connection')) :
    connection'.identity = connection.identity := by
  unfold answered Edit.run Edit.update at h
  obtain ⟨identity, answers⟩ := connection
  match answers, h with
  | none, h => rw [← (Prod.mk.inj h).2]
  | some 0, h => cases (Prod.mk.inj h).1
  | some (answers + 1), h => rw [← (Prod.mk.inj h).2]

theorem run_settled {γ : Type} {x : Except AuthError γ} {a : γ}
    (h : (settled x).run connection = (.ok a, connection')) :
    x = .ok a ∧ connection'.identity = connection.identity := by
  obtain ⟨hx, rfl⟩ := Prod.mk.inj h
  exact ⟨hx, rfl⟩

theorem run_query {γ : Type} {f : Identity → Except AuthError γ} {a : γ}
    (h : (query f).run connection = (.ok a, connection')) :
    f connection.identity = .ok a ∧ connection'.identity = connection.identity := by
  obtain ⟨_, middle, hanswered, h⟩ := Edit.run_bind_eq_ok.mp h
  obtain ⟨hf, rfl⟩ := Prod.mk.inj h
  have hf : f middle.identity = .ok a := hf
  rw [run_answered hanswered] at hf
  exact ⟨hf, run_answered hanswered⟩

theorem run_execute {f : Identity → Except AuthError Identity} {u : Unit}
    (h : (execute f).run connection = (.ok u, connection')) :
    f connection.identity = .ok connection'.identity := by
  obtain ⟨_, middle, hanswered, h⟩ := Edit.run_bind_eq_ok.mp h
  rw [← run_answered hanswered]
  unfold Edit.run Edit.update at h
  dsimp only at h
  cases hf : f middle.identity with
  | error error =>
    rw [hf] at h
    cases (Prod.mk.inj h).1
  | ok written =>
    rw [hf] at h
    rw [← (Prod.mk.inj h).2]

theorem transact_eq_ok {γ : Type} {statements : Statements γ} {value : γ}
    (h : transact answers statements identity = (.ok value, identity')) :
    ∃ connection, statements.run ⟨identity, answers⟩ = (.ok value, connection) ∧
      connection.identity = identity' := by
  unfold transact at h
  split at h
  · next value' connection hrun =>
    obtain ⟨hvalue, hidentity⟩ := Prod.mk.inj h
    obtain rfl := Except.ok.inj hvalue
    exact ⟨connection, hrun, hidentity⟩
  · cases (Prod.mk.inj h).1

/-- What a transaction that fails wrote is rolled back. -/
theorem transact_eq_error {γ : Type} {statements : Statements γ} {error : AuthError}
    (h : transact answers statements identity = (.error error, identity')) :
    identity' = identity := by
  unfold transact at h
  split at h
  · cases (Prod.mk.inj h).1
  · exact (Prod.mk.inj h).2.symm

/-! ## Parts of transactions -/

/-- The account is an active administrator. -/
def IsAdmin (identity : Identity) (accountId : String) : Prop :=
  ∃ account ∈ identity.accounts, account.accountId = accountId ∧ account.isActiveAdmin = true

theorem hasActiveAdmin_eq_true : identity.hasActiveAdmin = true ↔
    ∃ accountId, IsAdmin identity accountId := by
  unfold Identity.hasActiveAdmin IsAdmin
  rw [List.any_eq_true]
  constructor
  · intro ⟨account, hmem, hadmin⟩
    exact ⟨account.accountId, account, hmem, rfl, hadmin⟩
  · intro ⟨_, account, hmem, _, hadmin⟩
    exact ⟨account, hmem, hadmin⟩

theorem run_requireAdmin {actor : Principal} {u : Unit}
    (h : (requireAdmin actor).run connection = (.ok u, connection')) :
    IsAdmin connection.identity actor.id ∧ connection'.identity = connection.identity := by
  obtain ⟨_, middle, hsettled, h⟩ := Edit.run_bind_eq_ok.mp h
  obtain ⟨_, hmiddle⟩ := run_settled hsettled
  obtain ⟨hadmin, hidentity⟩ := run_query h
  rw [hmiddle] at hadmin hidentity
  refine ⟨?_, hidentity⟩
  have hany := Bool.not_eq_false _ ▸ refuse_eq_ok.mp hadmin
  obtain ⟨account, hmem, haccount⟩ := List.any_eq_true.mp hany
  obtain ⟨hid, hactive⟩ := of_decide_eq_true haccount
  exact ⟨account, hmem, hid, hactive⟩

/-- The lock, and the look whether the actor is an administrator under it. -/
theorem run_authorized {actor : Principal} {γ : Type} {rest : Statements γ} {value : γ}
    (h : (do
      lockAccountMutations
      requireAdmin actor
      rest : Statements γ).run connection = (.ok value, connection')) :
    IsAdmin connection.identity actor.id ∧ ∃ middle, middle.identity = connection.identity ∧
      rest.run middle = (.ok value, connection') := by
  obtain ⟨_, locked, hlock, h⟩ := Edit.run_bind_eq_ok.mp h
  obtain ⟨_, required, hrequire, h⟩ := Edit.run_bind_eq_ok.mp h
  obtain ⟨hadmin, hrequired⟩ := run_requireAdmin hrequire
  rw [(run_query hlock).2] at hadmin hrequired
  exact ⟨hadmin, required, hrequired, h⟩

theorem account_eq_some {accountId : String} {account : Account}
    (h : identity.account accountId = some account) :
    account ∈ identity.accounts ∧ account.accountId = accountId := by
  have hid := List.find?_some h
  exact ⟨List.mem_of_find?_eq_some h, of_decide_eq_true hid⟩

theorem updateAccount_id (accountId : String) : identity.updateAccount accountId id = identity := by
  unfold Identity.updateAccount
  simp

/-- A row is new under its id. -/
structure Inserts (identity identity' : Identity) (row : Account) : Prop where
  fresh : ∀ account ∈ identity.accounts, account.accountId ≠ row.accountId
  accounts : identity'.accounts = identity.accounts ++ [row]
  sessions : identity'.sessions = identity.sessions

/-- The rows under an id are changed, and its sessions are revoked. -/
structure Revokes (identity identity' : Identity) (accountId : String) (f : Account → Account) :
    Prop where
  known : ∃ account ∈ identity.accounts, account.accountId = accountId
  keeps : ∀ account, (f account).accountId = account.accountId
  accounts : identity'.accounts = (identity.updateAccount accountId f).accounts
  sessions : ∃ now, identity'.sessions =
    (identity.revokeWhere now fun session => session.accountId = accountId).sessions

theorem run_insertRow {row : Account} {taken : AuthError} {u : Unit}
    (h : (insertRow row taken).run connection = (.ok u, connection')) :
    Inserts connection.identity connection'.identity row := by
  have h := run_execute h
  split at h
  · cases h
  · next hnone =>
    rw [← Except.ok.inj h]
    refine ⟨fun account hmem heq => hnone ?_, rfl, rfl⟩
    exact List.any_eq_true.mpr ⟨account, hmem, decide_eq_true (.inl heq)⟩

theorem run_updateRow {accountId : String} {which : Account → Bool} {missing : AuthError}
    {f : Account → Account} {u : Unit}
    (h : (updateRow accountId which missing f).run connection = (.ok u, connection')) :
    (∃ account ∈ connection.identity.accounts,
        account.accountId = accountId ∧ which account = true) ∧
      connection'.identity = connection.identity.updateAccount accountId fun account =>
        if which account then f account else account := by
  have h := run_execute h
  split at h
  · next hany =>
    obtain ⟨account, hmem, haccount⟩ := List.any_eq_true.mp hany
    exact ⟨⟨account, hmem, of_decide_eq_true haccount⟩, (Except.ok.inj h).symm⟩
  · cases h

theorem run_revokeAccountSessions {accountId : String} {u : Unit}
    (h : (revokeAccountSessions accountId now).run connection = (.ok u, connection')) :
    connection'.identity =
      connection.identity.revokeWhere now fun session => session.accountId = accountId := by
  have hrevoked := run_execute h
  exact (Except.ok.inj hrevoked).symm

theorem run_auditInTransaction {actor subject : Option String} {action : String} {u : Unit}
    (h : (auditInTransaction actor subject action).run connection = (.ok u, connection')) :
    connection'.identity.accounts = connection.identity.accounts ∧
      connection'.identity.sessions = connection.identity.sessions := by
  have haudited := run_execute h
  rw [← Except.ok.inj haudited]
  exact ⟨rfl, rfl⟩

/-- The revocation and the audit row at the end of a change. -/
theorem run_revoked {accountId action : String} {actor : Option String} {γ : Type}
    {rest : Statements γ} {value : γ}
    (hrest : ∀ {connection connection' : Connection},
      rest.run connection = (.ok value, connection') → connection'.identity = connection.identity)
    (h : (do
      revokeAccountSessions accountId now
      auditInTransaction actor (some accountId) action
      rest : Statements γ).run connection = (.ok value, connection')) :
    connection'.identity.accounts = connection.identity.accounts ∧
      connection'.identity.sessions = (connection.identity.revokeWhere now fun session =>
        session.accountId = accountId).sessions := by
  obtain ⟨_, revoked, hrevoke, h⟩ := Edit.run_bind_eq_ok.mp h
  obtain ⟨_, audited, haudit, h⟩ := Edit.run_bind_eq_ok.mp h
  obtain ⟨haccounts, hsessions⟩ := run_auditInTransaction haudit
  rw [hrest h, haccounts, hsessions, run_revokeAccountSessions hrevoke]
  exact ⟨rfl, rfl⟩

/-- The new row and its audit row. -/
theorem run_inserted {row : Account} {taken : AuthError} {action : String}
    {actor subject : Option String} {γ : Type} {rest : Statements γ} {value : γ}
    (hrest : ∀ {connection connection' : Connection},
      rest.run connection = (.ok value, connection') → connection'.identity = connection.identity)
    (h : (do
      insertRow row taken
      auditInTransaction actor subject action
      rest : Statements γ).run connection = (.ok value, connection')) :
    Inserts connection.identity connection'.identity row ∧
      ∃ middle, rest.run middle = (.ok value, connection') := by
  obtain ⟨_, inserted, hinsert, h⟩ := Edit.run_bind_eq_ok.mp h
  obtain ⟨_, audited, haudit, h⟩ := Edit.run_bind_eq_ok.mp h
  obtain ⟨haccounts, hsessions⟩ := run_auditInTransaction haudit
  obtain ⟨fresh, haccounts', hsessions'⟩ := run_insertRow hinsert
  refine ⟨⟨fresh, ?_, ?_⟩, audited, h⟩
  · rw [hrest h, haccounts, haccounts']
  · rw [hrest h, hsessions, hsessions']

theorem run_commit {u : Unit} (h : commit.run connection = (.ok u, connection')) :
    connection'.identity = connection.identity := run_answered h

/-- The account is read again before the commit. -/
theorem run_accountAndCommit {accountId : String} {γ : Type} {f : AccountView → γ} {value : γ}
    (h : (do
      let account ← accountInTransaction accountId
      commit
      return f account : Statements γ).run connection = (.ok value, connection')) :
    connection'.identity = connection.identity ∧ ∃ account, value = f account := by
  obtain ⟨account, middle, hread, h⟩ := Edit.run_bind_eq_ok.mp h
  obtain ⟨_, committed, hcommit, h⟩ := Edit.run_bind_eq_ok.mp h
  obtain ⟨hvalue, rfl⟩ := Prod.mk.inj h
  refine ⟨?_, account, (Except.ok.inj hvalue).symm⟩
  rw [run_commit hcommit, (run_query hread).2]

/-! ## Calls -/

theorem bootstrapAdminIfAbsent_eq_ok {initialized : Bool}
    {username password salt accountId : String} {created : Option AccountView}
    (h : bootstrapAdminIfAbsent lib answers now initialized username password salt accountId
      identity = (.ok created, identity')) :
    (created = none ∧ identity' = identity) ∨
      created.isSome = true ∧ identity.hasActiveAdmin = false ∧
        ∃ row, row.accountId = accountId ∧ row.isActiveAdmin = true ∧
          Inserts identity identity' row := by
  unfold bootstrapAdminIfAbsent at h
  split at h
  · obtain ⟨hnone, rfl⟩ := Prod.mk.inj h
    exact .inl ⟨(Except.ok.inj hnone).symm, rfl⟩
  · dsimp only at h
    split at h
    · cases (Prod.mk.inj h).1
    · obtain ⟨connection, hrun, rfl⟩ := transact_eq_ok h
      obtain ⟨_, locked, hlock, hrun⟩ := Edit.run_bind_eq_ok.mp hrun
      obtain ⟨existing, looked, hlook, hrun⟩ := Edit.run_bind_eq_ok.mp hrun
      obtain ⟨hexisting, hlooked⟩ := run_query hlook
      rw [(run_query hlock).2] at hlooked hexisting
      split at hrun
      · obtain ⟨hnone, rfl⟩ := Prod.mk.inj hrun
        exact .inl ⟨(Except.ok.inj hnone).symm, hlooked⟩
      · next hnot =>
        obtain ⟨hinserts, _, hrest⟩ := run_inserted (fun hrest => (run_accountAndCommit hrest).1) hrun
        obtain ⟨_, account, rfl⟩ := run_accountAndCommit hrest
        rw [hlooked] at hinserts
        refine .inr ⟨rfl, ?_, _, rfl, rfl, hinserts⟩
        rw [Except.ok.inj hexisting]
        exact Bool.not_eq_true _ ▸ hnot

theorem createAccount_eq_ok {actor : Principal} {username password salt accountId : String}
    {role : ServerRole} {view : AccountView}
    (h : createAccount lib answers now actor username password role salt accountId identity =
      (.ok view, identity')) :
    IsAdmin identity actor.id ∧ ∃ row, row.accountId = accountId ∧ Inserts identity identity' row := by
  unfold createAccount at h
  dsimp only at h
  split at h
  · cases (Prod.mk.inj h).1
  · obtain ⟨connection, hrun, rfl⟩ := transact_eq_ok h
    obtain ⟨hadmin, required, hrequired, hrun⟩ := run_authorized hrun
    obtain ⟨hinserts, _⟩ := run_inserted (fun hrest => (run_accountAndCommit hrest).1) hrun
    rw [hrequired] at hinserts
    exact ⟨hadmin, _, rfl, hinserts⟩

/-- A patch changes the status and the role, and leaves an administrator. -/
theorem patchedRow_eq_ok {current next : Account} {patch : AccountPatch}
    (h : patchedRow identity current patch = .ok next) :
    next.accountId = current.accountId ∧ (next.isActiveAdmin = true ∨
      current.isActiveAdmin = false ∨
      ∃ account ∈ identity.accounts, account.accountId ≠ current.accountId ∧
        account.isActiveAdmin = true) := by
  unfold patchedRow at h
  obtain ⟨_, hrefuse, h⟩ := bind_eq_ok.mp h
  obtain rfl := pure_eq_ok.mp h
  refine ⟨rfl, ?_⟩
  by_contra hnot
  obtain ⟨hnext, hcurrent, hothers⟩ := by simpa only [not_or] using hnot
  refine refuse_eq_ok.mp hrefuse ⟨?_, ?_, ?_⟩
  · exact Bool.not_eq_false _ ▸ hcurrent
  · exact Bool.not_eq_true _ ▸ hnext
  · refine Bool.not_eq_true _ ▸ fun hany => hothers ?_
    obtain ⟨account, hmem, haccount⟩ := List.any_eq_true.mp hany
    exact ⟨account, hmem, of_decide_eq_true haccount⟩

theorem updateAccount_eq_ok {actor : Principal} {accountId : String} {patch : AccountPatch}
    {view : AccountView}
    (h : updateAccount answers now actor accountId patch identity = (.ok view, identity')) :
    IsAdmin identity actor.id ∧ ∃ current next, identity.account accountId = some current ∧
      patchedRow identity current patch = .ok next ∧
      Revokes identity identity' accountId fun account =>
        { account with status := next.status, serverRole := next.serverRole } := by
  obtain ⟨connection, hrun, rfl⟩ := transact_eq_ok h
  obtain ⟨hadmin, required, hrequired, hrun⟩ := run_authorized hrun
  obtain ⟨_, checked, hcheck, hrun⟩ := Edit.run_bind_eq_ok.mp hrun
  have hchecked := (run_settled hcheck).2
  obtain ⟨current, read, hread, hrun⟩ := Edit.run_bind_eq_ok.mp hrun
  obtain ⟨hcurrent, hidentity⟩ := run_query hread
  rw [hchecked, hrequired] at hcurrent hidentity
  obtain ⟨next, patched, hpatch, hrun⟩ := Edit.run_bind_eq_ok.mp hrun
  obtain ⟨hnext, hpatched⟩ := run_query hpatch
  rw [hidentity] at hnext hpatched
  obtain ⟨_, written, hwrite, hrun⟩ := Edit.run_bind_eq_ok.mp hrun
  have hwritten := run_execute hwrite
  rw [hpatched] at hwritten
  obtain ⟨haccounts, hsessions⟩ := run_revoked (fun hrest => (run_accountAndCommit hrest).1) hrun
  rw [← Except.ok.inj hwritten] at haccounts hsessions
  have hfound := orElse_eq_ok.mp hcurrent
  exact ⟨hadmin, current, next, hfound, hnext, ⟨current, account_eq_some hfound⟩, fun _ => rfl,
    haccounts, now, hsessions⟩

theorem resetPassword_eq_ok {actor : Principal} {accountId password salt : String} {u : Unit}
    (h : resetPassword lib answers now actor accountId password salt identity =
      (.ok u, identity')) :
    IsAdmin identity actor.id ∧ ∃ f, (∀ account : Account, (f account).status = account.status ∧
      (f account).serverRole = account.serverRole) ∧ Revokes identity identity' accountId f := by
  unfold resetPassword at h
  split at h
  · cases (Prod.mk.inj h).1
  · obtain ⟨connection, hrun, rfl⟩ := transact_eq_ok h
    obtain ⟨hadmin, required, hrequired, hrun⟩ := run_authorized hrun
    obtain ⟨_, written, hwrite, hrun⟩ := Edit.run_bind_eq_ok.mp hrun
    obtain ⟨⟨account, hmem, hid, _⟩, hwritten⟩ := run_updateRow hwrite
    rw [hrequired] at hmem hwritten
    obtain ⟨haccounts, hsessions⟩ := run_revoked run_commit hrun
    rw [hwritten] at haccounts hsessions
    refine ⟨hadmin, fun account => { account with
      passwordHash := lib.hashPassword salt password
      failedLoginAttempts := 0
      loginBlockedUntil := none }, fun _ => ⟨rfl, rfl⟩, ⟨account, hmem, hid⟩, fun _ => rfl,
      haccounts, now, hsessions⟩

theorem revokeSessions_eq_ok {actor : Principal} {accountId : String} {u : Unit}
    (h : revokeSessions answers now actor accountId identity = (.ok u, identity')) :
    IsAdmin identity actor.id ∧ Revokes identity identity' accountId id := by
  obtain ⟨connection, hrun, rfl⟩ := transact_eq_ok h
  obtain ⟨hadmin, required, hrequired, hrun⟩ := run_authorized hrun
  obtain ⟨_, looked, hlook, hrun⟩ := Edit.run_bind_eq_ok.mp hrun
  obtain ⟨hknown, hlooked⟩ := run_query hlook
  rw [hrequired] at hknown hlooked
  obtain ⟨haccounts, hsessions⟩ := run_revoked run_commit hrun
  rw [hlooked] at haccounts hsessions
  obtain ⟨account, haccount⟩ := Option.ne_none_iff_exists'.mp (refuse_eq_ok.mp hknown)
  refine ⟨hadmin, ⟨account, account_eq_some haccount⟩, fun _ => rfl, ?_, now, hsessions⟩
  rw [haccounts, updateAccount_id]

theorem changePassword_eq_ok {principal : Principal}
    {passwordHash currentPassword newPassword salt : String} {u : Unit}
    (h : changePassword lib answers now principal passwordHash currentPassword newPassword salt
      identity = (.ok u, identity')) :
    ∃ f, (∀ account : Account, (f account).status = account.status ∧
      (f account).serverRole = account.serverRole) ∧
      Revokes identity identity' principal.id f := by
  unfold changePassword at h
  dsimp only at h
  split at h
  · cases (Prod.mk.inj h).1
  · obtain ⟨connection, hrun, rfl⟩ := transact_eq_ok h
    obtain ⟨_, written, hwrite, hrun⟩ := Edit.run_bind_eq_ok.mp hrun
    obtain ⟨⟨account, hmem, hid, _⟩, hwritten⟩ := run_updateRow hwrite
    obtain ⟨haccounts, hsessions⟩ := run_revoked run_commit hrun
    rw [hwritten] at haccounts hsessions
    refine ⟨fun account =>
      if account.status = .active ∧ account.passwordHash = passwordHash then
        { account with passwordHash := lib.hashPassword salt newPassword }
      else account, fun account => ?_, ⟨account, hmem, hid⟩, fun account => ?_, ?_, now, hsessions⟩
    · beta_reduce
      split <;> exact ⟨rfl, rfl⟩
    · split <;> rfl
    · rw [haccounts]
      simp only [decide_eq_true_eq]

end Neoseq.Auth
