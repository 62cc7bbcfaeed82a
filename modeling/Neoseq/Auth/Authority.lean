import Neoseq.Auth.Runs

/-! Who rules the accounts: from the bootstrap on there is an active administrator, every
change is made by one, and a change that is refused leaves nothing. -/

namespace Neoseq.Auth

variable {lib : AuthLib} {answers : Option Nat} {now : Nat} {identity identity' : Identity}
  {system : System} {timely : Prop}

/-- Ids are unique, and sessions are those of accounts. -/
structure Identity.Keyed (identity : Identity) : Prop where
  unique : (identity.accounts.map Account.accountId).Nodup
  owned : ∀ session ∈ identity.sessions,
    ∃ account ∈ identity.accounts, account.accountId = session.accountId

/-! ## Updates of accounts -/

theorem mem_updateAccount {accountId : String} {f : Account → Account} {account : Account} :
    account ∈ (identity.updateAccount accountId f).accounts ↔ ∃ old ∈ identity.accounts,
      (if old.accountId = accountId then f old else old) = account :=
  List.mem_map

theorem ids_updateAccount {accountId : String} {f : Account → Account}
    (hf : ∀ account, (f account).accountId = account.accountId) :
    (identity.updateAccount accountId f).accounts.map Account.accountId =
      identity.accounts.map Account.accountId := by
  unfold Identity.updateAccount
  rw [List.map_map]
  refine List.map_congr_left fun account _ => ?_
  show (if account.accountId = accountId then f account else account).accountId = _
  split
  · exact hf account
  · rfl

/-- The sessions that an update of the table leaves, each as it was or revoked. -/
theorem mem_revokeWhere {which : AccountSession → Bool} {session : AccountSession} :
    session ∈ (identity.revokeWhere now which).sessions ↔ ∃ old ∈ identity.sessions,
      (if which old ∧ old.revokedAt = none then { old with revokedAt := some now } else old) =
        session :=
  List.mem_map

theorem of_mem_revokeWhere {which : AccountSession → Bool} {session : AccountSession}
    (h : session ∈ (identity.revokeWhere now which).sessions) : ∃ old ∈ identity.sessions,
      session.sessionIdHash = old.sessionIdHash ∧ session.accountId = old.accountId ∧
        session.purpose = old.purpose ∧
        (session.revokedAt = none → old.revokedAt = none ∧ which old = false) := by
  obtain ⟨old, hmem, rfl⟩ := mem_revokeWhere.mp h
  refine ⟨old, hmem, ?_⟩
  split
  · exact ⟨rfl, rfl, rfl, nofun⟩
  · next hnot =>
    exact ⟨rfl, rfl, rfl, fun hnone => ⟨hnone, Bool.eq_false_iff.mpr fun hwhich => hnot ⟨hwhich, hnone⟩⟩⟩

theorem Identity.Keyed.inserts (h : identity.Keyed) {row : Account}
    (hinserts : Inserts identity identity' row) : identity'.Keyed := by
  constructor
  · rw [hinserts.accounts, List.map_append]
    refine List.Nodup.append h.unique (List.nodup_singleton _) ?_
    intro id hid hrow
    obtain ⟨account, hmem, rfl⟩ := List.mem_map.mp hid
    exact hinserts.fresh account hmem (List.mem_singleton.mp hrow)
  · intro session hsession
    rw [hinserts.sessions] at hsession
    obtain ⟨account, hmem, hid⟩ := h.owned session hsession
    refine ⟨account, ?_, hid⟩
    rw [hinserts.accounts]
    exact List.mem_append_left _ hmem

theorem mem_ids {accountId : String} : accountId ∈ identity.accounts.map Account.accountId ↔
    ∃ account ∈ identity.accounts, account.accountId = accountId :=
  List.mem_map

/-- A store with the same ids, whose sessions belong to the same accounts. -/
theorem Identity.Keyed.same (h : identity.Keyed)
    (hids : identity'.accounts.map Account.accountId = identity.accounts.map Account.accountId)
    (hsessions : ∀ session ∈ identity'.sessions, ∃ old ∈ identity.sessions,
      session.accountId = old.accountId) : identity'.Keyed := by
  constructor
  · rw [hids]
    exact h.unique
  · intro session hsession
    obtain ⟨old, hold, hid⟩ := hsessions session hsession
    have howner := mem_ids.mpr (h.owned old hold)
    rw [← hids, ← hid] at howner
    exact mem_ids.mp howner

theorem Identity.Keyed.revokes (h : identity.Keyed) {accountId : String} {f : Account → Account}
    (hrevokes : Revokes identity identity' accountId f) : identity'.Keyed := by
  refine h.same ?_ fun session hsession => ?_
  · rw [hrevokes.accounts]
    exact ids_updateAccount hrevokes.keeps
  · obtain ⟨now, hsessions⟩ := hrevokes.sessions
    rw [hsessions] at hsession
    obtain ⟨old, hold, _, hid, _⟩ := of_mem_revokeWhere hsession
    exact ⟨old, hold, hid⟩

theorem Inserts.ids {row : Account} (h : Inserts identity identity' row) :
    ∀ id ∈ identity.accounts.map Account.accountId,
      id ∈ identity'.accounts.map Account.accountId := by
  intro id hid
  rw [h.accounts, List.map_append]
  exact List.mem_append_left _ hid

theorem Revokes.ids {accountId : String} {f : Account → Account}
    (h : Revokes identity identity' accountId f) :
    ∀ id ∈ identity.accounts.map Account.accountId,
      id ∈ identity'.accounts.map Account.accountId := by
  intro id hid
  rw [h.accounts, ids_updateAccount h.keeps]
  exact hid

/-- Nothing of the changed account stays live. -/
theorem Revokes.revoked {accountId : String} {f : Account → Account}
    (h : Revokes identity identity' accountId f) {session : AccountSession}
    (hmem : session ∈ identity'.sessions) (hid : session.accountId = accountId) :
    session.revokedAt ≠ none := by
  obtain ⟨now, hsessions⟩ := h.sessions
  rw [hsessions] at hmem
  obtain ⟨old, _, _, hold, _, hlive⟩ := of_mem_revokeWhere hmem
  intro hnone
  have hwhich := (hlive hnone).2
  rw [← hold, hid] at hwhich
  exact of_decide_eq_false hwhich rfl

/-! ## Administrators -/

theorem hasActiveAdmin_of_isAdmin {accountId : String} (h : IsAdmin identity accountId) :
    identity.hasActiveAdmin = true := hasActiveAdmin_eq_true.mpr ⟨accountId, h⟩

/-- An update that leaves who rules. -/
theorem hasActiveAdmin_updateAccount {accountId : String} {f : Account → Account}
    (hf : ∀ account : Account, (f account).status = account.status ∧
      (f account).serverRole = account.serverRole) :
    (identity.updateAccount accountId f).hasActiveAdmin = identity.hasActiveAdmin := by
  unfold Identity.hasActiveAdmin Identity.updateAccount
  rw [List.any_map]
  congr 1
  funext account
  show (if account.accountId = accountId then f account else account).isActiveAdmin = _
  split
  · unfold Account.isActiveAdmin
    rw [(hf account).1, (hf account).2]
  · rfl

/-- A patch of the last administrator is refused. -/
theorem hasActiveAdmin_patched (h : identity.Keyed) {accountId : String} {patch : AccountPatch}
    {current next : Account} (hadmin : identity.hasActiveAdmin = true)
    (hcurrent : identity.account accountId = some current)
    (hpatch : patchedRow identity current patch = .ok next) :
    (identity.updateAccount accountId fun account =>
      { account with status := next.status, serverRole := next.serverRole }).hasActiveAdmin =
        true := by
  obtain ⟨hmem, hid⟩ := account_eq_some hcurrent
  obtain ⟨_, hstays⟩ := patchedRow_eq_ok hpatch
  -- another administrator keeps its row
  have hother : ∀ account ∈ identity.accounts, account.accountId ≠ accountId →
      account.isActiveAdmin = true → (identity.updateAccount accountId fun account =>
        { account with status := next.status, serverRole := next.serverRole }).hasActiveAdmin =
          true := by
    intro account haccount hne hactive
    exact hasActiveAdmin_of_isAdmin
      ⟨account, mem_updateAccount.mpr ⟨account, haccount, if_neg hne⟩, rfl, hactive⟩
  rcases hstays with hnext | hcurrent' | ⟨account, haccount, hne, hactive⟩
  · exact hasActiveAdmin_of_isAdmin
      ⟨_, mem_updateAccount.mpr ⟨current, hmem, if_pos hid⟩, rfl, hnext⟩
  · obtain ⟨_, account, haccount, _, hactive⟩ := hasActiveAdmin_eq_true.mp hadmin
    refine hother account haccount (fun heq => ?_) hactive
    obtain rfl : account = current :=
      List.inj_on_of_nodup_map h.unique haccount hmem (heq.trans hid.symm)
    rw [hcurrent'] at hactive
    cases hactive
  · exact hother account haccount (hid ▸ hne) hactive

/-! ## Calls -/

/-- How a call that ends well has changed an account. -/
inductive Changes (identity identity' : Identity) : Call → String → Prop
  | bootstrapped {call : Call} {row : Account} (actor : call.actor = none)
    (revokes : call.revokes = false) (uninitialized : identity.hasActiveAdmin = false)
    (admin : row.isActiveAdmin = true) (inserts : Inserts identity identity' row) :
    Changes identity identity' call row.accountId
  | created {call : Call} {actor : Principal} {row : Account} (by_ : call.actor = some actor)
    (revokes : call.revokes = false) (admin : IsAdmin identity actor.id)
    (inserts : Inserts identity identity' row) : Changes identity identity' call row.accountId
  | changed {call : Call} {actor : Principal} {accountId : String} {f : Account → Account}
    (by_ : call.actor = some actor) (calls : call.revokes = true)
    (admin : IsAdmin identity actor.id) (revokes : Revokes identity identity' accountId f)
    (rules : identity.Keyed → identity'.hasActiveAdmin = true) :
    Changes identity identity' call accountId

theorem report_eq_ok {γ : Type} {f : γ → Option String} {outcome : Except AuthError γ × Identity}
    {changed : Option String} (h : Call.report f outcome = (.ok changed, identity')) :
    ∃ value, outcome = (.ok value, identity') ∧ f value = changed := by
  obtain ⟨result, identity⟩ := outcome
  obtain ⟨hmap, rfl⟩ := Prod.mk.inj h
  cases result with
  | error error => cases hmap
  | ok value => exact ⟨value, rfl, Except.ok.inj hmap⟩

theorem report_eq_error {γ : Type} {f : γ → Option String}
    {outcome : Except AuthError γ × Identity} {error : AuthError}
    (h : Call.report f outcome = (.error error, identity')) :
    outcome = (.error error, identity') := by
  obtain ⟨result, identity⟩ := outcome
  obtain ⟨hmap, rfl⟩ := Prod.mk.inj h
  cases result with
  | error error' => rw [Except.error.inj hmap]
  | ok value => cases hmap

/-- A change of one account that leaves who rules. -/
theorem rules_of_revokes {accountId : String} {f : Account → Account} {actor : String}
    (hadmin : IsAdmin identity actor) (h : Revokes identity identity' accountId f)
    (hf : ∀ account : Account, (f account).status = account.status ∧
      (f account).serverRole = account.serverRole) : identity'.hasActiveAdmin = true := by
  unfold Identity.hasActiveAdmin
  rw [h.accounts]
  exact (hasActiveAdmin_updateAccount hf).trans (hasActiveAdmin_of_isAdmin hadmin)

/-- A call that ends well found nothing to do, or changed an account. -/
theorem Call.run_eq_ok {call : Call} {changed : Option String}
    (h : call.run lib answers now identity = (.ok changed, identity')) :
    (changed = none ∧ identity' = identity) ∨
      ∃ accountId, changed = some accountId ∧ Changes identity identity' call accountId := by
  cases call with
  | bootstrap initialized username password salt accountId =>
    obtain ⟨created, hcreated, rfl⟩ := report_eq_ok h
    rcases bootstrapAdminIfAbsent_eq_ok hcreated with
      ⟨rfl, hsame⟩ | ⟨hsome, hnone, row, rfl, hadmin, hinserts⟩
    · exact .inl ⟨rfl, hsame⟩
    · obtain ⟨account, rfl⟩ := Option.isSome_iff_exists.mp hsome
      exact .inr ⟨row.accountId, rfl, .bootstrapped rfl rfl hnone hadmin hinserts⟩
  | createAccount actor username password role salt accountId =>
    obtain ⟨view, hview, rfl⟩ := report_eq_ok h
    obtain ⟨hadmin, row, rfl, hinserts⟩ := createAccount_eq_ok hview
    exact .inr ⟨row.accountId, rfl, .created rfl rfl hadmin hinserts⟩
  | updateAccount actor accountId patch =>
    obtain ⟨view, hview, rfl⟩ := report_eq_ok h
    obtain ⟨hadmin, current, next, hcurrent, hpatch, hrevokes⟩ :=
      updateAccount_eq_ok hview
    refine .inr ⟨accountId, rfl, .changed rfl rfl hadmin hrevokes fun hkeyed => ?_⟩
    unfold Identity.hasActiveAdmin
    rw [hrevokes.accounts]
    exact hasActiveAdmin_patched hkeyed (hasActiveAdmin_of_isAdmin hadmin) hcurrent hpatch
  | resetPassword actor accountId password salt =>
    obtain ⟨view, hview, rfl⟩ := report_eq_ok h
    obtain ⟨hadmin, f, hf, hrevokes⟩ := resetPassword_eq_ok hview
    exact .inr ⟨accountId, rfl, .changed rfl rfl hadmin hrevokes fun _ =>
      rules_of_revokes hadmin hrevokes hf⟩
  | revokeSessions actor accountId =>
    obtain ⟨view, hview, rfl⟩ := report_eq_ok h
    obtain ⟨hadmin, hrevokes⟩ := revokeSessions_eq_ok hview
    exact .inr ⟨accountId, rfl, .changed rfl rfl hadmin hrevokes fun _ =>
      rules_of_revokes hadmin hrevokes fun _ => ⟨rfl, rfl⟩⟩

/-- A call that is refused leaves everything as it was. -/
theorem Call.run_eq_error {call : Call} {error : AuthError}
    (h : call.run lib answers now identity = (.error error, identity')) : identity' = identity := by
  cases call with
  | bootstrap initialized username password salt accountId =>
    have h := report_eq_error h
    unfold bootstrapAdminIfAbsent at h
    split at h
    · cases (Prod.mk.inj h).1
    · dsimp only at h
      split at h
      · exact (Prod.mk.inj h).2.symm
      · exact transact_eq_error h
  | createAccount actor username password role salt accountId =>
    have h := report_eq_error h
    unfold Auth.createAccount at h
    dsimp only at h
    split at h
    · exact (Prod.mk.inj h).2.symm
    · exact transact_eq_error h
  | updateAccount actor accountId patch => exact transact_eq_error (report_eq_error h)
  | resetPassword actor accountId password salt =>
    have h := report_eq_error h
    unfold Auth.resetPassword at h
    split at h
    · exact (Prod.mk.inj h).2.symm
    · exact transact_eq_error h
  | revokeSessions actor accountId => exact transact_eq_error (report_eq_error h)

/-! ## Runs -/

/-- What a step keeps of the store. -/
structure Tends (identity identity' : Identity) : Prop where
  ids : ∀ id ∈ identity.accounts.map Account.accountId,
    id ∈ identity'.accounts.map Account.accountId
  keyed : identity.Keyed → identity'.Keyed
  rules : identity.Keyed → identity.hasActiveAdmin = true → identity'.hasActiveAdmin = true

theorem Tends.refl (identity : Identity) : Tends identity identity := ⟨fun _ => id, id, fun _ => id⟩

/-- An update of one account that leaves its id and whether it rules. -/
theorem tends_updateAccount (accountId : String) {f : Account → Account}
    (hf : ∀ account : Account, (f account).accountId = account.accountId ∧
      (f account).status = account.status ∧ (f account).serverRole = account.serverRole) :
    Tends identity (identity.updateAccount accountId f) where
  ids id hid := by
    rw [ids_updateAccount fun account => (hf account).1]
    exact hid
  keyed h := h.same (ids_updateAccount fun account => (hf account).1) fun session hsession =>
    ⟨session, hsession, rfl⟩
  rules _ hadmin := (hasActiveAdmin_updateAccount fun account => (hf account).2).trans hadmin

theorem tends_revokeWhere (which : AccountSession → Bool) :
    Tends identity (identity.revokeWhere now which) where
  ids _ hid := hid
  keyed h := h.same rfl fun _ hsession =>
    have ⟨old, hold, _, hid, _⟩ := of_mem_revokeWhere hsession
    ⟨old, hold, hid⟩
  rules _ hadmin := hadmin

theorem changePassword_eq_error {principal : Principal}
    {passwordHash currentPassword newPassword salt : String} {error : AuthError}
    (h : changePassword lib answers now principal passwordHash currentPassword newPassword salt
      identity = (.error error, identity')) : identity' = identity := by
  unfold changePassword at h
  dsimp only at h
  split at h
  · exact (Prod.mk.inj h).2.symm
  · exact transact_eq_error h

theorem tends_changePassword {principal : Principal}
    {passwordHash currentPassword newPassword salt : String} {result : Except AuthError Unit}
    (h : changePassword lib answers now principal passwordHash currentPassword newPassword salt
      identity = (result, identity')) : Tends identity identity' := by
  cases result with
  | error error =>
    rw [changePassword_eq_error h]
    exact .refl identity
  | ok u =>
    obtain ⟨f, hf, hrevokes⟩ := changePassword_eq_ok h
    refine ⟨hrevokes.ids, fun hkeyed => hkeyed.revokes hrevokes, fun _ hadmin => ?_⟩
    unfold Identity.hasActiveAdmin
    rw [hrevokes.accounts]
    exact (hasActiveAdmin_updateAccount hf).trans hadmin

theorem insertSession_eq_ok {row : Account} {purpose : SessionPurpose} {persistent : Bool}
    {token : String} (h : insertSession lib now row purpose persistent token identity =
      .ok identity') : identity' = { identity with
        sessions := identity.sessions ++ [⟨lib.tokenDigest token, row.accountId, purpose,
          now + sessionSeconds purpose persistent, none⟩] } := by
  unfold insertSession at h
  obtain ⟨_, _, h⟩ := bind_eq_ok.mp h
  exact (pure_eq_ok.mp h).symm

theorem Changes.tends {call : Call} {accountId : String}
    (h : Changes identity identity' call accountId) : Tends identity identity' := by
  cases h with
  | bootstrapped _ _ uninitialized _ inserts =>
    refine ⟨inserts.ids, fun hkeyed => hkeyed.inserts inserts, fun _ hadmin => ?_⟩
    rw [uninitialized] at hadmin
    cases hadmin
  | created _ _ _ inserts =>
    refine ⟨inserts.ids, fun hkeyed => hkeyed.inserts inserts, fun _ hadmin => ?_⟩
    unfold Identity.hasActiveAdmin at hadmin ⊢
    rw [inserts.accounts, List.any_append, hadmin]
    rfl
  | changed _ _ _ revokes rules =>
    exact ⟨revokes.ids, fun hkeyed => hkeyed.revokes revokes, fun hkeyed _ => rules hkeyed⟩

/-- What holds of every state of a run. -/
structure Governed (system : System) : Prop where
  keyed : system.identity.Keyed
  known : ∀ login ∈ system.logins,
    login.row.accountId ∈ system.identity.accounts.map Account.accountId
  once : system.bootstrapped.length ≤ 1
  rules : system.bootstrapped ≠ [] → system.identity.hasActiveAdmin = true

/-- A step of the store that no bootstrap makes. -/
theorem Governed.tends {system' : System} (h : Governed system)
    (htends : Tends system.identity system'.identity)
    (hlogins : ∀ login ∈ system'.logins,
      login.row.accountId ∈ system.identity.accounts.map Account.accountId)
    (hbootstrapped : system'.bootstrapped = system.bootstrapped) : Governed system' where
  keyed := htends.keyed h.keyed
  known login hlogin := htends.ids _ (hlogins login hlogin)
  once := by
    rw [hbootstrapped]
    exact h.once
  rules hne := htends.rules h.keyed (h.rules (hbootstrapped ▸ hne))

/-- The row of a login goes along with its stages. -/
theorem Governed.known_put (h : Governed system) {i : Nat} {login : Login} (stage : LoginStage)
    (hlogin : system.logins[i]? = some login) : ∀ login' ∈ (system.put i login stage).logins,
      login'.row.accountId ∈ system.identity.accounts.map Account.accountId := by
  intro login' hmem
  rcases List.mem_or_eq_of_mem_set hmem with hmem | rfl
  · exact h.known login' hmem
  · exact h.known login (List.mem_of_getElem? hlogin)

theorem readLogin_eq_ok {username password : String} {purpose : SessionPurpose}
    {persistent : Bool} {login : Login}
    (h : system.readLogin lib username password purpose persistent now = .ok login) :
    login.row ∈ system.identity.accounts ∧ login.row.status = .active ∧
      login.purpose = purpose ∧ login.password = password ∧
      login.seen = system.commits.length ∧ (login.stage = .rejected ∨ login.stage = .accepted ∧
        lib.verifyPassword login.password login.row.passwordHash = some true ∧
        (login.purpose = .admin → login.row.serverRole = .admin)) := by
  unfold System.readLogin at h
  obtain ⟨row, hrow, h⟩ := bind_eq_ok.mp h
  obtain ⟨valid, hvalid, h⟩ := bind_eq_ok.mp h
  obtain ⟨_, hrole, h⟩ := bind_eq_ok.mp h
  obtain rfl := pure_eq_ok.mp h
  unfold readLogin at hrow
  obtain ⟨name, _, hrow⟩ := bind_eq_ok.mp hrow
  obtain ⟨found, hfound, hrow⟩ := bind_eq_ok.mp hrow
  obtain ⟨_, hopen, hrow⟩ := bind_eq_ok.mp hrow
  obtain rfl := pure_eq_ok.mp hrow
  have hstatus : found.status = .active := not_not.mp (not_or.mp (refuse_eq_ok.mp hopen)).2
  refine ⟨List.mem_of_find?_eq_some (orElse_eq_ok.mp hfound), hstatus, rfl, rfl, rfl, ?_⟩
  cases valid with
  | false => exact .inl rfl
  | true =>
    refine .inr ⟨rfl, orElse_eq_ok.mp hvalid, fun hpurpose => ?_⟩
    exact not_not.mp fun hne => refuse_eq_ok.mp hrole ⟨rfl, hpurpose, hne⟩

theorem Governed.administer (h : Governed system) (call : Call) (answers : Option Nat)
    (now : Nat) : Governed (system.administer lib call answers now) := by
  unfold System.administer
  split
  · next accountId identity hrun =>
    rcases Call.run_eq_ok hrun with ⟨hnone, _⟩ | ⟨accountId', haccount, hchanges⟩
    · cases hnone
    · obtain rfl := Option.some.inj haccount
      have htends := hchanges.tends
      cases hchanges with
      | bootstrapped actor revokes uninitialized admin inserts =>
        have hfirst : system.bootstrapped = [] := by
          by_contra hne
          rw [h.rules hne] at uninitialized
          cases uninitialized
        refine ⟨htends.keyed h.keyed, fun login hlogin => htends.ids _ (h.known login hlogin), ?_,
          fun _ => ?_⟩
        · rw [if_pos actor, hfirst]
          exact Nat.le_refl 1
        · unfold Identity.hasActiveAdmin
          rw [inserts.accounts, List.any_append]
          simp [admin]
      | created by_ revokes admin inserts =>
        exact h.tends htends h.known (if_neg (by rw [by_]; nofun))
      | changed by_ calls admin revokes rules =>
        exact h.tends htends h.known (if_neg (by rw [by_]; nofun))
  · next result identity hnot hrun =>
    have hsame : identity = system.identity := by
      cases result with
      | error error => exact Call.run_eq_error hrun
      | ok changed =>
        rcases Call.run_eq_ok hrun with ⟨_, hsame⟩ | ⟨accountId, rfl, _⟩
        · exact hsame
        · exact absurd rfl (hnot accountId)
    rw [hsame]
    exact h.tends (.refl _) h.known rfl

/-- A login that inserts its session is one of a known account. -/
theorem Governed.insertSession (h : Governed system) {i : Nat} {login : Login}
    (hlogin : system.logins[i]? = some login) {token : String} {identity : Identity}
    (hinsert : Auth.insertSession lib now login.row login.purpose login.persistent token
      system.identity = .ok identity) (origins : List (String × Login)) :
    Governed { system.put i login .inserted with identity := identity, origins := origins } := by
  obtain rfl := insertSession_eq_ok hinsert
  refine ⟨⟨h.keyed.unique, fun session hsession => ?_⟩, h.known_put .inserted hlogin, h.once,
    h.rules⟩
  rcases List.mem_append.mp hsession with hold | hnew
  · exact h.keyed.owned session hold
  · obtain rfl := List.mem_singleton.mp hnew
    exact mem_ids.mp (h.known login (List.mem_of_getElem? hlogin))

theorem Governed.readLogin (h : Governed system) {username password : String}
    {purpose : SessionPurpose} {persistent : Bool} {login : Login}
    (hread : system.readLogin lib username password purpose persistent now = .ok login) :
    Governed { system with logins := system.logins ++ [login] } := by
  refine h.tends (.refl _) (fun login' hlogin' => ?_) rfl
  rcases List.mem_append.mp hlogin' with hold | hnew
  · exact h.known login' hold
  · obtain rfl := List.mem_singleton.mp hnew
    exact mem_ids.mpr ⟨_, (readLogin_eq_ok hread).1, rfl⟩

theorem Governed.step (h : Governed system) (action : Action) :
    Governed (system.step lib action) := by
  cases action with
  | administer call answers now => exact h.administer call answers now
  | changePassword principal passwordHash currentPassword newPassword salt answers now =>
    unfold System.step
    dsimp only
    split
    · next identity hchange => exact h.tends (tends_changePassword hchange) h.known rfl
    · next error identity hchange => exact h.tends (tends_changePassword hchange) h.known rfl
  | readLogin username password purpose persistent now =>
    unfold System.step
    dsimp only
    split
    · next login hread => exact h.readLogin hread
    · exact h
  | countFailure i now =>
    unfold System.step
    dsimp only
    split
    · next login hlogin =>
      split
      · exact h.tends (tends_updateAccount _ fun _ => ⟨rfl, rfl, rfl⟩)
          (h.known_put .finished hlogin) rfl
      · exact h
    · exact h
  | clearFailures i =>
    unfold System.step
    dsimp only
    split
    · next login hlogin =>
      split
      · exact h.tends (tends_updateAccount _ fun _ => ⟨rfl, rfl, rfl⟩)
          (h.known_put .cleared hlogin) rfl
      · exact h
    · exact h
  | insertSession i token now =>
    unfold System.step
    dsimp only
    split
    · next login hlogin =>
      split
      · split
        · next identity hinsert => exact h.insertSession hlogin hinsert _
        · exact h.tends (.refl _) (h.known_put .finished hlogin) rfl
      · exact h
    · exact h
  | auditLogin i =>
    unfold System.step
    dsimp only
    split
    · next login hlogin =>
      split
      · exact ⟨⟨h.keyed.unique, h.keyed.owned⟩, h.known_put .finished hlogin, h.once, h.rules⟩
      · exact h
    · exact h
  | logout token now => exact h.tends (tends_revokeWhere _) h.known rfl

theorem governed_of_run (run : System.Run lib timely system) : Governed system := by
  induction run with
  | empty =>
    refine ⟨⟨List.nodup_nil, nofun⟩, nofun, ?_, fun hne => absurd rfl hne⟩
    simp [System.empty]
  | step run action calm ih => exact ih.step action

/-! ## Authority -/

/-- Every account that a commit made or changed, with nobody's authority needed by a first
administrator, and what the commit left of its sessions. -/
structure Authorized (identity identity' : Identity) (call : Call) (accountId : String) : Prop where
  made : match call.actor with
    | some actor => IsAdmin identity actor.id
    | none => identity.hasActiveAdmin = false
  rules : identity'.hasActiveAdmin = true
  ended : ∀ session ∈ identity'.sessions, session.accountId = accountId →
    session.revokedAt ≠ none

theorem Changes.authorized {call : Call} {accountId : String} (hkeyed : identity.Keyed)
    (h : Changes identity identity' call accountId) :
    Authorized identity identity' call accountId := by
  -- an account just made has no sessions yet
  have hfresh : ∀ {row : Account}, Inserts identity identity' row → ∀ session ∈ identity'.sessions,
      session.accountId = row.accountId → session.revokedAt ≠ none := by
    intro row hinserts session hsession hid
    rw [hinserts.sessions] at hsession
    obtain ⟨account, hmem, howner⟩ := hkeyed.owned session hsession
    exact absurd (howner.trans hid) (hinserts.fresh account hmem)
  cases h with
  | bootstrapped actor revokes uninitialized admin inserts =>
    refine ⟨?_, ?_, hfresh inserts⟩
    · rw [actor]
      exact uninitialized
    · unfold Identity.hasActiveAdmin
      rw [inserts.accounts, List.any_append]
      simp [admin]
  | created by_ revokes admin inserts =>
    have hkept := (Changes.created by_ revokes admin inserts).tends.rules hkeyed
    refine ⟨?_, hkept (hasActiveAdmin_of_isAdmin admin), hfresh inserts⟩
    rw [by_]
    exact admin
  | changed by_ calls admin revokes rules =>
    refine ⟨?_, rules hkeyed, fun session hsession hid => revokes.revoked hsession hid⟩
    rw [by_]
    exact admin

/-- The authority over the accounts of a store. -/
structure Authority (lib : AuthLib) (system : System) : Prop where
  once : system.bootstrapped.length ≤ 1
  rules : system.bootstrapped ≠ [] → system.identity.hasActiveAdmin = true
  refused : ∀ (call : Call) (answers : Option Nat) (now : Nat) (error : AuthError)
    (identity : Identity), call.run lib answers now system.identity = (.error error, identity) →
    identity = system.identity
  unneeded : ∀ (call : Call) (answers : Option Nat) (now : Nat) (identity : Identity),
    call.run lib answers now system.identity = (.ok none, identity) → identity = system.identity
  committed : ∀ (call : Call) (answers : Option Nat) (now : Nat) (accountId : String)
    (identity : Identity), call.run lib answers now system.identity =
      (.ok (some accountId), identity) → Authorized system.identity identity call accountId

/-- In every state of every run accounts are made and changed by active administrators, the
first one apart. -/
theorem authority_of_run (run : System.Run lib timely system) : Authority lib system := by
  have hgoverned := governed_of_run run
  refine ⟨hgoverned.once, hgoverned.rules, fun _ _ _ _ _ => Call.run_eq_error, ?_, ?_⟩
  · intro call answers now identity hrun
    rcases Call.run_eq_ok hrun with ⟨_, hsame⟩ | ⟨accountId, hnone, _⟩
    · exact hsame
    · cases hnone
  · intro call answers now accountId identity hrun
    rcases Call.run_eq_ok hrun with ⟨hnone, _⟩ | ⟨accountId', hsome, hchanges⟩
    · cases hnone
    · obtain rfl := Option.some.inj hsome
      exact hchanges.authorized hgoverned.keyed

/-- Passwords stored in the open, and tokens that are their own digests. -/
def plainLib : AuthLib where
  isWhitespace := Char.isWhitespace
  hashPassword _ password := password
  verifyPassword password passwordHash := some (decide (password = passwordHash))
  tokenDigest := id

/-- The bootstrap of an empty store. -/
def firstCall : Call := .bootstrap false "root" "secret" "" "acct_root"

def root : Principal := ⟨"acct_root", "root", .admin, .admin⟩

/-- The first administrator makes another, who disables the first; the first may do nothing
more, and the last one cannot disable itself. -/
def handover : List Call :=
  [firstCall, .createAccount root "alice" "first" .admin "" "acct_alice",
    .updateAccount ⟨"acct_alice", "alice", .admin, .admin⟩ "acct_root" { status := some .disabled },
    .updateAccount root "acct_alice" { status := some .disabled },
    .updateAccount ⟨"acct_alice", "alice", .admin, .admin⟩ "acct_alice"
      { status := some .disabled }]

def handedOver : System :=
  handover.foldl (fun system call => system.step plainLib (.administer call none 0)) .empty

theorem run_of_calls (calls : List Call) (run : System.Run lib timely system) :
    System.Run lib timely
      (calls.foldl (fun system call => system.step lib (.administer call none 0)) system) := by
  induction calls generalizing system with
  | nil => exact run
  | cons call calls ih => exact ih (run.step (.administer call none 0) fun _ => trivial)

theorem authority_of_run_handover :
    Authority plainLib handedOver ∧ handedOver.commits = ["acct_root"] ∧
      handedOver.identity.accounts.map (fun account => (account.accountId, account.status)) =
        [("acct_root", .disabled), ("acct_alice", .active)] := by
  refine ⟨authority_of_run (run_of_calls handover (.empty : System.Run plainLib True .empty)), ?_, ?_⟩
  · decide +kernel
  · decide +kernel

/-- Every change that a call commits is one of an active administrator. -/
def MadeByAdmin (lib : AuthLib) (system : System) : Prop :=
  ∀ (call : Call) (answers : Option Nat) (now : Nat) (accountId : String) (identity : Identity),
    call.run lib answers now system.identity = (.ok (some accountId), identity) →
      ∃ accountId, IsAdmin system.identity accountId

/-- The first account is made while there is nobody to make it. -/
theorem not_madeByAdmin_bootstrap :
    System.Run plainLib True .empty ∧ ¬ MadeByAdmin plainLib .empty := by
  refine ⟨.empty, fun hmade => ?_⟩
  have hrun : (firstCall.run plainLib none 0 System.empty.identity).1 =
      .ok (some "acct_root") := by decide +kernel
  obtain ⟨_, account, hmem, _⟩ := hmade firstCall none 0 "acct_root" _ (Prod.ext hrun rfl)
  cases hmem

end Neoseq.Auth
