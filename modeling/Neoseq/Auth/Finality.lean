import Neoseq.Auth.Authority

/-! What a token is worth after a revocation. A revoking commit ends the sessions that are
there, so a token that still verifies stands for a check made since, provided that no login
inserts its session late. -/

namespace Neoseq.Auth

variable {lib : AuthLib} {answers : Option Nat} {now : Nat} {identity identity' : Identity}
  {commits revoked : List String} {system : System}

/-- The account is there and may not be used. -/
def Identity.Disabled (identity : Identity) (accountId : String) : Prop :=
  ∃ account, identity.account accountId = some account ∧ account.status ≠ .active

/-- What a login has found right about the row it read. -/
structure Login.Right (lib : AuthLib) (login : Login) : Prop where
  password : lib.verifyPassword login.password login.row.passwordHash = some true
  active : login.row.status = .active
  role : login.purpose = .admin → login.row.serverRole = .admin

/-! ## What a step keeps of the sessions -/

/-- A session before and after a step that revokes those of some accounts. -/
structure Keep (revoked : List String) (old new : AccountSession) : Prop where
  digest : new.sessionIdHash = old.sessionIdHash
  account : new.accountId = old.accountId
  purpose : new.purpose = old.purpose
  live : new.revokedAt = none → old.revokedAt = none ∧ old.accountId ∉ revoked

theorem Keep.refl (session : AccountSession) : Keep [] session session :=
  ⟨rfl, rfl, rfl, fun hlive => ⟨hlive, List.not_mem_nil⟩⟩

structure Keeps (identity identity' : Identity) (revoked : List String) : Prop where
  sessions : ∃ g : AccountSession → AccountSession,
    identity'.sessions = identity.sessions.map g ∧ ∀ session, Keep revoked session (g session)
  disabled : ∀ accountId, accountId ∉ revoked → identity.Disabled accountId →
    identity'.Disabled accountId

theorem Keeps.same (hsessions : identity'.sessions = identity.sessions)
    (hdisabled : ∀ accountId, identity.Disabled accountId → identity'.Disabled accountId) :
    Keeps identity identity' [] where
  sessions := ⟨id, by rw [hsessions, List.map_id], Keep.refl⟩
  disabled accountId _ h := hdisabled accountId h

theorem Keeps.refl (identity : Identity) : Keeps identity identity [] := .same rfl fun _ h => h

theorem account_updateAccount (accountId wanted : String) {f : Account → Account}
    (hf : ∀ account, (f account).accountId = account.accountId) :
    (identity.updateAccount accountId f).account wanted = (identity.account wanted).map
      fun account => if account.accountId = accountId then f account else account := by
  unfold Identity.account Identity.updateAccount
  rw [List.find?_map]
  congr 2
  funext account
  show decide ((if account.accountId = accountId then f account else account).accountId = wanted) = _
  split
  · rw [hf account]
  · rfl

theorem keeps_updateAccount (accountId : String) {f : Account → Account}
    (hf : ∀ account : Account, (f account).accountId = account.accountId ∧
      (f account).status = account.status) :
    Keeps identity (identity.updateAccount accountId f) [] := by
  refine .same rfl fun wanted ⟨account, hfound, hstatus⟩ => ?_
  refine ⟨_, (account_updateAccount accountId wanted fun account => (hf account).1).trans
    (congrArg _ hfound), ?_⟩
  dsimp only
  split
  · rw [(hf account).2]
    exact hstatus
  · exact hstatus

theorem keeps_revokeWhere (which : AccountSession → Bool)
    (hwhich : ∀ session, session.accountId ∈ revoked → which session = true) :
    ∃ g : AccountSession → AccountSession,
      (identity.revokeWhere now which).sessions = identity.sessions.map g ∧
        ∀ session, Keep revoked session (g session) := by
  refine ⟨_, rfl, fun session => ?_⟩
  split
  · exact ⟨rfl, rfl, rfl, nofun⟩
  · next hnot =>
    exact ⟨rfl, rfl, rfl, fun hlive => ⟨hlive, fun hmem => hnot ⟨hwhich session hmem, hlive⟩⟩⟩

theorem Inserts.keeps {row : Account} (h : Inserts identity identity' row) :
    Keeps identity identity' [] := by
  refine .same h.sessions fun accountId ⟨account, hfound, hstatus⟩ => ⟨account, ?_, hstatus⟩
  unfold Identity.account at hfound ⊢
  rw [h.accounts, List.find?_append, hfound]
  rfl

theorem Revokes.keeps_sessions {accountId : String} {f : Account → Account}
    (h : Revokes identity identity' accountId f) : Keeps identity identity' [accountId] := by
  obtain ⟨now, hsessions⟩ := h.sessions
  constructor
  · rw [hsessions]
    refine keeps_revokeWhere _ fun session hmem => ?_
    exact decide_eq_true (List.mem_singleton.mp hmem)
  · intro wanted hne ⟨account, hfound, hstatus⟩
    refine ⟨account, ?_, hstatus⟩
    unfold Identity.account
    rw [h.accounts]
    refine (account_updateAccount accountId wanted h.keeps).trans ?_
    have hother : account.accountId ≠ accountId := by
      intro heq
      rw [(account_eq_some hfound).2] at heq
      exact hne (List.mem_singleton.mpr heq)
    rw [hfound, Option.map_some, if_neg hother]

theorem Changes.keeps {call : Call} {accountId : String}
    (h : Changes identity identity' call accountId) :
    Keeps identity identity' (if call.revokes then [accountId] else []) := by
  cases h with
  | bootstrapped actor revokes uninitialized admin inserts =>
    rw [revokes]
    exact inserts.keeps
  | created by_ revokes admin inserts =>
    rw [revokes]
    exact inserts.keeps
  | changed by_ calls admin revokes rules =>
    rw [calls]
    exact revokes.keeps_sessions

/-! ## The logins behind the sessions -/

/-- A session and the login that made it. -/
structure Stands (lib : AuthLib) (commits : List String) (identity : Identity)
    (origin : String × Login) (session : AccountSession) : Prop where
  digest : origin.1 = session.sessionIdHash
  account : origin.2.row.accountId = session.accountId
  purpose : origin.2.purpose = session.purpose
  right : origin.2.Right lib
  seen : origin.2.seen ≤ commits.length
  fresh : session.revokedAt = none → session.accountId ∉ commits.drop origin.2.seen ∨
    identity.Disabled session.accountId

/-- The digests of the sessions are those under which the logins put them. -/
theorem digests_eq {origins : List (String × Login)} {sessions : List AccountSession}
    (h : List.Forall₂ (Stands lib commits identity) origins sessions) :
    origins.map Prod.fst = sessions.map AccountSession.sessionIdHash := by
  induction h with
  | nil => rfl
  | cons hstands _ ih => rw [List.map_cons, List.map_cons, ih, hstands.digest]

theorem exists_origin {origins : List (String × Login)} {sessions : List AccountSession}
    (h : List.Forall₂ (Stands lib commits identity) origins sessions) {session : AccountSession}
    (hsession : session ∈ sessions) :
    ∃ origin ∈ origins, Stands lib commits identity origin session := by
  induction h with
  | nil => cases hsession
  | cons hstands _ ih =>
    rcases List.mem_cons.mp hsession with rfl | hrest
    · exact ⟨_, List.mem_cons_self, hstands⟩
    · obtain ⟨origin, horigin, hrest⟩ := ih hrest
      exact ⟨origin, List.mem_cons_of_mem _ horigin, hrest⟩

theorem Stands.keep {origin : String × Login} {old new : AccountSession}
    (h : Stands lib commits identity origin old) (hkeep : Keep revoked old new)
    (hdisabled : ∀ accountId, accountId ∉ revoked → identity.Disabled accountId →
      identity'.Disabled accountId) :
    Stands lib (commits ++ revoked) identity' origin new := by
  refine ⟨h.digest.trans hkeep.digest.symm, h.account.trans hkeep.account.symm,
    h.purpose.trans hkeep.purpose.symm, h.right, ?_, fun hlive => ?_⟩
  · rw [List.length_append]
    exact Nat.le_trans h.seen (Nat.le_add_right _ _)
  · obtain ⟨hold, hspared⟩ := hkeep.live hlive
    rw [hkeep.account, List.drop_append_of_le_length h.seen, List.mem_append]
    rcases h.fresh hold with hfresh | hdis
    · exact .inl (not_or.mpr ⟨hfresh, hspared⟩)
    · exact .inr (hdisabled _ hspared hdis)

/-- What holds of every state of a run whose logins insert their sessions in time. -/
structure Vouched (lib : AuthLib) (system : System) : Prop where
  seen : ∀ login ∈ system.logins, login.seen ≤ system.commits.length
  right : ∀ login ∈ system.logins, login.stage = .accepted ∨ login.stage = .cleared →
    login.Right lib
  distinct : (system.origins.map Prod.fst).Nodup
  stands : List.Forall₂ (Stands lib system.commits system.identity) system.origins
    system.identity.sessions

/-- A step that inserts no session. -/
theorem Vouched.keeps {system' : System} (h : Vouched lib system)
    (hkeeps : Keeps system.identity system'.identity revoked)
    (hcommits : system'.commits = system.commits ++ revoked)
    (horigins : system'.origins = system.origins)
    (hlogins : ∀ login ∈ system'.logins, login.seen ≤ system.commits.length ∧
      (login.stage = .accepted ∨ login.stage = .cleared → login.Right lib)) :
    Vouched lib system' where
  seen login hlogin := by
    rw [hcommits, List.length_append]
    exact Nat.le_trans (hlogins login hlogin).1 (Nat.le_add_right _ _)
  right login hlogin := (hlogins login hlogin).2
  distinct := by
    rw [horigins]
    exact h.distinct
  stands := by
    obtain ⟨g, hsessions, hkeep⟩ := hkeeps.sessions
    rw [horigins, hsessions, hcommits, List.forall₂_map_right_iff]
    exact h.stands.imp fun origin session hstands =>
      hstands.keep (hkeep session) hkeeps.disabled

theorem Vouched.logins (h : Vouched lib system) : ∀ login ∈ system.logins,
    login.seen ≤ system.commits.length ∧
      (login.stage = .accepted ∨ login.stage = .cleared → login.Right lib) :=
  fun login hlogin => ⟨h.seen login hlogin, h.right login hlogin⟩

/-- A login goes on to a stage that says no more than the one before. -/
theorem Vouched.logins_put (h : Vouched lib system) {i : Nat} {login : Login}
    (hlogin : system.logins[i]? = some login) (stage : LoginStage)
    (hstage : stage = .accepted ∨ stage = .cleared → login.stage = .accepted) :
    ∀ login' ∈ (system.put i login stage).logins, login'.seen ≤ system.commits.length ∧
      (login'.stage = .accepted ∨ login'.stage = .cleared → login'.Right lib) := by
  intro login' hmem
  have hlogin := List.mem_of_getElem? hlogin
  rcases List.mem_or_eq_of_mem_set hmem with hmem | rfl
  · exact h.logins login' hmem
  · refine ⟨h.seen login hlogin, fun hnext => ?_⟩
    have hright := h.right login hlogin (.inl (hstage hnext))
    exact ⟨hright.password, hright.active, hright.role⟩

theorem Vouched.administer (h : Vouched lib system) (call : Call) (answers : Option Nat)
    (now : Nat) : Vouched lib (system.administer lib call answers now) := by
  unfold System.administer
  split
  · next accountId identity hrun =>
    rcases Call.run_eq_ok hrun with ⟨hnone, _⟩ | ⟨accountId', haccount, hchanges⟩
    · cases hnone
    · obtain rfl := Option.some.inj haccount
      refine h.keeps hchanges.keeps ?_ rfl h.logins
      cases call.revokes
      · exact (List.append_nil _).symm
      · rfl
  · next result identity hnot hrun =>
    have hsame : identity = system.identity := by
      cases result with
      | error error => exact Call.run_eq_error hrun
      | ok changed =>
        rcases Call.run_eq_ok hrun with ⟨_, hsame⟩ | ⟨accountId, rfl, _⟩
        · exact hsame
        · exact absurd rfl (hnot accountId)
    rw [hsame]
    exact h.keeps (.refl _) (List.append_nil _).symm rfl h.logins

theorem Vouched.insertSession (h : Vouched lib system) {i : Nat} {login : Login}
    (hlogin : system.logins[i]? = some login) (hstage : login.stage = .cleared)
    {token : String} (hcalm : system.Timely (.insertSession i token now)) {identity : Identity}
    (hinsert : Auth.insertSession lib now login.row login.purpose login.persistent token
      system.identity = .ok identity) :
    Vouched lib { system.put i login .inserted with
      identity := identity, origins := system.origins ++ [(lib.tokenDigest token, login)] } := by
  have hmem := List.mem_of_getElem? hlogin
  have hput := h.logins_put hlogin .inserted nofun
  have hfresh : ∀ session ∈ system.identity.sessions,
      session.sessionIdHash ≠ lib.tokenDigest token := by
    unfold Auth.insertSession at hinsert
    obtain ⟨_, hrefuse, _⟩ := bind_eq_ok.mp hinsert
    intro session hsession heq
    exact refuse_eq_ok.mp hrefuse ⟨session, hsession, heq⟩
  obtain rfl := insertSession_eq_ok hinsert
  refine ⟨fun login' hlogin' => (hput login' hlogin').1, fun login' hlogin' => (hput login' hlogin').2,
    ?_, ?_⟩
  · rw [List.map_append]
    refine List.Nodup.append h.distinct (List.nodup_singleton _) ?_
    intro digest hold hnew
    obtain rfl := List.mem_singleton.mp hnew
    rw [digests_eq h.stands] at hold
    obtain ⟨session, hsession, hdigest⟩ := List.mem_map.mp hold
    exact hfresh session hsession hdigest
  · refine List.rel_append (h.stands.imp fun _ _ hstands => ?_) (.cons ?_ .nil)
    · exact ⟨hstands.digest, hstands.account, hstands.purpose, hstands.right, hstands.seen,
        hstands.fresh⟩
    · exact ⟨rfl, rfl, rfl, h.right login hmem (.inr hstage), h.seen login hmem,
        fun _ => hcalm login hlogin hstage⟩

theorem Vouched.readLogin (h : Vouched lib system) {username password : String}
    {purpose : SessionPurpose} {persistent : Bool} {login : Login}
    (hread : system.readLogin lib username password purpose persistent now = .ok login) :
    Vouched lib { system with logins := system.logins ++ [login] } := by
  refine h.keeps (.refl _) (List.append_nil _).symm rfl fun login' hlogin' => ?_
  rcases List.mem_append.mp hlogin' with hold | hnew
  · exact h.logins login' hold
  · obtain rfl := List.mem_singleton.mp hnew
    obtain ⟨_, hactive, _, _, hseen, hstage⟩ := readLogin_eq_ok hread
    refine ⟨Nat.le_of_eq hseen, fun hnext => ?_⟩
    rcases hstage with hrejected | ⟨_, hpassword, hrole⟩
    · rw [hrejected] at hnext
      rcases hnext with hnext | hnext
      · cases hnext
      · cases hnext
    · exact ⟨hpassword, hactive, hrole⟩

theorem Vouched.changePassword (h : Vouched lib system) (principal : Principal)
    (passwordHash currentPassword newPassword salt : String) (answers : Option Nat) (now : Nat) :
    Vouched lib (system.step lib
      (.changePassword principal passwordHash currentPassword newPassword salt answers now)) := by
  unfold System.step
  dsimp only
  split
  · next identity hchange =>
    obtain ⟨f, _, hrevokes⟩ := changePassword_eq_ok hchange
    exact h.keeps hrevokes.keeps_sessions rfl rfl h.logins
  · next error identity hchange =>
    rw [changePassword_eq_error hchange]
    exact h.keeps (.refl _) (List.append_nil _).symm rfl h.logins

theorem Vouched.step (h : Vouched lib system) (action : Action) (hcalm : system.Timely action) :
    Vouched lib (system.step lib action) := by
  cases action with
  | administer call answers now => exact h.administer call answers now
  | changePassword principal passwordHash currentPassword newPassword salt answers now =>
    exact h.changePassword principal passwordHash currentPassword newPassword salt answers now
  | readLogin username password purpose persistent now =>
    unfold System.step
    dsimp only
    split
    · next login hread => exact h.readLogin hread
    · exact h
  | countFailure i now =>
    unfold System.step
    dsimp only
    split
    · next login hlogin =>
      split
      · exact h.keeps (keeps_updateAccount _ fun _ => ⟨rfl, rfl⟩) (List.append_nil _).symm rfl
          (h.logins_put hlogin .finished nofun)
      · exact h
    · exact h
  | clearFailures i =>
    unfold System.step
    dsimp only
    split
    · next login hlogin =>
      split
      · next hstage =>
        exact h.keeps (keeps_updateAccount _ fun _ => ⟨rfl, rfl⟩) (List.append_nil _).symm rfl
          (h.logins_put hlogin .cleared fun _ => hstage)
      · exact h
    · exact h
  | insertSession i token now =>
    unfold System.step
    dsimp only
    split
    · next login hlogin =>
      split
      · next hstage =>
        split
        · next identity hinsert => exact h.insertSession hlogin hstage hcalm hinsert
        · exact h.keeps (.refl _) (List.append_nil _).symm rfl
            (h.logins_put hlogin .finished nofun)
      · exact h
    · exact h
  | auditLogin i =>
    unfold System.step
    dsimp only
    split
    · next login hlogin =>
      split
      · exact h.keeps (.same rfl fun _ hdisabled => hdisabled) (List.append_nil _).symm rfl
          (h.logins_put hlogin .finished nofun)
      · exact h
    · exact h
  | logout token now =>
    have hnone : ∀ session : AccountSession, session.accountId ∈ ([] : List String) →
        decide (session.sessionIdHash = lib.tokenDigest token) = true :=
      fun _ hmem => absurd hmem List.not_mem_nil
    exact h.keeps ⟨keeps_revokeWhere _ hnone, fun _ _ hdisabled => hdisabled⟩
      (List.append_nil _).symm rfl h.logins

theorem vouched_of_run (run : System.Run lib True system) : Vouched lib system := by
  induction run with
  | empty => exact ⟨nofun, nofun, List.nodup_nil, .nil⟩
  | step run action calm ih => exact ih.step action (calm trivial)

/-! ## Finality -/

/-- What is known of the login that a session of an account was made by. -/
structure Vouches (lib : AuthLib) (system : System) (login : Login) (principal : Principal) :
    Prop where
  account : login.row.accountId = principal.id
  purpose : login.purpose = principal.purpose
  right : login.Right lib
  final : principal.id ∉ system.commits.drop login.seen

/-- Whoever a token verifies as, it stands for a login, which has read the account as the last
commit that revoked its sessions left it, or later. -/
def Final (lib : AuthLib) (system : System) : Prop :=
  ∀ (token : String) (now : Nat) (principal : Principal),
    verify lib now system.identity token = .ok principal →
      (∃ login, (lib.tokenDigest token, login) ∈ system.origins) ∧
        ∀ login, (lib.tokenDigest token, login) ∈ system.origins →
          Vouches lib system login principal

theorem verify_eq_ok {token : String} {principal : Principal}
    (h : verify lib now identity token = .ok principal) : ∃ session ∈ identity.sessions,
      ∃ account, session.sessionIdHash = lib.tokenDigest token ∧ session.revokedAt = none ∧
        identity.account session.accountId = some account ∧ account.status = .active ∧
          session.accountId = principal.id ∧ session.purpose = principal.purpose := by
  unfold verify at h
  obtain ⟨session, hsession, h⟩ := bind_eq_ok.mp h
  obtain ⟨account, haccount, h⟩ := bind_eq_ok.mp h
  obtain ⟨_, hrefuse, h⟩ := bind_eq_ok.mp h
  obtain rfl := pure_eq_ok.mp h
  have hsession := orElse_eq_ok.mp hsession
  have haccount := orElse_eq_ok.mp haccount
  have hdigest := List.find?_some hsession
  obtain ⟨hlive, hrest⟩ := not_or.mp (refuse_eq_ok.mp hrefuse)
  exact ⟨session, List.mem_of_find?_eq_some hsession, account, of_decide_eq_true hdigest,
    not_not.mp hlive, haccount, not_not.mp (not_or.mp hrest).2,
    (account_eq_some haccount).2.symm, rfl⟩

/-- Where logins insert their sessions in time, a revocation is final. -/
theorem final_of_run (run : System.Run lib True system) : Final lib system := by
  have h := vouched_of_run run
  intro token now principal hverify
  obtain ⟨session, hsession, account, hdigest, hlive, haccount, hactive, hid, hpurpose⟩ :=
    verify_eq_ok hverify
  obtain ⟨⟨digest, login⟩, horigin, hstands⟩ := exists_origin h.stands hsession
  obtain rfl : digest = lib.tokenDigest token := hstands.digest.trans hdigest
  refine ⟨⟨login, horigin⟩, fun login' horigin' => ?_⟩
  obtain rfl : login' = login :=
    (Prod.mk.inj (List.inj_on_of_nodup_map h.distinct horigin' horigin rfl)).2
  refine ⟨hstands.account.trans hid, hstands.purpose.trans hpurpose, hstands.right, ?_⟩
  rw [← hid]
  rcases hstands.fresh hlive with hfresh | ⟨account', haccount', hdisabled⟩
  · exact hfresh
  · obtain rfl := Option.some.inj (haccount'.symm.trans haccount)
    exact absurd hactive hdisabled

/-! ## Two runs -/

def alice : Call :=
  .createAccount ⟨"acct_root", "root", .admin, .admin⟩ "alice" "first" .user "" "acct_alice"

/-- A password reset that commits between the check of a password and the session. -/
def lateSession : List Action :=
  [.administer firstCall none 0, .administer alice none 0,
    .readLogin "alice" "first" .client false 1, .clearFailures 0,
    .administer (.resetPassword ⟨"acct_root", "root", .admin, .admin⟩ "acct_alice" "second" "")
      none 2,
    .insertSession 0 "ns_late" 3]

theorem run_of_actions (actions : List Action) (run : System.Run lib False system) :
    System.Run lib False (actions.foldl (System.step lib) system) := by
  induction actions generalizing system with
  | nil => exact run
  | cons action actions ih => exact ih (run.step action nofun)

theorem not_final_lateSession :
    System.Run plainLib False (lateSession.foldl (System.step plainLib) .empty) ∧
      ¬ Final plainLib (lateSession.foldl (System.step plainLib) .empty) := by
  refine ⟨run_of_actions lateSession .empty, fun hfinal => ?_⟩
  have hverify : verify plainLib 4 (lateSession.foldl (System.step plainLib) .empty).identity
      "ns_late" = .ok ⟨"acct_alice", "alice", .user, .client⟩ := by decide +kernel
  obtain ⟨⟨login, horigin⟩, hvouches⟩ := hfinal "ns_late" 4 _ hverify
  have hseen : ∀ origin ∈ (lateSession.foldl (System.step plainLib) .empty).origins,
      "acct_alice" ∈ (lateSession.foldl (System.step plainLib) .empty).commits.drop
        origin.2.seen := by decide +kernel
  exact (hvouches login horigin).final (hseen _ horigin)

/-- A login, a password reset that ends its session, and a login with the new password. -/
def timelySession : List Action :=
  [.administer firstCall none 0, .administer alice none 0,
    .readLogin "alice" "first" .client false 1, .clearFailures 0, .insertSession 0 "ns_old" 2,
    .administer (.resetPassword ⟨"acct_root", "root", .admin, .admin⟩ "acct_alice" "second" "")
      none 3,
    .readLogin "alice" "second" .client false 4, .clearFailures 1, .insertSession 1 "ns_new" 5]

theorem timely_insertSession {i : Nat} {token : String} {now : Nat}
    (h : ∀ login ∈ system.logins[i]?, login.row.accountId ∉ system.commits.drop login.seen) :
    system.Timely (.insertSession i token now) := by
  intro login hlogin _
  exact .inl (h login hlogin)

theorem final_of_run_timely :
    Final plainLib (timelySession.foldl (System.step plainLib) .empty) ∧
      (timelySession.foldl (System.step plainLib) .empty).commits = ["acct_alice"] ∧
      verify plainLib 6 (timelySession.foldl (System.step plainLib) .empty).identity "ns_old" =
        .error .invalid ∧
      verify plainLib 6 (timelySession.foldl (System.step plainLib) .empty).identity "ns_new" =
        .ok ⟨"acct_alice", "alice", .user, .client⟩ := by
  refine ⟨final_of_run ?_, by decide +kernel, by decide +kernel, by decide +kernel⟩
  have hfirst : System.Run plainLib True
      ((timelySession.take 4).foldl (System.step plainLib) .empty) :=
    (((System.Run.empty.step (.administer firstCall none 0) fun _ => trivial).step
      (.administer alice none 0) fun _ => trivial).step
      (.readLogin "alice" "first" .client false 1) fun _ => trivial).step
      (.clearFailures 0) fun _ => trivial
  have hsecond : System.Run plainLib True
      ((timelySession.take 8).foldl (System.step plainLib) .empty) :=
    ((((hfirst.step (.insertSession 0 "ns_old" 2) fun _ =>
        timely_insertSession (by decide +kernel)).step
      (.administer (.resetPassword ⟨"acct_root", "root", .admin, .admin⟩ "acct_alice" "second" "")
        none 3) fun _ => trivial).step
      (.readLogin "alice" "second" .client false 4) fun _ => trivial).step
      (.clearFailures 1) fun _ => trivial)
  exact hsecond.step (.insertSession 1 "ns_new" 5) fun _ =>
    timely_insertSession (by decide +kernel)

end Neoseq.Auth
