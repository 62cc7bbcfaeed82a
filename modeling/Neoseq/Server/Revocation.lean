import Neoseq.Server.Membership

/-! What a revocation is worth to updates that are on their way. A membership is checked as the
snapshot of the locking statement has it, so an update waits for its row with a role that may
be gone by then. -/

namespace Neoseq.Server

variable {digests : Digests} {history more : List Change} {tables : Option GraphTables}
  {account : String} {request : Request} {database : Database} {prompt : Prop}

/-- Whether a change leaves an account without the right to write. -/
def Change.bars (account : String) (barred : Bool) : Change → Bool
  | .granted grantee role => if grantee = account then !role.canWrite else barred
  | .revoked former => if former = account then true else barred
  | .deleted => true

/-- The right to write has been taken away and not given back. -/
def barred (history : List Change) (account : String) : Bool :=
  history.foldl (Change.bars account) false

theorem barred_snoc (change : Change) :
    barred (history ++ [change]) account = Change.bars account (barred history account) change := by
  unfold barred
  rw [List.foldl_append]
  rfl

theorem barred_append (h : barred history account = false) :
    barred (history ++ more) account = barred more account := by
  unfold barred at h ⊢
  rw [List.foldl_append, h]

/-- Every update was inserted under a lock that was granted while its account had the right. -/
def Effective (database : Database) : Prop :=
  ∀ insertion ∈ database.inserted,
    barred (database.history.take insertion.grantedAfter) insertion.account = false

/-- An update whose snapshot shows a writer gets the row before a commit takes the right away. -/
def Prompt (database : Database) : Statement → Prop
  | .acquire i => ∀ transaction account messageId bytes snapshot role,
    database.transactions[i]? = some transaction →
      transaction.request = .commitUpdate account messageId bytes →
      transaction.progress = .started snapshot → activeMembershipRole snapshot account = some role →
      role.canWrite = true → database.tables.isSome = true →
      barred (database.history.drop transaction.snapshotAfter) account = false
  | _ => True

/-- The runs from the rows of a graph. -/
inductive Database.Run (digests : Digests) (prompt : Prop) (tables : GraphTables) : Database → Prop
  | open_ : Run digests prompt tables (.open_ tables)
  | step {database : Database} (run : Run digests prompt tables database) (statement : Statement)
    (calm : prompt → Prompt database statement) :
    Run digests prompt tables (database.step digests statement)

/-! ## Rows and history -/

/-- Whoever may write by the rows is not barred. -/
def Standing (history : List Change) (tables : Option GraphTables) : Prop :=
  ∀ account role, activeMembershipRole tables account = some role → role.canWrite = true →
    barred history account = false

/-- Writes that leave the roles. -/
def Neutral (writes : List Write) : Prop := ∀ tables account,
  activeMembershipRole (applyWrites tables writes) account = activeMembershipRole tables account

theorem applyWrites_append (writes writes' : List Write) :
    applyWrites tables (writes ++ writes') = applyWrites (applyWrites tables writes) writes' :=
  List.foldl_append

theorem neutral_nil : Neutral [] := fun _ _ => rfl

theorem Neutral.append {writes writes' : List Write} (h : Neutral writes) (h' : Neutral writes') :
    Neutral (writes ++ writes') := by
  intro tables account
  rw [applyWrites_append]
  exact (h' _ account).trans (h tables account)

theorem neutral_bump : Neutral [.bumpMembershipVersion] := by
  intro tables account
  cases tables with
  | none => rfl
  | some t => rfl

theorem neutral_insert (messageId : String) (bytes : Bytes) :
    Neutral [.insertUpdate messageId bytes] := by
  intro tables account
  cases tables with
  | none => rfl
  | some t => rfl

theorem neutral_setUsedBytes (usedBytes : Nat) : Neutral [.setUsedBytes usedBytes] := by
  intro tables account
  cases tables with
  | none => rfl
  | some t => rfl

theorem activeMembershipRole_upsert (grantee : String) (row : MemberRow) {role : GraphRole}
    (h : activeMembershipRole (applyWrites tables [.upsertMember grantee row]) account =
      some role) :
    if grantee = account then role = row.role else activeMembershipRole tables account = some role := by
  cases tables with
  | none => cases h
  | some t =>
    change (Function.update t.store.members grantee (some row) account).map MemberRow.role = _ at h
    split
    · next heq =>
      rw [heq, Function.update_self] at h
      exact (Option.some.inj h).symm
    · next hne =>
      rw [Function.update_of_ne (Ne.symm hne)] at h
      exact h

theorem activeMembershipRole_revoke (former : String) {role : GraphRole}
    (h : activeMembershipRole (applyWrites tables [.revokeMember former]) account = some role) :
    former ≠ account ∧ activeMembershipRole tables account = some role := by
  cases tables with
  | none => cases h
  | some t =>
    change (Function.update t.store.members former none account).map MemberRow.role = _ at h
    by_cases heq : former = account
    · rw [heq, Function.update_self] at h
      cases h
    · rw [Function.update_of_ne (Ne.symm heq)] at h
      exact ⟨heq, h⟩

/-- What the writes of a transaction make of the rows, its change makes of the history. -/
def Carries (request : Request) (writes : List Write) : Prop := ∀ history tables,
  Standing history tables →
    Standing (history ++ request.change.toList) (applyWrites tables writes)

theorem carries_of_neutral {writes : List Write} (hchange : request.change = none)
    (h : Neutral writes) : Carries request writes := by
  intro history tables hstanding account role hrole hwrite
  rw [hchange]
  rw [h] at hrole
  rw [Option.toList_none, List.append_nil]
  exact hstanding account role hrole hwrite

theorem carries_upsert {writes : List Write} (actor grantee : String) (role : GraphRole)
    (version : Nat) (h : Neutral writes) :
    Carries (.grantMembership actor grantee role) (writes ++ [.upsertMember grantee ⟨role, version⟩]) := by
  intro history tables hstanding account role' hrole hwrite
  rw [applyWrites_append] at hrole
  have hrole := activeMembershipRole_upsert grantee _ hrole
  refine (barred_snoc _).trans ?_
  dsimp only [Change.bars]
  split at hrole
  · next heq =>
    obtain rfl : role' = role := hrole
    rw [if_pos heq, hwrite]
    rfl
  · next hne =>
    rw [if_neg hne]
    rw [h] at hrole
    exact hstanding account role' hrole hwrite

theorem carries_revoke {writes : List Write} (actor former : String) (h : Neutral writes) :
    Carries (.revokeMembership actor former) (writes ++ [.revokeMember former]) := by
  intro history tables hstanding account role hrole hwrite
  rw [applyWrites_append] at hrole
  obtain ⟨hne, hrole⟩ := activeMembershipRole_revoke former hrole
  refine (barred_snoc _).trans ?_
  dsimp only [Change.bars]
  rw [if_neg hne]
  rw [h] at hrole
  exact hstanding account role hrole hwrite

theorem carries_delete {writes : List Write} (actor : String) :
    Carries (.deleteGraph actor) (writes ++ [.deleteGraph]) := by
  intro history tables _ account role hrole _
  rw [applyWrites_append] at hrole
  cases hrole

/-! ## Transactions under way -/

/-- The account of an update had the right when the row was granted. -/
def Granted (history : List Change) (transaction : Transaction) : Prop :=
  transaction.grantedAfter ≤ history.length ∧
    ∀ account messageId bytes, transaction.request = .commitUpdate account messageId bytes →
      barred (history.take transaction.grantedAfter) account = false

def Legitimate (history : List Change) (transaction : Transaction) : Prop :=
  match transaction.progress with
  | .begun | .locked | .authorized | .checked | .bumped _ => Neutral transaction.writes
  | .started snapshot => Neutral transaction.writes ∧
    transaction.snapshotAfter ≤ history.length ∧
      Standing (history.take transaction.snapshotAfter) snapshot
  | .admitted row => Neutral transaction.writes ∧
    (row.role.canWrite = true → Granted history transaction)
  | .unseen _ | .numbered _ _ => Neutral transaction.writes ∧ Granted history transaction
  | .written answer => Carries transaction.request transaction.writes ∧
    ∀ cursor, answer = .commit (.inserted cursor) → Granted history transaction
  | .ended _ => True

theorem Granted.append {transaction : Transaction} (h : Granted history transaction) :
    Granted (history ++ more) transaction := by
  refine ⟨?_, fun account messageId bytes hrequest => ?_⟩
  · rw [List.length_append]
    exact Nat.le_trans h.1 (Nat.le_add_right _ _)
  · rw [List.take_append_of_le_length h.1]
    exact h.2 account messageId bytes hrequest

theorem Legitimate.append {transaction : Transaction} (h : Legitimate history transaction) :
    Legitimate (history ++ more) transaction := by
  unfold Legitimate at h ⊢
  cases hprogress : transaction.progress with
  | begun | locked | authorized | checked | bumped version | ended result =>
    rw [hprogress] at h
    exact h
  | started snapshot =>
    rw [hprogress] at h
    obtain ⟨hneutral, hafter, hstanding⟩ := h
    refine ⟨hneutral, ?_, ?_⟩
    · rw [List.length_append]
      exact Nat.le_trans hafter (Nat.le_add_right _ _)
    · rw [List.take_append_of_le_length hafter]
      exact hstanding
  | admitted row =>
    rw [hprogress] at h
    exact ⟨h.1, fun hwrite => (h.2 hwrite).append⟩
  | unseen nextUsed | numbered cursor nextUsed =>
    rw [hprogress] at h
    exact ⟨h.1, h.2.append⟩
  | written answer =>
    rw [hprogress] at h
    exact ⟨h.1, fun cursor hanswer => (h.2 cursor hanswer).append⟩

theorem Legitimate.of_ended {transaction : Transaction} {result : Except StoreError Answer}
    (h : transaction.progress = .ended result) : Legitimate history transaction := by
  unfold Legitimate
  rw [h]
  trivial

theorem Legitimate.next {transaction : Transaction} (h : Legitimate history transaction)
    {view : Option GraphTables} {progress : Progress} {writes : List Write}
    (hnext : transaction.progress.next transaction.request view = .ok (progress, writes)) :
    Legitimate history { transaction with
      progress := progress, writes := transaction.writes ++ writes } := by
  obtain ⟨request, current, earlier, snapshotAfter, grantedAfter⟩ := transaction
  cases current with
  | begun | started snapshot | written answer | ended result => cases hnext
  | locked =>
    obtain ⟨_, _, hnext⟩ := bind_eq_ok.mp hnext
    obtain ⟨rfl, rfl⟩ := Prod.mk.inj (pure_eq_ok.mp hnext)
    exact Neutral.append h neutral_nil
  | checked =>
    obtain ⟨_, _, hnext⟩ := bind_eq_ok.mp hnext
    obtain ⟨rfl, rfl⟩ := Prod.mk.inj (pure_eq_ok.mp hnext)
    exact Neutral.append h neutral_bump
  | admitted row =>
    cases request with
    | commitUpdate account messageId bytes =>
      obtain ⟨_, hrefuse, hnext⟩ := bind_eq_ok.mp hnext
      have hwrite : row.role.canWrite = true :=
        Bool.of_not_eq_false fun hreader => refuse_eq_ok.mp hrefuse (.inl hreader)
      split at hnext
      · obtain ⟨rfl, rfl⟩ := Prod.mk.inj (pure_eq_ok.mp hnext)
        exact ⟨carries_of_neutral rfl (h.1.append neutral_nil), nofun⟩
      · obtain ⟨_, _, hnext⟩ := bind_eq_ok.mp hnext
        obtain ⟨_, _, hnext⟩ := bind_eq_ok.mp hnext
        obtain ⟨rfl, rfl⟩ := Prod.mk.inj (pure_eq_ok.mp hnext)
        exact ⟨h.1.append neutral_nil, h.2 hwrite⟩
    | grantMembership | revokeMembership | deleteGraph => cases hnext
  | unseen nextUsed =>
    cases request with
    | commitUpdate account messageId bytes =>
      cases view with
      | none => cases hnext
      | some t =>
        obtain ⟨rfl, rfl⟩ := Prod.mk.inj (Except.ok.inj hnext)
        exact ⟨h.1.append (neutral_insert _ _), h.2⟩
    | grantMembership | revokeMembership | deleteGraph => cases hnext
  | numbered cursor nextUsed =>
    cases request with
    | commitUpdate account messageId bytes =>
      obtain ⟨rfl, rfl⟩ := Prod.mk.inj (Except.ok.inj hnext)
      exact ⟨carries_of_neutral rfl (h.1.append (neutral_setUsedBytes _)), fun _ _ => h.2⟩
    | grantMembership | revokeMembership | deleteGraph => cases hnext
  | authorized =>
    cases request with
    | commitUpdate => cases hnext
    | grantMembership actor account role =>
      obtain ⟨_, _, hnext⟩ := bind_eq_ok.mp hnext
      obtain ⟨rfl, rfl⟩ := Prod.mk.inj (pure_eq_ok.mp hnext)
      exact Neutral.append h neutral_nil
    | revokeMembership actor account =>
      obtain ⟨_, _, hnext⟩ := bind_eq_ok.mp hnext
      obtain ⟨_, _, hnext⟩ := bind_eq_ok.mp hnext
      obtain ⟨rfl, rfl⟩ := Prod.mk.inj (pure_eq_ok.mp hnext)
      exact Neutral.append h neutral_nil
    | deleteGraph actor =>
      obtain ⟨rfl, rfl⟩ := Prod.mk.inj (Except.ok.inj hnext)
      exact ⟨carries_delete actor, nofun⟩
  | bumped version =>
    cases request with
    | grantMembership actor account role =>
      obtain ⟨rfl, rfl⟩ := Prod.mk.inj (Except.ok.inj hnext)
      exact ⟨carries_upsert actor account role version h, nofun⟩
    | revokeMembership actor account =>
      obtain ⟨_, _, hnext⟩ := bind_eq_ok.mp hnext
      obtain ⟨rfl, rfl⟩ := Prod.mk.inj (pure_eq_ok.mp hnext)
      exact ⟨carries_revoke actor account h, nofun⟩
    | commitUpdate | deleteGraph => cases hnext

/-- The locking statement answers with the role of its snapshot, which still stands. -/
theorem Legitimate.acquired {transaction : Transaction} {snapshot : Option GraphTables}
    (h : Legitimate history transaction) (hprogress : transaction.progress = .started snapshot)
    (hprompt : ∀ account messageId bytes role,
      transaction.request = .commitUpdate account messageId bytes →
        activeMembershipRole snapshot account = some role → role.canWrite = true →
          barred (history.drop transaction.snapshotAfter) account = false)
    {now : GraphTables} {progress : Progress}
    (hacquired : transaction.request.acquired snapshot now = .ok progress) :
    Legitimate history { transaction with
      progress := progress, grantedAfter := history.length } := by
  obtain ⟨request, current, writes, snapshotAfter, grantedAfter⟩ := transaction
  obtain rfl : current = .started snapshot := hprogress
  obtain ⟨hneutral, hafter, hstanding⟩ := h
  cases request with
  | grantMembership | revokeMembership | deleteGraph =>
    obtain rfl := pure_eq_ok.mp hacquired
    exact hneutral
  | commitUpdate account messageId bytes =>
    obtain ⟨role, hrole, hacquired⟩ := bind_eq_ok.mp hacquired
    obtain rfl := pure_eq_ok.mp hacquired
    have hrole := orElse_eq_ok.mp hrole
    refine ⟨hneutral, fun hwrite => ⟨Nat.le_refl _, ?_⟩⟩
    intro account' messageId' bytes' hrequest
    obtain ⟨rfl, rfl, rfl⟩ := Request.commitUpdate.inj hrequest
    dsimp only
    rw [List.take_length, ← List.take_append_drop snapshotAfter history,
      barred_append (hstanding account role hrole hwrite)]
    exact hprompt account messageId bytes role rfl hrole hwrite

/-! ## Runs -/

/-- What holds of every state of a run whose updates get their rows promptly. -/
structure Upheld (database : Database) : Prop where
  standing : Standing database.history database.tables
  sound : ∀ transaction ∈ database.transactions, Legitimate database.history transaction
  granted : ∀ insertion ∈ database.inserted,
    insertion.grantedAfter ≤ database.history.length ∧
      barred (database.history.take insertion.grantedAfter) insertion.account = false

theorem Upheld.put (h : Upheld database) (i : Nat) {transaction : Transaction}
    (hsound : Legitimate database.history transaction) (holder : Option Nat) :
    Upheld { database.put i transaction with holder := holder } := by
  refine ⟨h.standing, fun transaction' hmem => ?_, h.granted⟩
  rcases List.mem_or_eq_of_mem_set hmem with hmem | rfl
  · exact h.sound transaction' hmem
  · exact hsound

theorem Upheld.release (h : Upheld database) (i : Nat) (transaction : Transaction)
    (result : Except StoreError Answer) : Upheld (database.release i transaction result) :=
  h.put i (.of_ended rfl) _

theorem Upheld.begin_ (h : Upheld database) {transaction : Transaction}
    (hsound : Legitimate database.history transaction) :
    Upheld { database with transactions := database.transactions ++ [transaction] } := by
  refine ⟨h.standing, fun transaction' hmem => ?_, h.granted⟩
  rcases List.mem_append.mp hmem with hmem | hmem
  · exact h.sound transaction' hmem
  · obtain rfl := List.mem_singleton.mp hmem
    exact hsound

theorem Upheld.commit (h : Upheld database) (i : Nat) {transaction : Transaction} {answer : Answer}
    (hsound : Legitimate database.history transaction)
    (hprogress : transaction.progress = .written answer) :
    Upheld (database.commit i transaction answer) := by
  obtain ⟨request, current, writes, snapshotAfter, grantedAfter⟩ := transaction
  obtain rfl : current = .written answer := hprogress
  refine ⟨hsound.1 _ _ h.standing, fun transaction' hmem => ?_, fun insertion hmem => ?_⟩
  · rcases List.mem_or_eq_of_mem_set hmem with hmem | rfl
    · exact (h.sound transaction' hmem).append
    · exact .of_ended rfl
  · rcases List.mem_append.mp hmem with hmem | hmem
    · obtain ⟨hafter, hfree⟩ := h.granted insertion hmem
      refine ⟨?_, ?_⟩
      · show _ ≤ (database.history ++ _).length
        rw [List.length_append]
        exact Nat.le_trans hafter (Nat.le_add_right _ _)
      · show barred ((database.history ++ _).take _) _ = false
        rw [List.take_append_of_le_length hafter]
        exact hfree
    · -- only an update that was inserted adds one
      cases request with
      | grantMembership | revokeMembership | deleteGraph => cases hmem
      | commitUpdate account messageId bytes =>
        cases answer with
        | version | deleted => cases hmem
        | commit outcome =>
          cases outcome with
          | duplicate cursor => cases hmem
          | inserted cursor =>
            obtain rfl := List.mem_singleton.mp hmem
            have hgranted : Granted (database.history ++ []) _ := (hsound.2 cursor rfl).append
            exact ⟨hgranted.1, hgranted.2 account messageId bytes rfl⟩

theorem Upheld.step (h : Upheld database) (statement : Statement)
    (hprompt : Prompt database statement) : Upheld (database.step digests statement) := by
  cases statement with
  | begin_ request =>
    dsimp only [Database.step]
    split
    · exact h.begin_ (.of_ended rfl)
    · exact h.begin_ neutral_nil
  | start i =>
    dsimp only [Database.step]
    split
    · next transaction hfound =>
      have hsound := h.sound transaction (List.mem_of_getElem? hfound)
      split
      · next hprogress =>
        unfold Database.start
        split
        · refine h.put i ?_ database.holder
          unfold Legitimate at hsound
          rw [hprogress] at hsound
          refine ⟨hsound, Nat.le_refl _, ?_⟩
          rw [List.take_length]
          exact h.standing
        · exact h.release i transaction _
      · exact h
    · exact h
  | acquire i =>
    dsimp only [Database.step]
    split
    · next transaction hfound =>
      have hsound := h.sound transaction (List.mem_of_getElem? hfound)
      split
      · next snapshot hprogress =>
        split
        · unfold Database.acquire
          split
          · exact h.release i transaction _
          · next now htables =>
            split
            · exact h.release i transaction _
            · next progress hacquired =>
              refine h.put i (hsound.acquired hprogress ?_ hacquired) _
              intro account messageId bytes role hrequest hrole hwrite
              exact hprompt transaction account messageId bytes snapshot role hfound hrequest
                hprogress hrole hwrite (by rw [htables]; rfl)
        · exact h
      · exact h
    · exact h
  | next i =>
    dsimp only [Database.step]
    split
    · next transaction hfound =>
      have hsound := h.sound transaction (List.mem_of_getElem? hfound)
      split
      · split
        · exact h
        · unfold Database.next
          split
          · exact h.release i transaction _
          · next progress writes hnext => exact h.put i (hsound.next hnext) database.holder
      · exact h
    · exact h
  | commit i =>
    dsimp only [Database.step]
    split
    · next transaction hfound =>
      split
      · next answer hprogress =>
        exact h.commit i (h.sound transaction (List.mem_of_getElem? hfound)) hprogress
      · exact h
    · exact h
  | fail i =>
    dsimp only [Database.step]
    split
    · next transaction hfound =>
      split
      · exact h
      · exact h.release i transaction _
    · exact h

/-- Where updates get their rows promptly, a revocation is effective at once. -/
theorem effective_of_run {rows : GraphTables} (run : Database.Run digests True rows database) :
    Effective database := by
  have hupheld : Upheld database := by
    induction run with
    | open_ => exact ⟨fun _ _ _ _ => rfl, nofun, nofun⟩
    | step run statement calm ih => exact ih.step statement (calm trivial)
  exact fun insertion hmem => (hupheld.granted insertion hmem).2

/-! ## Two runs -/

def teamRows : GraphTables where
  store := {
    schemaVersion := 1
    historyEpoch := 0
    status := .active
    byteQuota := 100
    usedBytes := 0
    checkpoint := ⟨0, 0, [], ""⟩
    updates := []
    receipts := []
    nextCursor := 1
    members := fun account =>
      if account = "owner" then some ⟨.owner, 1⟩
      else if account = "editor" then some ⟨.editor, 1⟩ else none }
  membershipVersion := 1

def teamDigests : Digests := ⟨fun _ => "message", fun _ => ""⟩

def pushed : Request := .commitUpdate "editor" "message" [1]

/-- The update starts to wait for its row while a revocation of the editor has it. -/
def overtaken : List Statement :=
  [.begin_ pushed, .start 0, .begin_ (.revokeMembership "owner" "editor"), .start 1, .acquire 1,
    .next 1, .next 1, .next 1, .next 1, .commit 1, .acquire 0, .next 0, .next 0, .next 0, .commit 0]

def runStatements (rows : GraphTables) (statements : List Statement) : Database :=
  statements.foldl (Database.step teamDigests) (.open_ rows)

theorem run_of_statements {rows : GraphTables} (statements : List Statement)
    (run : Database.Run digests False rows database) :
    Database.Run digests False rows (statements.foldl (Database.step digests) database) := by
  induction statements generalizing database with
  | nil => exact run
  | cons statement statements ih => exact ih (run.step statement nofun)

theorem not_effective_overtaken :
    Database.Run teamDigests False teamRows (runStatements teamRows overtaken) ∧
      ¬ Effective (runStatements teamRows overtaken) := by
  refine ⟨run_of_statements overtaken .open_, fun heffective => ?_⟩
  have hinserted : (runStatements teamRows overtaken).inserted = [⟨"editor", 1⟩] := by decide +kernel
  have hbarred : barred ((runStatements teamRows overtaken).history.take 1) "editor" = true := by
    decide +kernel
  have hfree := heffective ⟨"editor", 1⟩ (by rw [hinserted]; exact List.mem_cons_self)
  rw [hbarred] at hfree
  cases hfree

/-- An update of the owner begins to wait while the revocation of the editor has the row. -/
def revoking : List Statement :=
  [.begin_ (.commitUpdate "owner" "message" [1]), .start 1, .next 0, .next 0, .next 0, .next 0,
    .commit 0, .begin_ pushed, .start 2]

/-- The editor's update comes once the revocation has committed. -/
def revokedFirst : List Statement :=
  [.begin_ (.revokeMembership "owner" "editor"), .start 0] ++ [.acquire 0] ++ revoking ++
    [.acquire 1] ++ [.next 1, .next 1, .next 1, .commit 1]

theorem run_acquire {rows : GraphTables} {statements : List Statement} {i : Nat}
    (run : Database.Run teamDigests True rows (runStatements rows statements))
    (h : ∀ transaction ∈ (runStatements rows statements).transactions[i]?,
      barred ((runStatements rows statements).history.drop transaction.snapshotAfter)
        transaction.request.actor = false) :
    Database.Run teamDigests True rows (runStatements rows (statements ++ [.acquire i])) := by
  rw [runStatements, List.foldl_append]
  refine run.step (.acquire i) fun _ => ?_
  intro transaction account messageId bytes snapshot role hfound hrequest _ _ _ _
  have hfree := h transaction hfound
  rw [hrequest] at hfree
  exact hfree

theorem run_unhurried {rows : GraphTables} {statements : List Statement} (more : List Statement)
    (run : Database.Run teamDigests True rows (runStatements rows statements))
    (h : ∀ statement ∈ more, ∀ i, statement ≠ .acquire i) :
    Database.Run teamDigests True rows (runStatements rows (statements ++ more)) := by
  induction more generalizing statements with
  | nil =>
    rw [List.append_nil]
    exact run
  | cons statement more ih =>
    rw [List.append_cons]
    refine ih ?_ fun other hother => h other (List.mem_cons_of_mem _ hother)
    rw [runStatements, List.foldl_append]
    refine run.step statement fun _ => ?_
    cases statement with
    | acquire i => exact absurd rfl (h _ (List.mem_cons_self ..) i)
    | begin_ | start | next | commit | fail => trivial

/-- The editor's update is refused, the owner's is inserted. -/
theorem effective_of_run_revokedFirst :
    Effective (runStatements teamRows revokedFirst) ∧
      (runStatements teamRows revokedFirst).history = [.revoked "editor"] ∧
      (runStatements teamRows revokedFirst).inserted = [⟨"owner", 1⟩] := by
  have hopen : Database.Run teamDigests True teamRows (runStatements teamRows []) := .open_
  have hbegun := run_unhurried [.begin_ (.revokeMembership "owner" "editor"), .start 0] hopen
    (by simp)
  have hlocked := run_acquire (i := 0) hbegun (by decide +kernel)
  have hrevoked := run_unhurried revoking hlocked (by simp [revoking])
  have hrun := run_unhurried [.next 1, .next 1, .next 1, .commit 1]
    (run_acquire (i := 1) hrevoked (by decide +kernel)) (by simp)
  exact ⟨effective_of_run hrun, by decide +kernel, by decide +kernel⟩

end Neoseq.Server
