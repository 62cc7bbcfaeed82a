import Neoseq.Collections.Log
import Neoseq.Server.Store

/-! The stored history of one graph over commits and compactions. A graph keeps its
checkpoint and the one before it, and the updates that either of them needs. -/

namespace Neoseq.Server
open Collections

/-- The rows of a graph with the predecessor of its checkpoint. -/
structure GraphRows where
  store : StoredGraph
  predecessor : Option StoredCheckpoint

namespace GraphRows

def checkpoints (rows : GraphRows) : List StoredCheckpoint :=
  rows.store.checkpoint :: rows.predecessor.toList

def retainedBytes (rows : GraphRows) : Nat :=
  (rows.checkpoints.map fun c => c.snapshot.length).sum +
    (rows.store.updates.map fun u => u.bytes.length).sum

/-- `insert_graph`. -/
def create (digests : Digests) (schemaVersion byteQuota : Nat) (snapshot : Bytes)
    (members : String → Option MemberRow) (nextCursor : Nat) : GraphRows where
  store :=
    { schemaVersion := schemaVersion
      historyEpoch := 0
      status := .active
      byteQuota := byteQuota
      usedBytes := snapshot.length
      checkpoint := ⟨0, 0, snapshot, digests.checksum snapshot⟩
      updates := []
      receipts := []
      nextCursor := nextCursor
      members := members }
  predecessor := none

def commitUpdate (digests : Digests) (rows : GraphRows) (account messageId : String)
    (bytes : Bytes) : Except StoreError (CommitOutcome × GraphRows) := do
  let (outcome, store) ← rows.store.commitUpdate digests account messageId bytes
  return (outcome, { rows with store := store })

/-- Of the checkpoints the new one and the one it replaces stay. -/
def compactCheckpoint (digests : Digests) (rows : GraphRows)
    (expectedEpoch includedCursor schemaVersion : Nat) (snapshot : Bytes) :
    Except StoreError GraphRows := do
  let store ← rows.store.compactCheckpoint digests expectedEpoch includedCursor schemaVersion
    snapshot
  return ⟨store, some rows.store.checkpoint⟩

end GraphRows

/-! ## Histories -/

/-- The updates that were inserted, in their order, and the rows that are left. What a
snapshot holds is given: `contents` is the updates that went into its document. -/
inductive History (digests : Digests) (contents : Bytes → List StoredUpdate) :
    List StoredUpdate → GraphRows → Prop
  | create (schemaVersion byteQuota : Nat) (snapshot : Bytes)
    (members : String → Option MemberRow) (nextCursor : Nat) (first : 0 < nextCursor)
    (bounded : snapshot.length ≤ byteQuota) (nothing : contents snapshot = []) :
    History digests contents []
      (.create digests schemaVersion byteQuota snapshot members nextCursor)
  /-- The cursors of all graphs are drawn from one sequence, and members come and go. -/
  | elsewhere {log : List StoredUpdate} {rows : GraphRows}
    (history : History digests contents log rows) (members : String → Option MemberRow)
    (status : GraphStatus) (nextCursor : Nat) (later : rows.store.nextCursor ≤ nextCursor) :
    History digests contents log
      { rows with store := { rows.store with
          members := members, status := status, nextCursor := nextCursor } }
  | commit {log : List StoredUpdate} {rows rows' : GraphRows}
    (history : History digests contents log rows) (account messageId : String) (bytes : Bytes)
    (cursor : Nat)
    (committed : rows.commitUpdate digests account messageId bytes = .ok (.inserted cursor, rows')) :
    History digests contents (log ++ [⟨cursor, messageId, bytes⟩]) rows'
  | duplicate {log : List StoredUpdate} {rows rows' : GraphRows}
    (history : History digests contents log rows) (account messageId : String) (bytes : Bytes)
    (cursor : Nat)
    (committed : rows.commitUpdate digests account messageId bytes = .ok (.duplicate cursor, rows')) :
    History digests contents log rows'
  /-- The snapshot holds the updates up to its cursor, which is one that was drawn. -/
  | compact {log : List StoredUpdate} {rows rows' : GraphRows}
    (history : History digests contents log rows) (epoch cursor schemaVersion : Nat)
    (snapshot : Bytes) (drawn : cursor < rows.store.nextCursor)
    (holds : contents snapshot = log.filter fun u => decide (u.cursor ≤ cursor))
    (compacted : rows.compactCheckpoint digests epoch cursor schemaVersion snapshot = .ok rows') :
    History digests contents log rows'

/-! ## The invariant -/

/-- The cursor after which updates are retained. -/
def GraphRows.floor (rows : GraphRows) : Nat :=
  (rows.predecessor.getD rows.store.checkpoint).includedCursor

/-- A checkpoint of a log: its snapshot holds the updates up to its cursor. -/
structure Covering (digests : Digests) (contents : Bytes → List StoredUpdate)
    (log : List StoredUpdate) (checkpoint : StoredCheckpoint) : Prop where
  checksum : checkpoint.checksum = digests.checksum checkpoint.snapshot
  holds : contents checkpoint.snapshot = Log.upTo StoredUpdate.cursor log checkpoint.includedCursor

/-- The update under which a message was committed last. -/
def Latest (log : List StoredUpdate) (messageId : String) (cursor : Nat) : Prop :=
  (∃ u ∈ log, u.messageId = messageId ∧ u.cursor = cursor) ∧
    ∀ u ∈ log, u.messageId = messageId → u.cursor ≤ cursor

structure Sound (digests : Digests) (contents : Bytes → List StoredUpdate)
    (log : List StoredUpdate) (rows : GraphRows) : Prop where
  ordered : Log.Ordered StoredUpdate.cursor log
  drawn : ∀ u ∈ log, u.cursor < rows.store.nextCursor
  identity : ∀ u ∈ log, digests.contentId u.bytes = u.messageId
  epoch : rows.store.checkpoint.historyEpoch = rows.store.historyEpoch
  checkpoint : Covering digests contents log rows.store.checkpoint
  included : rows.store.checkpoint.includedCursor < rows.store.nextCursor
  predecessor : ∀ c ∈ rows.predecessor, Covering digests contents log c
  floor : rows.floor ≤ rows.store.checkpoint.includedCursor
  updates : rows.store.updates = Log.after StoredUpdate.cursor log rows.floor
  used : rows.store.usedBytes = rows.retainedBytes
  quota : rows.store.usedBytes ≤ rows.store.byteQuota
  receipts : ∀ r ∈ rows.store.receipts, Latest log r.1 r.2
  rows : ∀ u ∈ rows.store.updates, Latest log u.messageId u.cursor

variable {digests : Digests} {contents : Bytes → List StoredUpdate} {log : List StoredUpdate}
  {rows rows' : GraphRows}

theorem sound_create (schemaVersion byteQuota : Nat) (snapshot : Bytes)
    (members : String → Option MemberRow) (nextCursor : Nat) (hfirst : 0 < nextCursor)
    (hbounded : snapshot.length ≤ byteQuota) (hnothing : contents snapshot = []) :
    Sound digests contents []
      (.create digests schemaVersion byteQuota snapshot members nextCursor) where
  ordered := List.Pairwise.nil
  drawn := nofun
  identity := nofun
  epoch := rfl
  checkpoint := ⟨rfl, hnothing⟩
  included := hfirst
  predecessor := nofun
  floor := le_rfl
  updates := rfl
  used := rfl
  quota := hbounded
  receipts := nofun
  rows := nofun

theorem Sound.elsewhere (h : Sound digests contents log rows)
    (members : String → Option MemberRow) (status : GraphStatus) {nextCursor : Nat}
    (hlater : rows.store.nextCursor ≤ nextCursor) :
    Sound digests contents log
      { rows with store := { rows.store with
          members := members, status := status, nextCursor := nextCursor } } :=
  { h with
    drawn := fun u hu => (h.drawn u hu).trans_le hlater
    included := h.included.trans_le hlater }

/-! ## Commits -/

/-- A message is durable under the cursors of its rows and receipts. -/
theorem mem_priorCursors {store : StoredGraph} {messageId : String} {cursor : Nat} :
    cursor ∈ (store.updates.filter fun u => u.messageId = messageId).map StoredUpdate.cursor ++
        (store.receipts.filter fun r => r.1 = messageId).map Prod.snd ↔
      (∃ u ∈ store.updates, u.messageId = messageId ∧ u.cursor = cursor) ∨
        ∃ r ∈ store.receipts, r.1 = messageId ∧ r.2 = cursor := by
  simp [and_assoc]

/-- The row of a message or a receipt for it is retained. -/
def Retained (store : StoredGraph) (messageId : String) : Prop :=
  (∃ u ∈ store.updates, u.messageId = messageId) ∨ ∃ r ∈ store.receipts, r.1 = messageId

theorem priorCursor_eq_none {store : StoredGraph} {messageId : String} :
    store.priorCursor messageId = none ↔ ¬Retained store messageId := by
  unfold StoredGraph.priorCursor Retained
  rw [List.min?_eq_none_iff, List.append_eq_nil_iff, List.map_eq_nil_iff, List.map_eq_nil_iff,
    List.filter_eq_nil_iff, List.filter_eq_nil_iff, not_or]
  simp only [decide_eq_true_eq, not_exists, not_and]

/-- What the lookup finds is the cursor of the last commit of the message. -/
theorem Sound.priorCursor (h : Sound digests contents log rows) {messageId : String} {cursor : Nat}
    (hp : rows.store.priorCursor messageId = some cursor) : Latest log messageId cursor := by
  rcases mem_priorCursors.mp (List.min?_mem hp) with ⟨u, hu, rfl, rfl⟩ | ⟨r, hr, rfl, rfl⟩
  · exact h.rows u hu
  · exact h.receipts r hr

/-- How a commit ends. -/
theorem commitRows_ok {account messageId : String} {bytes : Bytes} {outcome : CommitOutcome}
    (h : rows.commitUpdate digests account messageId bytes = .ok (outcome, rows')) :
    digests.contentId bytes = messageId ∧
      ((∃ cursor, rows.store.priorCursor messageId = some cursor ∧ outcome = .duplicate cursor ∧
          rows' = rows) ∨
        (rows.store.priorCursor messageId = none ∧
          rows.store.usedBytes + bytes.length ≤ rows.store.byteQuota ∧
          outcome = .inserted rows.store.nextCursor ∧
          rows' = { rows with store := rows.store.insertUpdate messageId bytes })) := by
  unfold GraphRows.commitUpdate at h
  obtain ⟨⟨outcome', store⟩, hstore, h⟩ := bind_eq_ok.mp h
  obtain ⟨rfl, rfl⟩ := Prod.mk.inj (pure_eq_ok.mp h)
  unfold StoredGraph.commitUpdate at hstore
  obtain ⟨_, hidentity, hstore⟩ := bind_eq_ok.mp hstore
  obtain ⟨_, _, hstore⟩ := bind_eq_ok.mp hstore
  obtain ⟨_, _, hstore⟩ := bind_eq_ok.mp hstore
  refine ⟨not_not.mp (refuse_eq_ok.mp hidentity), ?_⟩
  cases hp : rows.store.priorCursor messageId with
  | some cursor =>
    rw [hp] at hstore
    obtain ⟨rfl, rfl⟩ := Prod.mk.inj (pure_eq_ok.mp hstore)
    exact .inl ⟨cursor, rfl, rfl, rfl⟩
  | none =>
    rw [hp] at hstore
    obtain ⟨_, hquota, hstore⟩ := bind_eq_ok.mp hstore
    obtain ⟨rfl, rfl⟩ := Prod.mk.inj (pure_eq_ok.mp hstore)
    exact .inr ⟨rfl, not_lt.mp (refuse_eq_ok.mp hquota), rfl, rfl⟩

/-- A message that was not retained is now the latest of its kind; the others are as
they were. -/
theorem Latest.snoc {messageId : String} {cursor : Nat} (h : Latest log messageId cursor)
    {u : StoredUpdate} (hne : u.messageId ≠ messageId) : Latest (log ++ [u]) messageId cursor := by
  obtain ⟨⟨v, hv, hvmessage⟩, hmax⟩ := h
  refine ⟨⟨v, List.mem_append_left _ hv, hvmessage⟩, fun w hw hwmessage => ?_⟩
  rcases List.mem_append.mp hw with hw | hw
  · exact hmax w hw hwmessage
  · rw [List.mem_singleton.mp hw] at hwmessage
    exact absurd hwmessage hne

theorem Sound.insert (h : Sound digests contents log rows) {messageId : String} {bytes : Bytes}
    (hidentity : digests.contentId bytes = messageId) (hnew : ¬Retained rows.store messageId)
    (hquota : rows.store.usedBytes + bytes.length ≤ rows.store.byteQuota) :
    Sound digests contents (log ++ [⟨rows.store.nextCursor, messageId, bytes⟩])
      { rows with store := rows.store.insertUpdate messageId bytes } where
  ordered := by
    refine List.pairwise_append.mpr ⟨h.ordered, List.pairwise_singleton _ _, fun u hu v hv => ?_⟩
    rw [List.mem_singleton.mp hv]
    exact h.drawn u hu
  drawn u hu := by
    rcases List.mem_append.mp hu with hu | hu
    · exact (h.drawn u hu).trans (Nat.lt_succ_self _)
    · rw [List.mem_singleton.mp hu]
      exact Nat.lt_succ_self _
  identity u hu := by
    rcases List.mem_append.mp hu with hu | hu
    · exact h.identity u hu
    · rw [List.mem_singleton.mp hu]
      exact hidentity
  epoch := h.epoch
  checkpoint := by
    refine ⟨h.checkpoint.checksum, h.checkpoint.holds.trans (Eq.symm ?_)⟩
    exact Log.upTo_snoc log h.included
  included := h.included.trans (Nat.lt_succ_self _)
  predecessor c hc := by
    have hle : c.includedCursor ≤ rows.store.checkpoint.includedCursor := by
      have hfloor := h.floor
      unfold GraphRows.floor at hfloor
      rwa [Option.mem_def.mp hc] at hfloor
    refine ⟨(h.predecessor c hc).checksum, (h.predecessor c hc).holds.trans (Eq.symm ?_)⟩
    exact Log.upTo_snoc log (hle.trans_lt h.included)
  floor := h.floor
  updates := by
    have hfloor : rows.floor < rows.store.nextCursor := h.floor.trans_lt h.included
    show rows.store.updates ++ _ = _
    rw [h.updates]
    symm
    exact Log.after_snoc log hfloor
  used := by
    show rows.store.usedBytes + bytes.length = _
    rw [h.used]
    unfold GraphRows.retainedBytes StoredGraph.insertUpdate GraphRows.checkpoints
    simp only [List.map_append, List.map_cons, List.map_nil, List.sum_append, List.sum_cons,
      List.sum_nil]
    omega
  quota := hquota
  receipts r hr := (h.receipts r hr).snoc fun he => hnew (.inr ⟨r, hr, he.symm⟩)
  rows u hu := by
    rcases List.mem_append.mp hu with hu | hu
    · exact (h.rows u hu).snoc fun he => hnew (.inl ⟨u, hu, he.symm⟩)
    · rw [List.mem_singleton.mp hu]
      refine ⟨⟨_, List.mem_append_right _ (List.mem_singleton_self _), rfl, rfl⟩, fun v hv _ => ?_⟩
      rcases List.mem_append.mp hv with hv | hv
      · exact (h.drawn v hv).le
      · rw [List.mem_singleton.mp hv]

/-! ## Compactions -/

theorem compactRows_ok {epoch cursor schemaVersion : Nat} {snapshot : Bytes}
    (h : rows.compactCheckpoint digests epoch cursor schemaVersion snapshot = .ok rows') :
    rows.store.historyEpoch = epoch ∧ rows.store.checkpoint.includedCursor ≤ cursor ∧
      rows'.predecessor = some rows.store.checkpoint ∧
      rows'.store = { rows.store with
        checkpoint := ⟨epoch, cursor, snapshot, digests.checksum snapshot⟩
        receipts := rows.store.receiptsUpTo cursor
        updates := rows.store.tail
        schemaVersion := schemaVersion
        usedBytes := rows'.store.usedBytes } ∧
      rows'.store.usedBytes = snapshot.length + rows.store.checkpoint.snapshot.length +
        (rows.store.tail.map fun u => u.bytes.length).sum ∧
      rows'.store.usedBytes ≤ rows.store.byteQuota := by
  unfold GraphRows.compactCheckpoint at h
  obtain ⟨store, hstore, h⟩ := bind_eq_ok.mp h
  obtain rfl := pure_eq_ok.mp h
  unfold StoredGraph.compactCheckpoint at hstore
  obtain ⟨_, hepoch, hstore⟩ := bind_eq_ok.mp hstore
  obtain ⟨_, hle, hstore⟩ := bind_eq_ok.mp hstore
  obtain ⟨_, hquota, hstore⟩ := bind_eq_ok.mp hstore
  obtain rfl := pure_eq_ok.mp hstore
  exact ⟨not_not.mp (refuse_eq_ok.mp hepoch), not_lt.mp (refuse_eq_ok.mp hle), rfl, rfl, rfl,
    not_lt.mp (refuse_eq_ok.mp hquota)⟩

/-- A receipt that is kept was there, or is that of a row. -/
theorem mem_receiptsUpTo {store : StoredGraph} {cursor : Nat} {r : String × Nat}
    (h : r ∈ store.receiptsUpTo cursor) :
    r ∈ store.receipts ∨ ∃ u ∈ store.updates, r = (u.messageId, u.cursor) := by
  unfold StoredGraph.receiptsUpTo StoredGraph.newestReceipts at h
  rcases List.mem_append.mp (List.mem_filter.mp h).1 with hr | hr
  · exact .inl hr
  · obtain ⟨u, hu, rfl⟩ := List.mem_map.mp hr
    exact .inr ⟨u, (List.mem_filter.mp (List.mem_filter.mp hu).1).1, rfl⟩

theorem Sound.tail (h : Sound digests contents log rows) :
    rows.store.tail = Log.after StoredUpdate.cursor log rows.store.checkpoint.includedCursor := by
  show Log.after StoredUpdate.cursor rows.store.updates _ = _
  rw [h.updates, Log.after_after h.floor]

theorem Sound.compact (h : Sound digests contents log rows) {epoch cursor schemaVersion : Nat}
    {snapshot : Bytes} (hdrawn : cursor < rows.store.nextCursor)
    (hholds : contents snapshot = Log.upTo StoredUpdate.cursor log cursor)
    (hc : rows.compactCheckpoint digests epoch cursor schemaVersion snapshot = .ok rows') :
    Sound digests contents log rows' := by
  obtain ⟨hepoch, hle, hpredecessor, hstore, hused, hquota⟩ := compactRows_ok hc
  have hfloor : rows'.floor = rows.store.checkpoint.includedCursor := by
    unfold GraphRows.floor
    rw [hpredecessor]
    rfl
  have hupdates : rows'.store.updates = rows.store.tail := by rw [hstore]
  have hcheckpoint : rows'.store.checkpoint =
      ⟨epoch, cursor, snapshot, digests.checksum snapshot⟩ := by rw [hstore]
  have hnext : rows'.store.nextCursor = rows.store.nextCursor := by rw [hstore]
  constructor
  · exact h.ordered
  · rw [hnext]
    exact h.drawn
  · exact h.identity
  · rw [hcheckpoint, hstore]
    exact hepoch.symm
  · rw [hcheckpoint]
    exact ⟨rfl, hholds⟩
  · rw [hcheckpoint, hnext]
    exact hdrawn
  · intro c hmem
    rw [hpredecessor] at hmem
    obtain rfl := Option.some.inj hmem
    exact h.checkpoint
  · rw [hfloor, hcheckpoint]
    exact hle
  · rw [hupdates, hfloor]
    exact h.tail
  · rw [hused]
    unfold GraphRows.retainedBytes GraphRows.checkpoints
    rw [hpredecessor, hupdates, hcheckpoint]
    simp
  · rw [show rows'.store.byteQuota = rows.store.byteQuota by rw [hstore]]
    exact hquota
  · intro r hr
    rw [show rows'.store.receipts = rows.store.receiptsUpTo cursor by rw [hstore]] at hr
    rcases mem_receiptsUpTo hr with hr | ⟨u, hu, rfl⟩
    · exact h.receipts r hr
    · exact h.rows u hu
  · intro u hu
    rw [hupdates] at hu
    exact h.rows u (List.mem_filter.mp hu).1

/-- Every history is sound. -/
theorem sound_of_history (h : History digests contents log rows) :
    Sound digests contents log rows := by
  induction h with
  | create schemaVersion byteQuota snapshot members nextCursor first bounded nothing =>
    exact sound_create schemaVersion byteQuota snapshot members nextCursor first bounded nothing
  | elsewhere _ members status nextCursor later ih => exact ih.elsewhere members status later
  | commit _ account messageId bytes cursor committed ih =>
    obtain ⟨hidentity, ⟨_, _, houtcome, _⟩ | ⟨hp, hquota, houtcome, rfl⟩⟩ :=
      commitRows_ok committed
    · cases houtcome
    · obtain rfl := CommitOutcome.inserted.inj houtcome
      exact ih.insert hidentity (priorCursor_eq_none.mp hp) hquota
  | duplicate _ account messageId bytes cursor committed ih =>
    obtain ⟨_, ⟨_, _, _, rfl⟩ | ⟨_, _, houtcome, _⟩⟩ := commitRows_ok committed
    · exact ih
    · cases houtcome
  | compact _ epoch cursor schemaVersion snapshot drawn holds compacted ih =>
    exact ih.compact drawn holds compacted

/-! ## What the rows are good for -/

/-- What a stored history promises: its checkpoint and the loaded tail are the whole log
in order, and so are the predecessor and the retained rows; the accounting is exact and
within the quota; and what is retained is not committed again. -/
structure Durable (digests : Digests) (contents : Bytes → List StoredUpdate)
    (log : List StoredUpdate) (rows : GraphRows) : Prop where
  load : ∃ loaded, rows.store.loadGraph digests = .ok loaded ∧
    contents loaded.checkpoint.snapshot ++ loaded.updates = log ∧
      Log.Ordered StoredUpdate.cursor loaded.updates
  predecessor : ∀ c ∈ rows.predecessor, contents c.snapshot ++ rows.store.updates = log
  used : rows.store.usedBytes = rows.retainedBytes
  quota : rows.store.usedBytes ≤ rows.store.byteQuota
  again : ∀ account messageId bytes outcome rows', Retained rows.store messageId →
    rows.commitUpdate digests account messageId bytes = .ok (outcome, rows') →
      rows' = rows ∧ ∃ cursor, outcome = .duplicate cursor ∧ Latest log messageId cursor

theorem durable_of_history (digests : Digests) (contents : Bytes → List StoredUpdate)
    (log : List StoredUpdate) (rows : GraphRows) (h : History digests contents log rows) :
    Durable digests contents log rows := by
  have hs := sound_of_history h
  constructor
  · have htail := hs.tail
    refine ⟨⟨rows.store.schemaVersion, rows.store.historyEpoch, rows.store.checkpoint,
      rows.store.tail⟩, ?_, ?_, ?_⟩
    · unfold StoredGraph.loadGraph
      refine bind_eq_ok.mpr ⟨(), refuse_eq_ok.mpr (not_not_intro hs.checkpoint.checksum.symm),
        bind_eq_ok.mpr ⟨(), refuse_eq_ok.mpr (not_not_intro hs.epoch),
          bind_eq_ok.mpr ⟨(), refuse_eq_ok.mpr ?_, rfl⟩⟩⟩
      rintro ⟨u, hu, hne⟩
      rw [htail] at hu
      exact hne (hs.identity u (Log.mem_after.mp hu).1)
    · show contents rows.store.checkpoint.snapshot ++ rows.store.tail = log
      rw [htail, hs.checkpoint.holds]
      exact Log.upTo_append_after hs.ordered _
    · show Log.Ordered StoredUpdate.cursor rows.store.tail
      rw [htail]
      exact hs.ordered.sublist List.filter_sublist
  · intro c hc
    have hfloor : rows.floor = c.includedCursor := by
      unfold GraphRows.floor
      rw [Option.mem_def.mp hc]
      rfl
    rw [(hs.predecessor c hc).holds, hs.updates, hfloor]
    exact Log.upTo_append_after hs.ordered _
  · exact hs.used
  · exact hs.quota
  · intro account messageId bytes outcome rows' hretained hcommit
    obtain ⟨_, ⟨cursor, hp, rfl, rfl⟩ | ⟨hp, _⟩⟩ := commitRows_ok hcommit
    · exact ⟨rfl, cursor, rfl, hs.priorCursor hp⟩
    · exact absurd hretained (priorCursor_eq_none.mp hp)

/-- Two updates of one byte each; the snapshot holds the first. -/
def loggedUpdates : List StoredUpdate := [⟨1, "one", [1]⟩, ⟨2, "two", [2]⟩]

def loggedDigests : Digests where
  contentId bytes := if bytes = [1] then "one" else "two"
  checksum bytes := if bytes = [] then "empty" else "full"

def loggedContents (snapshot : Bytes) : List StoredUpdate :=
  if snapshot = [9] then loggedUpdates.take 1 else []

def loggedRows : GraphRows where
  store :=
    { schemaVersion := 4
      historyEpoch := 0
      status := .active
      byteQuota := 8
      usedBytes := 3
      checkpoint := ⟨0, 1, [9], "full"⟩
      updates := loggedUpdates
      receipts := [("one", 1)]
      nextCursor := 3
      members := fun _ => some ⟨.owner, 1⟩ }
  predecessor := some ⟨0, 0, [], "empty"⟩

theorem durable_sample : Durable loggedDigests loggedContents loggedUpdates loggedRows :=
  durable_of_history loggedDigests loggedContents loggedUpdates loggedRows
    (.compact
      (.commit
        (.commit
          (.create 4 8 [] (fun _ => some ⟨.owner, 1⟩) 1 (by decide) (by decide) rfl)
          "ann" "one" [1] 1 rfl)
        "ann" "two" [2] 2 rfl)
      0 1 4 [9] (by decide) rfl rfl)

end Neoseq.Server
