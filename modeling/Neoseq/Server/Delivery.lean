import Neoseq.Server.Isolation

/-! What the sessions of a room are given, over every run of the room. A run
remembers what each session was welcomed with and every update that was committed;
neither is read by a step. -/

namespace Neoseq.Server
open Collections

/-! ## Operations -/

/-- The operations that documents hold, bytes bring and version vectors cover. -/
structure Meaning (G Op : Type) where
  ops : G → Set Op
  content : Bytes → Set Op
  covers : Bytes → Set Op

/-- The document library: an import adds what is imported, an export leaves out
at most what the version vector covers. -/
structure GraphLib.Lawful {G Op : Type} (lib : GraphLib G) (m : Meaning G Op) : Prop where
  fromCheckpoint : ∀ b g, lib.fromCheckpoint b = some g → m.ops g = m.content b
  stage : ∀ g b g', lib.stageRecoveryUpdate g b = some g' → m.ops g' = m.ops g ∪ m.content b
  admitUpdate : ∀ g b g', lib.admitUpdate g b = (true, g') → m.ops g' = m.ops g ∪ m.content b
  exportSince : ∀ g v b, lib.exportUpdatesSince g v = some b → m.ops g ⊆ m.covers v ∪ m.content b
  exportSnapshot : ∀ g b, lib.exportSnapshot g = some b → m.content b = m.ops g

section

variable {G Op : Type} (m : Meaning G Op)

/-- The durable document: the checkpoint and the updates after it. -/
def durable (store : StoredGraph) : Set Op :=
  {op | op ∈ m.content store.checkpoint.snapshot ∨ ∃ u ∈ store.tail, op ∈ m.content u.bytes}

end

/-! ## Runs -/

/-- What a session was opened with, and how many updates were committed before. -/
structure Opening (G : Type) where
  versionVector : Bytes
  payload : WelcomePayload
  graph : G
  since : Nat

/-- A submission that the store took. -/
structure Committed where
  channel : Nat
  outcome : CommitOutcome
  update : Update

structure System (G : Type) where
  site : Site G
  /-- One for each channel, by its number. -/
  openings : List (Opening G)
  commits : List Committed

inductive Action where
  | opening (first second : Except StoreError Membership) (request : OpenRequest)
  | submission (membership : Except StoreError Membership) (faults : Faults)
      (connection : RoomConnection) (update : Update)
  | presence (membership : Except StoreError Membership) (connection : RoomConnection)
      (presence : Presence)
  | recheck (membership : Except StoreError Membership) (connection : RoomConnection)
  | disconnect (connection : RoomConnection)
  /-- The receiver of a session takes its next message. -/
  | receive (sessionId : String)
  /-- The receiver of a session is gone. -/
  | close (sessionId : String)
  /-- Other writers change the rows of the graph that rooms only read. -/
  | administer (members : String → Option MemberRow) (status : GraphStatus) (byteQuota : Nat)

def Outbound.take (o : Outbound) : Outbound :=
  { o with received := min (o.received + 1) o.sent.length }

namespace Site

variable {G : Type}

def mapSession (s : Site G) (sessionId : String) (f : Outbound → Outbound) : Site G :=
  match s.room.session sessionId with
  | none => s
  | some session =>
    { s with room := s.room.putSession sessionId { session with outbound := f session.outbound } }

end Site

section

variable {G : Type} (lib : GraphLib G) (digests : Digests) (config : RoomConfig)

/-- A submission up to its commit. -/
def commitSubmission (membership : Except StoreError Membership) (faults : Faults)
    (connection : RoomConnection) (update : Update) : RoomEdit G CommitOutcome := do
  Edit.read fun s => checkUpdate lib digests config membership connection update s.room
  admitUpdate lib digests config faults update
  commit digests faults connection update

/-- What follows a commit. -/
def announce (faults : Faults) (connection : RoomConnection) (update : Update)
    (outcome : CommitOutcome) : RoomEdit G Unit := do
  Edit.write fun s => { s with room := recordOutcome update outcome s.room }
  acknowledge connection update outcome.cursor
  Edit.write (publish lib digests config faults connection update outcome)

theorem submitUpdate_eq (membership : Except StoreError Membership) (faults : Faults)
    (connection : RoomConnection) (update : Update) :
    submitUpdate lib digests config membership faults connection update =
      commitSubmission lib digests config membership faults connection update >>=
        announce lib digests config faults connection update := by
  unfold submitUpdate commitSubmission announce
  simp only [Edit.bind_assoc]

def System.step (sys : System G) : Action → System G
  | .opening first second request =>
    let channel := sys.openings.length
    match (openWithBaseStatus lib config first second channel request).run sys.site with
    | (.ok (_, welcome), site) =>
      { sys with
        site := site
        openings := sys.openings ++
          [⟨request.clientVersionVector, welcome.payload, sys.site.room.graph,
            sys.commits.length⟩] }
    | (.error _, site) => { sys with site := site }
  | .submission membership faults connection update =>
    let site :=
      ((submitUpdate lib digests config membership faults connection update).run sys.site).2
    let outcome := (commitSubmission lib digests config membership faults connection update).run
      sys.site
    { sys with
      site := site
      commits := match outcome.1 with
        | .ok outcome => sys.commits ++ [⟨connection.channel, outcome, update⟩]
        | .error _ => sys.commits }
  | .presence membership connection presence =>
    { sys with site := ((relayPresence config membership connection presence).run sys.site).2 }
  | .recheck membership connection =>
    { sys with site := ((Server.recheck membership connection).run sys.site).2 }
  | .disconnect connection =>
    { sys with site := ((Server.disconnect connection).run sys.site).2 }
  | .receive sessionId => { sys with site := sys.site.mapSession sessionId Outbound.take }
  | .close sessionId =>
    { sys with site := sys.site.mapSession sessionId fun o => { o with closed := true } }
  | .administer members status byteQuota =>
    { sys with
      site := { sys.site with
        store := { sys.site.store with
          members := members, status := status, byteQuota := byteQuota } } }

/-- A room as it is loaded, before any session. -/
def System.loaded (room : Room G) (store : StoredGraph) : System G := ⟨⟨room, store, []⟩, [], []⟩

end

/-! ## What a session is given -/

def Message.asUpdate : Message → Option Update
  | .update u => some u
  | _ => none

def Message.asAck : Message → Option Ack
  | .ack a => some a
  | _ => none

def Outbound.updates (o : Outbound) : List Update := o.sent.filterMap Message.asUpdate

def Outbound.acks (o : Outbound) : List Ack := o.sent.filterMap Message.asAck

def CommitOutcome.isInserted : CommitOutcome → Bool
  | .inserted _ => true
  | .duplicate _ => false

/-- The updates that were newly inserted after the first `since` commits. -/
def insertedSince (since : Nat) (commits : List Committed) : List Committed :=
  (commits.drop since).filter fun c => c.outcome.isInserted

/-- Those of them that other sessions submitted. -/
def othersSince (since channel : Nat) (commits : List Committed) : List Committed :=
  (insertedSince since commits).filter fun c => decide (c.channel ≠ channel)

section

variable {G Op : Type} (m : Meaning G Op)

/-- What the client has by its version vector and the payload of its welcome. A
download hands out the document of the room. -/
def Opening.given (o : Opening G) : Set Op :=
  match o.payload with
  | .delta update => m.covers o.versionVector ∪ m.content update
  | .replaceInline checkpoint => m.content checkpoint
  | .mergeDownload | .replaceDownload => m.ops o.graph

/-- A session has everything: by its welcome and the updates on its queue, each of
another session once and in the order of cursors, and by its own submissions; and
what it was acknowledged is its own and durable. -/
structure Served (sys : System G) (session : SessionState) (o : Opening G) : Prop where
  complete : ∀ op ∈ durable m sys.site.store, op ∈ o.given m ∨
    (∃ u ∈ session.outbound.updates, op ∈ m.content u.bytes) ∨
    ∃ c ∈ sys.commits, c.channel = session.outbound.channel ∧ op ∈ m.content c.update.bytes
  once : session.outbound.updates =
    (othersSince o.since session.outbound.channel sys.commits).map Committed.update
  ordered : (othersSince o.since session.outbound.channel sys.commits).Pairwise
    fun a b => a.outcome.cursor < b.outcome.cursor
  acked : ∀ a ∈ session.outbound.acks, ∃ c ∈ sys.commits,
    c.channel = session.outbound.channel ∧ c.update.messageId = a.messageId ∧
      c.outcome.cursor = a.serverCursor ∧ m.content c.update.bytes ⊆ durable m sys.site.store

/-- Every session that is registered in a valid room is served. -/
def Delivered (sys : System G) : Prop :=
  sys.site.room.valid = true → ∀ id session, sys.site.room.session id = some session →
    ∃ o, sys.openings[session.outbound.channel]? = some o ∧ Served m sys session o

end

/-! ## The condition -/

section

variable {G Op : Type} (lib : GraphLib G) (digests : Digests) (config : RoomConfig)

/-- The submission passes the checks, and the document and the store take it. -/
def Lands (s : Site G) (membership : Except StoreError Membership) (faults : Faults)
    (connection : RoomConnection) (update : Update) : Prop :=
  checkUpdate lib digests config membership connection update s.room = .ok () ∧
    (lib.admitUpdate s.room.graph update.bytes).1 = true ∧ faults.commit = none ∧
    ∃ taken, s.store.commitUpdate digests connection.accountId update.messageId update.bytes =
      .ok taken

/-- An update that lands comes from the connection whose session is registered
under its id. That session has room for the acknowledgement, or the update is
durable already, or there is no other session. And a message that is durable
already is durable with what this update brings. -/
def Smooth (m : Meaning G Op) (s : Site G) : Action → Prop
  | .submission membership faults connection update =>
    Lands lib digests config s membership faults connection update →
      (∀ session, s.room.session connection.sessionId = some session →
        session.outbound.channel = connection.channel ∧
          (session.outbound.accepts = true ∨
            (s.store.priorCursor update.messageId).isSome = true ∨
            ∀ id, id ≠ connection.sessionId → s.room.session id = none)) ∧
        ((s.store.priorCursor update.messageId).isSome = true →
          m.content update.bytes ⊆ durable m s.store)
  | _ => True

/-- The systems that runs from a loaded room reach by smooth steps. -/
inductive Reachable (m : Meaning G Op) (room : Room G) (store : StoredGraph) : System G → Prop
  | loaded : Reachable m room store (.loaded room store)
  | step {sys : System G} (action : Action) : Reachable m room store sys →
      Smooth lib digests config m sys.site action →
      Reachable m room store (sys.step lib digests config action)

end

/-! ## The durable document -/

namespace StoredGraph

/-- Cursors are drawn from a sequence. -/
structure Numbered (store : StoredGraph) : Prop where
  included : store.checkpoint.includedCursor < store.nextCursor
  updates : ∀ u ∈ store.updates, u.cursor < store.nextCursor

end StoredGraph

section

variable {G Op : Type} {m : Meaning G Op} {store store' : StoredGraph}

theorem mem_tail {u : StoredUpdate} :
    u ∈ store.tail ↔ u ∈ store.updates ∧ store.checkpoint.includedCursor < u.cursor := by
  unfold StoredGraph.tail
  rw [List.mem_filter, decide_eq_true_iff]

theorem durable_insertUpdate (hn : store.Numbered) (messageId : String) (bytes : Bytes) :
    durable m (store.insertUpdate messageId bytes) = durable m store ∪ m.content bytes := by
  have htail : ∀ u, u ∈ (store.insertUpdate messageId bytes).tail ↔
      u ∈ store.tail ∨ u = ⟨store.nextCursor, messageId, bytes⟩ := by
    intro u
    rw [mem_tail, mem_tail]
    show u ∈ store.updates ++ [_] ∧ store.checkpoint.includedCursor < u.cursor ↔ _
    rw [List.mem_append, List.mem_singleton, or_and_right]
    refine or_congr_right (and_iff_left_of_imp ?_)
    rintro rfl
    exact hn.included
  ext op
  show op ∈ m.content store.checkpoint.snapshot ∨ _ ↔ (_ ∨ _) ∨ _
  rw [or_assoc]
  refine or_congr_right ?_
  constructor
  · rintro ⟨u, hu, hop⟩
    rcases (htail u).mp hu with hu | rfl
    · exact .inl ⟨u, hu, hop⟩
    · exact .inr hop
  · rintro (⟨u, hu, hop⟩ | hop)
    · exact ⟨u, (htail u).mpr (.inl hu), hop⟩
    · exact ⟨_, (htail _).mpr (.inr rfl), hop⟩

theorem numbered_insertUpdate (hn : store.Numbered) (messageId : String) (bytes : Bytes) :
    (store.insertUpdate messageId bytes).Numbered where
  included := hn.included.trans (Nat.lt_succ_self _)
  updates u hu := by
    rcases List.mem_append.mp hu with hu | hu
    · exact (hn.updates u hu).trans (Nat.lt_succ_self _)
    · rw [List.mem_singleton.mp hu]
      exact Nat.lt_succ_self _

/-- What a compaction does to the rows. -/
theorem compactCheckpoint_ok {digests : Digests} {epoch included schema : Nat} {snapshot : Bytes}
    (h : store.compactCheckpoint digests epoch included schema snapshot = .ok store') :
    store.checkpoint.includedCursor ≤ included ∧
      store'.checkpoint.snapshot = snapshot ∧ store'.checkpoint.includedCursor = included ∧
      store'.updates =
        store.updates.filter (fun u => decide (store.checkpoint.includedCursor < u.cursor)) ∧
      store'.nextCursor = store.nextCursor := by
  unfold StoredGraph.compactCheckpoint at h
  obtain ⟨_, _, h⟩ := bind_eq_ok.mp h
  obtain ⟨_, hle, h⟩ := bind_eq_ok.mp h
  obtain ⟨_, _, h⟩ := bind_eq_ok.mp h
  obtain rfl := pure_eq_ok.mp h
  exact ⟨not_lt.mp (refuse_eq_ok.mp hle), rfl, rfl, rfl, rfl⟩

/-- A checkpoint of the durable document changes nothing that is durable. -/
theorem durable_compactCheckpoint {digests : Digests} {epoch included schema : Nat}
    {snapshot : Bytes} (hs : m.content snapshot = durable m store)
    (h : store.compactCheckpoint digests epoch included schema snapshot = .ok store') :
    durable m store' = durable m store := by
  obtain ⟨hle, hsnapshot, hincluded, hupdates, _⟩ := compactCheckpoint_ok h
  ext op
  show op ∈ m.content store'.checkpoint.snapshot ∨ _ ↔ _
  rw [hsnapshot, hs]
  refine or_iff_left_of_imp ?_
  rintro ⟨u, hu, hop⟩
  obtain ⟨hu, _⟩ := mem_tail.mp hu
  rw [hupdates, List.mem_filter, decide_eq_true_iff] at hu
  exact .inr ⟨u, mem_tail.mpr hu, hop⟩

theorem numbered_compactCheckpoint {digests : Digests} {epoch included schema : Nat}
    {snapshot : Bytes} (hn : store.Numbered) (hi : included < store.nextCursor)
    (h : store.compactCheckpoint digests epoch included schema snapshot = .ok store') :
    store'.Numbered := by
  obtain ⟨_, _, hincluded, hupdates, hnext⟩ := compactCheckpoint_ok h
  constructor
  · rw [hincluded, hnext]
    exact hi
  · intro u hu
    rw [hupdates] at hu
    rw [hnext]
    exact hn.updates u (List.mem_of_mem_filter hu)

variable {lib : GraphLib G} {digests : Digests} {config : RoomConfig}

theorem ops_stageAll (hlib : lib.Lawful m) {g g' : G} {l : List StoredUpdate}
    (h : stageAll lib g l = some g') :
    m.ops g' = {op | op ∈ m.ops g ∨ ∃ u ∈ l, op ∈ m.content u.bytes} := by
  induction l generalizing g with
  | nil =>
    obtain rfl := Option.some.inj h
    simp
  | cons u l ih =>
    obtain ⟨g₁, h₁, h⟩ := Option.bind_eq_some_iff.mp h
    rw [ih h, hlib.stage _ _ _ h₁]
    ext op
    simp only [Set.mem_union, Set.mem_ofPred_eq, List.mem_cons, exists_eq_or_imp, or_assoc]

/-- A loaded room holds the durable document. -/
theorem ops_loadRoom (hlib : lib.Lawful m) {faults : Faults} {room : Room G}
    (h : loadRoom lib digests config faults store = .ok room) :
    m.ops room.graph = durable m store := by
  unfold loadRoom at h
  obtain ⟨_, _, h⟩ := bind_eq_ok.mp h
  obtain ⟨load, hload, h⟩ := bind_eq_ok.mp h
  obtain ⟨_, _, h⟩ := bind_eq_ok.mp h
  obtain ⟨_, _, h⟩ := bind_eq_ok.mp h
  obtain ⟨g, hg, h⟩ := bind_eq_ok.mp h
  obtain ⟨g', hg', h⟩ := bind_eq_ok.mp h
  obtain ⟨_, _, h⟩ := bind_eq_ok.mp h
  have hrows : load.checkpoint = store.checkpoint ∧ load.updates = store.tail := by
    unfold StoredGraph.loadGraph at hload
    obtain ⟨_, _, hload⟩ := bind_eq_ok.mp (mapError_eq_ok.mp hload)
    obtain ⟨_, _, hload⟩ := bind_eq_ok.mp hload
    obtain ⟨_, _, hload⟩ := bind_eq_ok.mp hload
    rw [← pure_eq_ok.mp hload]
    exact ⟨rfl, rfl⟩
  rw [hrows.1] at hg
  rw [hrows.2] at hg'
  rw [← pure_eq_ok.mp h]
  show m.ops g' = _
  rw [ops_stageAll hlib (orElse_eq_ok.mp hg'), hlib.fromCheckpoint _ _ (orElse_eq_ok.mp hg)]
  rfl

end

/-! ## What is known of one session -/

section

theorem insertedSince_append {since : Nat} {commits : List Committed} (h : since ≤ commits.length)
    (k : Committed) :
    insertedSince since (commits ++ [k]) =
      insertedSince since commits ++ if k.outcome.isInserted then [k] else [] := by
  unfold insertedSince
  rw [List.drop_append_of_le_length h, List.filter_append]
  cases hk : k.outcome.isInserted <;> simp [hk]

theorem othersSince_append {since : Nat} {commits : List Committed} (h : since ≤ commits.length)
    (channel : Nat) (k : Committed) :
    othersSince since channel (commits ++ [k]) =
      othersSince since channel commits ++
        if k.outcome.isInserted ∧ k.channel ≠ channel then [k] else [] := by
  unfold othersSince
  rw [insertedSince_append h, List.filter_append]
  cases hk : k.outcome.isInserted <;> by_cases hc : k.channel = channel <;> simp [hc]

theorem othersSince_sublist (since channel : Nat) (commits : List Committed) :
    (othersSince since channel commits).Sublist
      (commits.filter fun c => c.outcome.isInserted) :=
  List.filter_sublist.trans ((List.drop_sublist since commits).filter _)

variable {G Op : Type} (m : Meaning G Op)

/-- A session has followed the commits so far. -/
structure Tracked (store : StoredGraph) (commits : List Committed) (outbound : Outbound)
    (o : Opening G) : Prop where
  since : o.since ≤ commits.length
  complete : ∀ op ∈ durable m store, op ∈ o.given m ∨
    (∃ u ∈ outbound.updates, op ∈ m.content u.bytes) ∨
    ∃ c ∈ commits, c.channel = outbound.channel ∧ op ∈ m.content c.update.bytes
  once : outbound.updates = (othersSince o.since outbound.channel commits).map Committed.update
  acked : ∀ a ∈ outbound.acks, ∃ c ∈ commits,
    c.channel = outbound.channel ∧ c.update.messageId = a.messageId ∧
      c.outcome.cursor = a.serverCursor ∧ m.content c.update.bytes ⊆ durable m store

variable {m} {store store' : StoredGraph} {commits : List Committed} {outbound outbound' : Outbound}
  {o : Opening G} {k : Committed}

/-- Presence and what a receiver does are not seen. -/
theorem Tracked.quiet (h : Tracked m store commits outbound o)
    (hd : durable m store' = durable m store) (hc : outbound'.channel = outbound.channel)
    (hu : outbound'.updates = outbound.updates) (ha : outbound'.acks = outbound.acks) :
    Tracked m store' commits outbound' o := by
  constructor
  · exact h.since
  · rw [hd, hc, hu]
    exact h.complete
  · rw [hc, hu]
    exact h.once
  · rw [hd, hc, ha]
    exact h.acked

/-- The session's own submission was committed and acknowledged. -/
theorem Tracked.own (h : Tracked m store commits outbound o)
    (hd : durable m store' = durable m store ∪ m.content k.update.bytes)
    (hk : k.channel = outbound.channel) (hc : outbound'.channel = outbound.channel)
    (hu : outbound'.updates = outbound.updates) (epoch : Nat)
    (ha : outbound'.acks = outbound.acks ++ [⟨epoch, k.update.messageId, k.outcome.cursor⟩]) :
    Tracked m store' (commits ++ [k]) outbound' o := by
  constructor
  · rw [List.length_append]
    exact h.since.trans (Nat.le_add_right ..)
  · intro op hop
    rw [hd] at hop
    rw [hu, hc]
    rcases hop with hop | hop
    · rcases h.complete op hop with hg | hg | ⟨c, hcm, hg⟩
      · exact .inl hg
      · exact .inr (.inl hg)
      · exact .inr (.inr ⟨c, List.mem_append_left _ hcm, hg⟩)
    · exact .inr (.inr ⟨k, List.mem_append_right _ (List.mem_singleton_self k), hk, hop⟩)
  · rw [hu, hc, othersSince_append h.since, if_neg fun hne => hne.2 hk, List.append_nil]
    exact h.once
  · intro a hmem
    rw [hc]
    rw [ha] at hmem
    rcases List.mem_append.mp hmem with hmem | hmem
    · obtain ⟨c, hcm, hch, hid, hcur, hsub⟩ := h.acked a hmem
      exact ⟨c, List.mem_append_left _ hcm, hch, hid, hcur,
        hsub.trans (by rw [hd]; exact Set.subset_union_left)⟩
    · rw [List.mem_singleton.mp hmem]
      exact ⟨k, List.mem_append_right _ (List.mem_singleton_self k), hk, rfl, rfl,
        by rw [hd]; exact Set.subset_union_right⟩

/-- The submission of another session was committed, and put on the queue if new. -/
theorem Tracked.other (h : Tracked m store commits outbound o)
    (hd : durable m store' = durable m store ∪ m.content k.update.bytes)
    (hdup : k.outcome.isInserted = false → m.content k.update.bytes ⊆ durable m store)
    (hk : k.channel ≠ outbound.channel) (hc : outbound'.channel = outbound.channel)
    (hu : outbound'.updates =
      outbound.updates ++ if k.outcome.isInserted then [k.update] else [])
    (ha : outbound'.acks = outbound.acks) : Tracked m store' (commits ++ [k]) outbound' o := by
  have hold : ∀ op ∈ durable m store, op ∈ o.given m ∨
      (∃ u ∈ outbound'.updates, op ∈ m.content u.bytes) ∨
      ∃ c ∈ commits ++ [k], c.channel = outbound'.channel ∧ op ∈ m.content c.update.bytes := by
    intro op hop
    rw [hc, hu]
    rcases h.complete op hop with hg | ⟨u, hum, hg⟩ | ⟨c, hcm, hg⟩
    · exact .inl hg
    · exact .inr (.inl ⟨u, List.mem_append_left _ hum, hg⟩)
    · exact .inr (.inr ⟨c, List.mem_append_left _ hcm, hg⟩)
  constructor
  · rw [List.length_append]
    exact h.since.trans (Nat.le_add_right ..)
  · intro op hop
    rw [hd] at hop
    rcases hop with hop | hop
    · exact hold op hop
    · cases hi : k.outcome.isInserted with
      | false => exact hold op (hdup hi hop)
      | true =>
        rw [hi, if_pos rfl] at hu
        exact .inr (.inl ⟨k.update, by rw [hu]; simp, hop⟩)
  · rw [hu, hc, othersSince_append h.since, h.once, List.map_append]
    cases hi : k.outcome.isInserted with
    | false => simp
    | true => simp [hk]
  · intro a hmem
    rw [hc]
    rw [ha] at hmem
    obtain ⟨c, hcm, hch, hid, hcur, hsub⟩ := h.acked a hmem
    exact ⟨c, List.mem_append_left _ hcm, hch, hid, hcur,
      hsub.trans (by rw [hd]; exact Set.subset_union_left)⟩

end

end Neoseq.Server
