import Neoseq.Server.Delivery

/-! Every run by smooth steps delivers: the invariant of a room, what a step does to
the sessions, and the induction over runs. -/

namespace Neoseq.Server
open Collections

variable {G Op : Type} (m : Meaning G Op)

/-- The invariant of a valid room. -/
structure Inv (sys : System G) : Prop where
  inStep : m.ops sys.site.room.graph = durable m sys.site.store
  numbered : sys.site.store.Numbered
  cursor : sys.site.room.cursor < sys.site.store.nextCursor
  increasing : (sys.commits.filter fun c => c.outcome.isInserted).Pairwise
    fun a b => a.outcome.cursor < b.outcome.cursor
  below : ∀ c ∈ sys.commits, c.outcome.isInserted = true →
    c.outcome.cursor < sys.site.store.nextCursor
  apart : ∀ id id' session session', sys.site.room.session id = some session →
    sys.site.room.session id' = some session' →
    session.outbound.channel = session'.outbound.channel → id = id'
  tracked : ∀ id session, sys.site.room.session id = some session →
    ∃ o, sys.openings[session.outbound.channel]? = some o ∧
      Tracked m sys.site.store sys.commits session.outbound o

/-- The queue got nothing that counts. -/
structure SameFeed (o o' : Outbound) : Prop where
  channel : o'.channel = o.channel
  updates : o'.updates = o.updates
  acks : o'.acks = o.acks

/-- The document is as it was, and no session is new or got an update or an
acknowledgement. -/
structure Quiet (s t : Site G) : Prop where
  durable : durable m t.store = durable m s.store
  numbered : t.store.Numbered
  next : t.store.nextCursor = s.store.nextCursor
  inStep : m.ops t.room.graph = Server.durable m t.store
  cursor : t.room.cursor = s.room.cursor
  sessions : ∀ id session', t.room.session id = some session' →
    ∃ session, s.room.session id = some session ∧ SameFeed session.outbound session'.outbound

variable {m} {sys : System G} {s t : Site G}

theorem SameFeed.refl (o : Outbound) : SameFeed o o := ⟨rfl, rfl, rfl⟩

theorem Inv.quiet (h : Inv m sys) (hq : Quiet m sys.site t) : Inv m { sys with site := t } where
  inStep := hq.inStep
  numbered := hq.numbered
  cursor := by
    show t.room.cursor < t.store.nextCursor
    rw [hq.cursor, hq.next]
    exact h.cursor
  increasing := h.increasing
  below c hc hi := by
    show _ < t.store.nextCursor
    rw [hq.next]
    exact h.below c hc hi
  apart id id' session session' hs hs' hchannel := by
    obtain ⟨a, ha, fa⟩ := hq.sessions id session hs
    obtain ⟨b, hb, fb⟩ := hq.sessions id' session' hs'
    exact h.apart id id' a b ha hb (by rw [← fa.channel, ← fb.channel, hchannel])
  tracked id session' hs := by
    obtain ⟨session, hsession, feed⟩ := hq.sessions id session' hs
    obtain ⟨o, ho, ht⟩ := h.tracked id session hsession
    exact ⟨o, by rw [feed.channel]; exact ho,
      ht.quiet hq.durable feed.channel feed.updates feed.acks⟩

/-- A room whose rows and document stay as they are. -/
theorem Inv.quiet_sessions (h : Inv m sys) (hstore : t.store = sys.site.store)
    (hgraph : t.room.graph = sys.site.room.graph) (hcursor : t.room.cursor = sys.site.room.cursor)
    (hsessions : ∀ id session', t.room.session id = some session' →
      ∃ session, sys.site.room.session id = some session ∧
        SameFeed session.outbound session'.outbound) : Quiet m sys.site t where
  durable := by rw [hstore]
  numbered := by rw [hstore]; exact h.numbered
  next := by rw [hstore]
  inStep := by rw [hstore, hgraph]; exact h.inStep
  cursor := hcursor
  sessions := hsessions

/-! ## Sessions after the parts of a step -/

theorem session_putSession (room : Room G) (id id' : String) (session : SessionState) :
    (room.putSession id session).session id' =
      if id' = id then some session else room.session id' :=
  BTreeMap.get_insert ..

theorem session_removeSession (room : Room G) (id id' : String) :
    (room.removeSession id).session id' = if id' = id then none else room.session id' :=
  BTreeMap.get_remove ..

theorem session_broadcast (s : Site G) (sender : String) (message : Message) (id : String) :
    (s.broadcast sender message).room.session id =
      (s.room.session id).bind fun session =>
        if id = sender then some session
        else (session.outbound.trySend message).map fun o => { session with outbound := o } :=
  BTreeMap.get_filterMapValues ..

theorem trySend_eq_some {o o' : Outbound} {message : Message} :
    o.trySend message = some o' ↔ o.accepts = true ∧ o' = o.push message := by
  unfold Outbound.trySend
  split
  · next h => simp [h, eq_comm]
  · next h => simp [h]

theorem push_updates (o : Outbound) (message : Message) :
    (o.push message).updates = o.updates ++ message.asUpdate.toList := by
  unfold Outbound.updates Outbound.push
  rw [List.filterMap_append]
  cases message <;> rfl

theorem push_acks (o : Outbound) (message : Message) :
    (o.push message).acks = o.acks ++ message.asAck.toList := by
  unfold Outbound.acks Outbound.push
  rw [List.filterMap_append]
  cases message <;> rfl

/-- A session after a broadcast is one from before, with the message unless it is
the sender's. -/
theorem of_session_broadcast {sender id : String} {message : Message} {session' : SessionState}
    (h : (s.broadcast sender message).room.session id = some session') :
    ∃ session, s.room.session id = some session ∧
      ((id = sender ∧ session' = session) ∨
        (id ≠ sender ∧ session'.outbound = session.outbound.push message)) := by
  rw [session_broadcast] at h
  obtain ⟨session, hs, h⟩ := Option.bind_eq_some_iff.mp h
  refine ⟨session, hs, ?_⟩
  split at h
  · next he => exact .inl ⟨he, (Option.some.inj h).symm⟩
  · next he =>
    obtain ⟨o, ho, h⟩ := Option.map_eq_some_iff.mp h
    refine .inr ⟨he, ?_⟩
    rw [← h]
    exact (trySend_eq_some.mp ho).2

theorem of_session_removeSession {id' id : String} {session : SessionState}
    (h : (s.removeSession id').room.session id = some session) :
    s.room.session id = some session := by
  have h : (s.room.removeSession id').session id = some session := h
  rw [session_removeSession] at h
  split at h
  · cases h
  · exact h

/-! ## Quiet steps -/

theorem Inv.quiet_removeSession (h : Inv m sys) (id : String) :
    Quiet m sys.site (sys.site.removeSession id) :=
  h.quiet_sessions rfl rfl rfl fun _ session hs =>
    ⟨session, of_session_removeSession hs, SameFeed.refl _⟩

theorem Inv.quiet_broadcast (h : Inv m sys) (sender : String) (presence : Presence) :
    Quiet m sys.site (sys.site.broadcast sender (.presence presence)) := by
  refine h.quiet_sessions rfl rfl rfl fun id session' hs => ?_
  obtain ⟨session, hsession, ⟨_, rfl⟩ | ⟨_, ho⟩⟩ := of_session_broadcast hs
  · exact ⟨_, hsession, SameFeed.refl _⟩
  · refine ⟨session, hsession, ?_⟩
    rw [ho]
    exact ⟨rfl, by rw [push_updates]; exact List.append_nil _,
      by rw [push_acks]; exact List.append_nil _⟩

theorem Inv.quiet_refl (h : Inv m sys) : Quiet m sys.site sys.site :=
  h.quiet_sessions rfl rfl rfl fun _ session hs => ⟨session, hs, SameFeed.refl _⟩

theorem Inv.quiet_offerFarewell (h : Inv m sys) (id : String) (message : Message) :
    Quiet m sys.site (offerFarewell id message sys.site) := by
  cases hsession : sys.site.room.session id with
  | none =>
    have he : offerFarewell id message sys.site = sys.site := by
      unfold offerFarewell
      rw [hsession]
    rw [he]
    exact h.quiet_refl
  | some session =>
    have he : offerFarewell id message sys.site =
        { sys.site with
          room := sys.site.room.removeSession id
          departed := sys.site.departed ++ [session.outbound.offer message] } := by
      unfold offerFarewell
      rw [hsession]
    rw [he]
    exact h.quiet_sessions rfl rfl rfl fun _ session hs =>
      ⟨session, of_session_removeSession hs, SameFeed.refl _⟩

theorem Inv.quiet_mapSession (h : Inv m sys) (id : String) {f : Outbound → Outbound}
    (hf : ∀ o, SameFeed o (f o)) : Quiet m sys.site (sys.site.mapSession id f) := by
  cases hsession : sys.site.room.session id with
  | none =>
    have he : sys.site.mapSession id f = sys.site := by
      unfold Site.mapSession
      rw [hsession]
    rw [he]
    exact h.quiet_refl
  | some session =>
    have he : sys.site.mapSession id f =
        { sys.site with
          room := sys.site.room.putSession id { session with outbound := f session.outbound } } := by
      unfold Site.mapSession
      rw [hsession]
    rw [he]
    refine h.quiet_sessions rfl rfl rfl fun id' session' hs => ?_
    have hput := (session_putSession sys.site.room id id' _).symm.trans hs
    split at hput
    · next hid =>
      subst hid
      exact ⟨session, hsession, (Option.some.inj hput) ▸ hf session.outbound⟩
    · exact ⟨session', hput, SameFeed.refl _⟩

/-! ## A submission that does not land -/

variable {lib : GraphLib G} {digests : Digests} {config : RoomConfig}
  {membership : Except StoreError Membership} {faults : Faults} {connection : RoomConnection}
  {update : Update}

theorem run_restore (lib : GraphLib G) (digests : Digests) (config : RoomConfig) (faults : Faults)
    (s : Site G) :
    (∃ r, loadRoom lib digests config faults s.store = .ok r ∧ r.cursor = s.room.cursor ∧
        (restore lib digests config faults).run s =
          (.ok (), { s with room := { r with sessions := s.room.sessions } })) ∨
      ∃ e, (restore lib digests config faults).run s =
        (.error e, s.invalidateRoom .storageUnavailable) := by
  unfold Edit.run restore
  cases hl : loadRoom lib digests config faults s.store with
  | error e => exact .inr ⟨e, rfl⟩
  | ok r =>
    by_cases hsame : r.cursor = s.room.cursor ∧ r.historyEpoch = s.room.historyEpoch
    · exact .inl ⟨r, rfl, hsame.1, by simp only [if_pos hsame]⟩
    · exact .inr ⟨.reconnectRequired, by simp only [if_neg hsame]⟩

/-- A submission that is turned down leaves a room that is not valid, or one in
which nothing happened. -/
theorem Inv.quiet_failed (hlib : lib.Lawful m) (h : Inv m sys) {e : RoomError} {t : Site G}
    (hr : (commitSubmission lib digests config membership faults connection update).run sys.site =
      (.error e, t)) : t.room.valid = false ∨ Quiet m sys.site t := by
  unfold commitSubmission at hr
  cases hc : checkUpdate lib digests config membership connection update sys.site.room with
  | error e' =>
    rw [Edit.run_read_bind_error (f := fun t : Site G => checkUpdate lib digests config membership
      connection update t.room) hc] at hr
    obtain ⟨_, rfl⟩ := Prod.mk.inj hr
    exact .inr h.quiet_refl
  | ok u =>
    rw [Edit.run_read_bind (f := fun t : Site G => checkUpdate lib digests config membership
      connection update t.room) hc, Edit.run_bind] at hr
    cases ha : (lib.admitUpdate sys.site.room.graph update.bytes).1 with
    | false =>
      rw [run_admit_rejected ha, Edit.run_bind] at hr
      rcases run_restore lib digests config faults
        (imported lib sys.site update) with ⟨r, hload, hcursor, he⟩ | ⟨e', he⟩
      · rw [he] at hr
        obtain ⟨_, rfl⟩ := Prod.mk.inj hr
        have hops : m.ops r.graph = durable m sys.site.store := ops_loadRoom hlib hload
        refine .inr ⟨rfl, h.numbered, rfl, hops, hcursor, ?_⟩
        exact fun id session hs => ⟨session, hs, SameFeed.refl _⟩
      · rw [he] at hr
        obtain ⟨_, rfl⟩ := Prod.mk.inj hr
        exact .inl rfl
    | true =>
      rw [run_admit_accepted ha] at hr
      have hr : commit digests faults connection update (imported lib sys.site update) =
        (.error e, t) := hr
      unfold commit at hr
      dsimp only at hr
      split at hr
      · obtain ⟨_, rfl⟩ := Prod.mk.inj hr
        exact .inl rfl
      · cases (Prod.mk.inj hr).1
      · obtain ⟨_, rfl⟩ := Prod.mk.inj hr
        exact .inl rfl
      · obtain ⟨_, rfl⟩ := Prod.mk.inj hr
        exact .inl rfl

/-! ## A submission that lands -/

theorem commitUpdate_ok {store store' : StoredGraph} {account messageId : String} {bytes : Bytes}
    {outcome : CommitOutcome}
    (h : store.commitUpdate digests account messageId bytes = .ok (outcome, store')) :
    ((store.priorCursor messageId).isSome = true ∧ outcome.isInserted = false ∧ store' = store) ∨
      (store.priorCursor messageId = none ∧ outcome = .inserted store.nextCursor ∧
        store' = store.insertUpdate messageId bytes) := by
  unfold StoredGraph.commitUpdate at h
  obtain ⟨_, _, h⟩ := bind_eq_ok.mp h
  obtain ⟨_, _, h⟩ := bind_eq_ok.mp h
  obtain ⟨_, _, h⟩ := bind_eq_ok.mp h
  split at h
  · next cursor hprior =>
    obtain ⟨rfl, rfl⟩ := Prod.mk.inj (pure_eq_ok.mp h)
    exact .inl ⟨by rw [hprior]; rfl, rfl, rfl⟩
  · next hprior =>
    obtain ⟨_, _, h⟩ := bind_eq_ok.mp h
    obtain ⟨rfl, rfl⟩ := Prod.mk.inj (pure_eq_ok.mp h)
    exact .inr ⟨hprior, rfl, rfl⟩

/-- What a commit says of the submission before it. -/
theorem commitSubmission_ok {s t : Site G} {outcome : CommitOutcome}
    (hr : (commitSubmission lib digests config membership faults connection update).run s =
      (.ok outcome, t)) :
    Lands lib digests config s membership faults connection update ∧
      ∃ store, s.store.commitUpdate digests connection.accountId update.messageId update.bytes =
        .ok (outcome, store) ∧ t = { imported lib s update with store := store } := by
  unfold commitSubmission at hr
  cases hc : checkUpdate lib digests config membership connection update s.room with
  | error e =>
    rw [Edit.run_read_bind_error (f := fun t : Site G => checkUpdate lib digests config membership
      connection update t.room) hc] at hr
    cases (Prod.mk.inj hr).1
  | ok u =>
    rw [Edit.run_read_bind (f := fun t : Site G => checkUpdate lib digests config membership
      connection update t.room) hc, Edit.run_bind] at hr
    cases ha : (lib.admitUpdate s.room.graph update.bytes).1 with
    | false =>
      rw [run_admit_rejected ha, Edit.run_bind] at hr
      rcases run_restore lib digests config faults
        (imported lib s update) with ⟨r, _, _, he⟩ | ⟨e, he⟩
      · rw [he] at hr
        cases (Prod.mk.inj hr).1
      · rw [he] at hr
        cases (Prod.mk.inj hr).1
    | true =>
      rw [run_admit_accepted ha] at hr
      have hr : commit digests faults connection update (imported lib s update) =
        (.ok outcome, t) := hr
      unfold commit at hr
      dsimp only at hr
      split at hr
      · cases (Prod.mk.inj hr).1
      · next o store ho hf =>
        obtain ⟨hout, rfl⟩ := Prod.mk.inj hr
        obtain rfl := Except.ok.inj hout
        exact ⟨⟨hc, ha, hf, _, ho⟩, store, ho, rfl⟩
      · cases (Prod.mk.inj hr).1
      · cases (Prod.mk.inj hr).1

/-- How a session follows a commit: the sender by the acknowledgement, the others
by the update if it is new. -/
def Follows (sender : String) (k : Committed) (s t : Site G) : Prop :=
  ∀ id session', t.room.session id = some session' →
    ∃ session, s.room.session id = some session ∧
      session'.outbound.channel = session.outbound.channel ∧
      ((id = sender ∧ session'.outbound.updates = session.outbound.updates ∧
          ∃ epoch, session'.outbound.acks =
            session.outbound.acks ++ [⟨epoch, k.update.messageId, k.outcome.cursor⟩]) ∨
        (id ≠ sender ∧ session'.outbound.acks = session.outbound.acks ∧
          session'.outbound.updates =
            session.outbound.updates ++ if k.outcome.isInserted then [k.update] else []))

theorem Inv.landed (h : Inv m sys) {k : Committed} {sender : String} {own : SessionState}
    (hown : sys.site.room.session sender = some own) (hchannel : own.outbound.channel = k.channel)
    (hd : durable m t.store = durable m sys.site.store ∪ m.content k.update.bytes)
    (hops : m.ops t.room.graph = durable m t.store) (hnumbered : t.store.Numbered)
    (hcursor : t.room.cursor < t.store.nextCursor)
    (hnext : sys.site.store.nextCursor ≤ t.store.nextCursor)
    (hnew : k.outcome.isInserted = true → k.outcome.cursor = sys.site.store.nextCursor ∧
      sys.site.store.nextCursor < t.store.nextCursor)
    (hold : k.outcome.isInserted = false →
      m.content k.update.bytes ⊆ durable m sys.site.store)
    (hfollows : Follows sender k sys.site t) :
    Inv m { sys with site := t, commits := sys.commits ++ [k] } where
  inStep := hops
  numbered := hnumbered
  cursor := hcursor
  increasing := by
    show (List.filter _ (sys.commits ++ [k])).Pairwise _
    rw [List.filter_append, List.pairwise_append]
    refine ⟨h.increasing, List.Pairwise.sublist List.filter_sublist (List.pairwise_singleton _ k),
      fun a ha b hb => ?_⟩
    obtain ⟨ha, hai⟩ := List.mem_filter.mp ha
    obtain ⟨hb, hbi⟩ := List.mem_filter.mp hb
    obtain rfl := List.mem_singleton.mp hb
    rw [(hnew hbi).1]
    exact h.below a ha hai
  below c hc hi := by
    rcases List.mem_append.mp hc with hc | hc
    · exact (h.below c hc hi).trans_le hnext
    · obtain rfl := List.mem_singleton.mp hc
      rw [(hnew hi).1]
      exact (hnew hi).2
  apart id id' session session' hs hs' he := by
    obtain ⟨a, ha, hca, _⟩ := hfollows id session hs
    obtain ⟨b, hb, hcb, _⟩ := hfollows id' session' hs'
    exact h.apart id id' a b ha hb (by rw [← hca, ← hcb, he])
  tracked id session' hs := by
    obtain ⟨session, hsession, hc, hfeed⟩ := hfollows id session' hs
    obtain ⟨o, ho, ht⟩ := h.tracked id session hsession
    refine ⟨o, by rw [hc]; exact ho, ?_⟩
    rcases hfeed with ⟨rfl, hu, epoch, ha⟩ | ⟨hid, ha, hu⟩
    · obtain rfl := Option.some.inj (hown.symm.trans hsession)
      exact ht.own hd hchannel.symm hc hu epoch ha
    · refine ht.other hd hold ?_ hc hu ha
      intro he
      exact hid (h.apart id sender session own hsession hown (by rw [← he, hchannel]))

/-- Rows that changed without the document, the numbering or the sessions. -/
theorem Inv.quiet_rows (h : Inv m sys) (hd : durable m t.store = durable m sys.site.store)
    (hnumbered : t.store.Numbered) (hnext : t.store.nextCursor = sys.site.store.nextCursor)
    (hgraph : t.room.graph = sys.site.room.graph) (hcursor : t.room.cursor = sys.site.room.cursor)
    (hsessions : t.room.sessions = sys.site.room.sessions) : Quiet m sys.site t where
  durable := hd
  numbered := hnumbered
  next := hnext
  inStep := by
    rw [hd, hgraph]
    exact h.inStep
  cursor := hcursor
  sessions id session hs := by
    unfold Room.session at hs ⊢
    rw [hsessions] at hs
    exact ⟨session, hs, SameFeed.refl _⟩

theorem Inv.quiet_compactCheckpoint (hlib : lib.Lawful m) (h : Inv m sys) :
    Quiet m sys.site (compactCheckpoint lib digests faults sys.site) := by
  unfold compactCheckpoint
  cases hs : lib.exportSnapshot sys.site.room.graph with
  | none => exact h.quiet_refl
  | some snapshot =>
    have hcontent : m.content snapshot = durable m sys.site.store :=
      (hlib.exportSnapshot _ _ hs).trans h.inStep
    dsimp only
    split
    · exact h.quiet_refl
    · exact h.quiet_refl
    · next store hstore _ =>
      exact h.quiet_rows (durable_compactCheckpoint hcontent hstore)
        (numbered_compactCheckpoint h.numbered h.cursor hstore)
        (compactCheckpoint_ok hstore).2.2.2.2 rfl rfl rfl
    · next store hstore _ =>
      exact h.quiet_rows (durable_compactCheckpoint hcontent hstore)
        (numbered_compactCheckpoint h.numbered h.cursor hstore)
        (compactCheckpoint_ok hstore).2.2.2.2 rfl rfl rfl

/-- The room once the store took an update and the room noted it. -/
def recorded (lib : GraphLib G) (s : Site G) (update : Update) (outcome : CommitOutcome)
    (store : StoredGraph) : Site G where
  room := recordOutcome update outcome (imported lib s update).room
  store := store
  departed := s.departed

theorem session_recorded (s : Site G) (outcome : CommitOutcome) (store : StoredGraph)
    (id : String) : (recorded lib s update outcome store).room.session id = s.room.session id := by
  cases outcome <;> rfl

theorem graph_recorded (s : Site G) (outcome : CommitOutcome) (store : StoredGraph) :
    (recorded lib s update outcome store).room.graph =
      (lib.admitUpdate s.room.graph update.bytes).2 := by
  cases outcome <;> rfl

/-- The recorded room with the acknowledgement on the sender's queue. -/
def acknowledged (t : Site G) (connection : RoomConnection) (update : Update) (cursor : Nat)
    (own : SessionState) : Site G :=
  { t with
    room := t.room.putSession connection.sessionId
      { own with
        outbound := own.outbound.push (.ack ⟨t.room.historyEpoch, update.messageId, cursor⟩) } }

theorem run_announce (s : Site G) (outcome : CommitOutcome) (store : StoredGraph) :
    (announce lib digests config faults connection update outcome).run
        { imported lib s update with store := store } =
      (acknowledge connection update outcome.cursor >>= fun _ =>
        Edit.write (publish lib digests config faults connection update outcome)).run
          (recorded lib s update outcome store) := rfl

theorem run_announce_accepts {outcome : CommitOutcome} {store : StoredGraph} {own : SessionState}
    (hown : s.room.session connection.sessionId = some own) (ha : own.outbound.accepts = true) :
    ((announce lib digests config faults connection update outcome).run
        { imported lib s update with store := store }).2 =
      publish lib digests config faults connection update outcome
        (acknowledged (recorded lib s update outcome store) connection update outcome.cursor own) := by
  rw [run_announce, Edit.run_bind]
  have hack : (acknowledge connection update outcome.cursor).run
      (recorded lib s update outcome store) =
        (.ok (), acknowledged (recorded lib s update outcome store) connection update
          outcome.cursor own) := by
    unfold Edit.run acknowledge
    simp only [session_recorded, hown, Outbound.trySend, ha, if_true]
    rfl
  rw [hack]
  rfl

theorem run_announce_full {outcome : CommitOutcome} {store : StoredGraph} {own : SessionState}
    (hown : s.room.session connection.sessionId = some own) (ha : own.outbound.accepts = false) :
    ((announce lib digests config faults connection update outcome).run
        { imported lib s update with store := store }).2 =
      (recorded lib s update outcome store).removeSession connection.sessionId := by
  rw [run_announce, Edit.run_bind]
  have hack : (acknowledge connection update outcome.cursor).run
      (recorded lib s update outcome store) =
        (.error .slowConsumer,
          (recorded lib s update outcome store).removeSession connection.sessionId) := by
    unfold Edit.run acknowledge
    simp only [session_recorded, hown, Outbound.trySend, ha, Bool.false_eq_true, if_false]
  rw [hack]

/-- With the acknowledgement the sender follows, and without an update to share so
do the others. -/
theorem follows_acknowledged {t : Site G} {k : Committed} {own : SessionState}
    (hsessions : ∀ id, t.room.session id = s.room.session id)
    (hown : s.room.session connection.sessionId = some own) (hk : k.update = update)
    (hnew : k.outcome.isInserted = false) :
    Follows connection.sessionId k s
      (acknowledged t connection update k.outcome.cursor own) := by
  intro id session' hs
  have hs := (session_putSession t.room connection.sessionId id _).symm.trans hs
  split at hs
  · next hid =>
    obtain rfl := Option.some.inj hs
    refine ⟨own, by rw [hid, hown], rfl, .inl ⟨hid, ?_, t.room.historyEpoch, ?_⟩⟩
    · rw [push_updates]
      exact List.append_nil _
    · rw [push_acks, hk]
      rfl
  · next hid =>
    rw [hsessions] at hs
    refine ⟨session', hs, rfl, .inr ⟨hid, rfl, ?_⟩⟩
    rw [hnew]
    exact (List.append_nil _).symm

/-- With the broadcast the others follow a new update. -/
theorem follows_broadcast {t : Site G} {k : Committed} {own : SessionState}
    (hsessions : ∀ id, t.room.session id = s.room.session id)
    (hown : s.room.session connection.sessionId = some own) (hk : k.update = update)
    (hnew : k.outcome.isInserted = true) :
    Follows connection.sessionId k s
      ((acknowledged t connection update k.outcome.cursor own).broadcast connection.sessionId
        (.update update)) := by
  intro id session' hs
  obtain ⟨session, hs, hfeed⟩ := of_session_broadcast hs
  have hs := (session_putSession t.room connection.sessionId id _).symm.trans hs
  rcases hfeed with ⟨hid, rfl⟩ | ⟨hid, ho⟩
  · rw [if_pos hid] at hs
    obtain rfl := Option.some.inj hs
    refine ⟨own, by rw [hid, hown], rfl, .inl ⟨hid, ?_, t.room.historyEpoch, ?_⟩⟩
    · rw [push_updates]
      exact List.append_nil _
    · rw [push_acks, hk]
      rfl
  · rw [if_neg hid, hsessions] at hs
    refine ⟨session, hs, by rw [ho]; rfl, .inr ⟨hid, ?_, ?_⟩⟩
    · rw [ho, push_acks]
      exact List.append_nil _
    · rw [ho, push_updates, hnew, hk]
      rfl

/-- What the rows say once a submission is taken. -/
structure Taken (m : Meaning G Op) (store store' : StoredGraph) (k : Committed) : Prop where
  durable : Server.durable m store' = Server.durable m store ∪ m.content k.update.bytes
  numbered : store'.Numbered
  next : store.nextCursor ≤ store'.nextCursor
  new : k.outcome.isInserted = true →
    k.outcome.cursor = store.nextCursor ∧ store.nextCursor < store'.nextCursor
  old : k.outcome.isInserted = false → m.content k.update.bytes ⊆ Server.durable m store

theorem taken_of_commitUpdate {store store' : StoredGraph} {account : String} {k : Committed}
    (hn : store.Numbered)
    (hold : (store.priorCursor k.update.messageId).isSome = true →
      m.content k.update.bytes ⊆ durable m store)
    (h : store.commitUpdate digests account k.update.messageId k.update.bytes =
      .ok (k.outcome, store')) : Taken m store store' k := by
  rcases commitUpdate_ok h with ⟨hprior, hout, rfl⟩ | ⟨_, hout, rfl⟩
  · have hsub := hold hprior
    exact ⟨(Set.union_eq_self_of_subset_right hsub).symm, hn, le_rfl,
      fun hi => (Bool.false_ne_true (hout ▸ hi)).elim, fun _ => hsub⟩
  · refine ⟨durable_insertUpdate hn .., numbered_insertUpdate hn .., Nat.le_succ _, fun _ => ?_,
      fun hi => ?_⟩
    · rw [hout]
      exact ⟨rfl, Nat.lt_succ_self _⟩
    · rw [hout] at hi
      cases hi

/-- A recorded room whose sessions follow. -/
theorem Inv.recorded (hlib : lib.Lawful m) (h : Inv m sys) {k : Committed} {own : SessionState}
    {s : StoredGraph} (ht : Taken m sys.site.store s k)
    (hadmitted : (lib.admitUpdate sys.site.room.graph k.update.bytes).1 = true)
    (hown : sys.site.room.session connection.sessionId = some own)
    (hchannel : own.outbound.channel = k.channel) (hstore : t.store = s)
    (hroom : t.room.graph = (Server.recorded lib sys.site k.update k.outcome s).room.graph ∧
      t.room.cursor = (Server.recorded lib sys.site k.update k.outcome s).room.cursor)
    (hfollows : Follows connection.sessionId k sys.site t) :
    Inv m { sys with site := t, commits := sys.commits ++ [k] } := by
  subst hstore
  refine h.landed hown hchannel ht.durable ?_ ht.numbered ?_ ht.next ht.new ht.old hfollows
  · rw [hroom.1, graph_recorded, ht.durable, ← h.inStep]
    exact hlib.admitUpdate _ _ _ (Prod.ext hadmitted rfl)
  · rw [hroom.2]
    cases hout : k.outcome with
    | inserted cursor =>
      have hnew := ht.new (by rw [hout]; rfl)
      rw [hout] at hnew
      exact hnew.1.trans_lt hnew.2
    | duplicate cursor => exact h.cursor.trans_le ht.next

/-- A smooth submission that lands is followed by every session that stays. -/
theorem Inv.committed (hlib : lib.Lawful m) (h : Inv m sys)
    (hsmooth : Smooth lib digests config m sys.site
      (.submission membership faults connection update)) {outcome : CommitOutcome}
    (hr : (commitSubmission lib digests config membership faults connection update).run sys.site =
      (.ok outcome, t)) :
    Inv m { sys with
      site := ((announce lib digests config faults connection update outcome).run t).2
      commits := sys.commits ++ [⟨connection.channel, outcome, update⟩] } := by
  obtain ⟨hlands, store, hcommit, rfl⟩ := commitSubmission_ok hr
  obtain ⟨own, hown⟩ := (checkUpdate_ok hlands.1).2.2.2.2.2.1
  obtain ⟨hsession, hold⟩ := hsmooth hlands
  obtain ⟨hchannel, hroom⟩ := hsession own hown
  have hadmitted := hlands.2.1
  have ht : Taken m sys.site.store store ⟨connection.channel, outcome, update⟩ :=
    taken_of_commitUpdate h.numbered hold hcommit
  have hsessions : ∀ id, (Server.recorded lib sys.site update outcome store).room.session id =
      sys.site.room.session id := session_recorded sys.site outcome store
  cases ha : own.outbound.accepts with
  | false =>
    rw [run_announce_full hown ha]
    refine h.recorded hlib ht hadmitted hown hchannel rfl ⟨rfl, rfl⟩ ?_
    intro id session' hs
    have hs := (session_removeSession _ connection.sessionId id).symm.trans hs
    split at hs
    · cases hs
    · next hid =>
      rw [hsessions] at hs
      rcases hroom with hacc | hprior | halone
      · rw [ha] at hacc
        cases hacc
      · rcases commitUpdate_ok hcommit with ⟨_, hout, _⟩ | ⟨hnone, _⟩
        · refine ⟨session', hs, rfl, .inr ⟨hid, rfl, ?_⟩⟩
          show _ = _ ++ if outcome.isInserted then [update] else []
          rw [hout]
          exact (List.append_nil _).symm
        · rw [hnone] at hprior
          cases hprior
      · rw [halone id hid] at hs
        cases hs
  | true =>
    rw [run_announce_accepts hown ha]
    cases outcome with
    | duplicate cursor =>
      refine h.recorded hlib (s := store) ht hadmitted hown hchannel rfl ⟨rfl, rfl⟩ ?_
      exact follows_acknowledged hsessions hown rfl rfl
    | inserted cursor =>
      have hshared := h.recorded hlib (s := store) ht hadmitted hown hchannel
        (t := (acknowledged (Server.recorded lib sys.site update (.inserted cursor) store)
          connection update cursor own).broadcast connection.sessionId (.update update))
        rfl ⟨rfl, rfl⟩ (follows_broadcast hsessions hown rfl rfl)
      unfold publish
      dsimp only
      split
      · exact hshared.quiet (hshared.quiet_compactCheckpoint hlib)
      · exact hshared

/-! ## Opening -/

theorem given_of_welcomePayload (hlib : lib.Lawful m) {room : Room G} {request : OpenRequest}
    {payload : WelcomePayload} (h : welcomePayload lib config room request = .ok payload)
    (since : Nat) :
    m.ops room.graph ⊆
      (⟨request.clientVersionVector, payload, room.graph, since⟩ : Opening G).given m := by
  unfold welcomePayload at h
  dsimp only at h
  split at h
  · next update hu =>
    have hexport : lib.exportUpdatesSince room.graph request.clientVersionVector = some update := by
      split at hu
      · cases hu
      · exact hu
    split at h
    · obtain rfl := Except.ok.inj h
      exact hlib.exportSince _ _ _ hexport
    · obtain rfl := Except.ok.inj h
      exact subset_rfl
  · obtain ⟨checkpoint, hc, h⟩ := bind_eq_ok.mp h
    split at h
    · obtain rfl := pure_eq_ok.mp h
      exact subset_rfl
    · obtain rfl := pure_eq_ok.mp h
      exact (hlib.exportSnapshot _ _ (orElse_eq_ok.mp hc)).superset

theorem admitSession_ok {first second : Except StoreError Membership} {request : OpenRequest}
    {room : Room G} {membership : Membership} {payload : WelcomePayload}
    (h : admitSession lib config first second request room = .ok (membership, payload)) :
    room.valid = true ∧ room.session request.sessionId = none ∧
      welcomePayload lib config room request = .ok payload := by
  unfold admitSession at h
  obtain ⟨_, _, h⟩ := bind_eq_ok.mp h
  obtain ⟨_, _, h⟩ := bind_eq_ok.mp h
  obtain ⟨_, _, h⟩ := bind_eq_ok.mp h
  obtain ⟨_, _, h⟩ := bind_eq_ok.mp h
  obtain ⟨_, hvalid, h⟩ := bind_eq_ok.mp h
  obtain ⟨_, hfree, h⟩ := bind_eq_ok.mp h
  obtain ⟨_, hpayload, h⟩ := bind_eq_ok.mp h
  obtain ⟨_, rfl⟩ := Prod.mk.inj (pure_eq_ok.mp h)
  refine ⟨by simpa using refuse_eq_ok.mp hvalid, ?_, hpayload⟩
  exact Option.not_isSome_iff_eq_none.mp (not_or.mp (refuse_eq_ok.mp hfree)).2

/-- The session that an opening registers. -/
def opened (config : RoomConfig) (channel : Nat) (request : OpenRequest) (membership : Membership) :
    SessionState where
  accountId := request.accountId
  membershipVersion := membership.version
  outbound := { channel := channel, capacity := config.limits.sessionQueueCapacity }

theorem run_openWithBaseStatus (lib : GraphLib G) (config : RoomConfig)
    (first second : Except StoreError Membership) (channel : Nat)
    (request : OpenRequest) (s : Site G) :
    (∃ e, (openWithBaseStatus lib config first second channel request).run s = (.error e, s)) ∨
      ∃ membership payload,
        admitSession lib config first second request s.room = .ok (membership, payload) ∧
        (openWithBaseStatus lib config first second channel request).run s =
          (.ok (⟨request.sessionId, request.accountId, membership.version, channel⟩,
              ⟨s.room.historyEpoch, lib.versionVector s.room.graph, payload⟩),
            { s with
              room := s.room.putSession request.sessionId
                (opened config channel request membership) }) := by
  unfold openWithBaseStatus
  cases h : admitSession lib config first second request s.room with
  | error e =>
    rw [Edit.run_read_bind_error (f := fun t : Site G => admitSession lib config first second
      request t.room) h]
    exact .inl ⟨e, rfl⟩
  | ok admitted =>
    rw [Edit.run_read_bind (f := fun t : Site G => admitSession lib config first second
      request t.room) h]
    exact .inr ⟨admitted.1, admitted.2, rfl, rfl⟩

/-- A new session has everything by its welcome. -/
theorem Inv.opened (hlib : lib.Lawful m) (h : Inv m sys)
    {first second : Except StoreError Membership} {request : OpenRequest} {membership : Membership}
    {payload : WelcomePayload}
    (ha : admitSession lib config first second request sys.site.room = .ok (membership, payload)) :
    Inv m { sys with
      site := { sys.site with
        room := sys.site.room.putSession request.sessionId
          (Server.opened config sys.openings.length request membership) }
      openings := sys.openings ++ [⟨request.clientVersionVector, payload, sys.site.room.graph,
        sys.commits.length⟩] } := by
  obtain ⟨_, _, hpayload⟩ := admitSession_ok ha
  have hold : ∀ id session, sys.site.room.session id = some session →
      session.outbound.channel < sys.openings.length := by
    intro id session hs
    obtain ⟨o, ho, _⟩ := h.tracked id session hs
    exact (List.getElem?_eq_some_iff.mp ho).1
  refine ⟨h.inStep, h.numbered, h.cursor, h.increasing, h.below, ?_, ?_⟩
  · intro id id' session session' hs hs' he
    have hs := (session_putSession sys.site.room request.sessionId id _).symm.trans hs
    have hs' := (session_putSession sys.site.room request.sessionId id' _).symm.trans hs'
    split at hs <;> split at hs'
    · next hid hid' => exact hid.trans hid'.symm
    · obtain rfl := Option.some.inj hs
      exact absurd (hold id' session' hs') (by rw [← he]; exact lt_irrefl _)
    · obtain rfl := Option.some.inj hs'
      exact absurd (hold id session hs) (by rw [he]; exact lt_irrefl _)
    · exact h.apart id id' session session' hs hs' he
  · intro id session hs
    have hs := (session_putSession sys.site.room request.sessionId id _).symm.trans hs
    split at hs
    · obtain rfl := Option.some.inj hs
      refine ⟨_, List.getElem?_concat_length, le_rfl, fun op hop => .inl ?_, ?_, nofun⟩
      · exact given_of_welcomePayload hlib hpayload _ (h.inStep.symm ▸ hop)
      · unfold othersSince insertedSince
        rw [List.drop_length]
        rfl
    · obtain ⟨o, ho, ht⟩ := h.tracked id session hs
      exact ⟨o, by rw [List.getElem?_append_left (hold id session hs)]; exact ho, ht⟩

end Neoseq.Server
