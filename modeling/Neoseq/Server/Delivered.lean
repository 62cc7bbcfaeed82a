import Neoseq.Server.DeliveryRuns

/-! Delivery over whole runs, and how one full queue breaks it. -/

namespace Neoseq.Server
open Collections

variable {G Op : Type} {m : Meaning G Op} {sys : System G} {s : Site G} {lib : GraphLib G}
  {digests : Digests} {config : RoomConfig}

/-! ## What a step does to the sessions -/

theorem run_relayPresence (config : RoomConfig) (membership : Except StoreError Membership)
    (connection : RoomConnection) (presence : Presence) (s : Site G) :
    ((relayPresence config membership connection presence).run s).2 = s ∨
      ((relayPresence config membership connection presence).run s).2 =
        s.broadcast connection.sessionId (.presence presence) := by
  unfold relayPresence
  cases h : checkPresence config membership connection presence s.room with
  | error e =>
    rw [Edit.run_read_bind_error (f := fun t : Site G => checkPresence config membership
      connection presence t.room) h]
    exact .inl rfl
  | ok u =>
    rw [Edit.run_read_bind (f := fun t : Site G => checkPresence config membership
      connection presence t.room) h]
    exact .inr rfl

theorem run_recheck (membership : Except StoreError Membership) (connection : RoomConnection)
    (s : Site G) :
    ((recheck membership connection).run s).2 = s ∨
      ((recheck membership connection).run s).2 = offerFarewell connection.sessionId
        (.error .membershipRevoked false "membership changed or was revoked") s := by
  unfold recheck
  split
  · split
    · exact .inl rfl
    · exact .inr rfl
  · exact .inr rfl
  · exact .inl rfl

theorem valid_offerFarewell (id : String) (message : Message) (s : Site G) :
    (offerFarewell id message s).room.valid = s.room.valid := by
  unfold offerFarewell
  split <;> rfl

theorem valid_mapSession (s : Site G) (id : String) (f : Outbound → Outbound) :
    (s.mapSession id f).room.valid = s.room.valid := by
  unfold Site.mapSession
  split <;> rfl

/-- An opening is refused, or registers a session and remembers what it was given. -/
theorem step_opening (lib : GraphLib G) (digests : Digests) (config : RoomConfig) (sys : System G)
    (first second : Except StoreError Membership) (request : OpenRequest) :
    sys.step lib digests config (.opening first second request) = sys ∨
      ∃ membership payload,
        admitSession lib config first second request sys.site.room = .ok (membership, payload) ∧
        sys.step lib digests config (.opening first second request) =
          { sys with
            site := { sys.site with
              room := sys.site.room.putSession request.sessionId
                (opened config sys.openings.length request membership) }
            openings := sys.openings ++ [⟨request.clientVersionVector, payload,
              sys.site.room.graph, sys.commits.length⟩] } := by
  rcases run_openWithBaseStatus lib config first second sys.openings.length
    request sys.site with ⟨e, he⟩ | ⟨membership, payload, ha, he⟩
  · left
    simp only [System.step, he]
  · right
    refine ⟨membership, payload, ha, ?_⟩
    simp only [System.step, he]

/-- A room that is not valid stays so. -/
theorem valid_of_step {action : Action}
    (h : (sys.step lib digests config action).site.room.valid = true) :
    sys.site.room.valid = true := by
  cases action with
  | opening first second request =>
    rcases step_opening lib digests config sys first second request with he | ⟨membership, payload, ha, _⟩
    · rw [he] at h
      exact h
    · exact (admitSession_ok ha).1
  | submission membership faults connection update =>
    cases hc : checkUpdate lib digests config membership connection update sys.site.room with
    | ok u => exact (checkUpdate_ok hc).2.2.2.1
    | error e =>
      have he : ((submitUpdate lib digests config membership faults connection update).run
          sys.site).2 = sys.site := by
        unfold submitUpdate
        rw [Edit.run_read_bind_error (f := fun t : Site G => checkUpdate lib digests config
          membership connection update t.room) hc]
      rw [← he]
      exact h
  | presence membership connection presence =>
    rcases run_relayPresence config membership connection presence sys.site with he | he
    · rw [← he]
      exact h
    · exact (congrArg (fun t : Site G => t.room.valid) he).symm.trans h
  | recheck membership connection =>
    rcases run_recheck membership connection sys.site with he | he
    · rw [← he]
      exact h
    · rw [← valid_offerFarewell, ← he]
      exact h
  | disconnect connection => exact h
  | receive id => exact (valid_mapSession ..).symm.trans h
  | close id => exact (valid_mapSession ..).symm.trans h
  | administer members status byteQuota => exact h

/-- What a smooth step that leaves the room valid preserves. -/
theorem Inv.step (hlib : lib.Lawful m) (h : Inv m sys) {action : Action}
    (hsmooth : Smooth lib digests config m sys.site action)
    (hvalid : (sys.step lib digests config action).site.room.valid = true) :
    Inv m (sys.step lib digests config action) := by
  cases action with
  | opening first second request =>
    rcases step_opening lib digests config sys first second request with he | ⟨membership, payload, ha, he⟩
    · rw [he]
      exact h
    · rw [he]
      exact h.opened hlib ha
  | submission membership faults connection update =>
    simp only [System.step, submitUpdate_eq, Edit.run_bind] at hvalid ⊢
    generalize hr : (commitSubmission lib digests config membership faults connection update).run
      sys.site = r at hvalid ⊢
    obtain ⟨outcome, t⟩ := r
    cases outcome with
    | ok outcome => exact h.committed hlib hsmooth hr
    | error e =>
      rcases h.quiet_failed hlib hr with hinvalid | hquiet
      · exact absurd hvalid (by rw [hinvalid]; exact Bool.false_ne_true)
      · exact h.quiet hquiet
  | presence membership connection presence =>
    refine h.quiet ?_
    rcases run_relayPresence config membership connection presence sys.site with he | he
    · rw [he]
      exact h.quiet_refl
    · rw [he]
      exact h.quiet_broadcast ..
  | recheck membership connection =>
    refine h.quiet ?_
    rcases run_recheck membership connection sys.site with he | he
    · rw [he]
      exact h.quiet_refl
    · rw [he]
      exact h.quiet_offerFarewell ..
  | disconnect connection => exact h.quiet (h.quiet_removeSession _)
  | receive id => exact h.quiet (h.quiet_mapSession id fun _ => ⟨rfl, rfl, rfl⟩)
  | close id => exact h.quiet (h.quiet_mapSession id fun _ => ⟨rfl, rfl, rfl⟩)
  | administer members status byteQuota =>
    exact h.quiet (h.quiet_rows rfl ⟨h.numbered.included, h.numbered.updates⟩ rfl rfl rfl rfl)

/-! ## Runs -/

theorem StoredGraph.Numbered.latestCursor {store : StoredGraph} (h : store.Numbered)
    {load : GraphLoad} (hload : store.loadGraph digests = .ok load) :
    load.latestCursor < store.nextCursor := by
  unfold StoredGraph.loadGraph at hload
  obtain ⟨_, _, hload⟩ := bind_eq_ok.mp hload
  obtain ⟨_, _, hload⟩ := bind_eq_ok.mp hload
  obtain ⟨_, _, hload⟩ := bind_eq_ok.mp hload
  obtain rfl := pure_eq_ok.mp hload
  unfold GraphLoad.latestCursor
  cases hlast : store.tail.getLast? with
  | none => exact h.included
  | some u => exact h.updates u (mem_tail.mp (List.mem_of_getLast? hlast)).1

theorem inv_loaded (hlib : lib.Lawful m) {faults : Faults} {room : Room G} {store : StoredGraph}
    (hnumbered : store.Numbered) (hload : loadRoom lib digests config faults store = .ok room) :
    Inv m (.loaded room store) := by
  have hops : m.ops room.graph = durable m store := ops_loadRoom hlib hload
  unfold loadRoom at hload
  obtain ⟨_, _, hload⟩ := bind_eq_ok.mp hload
  obtain ⟨load, hrows, hload⟩ := bind_eq_ok.mp hload
  obtain ⟨_, _, hload⟩ := bind_eq_ok.mp hload
  obtain ⟨_, _, hload⟩ := bind_eq_ok.mp hload
  obtain ⟨_, _, hload⟩ := bind_eq_ok.mp hload
  obtain ⟨_, _, hload⟩ := bind_eq_ok.mp hload
  obtain ⟨_, _, hload⟩ := bind_eq_ok.mp hload
  obtain rfl := pure_eq_ok.mp hload
  have hnone : ∀ id, (∅ : BTreeMap String SessionState).get id = none := BTreeMap.get_empty
  refine ⟨hops, hnumbered, hnumbered.latestCursor (mapError_eq_ok.mp hrows), List.Pairwise.nil,
    nofun, fun id _ session _ hs => ?_, fun id session hs => ?_⟩
  · cases (hnone id).symm.trans hs
  · cases (hnone id).symm.trans hs

/-- The invariant of a whole run. -/
theorem Reachable.inv (hlib : lib.Lawful m) {room : Room G} {store : StoredGraph}
    (hstart : Inv m (.loaded room store))
    (h : Reachable lib digests config m room store sys) (hvalid : sys.site.room.valid = true) :
    Inv m sys := by
  induction h with
  | loaded => exact hstart
  | step action _ hsmooth ih => exact (ih (valid_of_step hvalid)).step hlib hsmooth hvalid

/-- A session that has followed all commits is served. -/
theorem Inv.served (h : Inv m sys) {session : SessionState} {o : Opening G}
    (ht : Tracked m sys.site.store sys.commits session.outbound o) : Served m sys session o where
  complete := ht.complete
  once := ht.once
  ordered := h.increasing.sublist (othersSince_sublist ..)
  acked := ht.acked

/-- In every run of a loaded room by smooth steps every registered session of the
valid room is given everything durable, each new update of the others once and in
order, and acknowledgements of its own durable updates only. -/
theorem delivered_of_reachable (hlib : lib.Lawful m) {faults : Faults} {room : Room G}
    {store : StoredGraph} (hnumbered : store.Numbered)
    (hload : loadRoom lib digests config faults store = .ok room)
    (h : Reachable lib digests config m room store sys) : Delivered m sys := by
  intro hvalid id session hs
  have hinv : Inv m sys := h.inv hlib (inv_loaded hlib hnumbered hload) hvalid
  obtain ⟨o, ho, ht⟩ := hinv.tracked id session hs
  exact ⟨o, ho, hinv.served ht⟩

/-! ## A sender that is slow -/

/-- Documents and updates hold the bytes they are made of. -/
def logMeaning : Meaning (List Bytes) UInt8 where
  ops graph := {x | ∃ b ∈ graph, x ∈ b}
  content b := {x | x ∈ b}
  covers _ := ∅

theorem logLib_lawful : logLib.Lawful logMeaning where
  fromCheckpoint b g h := by
    obtain rfl := Option.some.inj h
    ext x
    simp [logMeaning]
  stage g b g' h := by
    obtain rfl := Option.some.inj h
    ext x
    simp [logMeaning, or_and_right, exists_or]
  admitUpdate g b g' h := by
    obtain rfl := (Prod.mk.inj h).2
    ext x
    simp [logMeaning, or_and_right, exists_or]
  exportSince g v b h := nomatch h
  exportSnapshot g b h := by
    obtain rfl := Option.some.inj h
    ext x
    exact List.mem_flatten

/-- The new graph with a room in which everyone is an editor. -/
def editorStore : StoredGraph := { sampleStore with members := fun _ => some ⟨.editor, 1⟩ }

def editorRoom : Room (List Bytes) where
  graph := [[0]]
  cursor := 0
  historyEpoch := 0
  checkpointBytes := 1
  tailUpdates := 0
  tailBytes := 0
  sessions := ∅
  valid := true

/-- Queues hold one message. -/
def narrowConfig : RoomConfig := { sampleConfig with limits.sessionQueueCapacity := 1 }

def editorMembership : Except StoreError Membership := .ok ⟨.editor, 1, 9⟩

def openAs (sessionId : String) : Action :=
  .opening editorMembership editorMembership ⟨sessionId, "editor", 0, [], false⟩

def submitAs (sessionId : String) (channel : Nat) : Action :=
  .submission editorMembership {} ⟨sessionId, "editor", 1, channel⟩ sampleUpdate

def runFrom (config : RoomConfig) (actions : List Action) : System (List Bytes) :=
  actions.foldl (fun sys action => sys.step logLib sampleDigests config action)
    (.loaded editorRoom editorStore)

/-- A session that got a presence has no room for its acknowledgement. It leaves, and
the session that stays never gets the update. -/
def slowSender : System (List Bytes) :=
  runFrom narrowConfig [openAs "a", openAs "b",
    .presence editorMembership ⟨"b", "editor", 1, 1⟩ ⟨1000, []⟩, submitAs "a" 0]

theorem slow_sender_loses_update : ¬Delivered logMeaning slowSender := by
  intro h
  have hsession : slowSender.site.room.session "b" =
      some ⟨"editor", 1, { channel := 1, capacity := 1 }⟩ := by rfl
  obtain ⟨o, ho, hserved⟩ := h rfl "b" _ hsession
  obtain rfl : (⟨[], .replaceInline [0], [[0]], 0⟩ : Opening (List Bytes)) = o :=
    Option.some.inj ho
  have hdurable : (7 : UInt8) ∈ durable logMeaning slowSender.site.store :=
    .inr ⟨⟨1, "id", [7]⟩, List.mem_singleton_self _, List.mem_singleton_self _⟩
  rcases hserved.complete 7 hdurable with hgiven | ⟨u, hu, _⟩ | ⟨c, hc, hchannel, _⟩
  · exact absurd (List.mem_singleton.mp hgiven) (by decide)
  · cases hu
  · obtain rfl : c = ⟨0, .inserted 1, sampleUpdate⟩ := List.mem_singleton.mp hc
    cases hchannel

/-- With room on its queue the sender is acknowledged and the other session follows. -/
theorem delivered_sample :
    Delivered logMeaning (runFrom sampleConfig [openAs "a", openAs "b", submitAs "a" 0]) := by
  have hnumbered : editorStore.Numbered := ⟨by decide, nofun⟩
  have hload : loadRoom logLib sampleDigests sampleConfig {} editorStore = .ok editorRoom := rfl
  refine delivered_of_reachable logLib_lawful hnumbered hload ?_
  have hopened : Reachable logLib sampleDigests sampleConfig logMeaning editorRoom editorStore
      (runFrom sampleConfig [openAs "a", openAs "b"]) :=
    .step (openAs "b") (.step (openAs "a") .loaded trivial) trivial
  refine .step (submitAs "a" 0) hopened fun _ => ⟨fun session hs => ?_, fun h => nomatch h⟩
  have hfirst : (runFrom sampleConfig [openAs "a", openAs "b"]).site.room.session "a" =
      some ⟨"editor", 1, { channel := 0, capacity := 64 }⟩ := by rfl
  obtain rfl := Option.some.inj (hfirst.symm.trans hs)
  exact ⟨rfl, .inl rfl⟩

end Neoseq.Server
