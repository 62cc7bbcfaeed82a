import Neoseq.Server.Room

/-! What a submission leaves behind that fails because of its sender alone. -/

namespace Neoseq.Server
open Collections

variable {G : Type} (lib : GraphLib G) (digests : Digests) (config : RoomConfig)

/-- The reasons to refuse a submission that lie with its sender. -/
inductive SenderFault (s : Site G) (connection : RoomConnection) (update : Update) : Prop
  | oversized (h : config.limits.maxUpdateBytes < update.bytes.length)
  | mismatching (h : digests.contentId update.bytes ≠ update.messageId)
  | notMember (h : ∀ m, s.store.authorize connection.accountId = .ok m →
      m.version ≠ connection.membershipVersion)
  | cannotWrite (m : Membership) (h : s.store.authorize connection.accountId = .ok m)
      (hw : m.role.canWrite = false)
  | staleEpoch (h : update.historyEpoch ≠ s.room.historyEpoch)
  | malformedVersionVector (h : lib.isVersionVector update.baseVersionVector = false)
  | rejected (h : (lib.admitUpdate s.room.graph update.bytes).1 = false)

/-- The durable document reloads to the cursor and the epoch of the room. -/
def Reloads (s : Site G) : Prop :=
  ∃ r, loadRoom lib digests config {} s.store = .ok r ∧ r.cursor = s.room.cursor ∧
    r.historyEpoch = s.room.historyEpoch

/-- The document and the cursor of the room are what the store reloads to. -/
def InSync (s : Site G) : Prop :=
  ∃ r, loadRoom lib digests config {} s.store = .ok r ∧ r.graph = s.room.graph ∧
    r.cursor = s.room.cursor

/-- The room is usable, every other session is as it was, and the room is in
step with its store. -/
structure Isolated (s t : Site G) (connection : RoomConnection) : Prop where
  valid : t.room.valid = true
  sessions : ∀ id, id ≠ connection.sessionId → t.room.session id = s.room.session id
  inSync : InSync lib digests config t

/-- The submission of a member, answered by a database that works. -/
def submitted (s : Site G) (connection : RoomConnection) (update : Update) : Site G :=
  ((submitUpdate lib digests config (s.store.authorize connection.accountId) {} connection
    update).run s).2

/-- The checks before the update is imported. -/
abbrev checked (s : Site G) (connection : RoomConnection) (update : Update) :
    Except RoomError Unit :=
  checkUpdate lib digests config (s.store.authorize connection.accountId) connection update s.room

variable {lib digests config} {s : Site G} {connection : RoomConnection} {update : Update}

theorem checkUpdate_ok {membership : Except StoreError Membership} {room : Room G}
    (h : checkUpdate lib digests config membership connection update room = .ok ()) :
    update.bytes.length ≤ config.limits.maxUpdateBytes ∧
      digests.contentId update.bytes = update.messageId ∧
      (∃ m, membership = .ok m ∧ m.version = connection.membershipVersion) ∧
      room.valid = true ∧ update.historyEpoch = room.historyEpoch ∧
      (∃ session, room.session connection.sessionId = some session) ∧
      lib.isVersionVector update.baseVersionVector = true := by
  unfold checkUpdate at h
  obtain ⟨_, hbytes, h⟩ := bind_eq_ok.mp h
  obtain ⟨m, hm, h⟩ := bind_eq_ok.mp h
  obtain ⟨_, hversion, h⟩ := bind_eq_ok.mp h
  obtain ⟨_, hvalid, h⟩ := bind_eq_ok.mp h
  obtain ⟨_, hepoch, h⟩ := bind_eq_ok.mp h
  obtain ⟨session, hsession, h⟩ := bind_eq_ok.mp h
  obtain ⟨_, _, h⟩ := bind_eq_ok.mp h
  obtain ⟨_, hvector, _⟩ := bind_eq_ok.mp h
  obtain ⟨hsize, hid⟩ := not_or.mp (refuse_eq_ok.mp hbytes)
  exact ⟨not_lt.mp hsize, not_not.mp hid,
    ⟨m, mapError_eq_ok.mp hm, not_not.mp (refuse_eq_ok.mp hversion)⟩,
    by simpa using refuse_eq_ok.mp hvalid, not_not.mp (refuse_eq_ok.mp hepoch),
    ⟨session, orElse_eq_ok.mp hsession⟩, by simpa using refuse_eq_ok.mp hvector⟩

theorem loadRoom_valid {faults : Faults} {store : StoredGraph} {r : Room G}
    (h : loadRoom lib digests config faults store = .ok r) : r.valid = true := by
  unfold loadRoom at h
  obtain ⟨_, _, h⟩ := bind_eq_ok.mp h
  obtain ⟨_, _, h⟩ := bind_eq_ok.mp h
  obtain ⟨_, _, h⟩ := bind_eq_ok.mp h
  obtain ⟨_, _, h⟩ := bind_eq_ok.mp h
  obtain ⟨_, _, h⟩ := bind_eq_ok.mp h
  obtain ⟨_, _, h⟩ := bind_eq_ok.mp h
  obtain ⟨_, _, h⟩ := bind_eq_ok.mp h
  rw [← pure_eq_ok.mp h]

/-! ## The three ways out -/

/-- A refused submission leaves everything as it is. -/
theorem submitted_refused {e : RoomError} (h : checked lib digests config s connection update = .error e) :
    submitted lib digests config s connection update = s := by
  unfold submitted submitUpdate
  rw [Edit.run_read_bind_error (f := fun t : Site G => checkUpdate lib digests config
    (s.store.authorize connection.accountId) connection update t.room) h]

theorem submitted_checked (h : checked lib digests config s connection update = .ok ()) :
    submitted lib digests config s connection update =
      ((admitUpdate lib digests config {} update >>= fun _ => do
        let outcome ← commit digests {} connection update
        Edit.write fun s => { s with room := recordOutcome update outcome s.room }
        acknowledge connection update outcome.cursor
        Edit.write (publish lib digests config {} connection update outcome)).run s).2 := by
  unfold submitted submitUpdate
  rw [Edit.run_read_bind (f := fun t : Site G => checkUpdate lib digests config
    (s.store.authorize connection.accountId) connection update t.room) h]

/-- The room as the import of the update leaves it. -/
def imported (lib : GraphLib G) (s : Site G) (update : Update) : Site G :=
  { s with room := { s.room with graph := (lib.admitUpdate s.room.graph update.bytes).2 } }

theorem run_admit_rejected {faults : Faults}
    (h : (lib.admitUpdate s.room.graph update.bytes).1 = false) :
    (admitUpdate lib digests config faults update).run s =
      (restore lib digests config faults >>= fun _ => Edit.fail .invalidUpdate).run
        (imported lib s update) := by
  unfold Edit.run admitUpdate imported
  simp only [h]
  rfl

theorem run_admit_accepted {faults : Faults}
    (h : (lib.admitUpdate s.room.graph update.bytes).1 = true) :
    (admitUpdate lib digests config faults update).run s = (.ok (), imported lib s update) := by
  unfold Edit.run admitUpdate imported
  simp only [h, if_true]

/-- A rejected update is undone by a reload. -/
theorem submitted_rejected (h : checked lib digests config s connection update = .ok ())
    (hr : (lib.admitUpdate s.room.graph update.bytes).1 = false) {r : Room G}
    (hload : loadRoom lib digests config {} s.store = .ok r) (hcursor : r.cursor = s.room.cursor)
    (hepoch : r.historyEpoch = s.room.historyEpoch) :
    submitted lib digests config s connection update =
      { s with room := { r with sessions := s.room.sessions } } := by
  rw [submitted_checked h, Edit.run_bind, run_admit_rejected hr, Edit.run_bind]
  unfold Edit.run restore
  have hload' : loadRoom lib digests config {} (imported lib s update).store = .ok r := hload
  have hsame : r.cursor = (imported lib s update).room.cursor ∧
      r.historyEpoch = (imported lib s update).room.historyEpoch := ⟨hcursor, hepoch⟩
  simp only [hload', if_pos hsame]
  rfl

theorem submitted_unrestored (h : checked lib digests config s connection update = .ok ())
    (hr : (lib.admitUpdate s.room.graph update.bytes).1 = false)
    (hload : ¬Reloads lib digests config s) :
    (submitted lib digests config s connection update).room.valid = false := by
  rw [submitted_checked h, Edit.run_bind, run_admit_rejected hr, Edit.run_bind]
  unfold Edit.run restore
  cases hl : loadRoom lib digests config {} (imported lib s update).store with
  | error e => rfl
  | ok r =>
    have hdiffer : ¬(r.cursor = (imported lib s update).room.cursor ∧
        r.historyEpoch = (imported lib s update).room.historyEpoch) :=
      fun he => hload ⟨r, hl, he⟩
    simp only [if_neg hdiffer]
    rfl

/-- The store turns a member away who cannot write only when the update is in the
document already. -/
theorem submitted_readOnly (h : checked lib digests config s connection update = .ok ())
    (ha : (lib.admitUpdate s.room.graph update.bytes).1 = true) {m : Membership}
    (hm : s.store.authorize connection.accountId = .ok m) (hw : m.role.canWrite = false) :
    (submitted lib digests config s connection update).room.valid = false := by
  have hrefused : ∃ e, (imported lib s update).store.commitUpdate digests connection.accountId
      update.messageId update.bytes = .error e := by
    show ∃ e, s.store.commitUpdate digests connection.accountId update.messageId update.bytes =
      .error e
    unfold StoredGraph.authorize at hm
    unfold StoredGraph.commitUpdate
    rw [(checkUpdate_ok h).2.1, refuse, if_neg (not_not_intro rfl)]
    cases hmember : s.store.members connection.accountId with
    | none => rw [hmember] at hm; cases hm
    | some row =>
      rw [hmember] at hm
      obtain rfl := Except.ok.inj hm
      refine ⟨.readOnly, ?_⟩
      show (refuse (row.role.canWrite = false ∨ s.store.status = .readOnly) StoreError.readOnly >>=
        _) = _
      rw [refuse, if_pos (.inl hw)]
      rfl
  obtain ⟨e, he⟩ := hrefused
  rw [submitted_checked h, Edit.run_bind_ok (run_admit_accepted ha), Edit.run_bind]
  unfold Edit.run commit
  simp only [he]
  rfl

/-- Exactly when a submission that fails because of its sender leaves the room
and the other sessions alone: an earlier check refuses it and the room is in step
with its store, or the document rejects it and the durable document reloads. It
never does where the store is the one to refuse a member who cannot write. -/
theorem submit_isolated_iff (hfault : SenderFault lib digests config s connection update) :
    Isolated lib digests config s (submitted lib digests config s connection update) connection ↔
      s.room.valid = true ∧
        (checked lib digests config s connection update ≠ .ok () → InSync lib digests config s) ∧
        (checked lib digests config s connection update = .ok () →
          (lib.admitUpdate s.room.graph update.bytes).1 = false ∧
            Reloads lib digests config s) := by
  cases hc : checked lib digests config s connection update with
  | error e =>
    rw [submitted_refused hc]
    constructor
    · intro h
      exact ⟨h.valid, fun _ => h.inSync, fun h => nomatch h⟩
    · rintro ⟨hvalid, hsync, _⟩
      exact ⟨hvalid, fun _ _ => rfl, hsync nofun⟩
  | ok u =>
    have hvalid : s.room.valid = true := (checkUpdate_ok hc).2.2.2.1
    cases ha : (lib.admitUpdate s.room.graph update.bytes).1 with
    | false =>
      by_cases hload : Reloads lib digests config s
      · obtain ⟨r, hr, hcursor, hepoch⟩ := hload
        rw [submitted_rejected hc ha hr hcursor hepoch]
        have hrvalid : r.valid = true := loadRoom_valid hr
        refine iff_of_true ⟨hrvalid, fun _ _ => rfl, r, hr, rfl, rfl⟩ ?_
        exact ⟨hvalid, fun h => absurd rfl h, fun _ => ⟨rfl, r, hr, hcursor, hepoch⟩⟩
      · refine iff_of_false (fun h => ?_) fun h => hload (h.2.2 rfl).2
        exact absurd h.valid (by rw [submitted_unrestored hc ha hload]; exact Bool.false_ne_true)
    | true =>
      refine iff_of_false (fun h => ?_) fun h => absurd (h.2.2 rfl).1 (by simp)
      obtain ⟨hsize, hid, ⟨m, hm, hversion⟩, _, hepoch, _, hvector⟩ := checkUpdate_ok hc
      have hinvalid : (submitted lib digests config s connection update).room.valid = false := by
        cases hfault with
        | oversized h => omega
        | mismatching h => exact absurd hid h
        | notMember h => exact absurd hversion (h m hm)
        | cannotWrite m' hm' hw => exact submitted_readOnly hc ha hm' hw
        | staleEpoch h => exact absurd hepoch h
        | malformedVersionVector h => rw [hvector] at h; cases h
        | rejected h => rw [ha] at h; cases h
      exact absurd h.valid (by rw [hinvalid]; exact Bool.false_ne_true)

/-! ## A viewer's update -/

/-- A document that is the list of what was imported; nothing is rejected. -/
def logLib : GraphLib (List Bytes) where
  fromCheckpoint snapshot := some [snapshot]
  stageRecoveryUpdate graph update := some (graph ++ [update])
  finishRecovery _ := true
  admitUpdate graph update := (true, graph ++ [update])
  isVersionVector _ := true
  versionVector _ := []
  exportUpdatesSince _ _ := none
  exportSnapshot graph := some graph.flatten

def sampleDigests : Digests := ⟨fun _ => "id", fun _ => "sum"⟩

def sampleConfig : RoomConfig := ⟨⟨1048576, 524288, 1073741824, 4096, 64⟩, 256, 256⟩

/-- A new graph with a viewer. -/
def sampleStore : StoredGraph where
  schemaVersion := 9
  historyEpoch := 0
  status := .active
  byteQuota := 1000
  usedBytes := 1
  checkpoint := ⟨0, 0, [0], "sum"⟩
  updates := []
  receipts := []
  nextCursor := 1
  members account := if account = "viewer" then some ⟨.viewer, 1⟩ else none

def sampleSite : Site (List Bytes) where
  room :=
    { graph := [[0]]
      cursor := 0
      historyEpoch := 0
      checkpointBytes := 1
      tailUpdates := 0
      tailBytes := 0
      sessions := (∅ : BTreeMap String SessionState).insert "s"
        ⟨"viewer", 1, { channel := 0, capacity := 64 }⟩
      valid := true }
  store := sampleStore
  departed := []

def sampleConnection : RoomConnection := ⟨"s", "viewer", 1, 0⟩

def sampleUpdate : Update := ⟨0, "id", [], [7]⟩

theorem sampleSite_inSync : InSync logLib sampleDigests sampleConfig sampleSite :=
  ⟨_, rfl, rfl, rfl⟩

theorem sampleUpdate_fault :
    SenderFault logLib sampleDigests sampleConfig sampleSite sampleConnection sampleUpdate :=
  .cannotWrite ⟨.viewer, 1, 9⟩ rfl rfl

/-- The update of a viewer takes the whole room down. -/
theorem viewer_discards_room :
    sampleSite.room.valid = true ∧ InSync logLib sampleDigests sampleConfig sampleSite ∧
      SenderFault logLib sampleDigests sampleConfig sampleSite sampleConnection sampleUpdate ∧
      ¬Isolated logLib sampleDigests sampleConfig sampleSite
        (submitted logLib sampleDigests sampleConfig sampleSite sampleConnection sampleUpdate)
        sampleConnection := by
  refine ⟨rfl, sampleSite_inSync, sampleUpdate_fault, fun h => ?_⟩
  have hinvalid : (submitted logLib sampleDigests sampleConfig sampleSite sampleConnection
      sampleUpdate).room.valid = false :=
    submitted_readOnly rfl rfl (m := ⟨.viewer, 1, 9⟩) rfl rfl
  exact absurd h.valid (by rw [hinvalid]; exact Bool.false_ne_true)

/-- Two other members are in the room. -/
def sharedSite : Site (List Bytes) :=
  { sampleSite with
    room.sessions := (sampleSite.room.sessions.insert "a"
      ⟨"editor", 3, { channel := 1, capacity := 64 }⟩).insert "b"
        ⟨"owner", 1, { channel := 2, capacity := 1 }⟩ }

/-- A document that keeps a part of what it rejects. -/
def pickyLib : GraphLib (List Bytes) :=
  { logLib with admitUpdate := fun graph update => (update != [9], graph ++ [update]) }

/-- The room goes on with the others after an oversized update, and after one that the document
rejects. -/
theorem submit_isolated_sample :
    Isolated logLib sampleDigests { sampleConfig with limits.maxUpdateBytes := 2 } sharedSite
      (submitted logLib sampleDigests { sampleConfig with limits.maxUpdateBytes := 2 } sharedSite
        sampleConnection ⟨0, "id", [], [7, 8, 9]⟩) sampleConnection ∧
    Isolated pickyLib sampleDigests sampleConfig sharedSite
      (submitted pickyLib sampleDigests sampleConfig sharedSite sampleConnection
        ⟨0, "id", [], [9]⟩) sampleConnection :=
  ⟨(submit_isolated_iff (.oversized (by decide))).mpr
      ⟨rfl, fun _ => ⟨_, rfl, rfl, rfl⟩, fun h => nomatch h⟩,
    (submit_isolated_iff (.rejected rfl)).mpr
      ⟨rfl, fun _ => ⟨_, rfl, rfl, rfl⟩, fun _ => ⟨rfl, _, rfl, rfl, rfl⟩⟩⟩

end Neoseq.Server
