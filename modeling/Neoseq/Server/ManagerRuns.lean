import Neoseq.Server.Mirrored

/-! The runs of a room manager: at most one room of a graph is valid, and it mirrors the rows
whenever it is unlocked. -/

namespace Neoseq.Server
open Collections

variable {G Op : Type}

/-- The slot holds a valid room, or is about to from rows that were read. -/
def RoomSlot.Live : RoomSlot G → Prop
  | .empty => False
  | .loading room => room.isSome = true
  | .ready room _ => room.valid = true

/-- The bytes that are submitted. -/
def ManagerAction.submitted : ManagerAction → List Bytes
  | .submit _ _ _ update => [update.bytes]
  | _ => []

namespace RoomManager

/-- Nothing of a graph is left when its id is used again; as long as the graph is there, no
room is taken out of the table that is valid or about to be, and rows are read for the slot in
the table only. -/
def Orderly (manager : RoomManager G) : ManagerAction → Prop
  | .create .. => ∀ cell ∈ manager.slots, ¬cell.Live
  | .evict | .take => manager.present = true →
    ∀ slot, manager.rooms = some slot → ∀ cell : RoomSlot G, manager.slots[slot]? = some cell → ¬cell.Live
  | .load slot _ => manager.present = true →
    manager.slots[slot]? = some (.loading none) → manager.rooms = some slot
  | _ => True

/-- What a process finds when it starts, before the graph is created. -/
def start (rows : StoredGraph) : RoomManager G where
  rows := rows
  present := false
  slots := []
  rooms := none
  evictions := 0
  deletions := 0
  revocations := []
  departed := []

/-- The runs of a manager in which only the bytes in `sent` are submitted. -/
inductive Run (lib : GraphLib G) (digests : Digests) (config : RoomConfig) (orderly : Prop)
    (sent : Set Bytes) : RoomManager G → Prop
  | start (rows : StoredGraph) (positive : 0 < rows.nextCursor) :
    Run lib digests config orderly sent (start rows)
  /-- Another process takes over; the first one is gone. -/
  | restart {manager : RoomManager G} (run : Run lib digests config orderly sent manager) :
    Run lib digests config orderly sent
      { RoomManager.start manager.rows with present := manager.present }
  | step {manager manager' : RoomManager G} (run : Run lib digests config orderly sent manager)
    (action : ManagerAction) (calm : orderly → manager.Orderly action)
    (submits : ∀ bytes ∈ action.submitted, bytes ∈ sent)
    (stepped : manager.step lib digests config action = some manager') :
    Run lib digests config orderly sent manager'

/-- At most one room is valid, and while nobody has it locked it is what its rows reconstruct
to. -/
structure Mirrors (m : Meaning G Op) (manager : RoomManager G) : Prop where
  single : ∀ (slot slot' : Nat) (room room' : Room G) (work work' : Option (Work G)), manager.slots[slot]? = some (.ready room work) →
    manager.slots[slot']? = some (.ready room' work') → room.valid = true →
    room'.valid = true → slot = slot'
  mirrored : ∀ (slot : Nat) (room : Room G), manager.present = true →
    manager.slots[slot]? = some (.ready room none) → room.valid = true →
    Mirrored m room manager.rows

end RoomManager

/-! ## The invariant -/

/-- A locked room between the parts of a submission. -/
def Work.Synced (m : Meaning G Op) (digests : Digests) (sent : Set Bytes) (rows : StoredGraph)
    (room : Room G) : Work G → Prop
  | .restoring => room.cursor = rows.latestCursor ∧ room.historyEpoch = rows.historyEpoch
  | .restored loaded => ∀ restored, loaded = .ok restored → Mirrored m restored rows
  | .committing _ update => update.bytes ∈ sent ∧ digests.contentId update.bytes = update.messageId ∧
    m.ops room.graph = durable m rows ∪ m.content update.bytes ∧
    room.cursor = rows.latestCursor ∧ room.historyEpoch = rows.historyEpoch
  | .committed _ update answer => ∀ outcome, answer = .ok outcome →
    Mirrored m (recordOutcome update outcome room) rows
  | .compacting snapshot => Mirrored m room rows ∧ m.content snapshot = durable m rows
  | .compacted .. => Mirrored m room rows

def RoomSlot.Synced (m : Meaning G Op) (digests : Digests) (sent : Set Bytes)
    (rows : StoredGraph) : RoomSlot G → Prop
  | .empty => True
  | .loading room => ∀ loaded, room = some loaded → Mirrored m loaded rows
  | .ready room none => room.valid = true → Mirrored m room rows
  | .ready room (some work) => work.Synced m digests sent rows room

/-- A room stays valid while it is locked. -/
def RoomSlot.Locked : RoomSlot G → Prop
  | .ready room (some _) => room.valid = true
  | _ => True

variable {m : Meaning G Op} {lib : GraphLib G} {digests : Digests} {config : RoomConfig}
  {sent : Set Bytes}

/-- A cell that is not live is in step with any rows. -/
theorem RoomSlot.synced_of_not_live {cell : RoomSlot G} (rows : StoredGraph)
    (hlocked : cell.Locked) (h : ¬cell.Live) : cell.Synced m digests sent rows := by
  cases cell with
  | empty => trivial
  | loading room =>
    intro loaded hloaded
    exact absurd (by rw [hloaded]; rfl) h
  | ready room work =>
    cases work with
    | none =>
      intro hvalid
      exact absurd hvalid h
    | some work => exact absurd hlocked h

/-- Of the rows only the document, the cursor and the epoch count. -/
theorem RoomSlot.Synced.rows {cell : RoomSlot G} {rows rows' : StoredGraph}
    (h : cell.Synced m digests sent rows) (hdurable : durable m rows' = durable m rows)
    (hcursor : rows'.latestCursor = rows.latestCursor)
    (hepoch : rows'.historyEpoch = rows.historyEpoch) : cell.Synced m digests sent rows' := by
  have hmirrored : ∀ room, Mirrored m room rows → Mirrored m room rows' := fun room h =>
    ⟨h.document.trans hdurable.symm, h.cursor.trans hcursor.symm, h.historyEpoch.trans hepoch.symm⟩
  cases cell with
  | empty => trivial
  | loading room => exact fun loaded hloaded => hmirrored loaded (h loaded hloaded)
  | ready room work =>
    cases work with
    | none => exact fun hvalid => hmirrored room (h hvalid)
    | some work =>
      cases work with
      | restoring => exact ⟨h.1.trans hcursor.symm, h.2.trans hepoch.symm⟩
      | restored loaded => exact fun restored hrestored => hmirrored restored (h restored hrestored)
      | committing connection update =>
        obtain ⟨hsent, hid, hdocument, hcursor', hepoch'⟩ := h
        rw [← hdurable] at hdocument
        exact ⟨hsent, hid, hdocument, hcursor'.trans hcursor.symm, hepoch'.trans hepoch.symm⟩
      | committed connection update answer =>
        exact fun outcome houtcome => hmirrored _ (h outcome houtcome)
      | compacting snapshot => exact ⟨hmirrored room h.1, h.2.trans hdurable.symm⟩
      | compacted snapshot done => exact hmirrored room h

namespace RoomManager

structure Inv (m : Meaning G Op) (digests : Digests) (sent : Set Bytes) (manager : RoomManager G) :
    Prop where
  locked : ∀ (slot : Nat) (cell : RoomSlot G), manager.slots[slot]? = some cell → cell.Locked
  single : ∀ (slot slot' : Nat) (cell cell' : RoomSlot G), manager.slots[slot]? = some cell →
    manager.slots[slot']? = some cell' → cell.Live → cell'.Live → slot = slot'
  positive : 0 < manager.rows.nextCursor
  inTable : manager.present = true → ∀ (slot : Nat) (cell : RoomSlot G),
    manager.slots[slot]? = some cell → cell.Live → manager.rooms = some slot
  kept : manager.present = true → manager.rows.Kept m digests sent
  synced : manager.present = true → ∀ (slot : Nat) (cell : RoomSlot G),
    manager.slots[slot]? = some cell → cell.Synced m digests sent manager.rows

variable {manager manager' : RoomManager G} {slot : Nat} {old cell : RoomSlot G}

theorem getElem?_put {slot' : Nat} {cell' : RoomSlot G} (hold : manager.slots[slot]? = some old)
    (h : (manager.slots.set slot cell)[slot']? = some cell') :
    slot' = slot ∧ cell' = cell ∨ slot' ≠ slot ∧ manager.slots[slot']? = some cell' := by
  by_cases hslot : slot' = slot
  · subst hslot
    rw [List.getElem?_set_self (List.getElem?_eq_some_iff.mp hold).1] at h
    exact .inl ⟨rfl, (Option.some.inj h).symm⟩
  · rw [List.getElem?_set_ne (Ne.symm hslot)] at h
    exact .inr ⟨hslot, h⟩

/-- A step of what is in one slot. It becomes live only where nothing else is, and writes rows
only where it was live. -/
theorem Inv.put (h : manager.Inv m digests sent) (hold : manager.slots[slot]? = some old)
    {rows : StoredGraph} (hlocked : cell.Locked)
    (hlive : cell.Live → old.Live ∨ (manager.present = true → manager.rooms = some slot) ∧
      ∀ (slot' : Nat) (cell' : RoomSlot G), manager.slots[slot']? = some cell' → ¬cell'.Live)
    (hrows : rows = manager.rows ∨ old.Live) (hpositive : 0 < rows.nextCursor)
    (hkept : manager.present = true → rows.Kept m digests sent)
    (hsynced : manager.present = true → cell.Synced m digests sent rows) :
    Inv m digests sent { manager with slots := manager.slots.set slot cell, rows := rows } := by
  refine ⟨fun slot' cell' h' => ?_, fun a b cell₁ cell₂ ha hb hlive₁ hlive₂ => ?_, hpositive,
    fun hpresent slot' cell' h' hlive' => ?_, hkept, fun hpresent slot' cell' h' => ?_⟩
  · rcases getElem?_put hold h' with ⟨_, rfl⟩ | ⟨_, hother⟩
    · exact hlocked
    · exact h.locked slot' cell' hother
  · rcases getElem?_put hold ha with ⟨rfl, rfl⟩ | ⟨_, ha'⟩ <;>
      rcases getElem?_put hold hb with ⟨rfl, rfl⟩ | ⟨_, hb'⟩
    · rfl
    · rcases hlive hlive₁ with hlive | ⟨_, hnone⟩
      · exact h.single _ _ _ _ hold hb' hlive hlive₂
      · exact absurd hlive₂ (hnone _ _ hb')
    · rcases hlive hlive₂ with hlive | ⟨_, hnone⟩
      · exact h.single _ _ _ _ ha' hold hlive₁ hlive
      · exact absurd hlive₁ (hnone _ _ ha')
    · exact h.single _ _ _ _ ha' hb' hlive₁ hlive₂
  · rcases getElem?_put hold h' with ⟨rfl, rfl⟩ | ⟨_, hother⟩
    · rcases hlive hlive' with hlive | ⟨htable, _⟩
      · exact h.inTable hpresent _ _ hold hlive
      · exact htable hpresent
    · exact h.inTable hpresent _ _ hother hlive'
  · rcases getElem?_put hold h' with ⟨rfl, rfl⟩ | ⟨hne, hother⟩
    · exact hsynced hpresent
    · rcases hrows with rfl | hlive
      · exact h.synced hpresent _ _ hother
      · refine RoomSlot.synced_of_not_live rows (h.locked _ _ hother) fun hlive' => hne ?_
        exact h.single _ _ _ _ hother hold hlive' hlive

/-- A step of one slot that leaves the rows alone, and is live only where it was. -/
theorem Inv.put_same (h : manager.Inv m digests sent) (hold : manager.slots[slot]? = some old)
    (hlocked : cell.Locked) (hlive : cell.Live → old.Live)
    (hsynced : manager.present = true → cell.Synced m digests sent manager.rows) :
    Inv m digests sent (manager.put slot cell) :=
  h.put hold hlocked (fun hcell => .inl (hlive hcell)) (.inl rfl) h.positive h.kept hsynced

/-- What the invariant does not see. -/
theorem Inv.congr (h : manager.Inv m digests sent) (hrows : manager'.rows = manager.rows)
    (hpresent : manager'.present = manager.present) (hslots : manager'.slots = manager.slots)
    (hrooms : manager'.rooms = manager.rooms) : manager'.Inv m digests sent := by
  obtain ⟨rows, present, slots, rooms, evictions, deletions, revocations, departed⟩ := manager
  obtain ⟨rows', present', slots', rooms', evictions', deletions', revocations', departed'⟩ :=
    manager'
  obtain rfl : rows' = rows := hrows
  obtain rfl : present' = present := hpresent
  obtain rfl : slots' = slots := hslots
  obtain rfl : rooms' = rooms := hrooms
  exact ⟨h.locked, h.single, h.positive, h.inTable, h.kept, h.synced⟩

/-! ## Steps -/

theorem Inv.reserve (h : manager.Inv m digests sent) (hrooms : manager.rooms = none) :
    Inv m digests sent { manager with
      slots := manager.slots ++ [.empty]
      rooms := some manager.slots.length } := by
  have hcell : ∀ {slot : Nat} {cell : RoomSlot G},
      (manager.slots ++ [.empty])[slot]? = some cell →
        manager.slots[slot]? = some cell ∨ cell = .empty := by
    intro slot cell hcell
    rw [List.getElem?_append] at hcell
    split at hcell
    · exact .inl hcell
    · exact .inr (List.mem_singleton.mp (List.mem_of_getElem? hcell))
  refine ⟨fun slot cell hslot => ?_, fun slot slot' cell cell' hslot hslot' hlive hlive' => ?_,
    h.positive, fun hpresent slot cell hslot hlive => ?_, h.kept,
    fun hpresent slot cell hslot => ?_⟩
  · rcases hcell hslot with hslot | rfl
    · exact h.locked _ _ hslot
    · trivial
  · rcases hcell hslot with hslot | rfl
    · rcases hcell hslot' with hslot' | rfl
      · exact h.single _ _ _ _ hslot hslot' hlive hlive'
      · exact hlive'.elim
    · exact hlive.elim
  · rcases hcell hslot with hslot | rfl
    · have hsome := h.inTable hpresent _ _ hslot hlive
      rw [hrooms] at hsome
      cases hsome
    · exact hlive.elim
  · rcases hcell hslot with hslot | rfl
    · exact h.synced hpresent _ _ hslot
    · trivial

/-- The table loses a slot that is not live, or the graph is gone. -/
theorem Inv.remove (h : manager.Inv m digests sent)
    (horderly : manager.present = true → ∀ slot, manager.rooms = some slot →
      ∀ cell : RoomSlot G, manager.slots[slot]? = some cell → ¬cell.Live) :
    Inv m digests sent { manager with rooms := none } where
  locked := h.locked
  single := h.single
  positive := h.positive
  inTable hpresent slot cell hslot hlive :=
    absurd hlive (horderly hpresent slot (h.inTable hpresent slot cell hslot hlive) cell hslot)
  kept := h.kept
  synced := h.synced

/-- The rows that are read are those of the slot in the table, where nothing is live yet. -/
theorem Inv.loaded (h : manager.Inv m digests sent) {room : Room G}
    (hold : manager.slots[slot]? = some (.loading none)) (hpresent : manager.present = true)
    (htable : manager.rooms = some slot) (hroom : Mirrored m room manager.rows) :
    Inv m digests sent (manager.put slot (.loading (some room))) := by
  refine h.put hold trivial (fun _ => .inr ⟨fun _ => htable, fun slot' cell' hslot' hlive' => ?_⟩)
    (.inl rfl) h.positive h.kept fun _ loaded hloaded => ?_
  · obtain rfl : slot' = slot :=
      Option.some.inj ((h.inTable hpresent slot' cell' hslot' hlive').symm.trans htable)
    obtain rfl := Option.some.inj (hold.symm.trans hslot')
    cases hlive'
  · obtain rfl := Option.some.inj hloaded
    exact hroom

theorem mirrored_of_load (hlib : lib.Lawful m) {faults : Faults} {room : Room G}
    (hload : manager.load lib digests config faults = .ok room) :
    manager.present = true ∧ Mirrored m room manager.rows := by
  unfold load at hload
  split at hload
  · next hpresent => exact ⟨hpresent, mirrored_of_loadRoom hlib hload⟩
  · cases hload

/-- A submission that gives up its room leaves it invalid. -/
theorem Inv.giveUp (h : manager.Inv m digests sent) (hold : manager.slots[slot]? = some old)
    (s : Site G) : (manager.giveUp slot s).Inv m digests sent := by
  have hput : Inv m digests sent (manager.put slot (.ready (s.invalidateRoom .storageUnavailable).room
      none)) := h.put_same hold trivial nofun fun _ => nofun
  exact hput.congr rfl rfl rfl rfl

theorem Inv.leave (h : manager.Inv m digests sent) {room : Room G} {work work' : Option (Work G)}
    {s : Site G} (hold : manager.slots[slot]? = some (.ready room work))
    (hvalid : s.room.valid = room.valid) (hlocked : work'.isSome = true → room.valid = true)
    (hsynced : manager.present = true → RoomSlot.Synced m digests sent manager.rows
      (.ready s.room work')) : (manager.leave slot s work').Inv m digests sent := by
  have hput : Inv m digests sent (manager.put slot (.ready s.room work')) := by
    refine h.put_same hold ?_ ?_ hsynced
    · cases work' with
      | none => trivial
      | some work' => exact hvalid.trans (hlocked rfl)
    · intro hlive
      exact hvalid.symm.trans hlive
  exact hput.congr rfl rfl rfl rfl

/-- What became of the rows in a transaction. -/
theorem transact_cases {γ : Type} {fault : Option Fault}
    {transaction : StoredGraph → Except StoreError (γ × StoredGraph)}
    {answer : Except StoreError γ}
    (htransact : manager.transact fault transaction = (answer, manager')) :
    (manager' = manager ∧ ∃ error, answer = .error error) ∨
      ∃ value rows, manager.present = true ∧ transaction manager.rows = .ok (value, rows) ∧
        manager' = { manager with rows := rows } ∧ ∀ value', answer = .ok value' → value' = value := by
  unfold transact at htransact
  split at htransact
  · next hpresent =>
    split at htransact
    · obtain ⟨rfl, rfl⟩ := Prod.mk.inj htransact
      exact .inl ⟨rfl, _, rfl⟩
    · next value rows hok =>
      obtain ⟨rfl, rfl⟩ := Prod.mk.inj htransact
      exact .inr ⟨value, rows, hpresent, hok, rfl, fun _ h => (Except.ok.inj h).symm⟩
    · obtain ⟨rfl, rfl⟩ := Prod.mk.inj htransact
      exact .inl ⟨rfl, _, rfl⟩
    · next value rows hok =>
      obtain ⟨rfl, rfl⟩ := Prod.mk.inj htransact
      exact .inr ⟨value, rows, hpresent, hok, rfl, nofun⟩
  · obtain ⟨rfl, rfl⟩ := Prod.mk.inj htransact
    exact .inl ⟨rfl, _, rfl⟩

theorem Inv.commit (hinjective : Set.InjOn digests.contentId sent)
    (h : manager.Inv m digests sent) {room : Room G} {connection : RoomConnection} {update : Update}
    {fault : Option Fault} {answer : Except StoreError CommitOutcome}
    (hold : manager.slots[slot]? = some (.ready room (some (.committing connection update))))
    (htransact : manager.transact fault (fun rows => rows.commitUpdate digests
      connection.accountId update.messageId update.bytes) = (answer, manager')) :
    Inv m digests sent
      (manager'.put slot (.ready room (some (.committed connection update answer)))) := by
  have hvalid : room.valid = true := h.locked _ _ hold
  rcases transact_cases htransact with ⟨rfl, error, rfl⟩ |
    ⟨outcome, rows, hpresent, hcommit, rfl, hanswer⟩
  · exact h.put_same hold hvalid (fun _ => hvalid) fun _ => nofun
  · obtain ⟨hsent, hid, hdocument, hcursor, hepoch⟩ := h.synced hpresent _ _ hold
    obtain ⟨hkept, hepoch', hdurable, hpositive, hlatest⟩ :=
      commitUpdate_cases hinjective (h.kept hpresent) hsent hid hcommit
    refine h.put hold hvalid (fun _ => .inl hvalid) (.inr hvalid) (Nat.pos_of_ne_zero hpositive)
      (fun _ => hkept) fun _ outcome' houtcome => ?_
    obtain rfl := hanswer outcome' houtcome
    rw [← hdurable] at hdocument
    cases outcome' with
    | inserted cursor => exact ⟨hdocument, hlatest.symm, hepoch.trans hepoch'.symm⟩
    | duplicate cursor =>
      exact ⟨hdocument, hcursor.trans hlatest.symm, hepoch.trans hepoch'.symm⟩

theorem Inv.compact (hinjective : Set.InjOn digests.contentId sent)
    (h : manager.Inv m digests sent) {room : Room G} {snapshot : Bytes} {schema : Nat}
    {fault : Option Fault} {answer : Except StoreError Unit}
    (hold : manager.slots[slot]? = some (.ready room (some (.compacting snapshot))))
    (htransact : manager.transact fault (fun rows => (rows.compactCheckpoint digests
      room.historyEpoch room.cursor schema snapshot).map fun rows => ((), rows)) =
        (answer, manager')) :
    Inv m digests sent
      (manager'.put slot (.ready room (some (.compacted snapshot answer.toBool)))) := by
  have hvalid : room.valid = true := h.locked _ _ hold
  rcases transact_cases htransact with ⟨rfl, error, rfl⟩ |
    ⟨_, rows, hpresent, hcompact, rfl, _⟩
  · exact h.put_same hold hvalid (fun _ => hvalid) fun hpresent =>
      (h.synced hpresent _ _ hold).1
  · obtain ⟨hmirrored, hsnapshot⟩ := h.synced hpresent _ _ hold
    rw [hmirrored.cursor] at hcompact
    cases hrows : manager.rows.compactCheckpoint digests room.historyEpoch
        manager.rows.latestCursor schema snapshot with
    | error error =>
      rw [hrows] at hcompact
      cases hcompact
    | ok rows' =>
      rw [hrows] at hcompact
      obtain rfl : rows' = rows := congrArg Prod.snd (Except.ok.inj hcompact)
      obtain ⟨hkept, hepoch, hdurable, hpositive, hlatest⟩ :=
        compactCheckpoint_cases hinjective (h.kept hpresent) hsnapshot hrows
      exact h.put hold hvalid (fun _ => .inl hvalid) (.inr hvalid) (Nat.pos_of_ne_zero hpositive)
        (fun _ => hkept) fun _ => ⟨hmirrored.document.trans hdurable.symm,
          hmirrored.cursor.trans hlatest.symm, hmirrored.historyEpoch.trans hepoch.symm⟩

/-- The holder of a lock goes on with what it was answered. -/
theorem Inv.resume (hlib : lib.Lawful m) (h : manager.Inv m digests sent) {room : Room G}
    {work : Work G} (hold : manager.slots[slot]? = some (.ready room (some work)))
    (hresume : manager.resume lib config slot room work = some manager') :
    manager'.Inv m digests sent := by
  have hvalid : room.valid = true := h.locked _ _ hold
  unfold RoomManager.resume at hresume
  split at hresume
  · next restored =>
    split at hresume
    · obtain rfl := Option.some.inj hresume
      refine h.put_same hold trivial (fun _ => hvalid) fun hpresent _ => ?_
      have hmirrored := h.synced hpresent _ _ hold restored rfl
      exact ⟨hmirrored.document, hmirrored.cursor, hmirrored.historyEpoch⟩
    · obtain rfl := Option.some.inj hresume
      exact h.giveUp hold _
  · obtain rfl := Option.some.inj hresume
    exact h.giveUp hold _
  · obtain rfl := Option.some.inj hresume
    exact h.giveUp hold _
  · next connection update outcome =>
    obtain ⟨hsame, hwork⟩ := same_announce lib config connection update
      outcome (manager.site room)
    dsimp only at hresume
    obtain rfl := Option.some.inj hresume
    refine h.leave hold (hsame.valid.trans ?_) (fun _ => hvalid) fun hpresent => ?_
    · cases outcome <;> rfl
    · have hmirrored := (h.synced hpresent _ _ hold outcome rfl).same hsame
      generalize announce lib config connection update outcome (manager.site room) = announced
        at hsame hwork hmirrored
      obtain ⟨s, work⟩ := announced
      cases work with
      | none => exact fun _ => hmirrored
      | some work =>
        obtain ⟨snapshot, rfl, hsnapshot⟩ := hwork work rfl
        refine ⟨hmirrored, ?_⟩
        rw [hlib.exportSnapshot _ _ hsnapshot, ← hmirrored.document]
        exact congrArg m.ops hsame.graph.symm
  · obtain rfl := Option.some.inj hresume
    exact h.put_same hold trivial (fun _ => hvalid) fun hpresent _ => h.synced hpresent _ _ hold
  · obtain rfl := Option.some.inj hresume
    refine h.put_same hold trivial (fun _ => hvalid) fun hpresent _ => ?_
    have hmirrored : Mirrored m room manager.rows := h.synced hpresent _ _ hold
    exact ⟨hmirrored.document, hmirrored.cursor, hmirrored.historyEpoch⟩
  · cases hresume

theorem Inv.visit (h : manager.Inv m digests sent) {room : Room G} (visit : Visit)
    (hold : manager.slots[slot]? = some (.ready room none)) :
    (manager.leave slot (visit.run lib config (manager.site room)) none).Inv m digests sent := by
  have hsame := same_visit lib config visit (manager.site room)
  refine h.leave hold hsame.valid nofun fun hpresent hvalid => ?_
  exact (h.synced hpresent _ _ hold (hsame.valid.symm.trans hvalid)).same hsame

theorem Inv.submit (hlib : lib.Lawful m) (h : manager.Inv m digests sent) {room : Room G}
    (membership : Except StoreError Membership) (connection : RoomConnection) {update : Update}
    (hsent : update.bytes ∈ sent) (hold : manager.slots[slot]? = some (.ready room none)) :
    (manager.submit lib digests config slot room membership connection update).Inv m digests sent := by
  unfold RoomManager.submit
  cases hcheck : checkUpdate lib digests config membership connection update room with
  | error error => exact h
  | ok _ =>
    obtain ⟨_, hid, _, hvalid, _⟩ := checkUpdate_ok hcheck
    dsimp only
    refine h.put_same hold hvalid (fun _ => hvalid) fun hpresent => ?_
    have hmirrored := h.synced hpresent _ _ hold hvalid
    cases hadmitted : (lib.admitUpdate room.graph update.bytes).1 with
    | false => exact ⟨hmirrored.cursor, hmirrored.historyEpoch⟩
    | true =>
      refine ⟨hsent, hid, ?_, hmirrored.cursor, hmirrored.historyEpoch⟩
      rw [← hmirrored.document]
      exact hlib.admitUpdate _ _ _ (Prod.ext hadmitted rfl)

/-- Nothing of a graph is left when it is created. -/
theorem Inv.create (h : manager.Inv m digests sent) (hnone : ∀ cell ∈ manager.slots, ¬cell.Live)
    (schemaVersion byteQuota : Nat) (snapshot : Bytes) (members : String → Option MemberRow) :
    Inv m digests sent { manager with
      rows := (GraphRows.create digests schemaVersion byteQuota snapshot members
        manager.rows.nextCursor).store
      present := true } where
  locked := h.locked
  single := h.single
  positive := h.positive
  inTable _ _ cell hslot hlive := absurd hlive (hnone cell (List.mem_of_getElem? hslot))
  kept _ := StoredGraph.kept_create _ _ _ _ h.positive
  synced _ _ cell hslot :=
    RoomSlot.synced_of_not_live _ (h.locked _ _ hslot) (hnone cell (List.mem_of_getElem? hslot))

theorem Inv.delete (h : manager.Inv m digests sent) : Inv m digests sent { manager with present := false } where
  locked := h.locked
  single := h.single
  positive := h.positive
  inTable := nofun
  kept := nofun
  synced := nofun

theorem Inv.administer (h : manager.Inv m digests sent) (members : String → Option MemberRow)
    (status : GraphStatus) (byteQuota : Nat) : Inv m digests sent { manager with
      rows := { manager.rows with
        members := members, status := status, byteQuota := byteQuota } } where
  locked := h.locked
  single := h.single
  positive := h.positive
  inTable := h.inTable
  kept hpresent := by
    obtain ⟨⟨included, below⟩, ordered, epoch, updates, receipts⟩ := h.kept hpresent
    exact ⟨⟨included, below⟩, ordered, epoch, updates, receipts⟩
  synced hpresent slot cell hslot :=
    (h.synced hpresent slot cell hslot).rows rfl rfl rfl

theorem Inv.step_reserve (h : manager.Inv m digests sent)
    (hstep : manager.step lib digests config .reserve = some manager') :
    manager'.Inv m digests sent := by
  unfold RoomManager.step at hstep
  dsimp only at hstep
  split at hstep
  · cases hstep
  · next hrooms =>
    obtain rfl := Option.some.inj hstep
    exact h.reserve hrooms

theorem Inv.step_reconstruct (h : manager.Inv m digests sent)
    (hstep : manager.step lib digests config (.reconstruct slot) = some manager') :
    manager'.Inv m digests sent := by
  unfold RoomManager.step at hstep
  dsimp only at hstep
  split at hstep
  · next hold =>
    obtain rfl := Option.some.inj hstep
    exact h.put_same hold trivial nofun fun _ => nofun
  · cases hstep

theorem Inv.step_load (hlib : lib.Lawful m) (h : manager.Inv m digests sent) {faults : Faults}
    (horderly : manager.Orderly (.load slot faults))
    (hstep : manager.step lib digests config (.load slot faults) = some manager') :
    manager'.Inv m digests sent := by
  unfold RoomManager.step at hstep
  dsimp only at hstep
  split at hstep
  · next hold =>
    split at hstep
    · next room hload =>
      obtain rfl := Option.some.inj hstep
      obtain ⟨hpresent, hroom⟩ := mirrored_of_load hlib hload
      exact h.loaded hold hpresent (horderly hpresent hold) hroom
    · obtain rfl := Option.some.inj hstep
      exact h.put_same hold trivial nofun fun _ => trivial
  · next room hold =>
    obtain rfl := Option.some.inj hstep
    have hvalid : room.valid = true := h.locked _ _ hold
    exact h.put_same hold hvalid (fun _ => hvalid) fun _ restored hload =>
      (mirrored_of_load hlib hload).2
  · cases hstep

theorem Inv.step_fill (h : manager.Inv m digests sent)
    (hstep : manager.step lib digests config (.fill slot) = some manager') :
    manager'.Inv m digests sent := by
  unfold RoomManager.step at hstep
  dsimp only at hstep
  split at hstep
  · next room hold =>
    obtain rfl := Option.some.inj hstep
    exact h.put_same hold trivial (fun _ => rfl) fun hpresent _ =>
      h.synced hpresent _ _ hold room rfl
  · cases hstep

theorem Inv.step_visit (h : manager.Inv m digests sent) {visit : Visit}
    (hstep : manager.step lib digests config (.visit slot visit) = some manager') :
    manager'.Inv m digests sent := by
  unfold RoomManager.step at hstep
  dsimp only at hstep
  split at hstep
  · next room hold =>
    obtain rfl := Option.some.inj hstep
    exact h.visit visit hold
  · cases hstep

theorem Inv.step_submit (hlib : lib.Lawful m) (h : manager.Inv m digests sent)
    {membership : Except StoreError Membership} {connection : RoomConnection} {update : Update}
    (hsent : update.bytes ∈ sent)
    (hstep : manager.step lib digests config (.submit slot membership connection update) =
      some manager') : manager'.Inv m digests sent := by
  unfold RoomManager.step at hstep
  dsimp only at hstep
  split at hstep
  · next room hold =>
    obtain rfl := Option.some.inj hstep
    exact h.submit hlib membership connection hsent hold
  · cases hstep

theorem Inv.step_commit (hinjective : Set.InjOn digests.contentId sent)
    (h : manager.Inv m digests sent) {fault : Option Fault}
    (hstep : manager.step lib digests config (.commit slot fault) = some manager') :
    manager'.Inv m digests sent := by
  unfold RoomManager.step at hstep
  dsimp only at hstep
  split at hstep
  · next room connection update hold =>
    obtain rfl := Option.some.inj hstep
    exact h.commit hinjective hold rfl
  · cases hstep

theorem Inv.step_compact (hinjective : Set.InjOn digests.contentId sent)
    (h : manager.Inv m digests sent) {fault : Option Fault}
    (hstep : manager.step lib digests config (.compact slot fault) = some manager') :
    manager'.Inv m digests sent := by
  unfold RoomManager.step at hstep
  dsimp only at hstep
  split at hstep
  · next room snapshot hold =>
    obtain rfl := Option.some.inj hstep
    exact h.compact hinjective hold rfl
  · cases hstep

theorem Inv.step_resume (hlib : lib.Lawful m) (h : manager.Inv m digests sent)
    (hstep : manager.step lib digests config (.resume slot) = some manager') :
    manager'.Inv m digests sent := by
  unfold RoomManager.step at hstep
  dsimp only at hstep
  split at hstep
  · next room work hold => exact h.resume hlib hold hstep
  · cases hstep

theorem Inv.step_evict (h : manager.Inv m digests sent) (horderly : manager.Orderly .evict)
    (hstep : manager.step lib digests config .evict = some manager') :
    manager'.Inv m digests sent := by
  unfold RoomManager.step at hstep
  dsimp only at hstep
  split at hstep
  · obtain rfl := Option.some.inj hstep
    exact (h.remove horderly).congr rfl rfl rfl rfl
  · cases hstep

theorem Inv.step_create (h : manager.Inv m digests sent) {schemaVersion byteQuota : Nat}
    {snapshot : Bytes} {members : String → Option MemberRow}
    (horderly : manager.Orderly (.create schemaVersion byteQuota snapshot members))
    (hstep : manager.step lib digests config (.create schemaVersion byteQuota snapshot members) =
      some manager') : manager'.Inv m digests sent := by
  unfold RoomManager.step at hstep
  dsimp only at hstep
  split at hstep
  · cases hstep
  · obtain rfl := Option.some.inj hstep
    exact h.create horderly schemaVersion byteQuota snapshot members

theorem Inv.step_delete (h : manager.Inv m digests sent) {fault : Option Fault}
    (hstep : manager.step lib digests config (.delete fault) = some manager') :
    manager'.Inv m digests sent := by
  unfold RoomManager.step at hstep
  dsimp only at hstep
  split at hstep
  · split at hstep
    · obtain rfl := Option.some.inj hstep
      exact h.delete.congr rfl rfl rfl rfl
    · cases hstep
    · obtain rfl := Option.some.inj hstep
      exact h.delete
  · cases hstep

theorem Inv.step_take (h : manager.Inv m digests sent) (horderly : manager.Orderly .take)
    (hstep : manager.step lib digests config .take = some manager') :
    manager'.Inv m digests sent := by
  unfold RoomManager.step at hstep
  dsimp only at hstep
  split at hstep
  · obtain rfl := Option.some.inj hstep
    exact (h.remove horderly).congr rfl rfl rfl rfl
  · cases hstep

theorem Inv.step_revoke (h : manager.Inv m digests sent)
    (hstep : manager.step lib digests config (.revoke slot) = some manager') :
    manager'.Inv m digests sent := by
  unfold RoomManager.step at hstep
  dsimp only at hstep
  split at hstep
  · split at hstep
    · obtain rfl := Option.some.inj hstep
      exact h.congr rfl rfl rfl rfl
    · next room hold =>
      obtain rfl := Option.some.inj hstep
      have hput : Inv m digests sent
          (manager.put slot (.ready (manager.site room).revokeGraph.room none)) :=
        h.put_same hold trivial nofun fun _ => nofun
      exact hput.congr rfl rfl rfl rfl
    · cases hstep
  · cases hstep

/-- What an orderly step preserves. -/
theorem Inv.step (hlib : lib.Lawful m) (hinjective : Set.InjOn digests.contentId sent)
    (h : manager.Inv m digests sent) {action : ManagerAction} (horderly : manager.Orderly action)
    (hsubmits : ∀ bytes ∈ action.submitted, bytes ∈ sent)
    (hstep : manager.step lib digests config action = some manager') :
    manager'.Inv m digests sent := by
  cases action with
  | reserve => exact h.step_reserve hstep
  | reconstruct slot => exact h.step_reconstruct hstep
  | load slot faults => exact h.step_load hlib horderly hstep
  | fill slot => exact h.step_fill hstep
  | visit slot visit => exact h.step_visit hstep
  | submit slot membership connection update =>
    exact h.step_submit hlib (hsubmits _ (List.mem_singleton_self _)) hstep
  | commit slot fault => exact h.step_commit hinjective hstep
  | compact slot fault => exact h.step_compact hinjective hstep
  | resume slot => exact h.step_resume hlib hstep
  | evict => exact h.step_evict horderly hstep
  | create schemaVersion byteQuota snapshot members => exact h.step_create horderly hstep
  | delete fault => exact h.step_delete hstep
  | take => exact h.step_take horderly hstep
  | revoke slot => exact h.step_revoke hstep
  | administer members status byteQuota =>
    obtain rfl := Option.some.inj hstep
    exact h.administer members status byteQuota

/-! ## Runs -/

/-- A process that has just started. -/
theorem inv_start {rows : StoredGraph} {present : Bool} (hpositive : 0 < rows.nextCursor)
    (hkept : present = true → rows.Kept m digests sent) :
    Inv m digests sent { RoomManager.start (G := G) rows with present := present } := by
  have hnone : ∀ (slot : Nat) (cell : RoomSlot G),
      ([] : List (RoomSlot G))[slot]? = some cell → False := by
    intro slot cell hslot
    rw [List.getElem?_nil] at hslot
    cases hslot
  exact ⟨fun slot cell hslot => (hnone slot cell hslot).elim,
    fun slot _ cell _ hslot => (hnone slot cell hslot).elim, hpositive,
    fun _ slot cell hslot => (hnone slot cell hslot).elim, hkept,
    fun _ slot cell hslot => (hnone slot cell hslot).elim⟩

theorem inv_of_run (hlib : lib.Lawful m) (hinjective : Set.InjOn digests.contentId sent)
    (hrun : Run lib digests config True sent manager) : manager.Inv m digests sent := by
  induction hrun with
  | start rows positive => exact inv_start positive nofun
  | restart _ ih => exact inv_start ih.positive ih.kept
  | step _ action calm submits stepped ih =>
    exact ih.step hlib hinjective (calm trivial) submits stepped

/-- In every run of orderly steps at most one room of the graph is valid, and a valid room
that nobody has locked is what the durable rows reconstruct to. No two byte strings that are
submitted have one content identity. -/
theorem mirrors_of_run (hlib : lib.Lawful m) (hinjective : Set.InjOn digests.contentId sent)
    (hrun : Run lib digests config True sent manager) : Mirrors m manager := by
  have h := inv_of_run hlib hinjective hrun
  constructor
  · intro slot slot' room room' work work' hslot hslot' hvalid hvalid'
    exact h.single slot slot' _ _ hslot hslot' hvalid hvalid'
  · intro slot room hpresent hslot hvalid
    exact h.synced hpresent slot _ hslot hvalid

end RoomManager

/-! ## An eviction that comes late -/

def letter (b : UInt8) : Char :=
  ⟨b.toUInt32, .inl (by
    have h := b.toNat_lt
    rw [UInt8.toNat_toUInt32]
    omega)⟩

def spelled (bytes : Bytes) : String := String.ofList (bytes.map letter)

theorem spelled_injective : Function.Injective spelled := by
  intro bytes bytes' h
  refine List.map_injective_iff.mpr ?_ (String.ofList_injective h)
  intro b b' hb
  exact UInt8.toUInt32_inj.mp (congrArg Char.val hb)

def spelledDigests : Digests := ⟨spelled, fun _ => "sum"⟩

def RoomSlot.isValid : RoomSlot G → Bool
  | .ready room _ => room.valid
  | _ => false

theorem RoomSlot.ready_of_isValid {cell : RoomSlot G} (h : cell.isValid = true) :
    ∃ room work, cell = .ready room work ∧ room.valid = true := by
  cases cell with
  | empty => cases h
  | loading room => cases h
  | ready room work => exact ⟨room, work, rfl, h⟩

namespace RoomManager

/-- Steps one after another. -/
abbrev perform (actions : List ManagerAction) (manager : RoomManager (List Bytes)) :
    Option (RoomManager (List Bytes)) :=
  actions.foldlM (fun manager => manager.step logLib spelledDigests sampleConfig) manager

theorem run_perform {actions : List ManagerAction} {manager manager' : RoomManager (List Bytes)}
    (hrun : Run logLib spelledDigests sampleConfig False Set.univ manager)
    (h : perform actions manager = some manager') :
    Run logLib spelledDigests sampleConfig False Set.univ manager' := by
  induction actions generalizing manager with
  | nil =>
    obtain rfl : manager = manager' := Option.some.inj h
    exact hrun
  | cons action rest ih =>
    obtain ⟨next, hstep, hrest⟩ := Option.bind_eq_some_iff.mp h
    exact ih (hrun.step action nofun (fun _ _ => trivial) hstep) hrest

def editorAnswer : Except StoreError Membership := .ok ⟨.editor, 1, 9⟩

def openSlot (slot : Nat) : List ManagerAction :=
  [.reserve, .reconstruct slot, .load slot {}, .fill slot]

/-- A member enters the room, and submits an update. -/
def submitIn (slot : Nat) (bytes : Bytes) (fault : Option Fault) : List ManagerAction :=
  [.visit slot (.opening editorAnswer editorAnswer 0 ⟨"s", "editor", 0, [], true⟩),
    .submit slot editorAnswer ⟨"s", "editor", 1, 0⟩ ⟨0, spelled bytes, [], bytes⟩,
    .commit slot fault, .resume slot]

/-- A commit fails, and before the submission gets to evict its room the graph is deleted,
created again and opened. The eviction then hits the new room, and one more is opened. -/
def lateEviction : List ManagerAction :=
  [.create 9 1000 [0] fun _ => some ⟨.editor, 1⟩] ++ openSlot 0 ++
    submitIn 0 [7] (some .before) ++
    [.delete none, .take, .revoke 0, .create 9 1000 [1] fun _ => some ⟨.editor, 1⟩] ++
    openSlot 1 ++ [.evict] ++ openSlot 2

theorem slots_lateEviction :
    ((perform lateEviction (start sampleStore)).map fun manager =>
      manager.slots.map RoomSlot.isValid) = some [false, true, true] := by
  decide +kernel

/-- Two rooms of one graph are valid. -/
theorem not_mirrors_lateEviction : logLib.Lawful logMeaning ∧
    Function.Injective spelledDigests.contentId ∧
    ∃ manager, Run logLib spelledDigests sampleConfig False Set.univ manager ∧
      ¬Mirrors logMeaning manager := by
  obtain ⟨manager, hperform, hslots⟩ := Option.map_eq_some_iff.mp slots_lateEviction
  refine ⟨logLib_lawful, spelled_injective, manager,
    run_perform (.start sampleStore (by decide)) hperform, fun hmirrors => ?_⟩
  have hcell : ∀ slot : Nat, (manager.slots.map RoomSlot.isValid)[slot]? = some true →
      ∃ (room : Room (List Bytes)) (work : Option (Work (List Bytes))),
        manager.slots[slot]? = some (.ready room work) ∧ room.valid = true := by
    intro slot hslot
    rw [List.getElem?_map] at hslot
    obtain ⟨cell, hcell, hvalid⟩ := Option.map_eq_some_iff.mp hslot
    obtain ⟨room, work, rfl, hvalid⟩ := RoomSlot.ready_of_isValid hvalid
    exact ⟨room, work, hcell, hvalid⟩
  obtain ⟨room, work, hone, hvalid⟩ := hcell 1 (by rw [hslots]; rfl)
  obtain ⟨room', work', htwo, hvalid'⟩ := hcell 2 (by rw [hslots]; rfl)
  cases hmirrors.single 1 2 room room' work work' hone htwo hvalid hvalid'

end RoomManager

/-! ## Orderly lives -/

def RoomSlot.isLive : RoomSlot G → Bool
  | .empty => false
  | .loading room => room.isSome
  | .ready room _ => room.valid

theorem RoomSlot.not_live {cell : RoomSlot G} (h : (!cell.isLive) = true) : ¬cell.Live := by
  cases cell <;> simp_all [isLive, Live]

namespace RoomManager

def isOrderly (manager : RoomManager G) : ManagerAction → Bool
  | .create .. => manager.slots.all fun cell => !cell.isLive
  | .evict | .take => !manager.present ||
    (manager.rooms.bind fun slot => manager.slots[slot]?).all fun cell => !cell.isLive
  | .load slot _ => manager.rooms == some slot
  | _ => true

theorem orderly_of_isOrderly {manager : RoomManager G} {action : ManagerAction}
    (h : manager.isOrderly action = true) : manager.Orderly action := by
  have hremoves (hnot : (!manager.present || (manager.rooms.bind fun slot =>
      manager.slots[slot]?).all fun cell => !cell.isLive) = true) (hpresent : manager.present = true)
      (slot : Nat) (hslot : manager.rooms = some slot) (cell : RoomSlot G)
      (hcell : manager.slots[slot]? = some cell) : ¬cell.Live := by
    rw [hpresent, hslot, Option.bind_some, hcell] at hnot
    exact RoomSlot.not_live (by simpa using hnot)
  cases action with
  | create schemaVersion byteQuota snapshot members =>
    exact fun cell hcell => RoomSlot.not_live (List.all_eq_true.mp h cell hcell)
  | evict => exact hremoves h
  | take => exact hremoves h
  | load slot faults => exact fun _ _ => beq_iff_eq.mp h
  | _ => trivial

/-- An identity that tells only the first bytes apart. -/
def briefDigests : Digests := ⟨fun bytes => spelled (bytes.take 1), fun _ => "sum"⟩

def briefBytes : List Bytes := [[7], [8], [9]]

theorem briefDigests_injOn : Set.InjOn briefDigests.contentId {bytes | bytes ∈ briefBytes} := by
  have hbytes : ∀ a ∈ briefBytes, ∀ b ∈ briefBytes,
      briefDigests.contentId a = briefDigests.contentId b → a = b := by decide +kernel
  exact fun a ha b hb heq => hbytes a ha b hb heq

/-- Orderly steps one after another, which submit those bytes only. -/
abbrev performOrderly (actions : List ManagerAction) (manager : RoomManager (List Bytes)) :
    Option (RoomManager (List Bytes)) :=
  actions.foldlM (fun manager action =>
    if manager.isOrderly action = true ∧ ∀ bytes ∈ action.submitted, bytes ∈ briefBytes then
      manager.step logLib briefDigests sampleConfig action
    else none) manager

theorem run_performOrderly {actions : List ManagerAction}
    {manager manager' : RoomManager (List Bytes)}
    (hrun : Run logLib briefDigests sampleConfig True {bytes | bytes ∈ briefBytes} manager)
    (h : performOrderly actions manager = some manager') :
    Run logLib briefDigests sampleConfig True {bytes | bytes ∈ briefBytes} manager' := by
  induction actions generalizing manager with
  | nil =>
    obtain rfl : manager = manager' := Option.some.inj h
    exact hrun
  | cons action rest ih =>
    obtain ⟨next, hstep, hrest⟩ := Option.bind_eq_some_iff.mp h
    dsimp only at hstep
    split at hstep
    · next horderly =>
      exact ih (hrun.step action (fun _ => orderly_of_isOrderly horderly.1) horderly.2 hstep) hrest
    · cases hstep

/-- The answer to a commit is lost, its room is evicted, and the update is submitted to another
one again. -/
def firstLife : List ManagerAction :=
  [.create 9 1000 [0] fun _ => some ⟨.editor, 1⟩] ++ openSlot 0 ++ submitIn 0 [7] none ++
    submitIn 0 [8] (some .after) ++ [.evict] ++ openSlot 1 ++ submitIn 1 [8] none

/-- The graph is deleted and created again. -/
def secondLife : List ManagerAction :=
  [.delete none, .take, .revoke 1, .create 9 1000 [1] fun _ => some ⟨.editor, 1⟩] ++
    openSlot 2 ++ submitIn 2 [9] none

def glance (manager : RoomManager G) : List Bool × List Bytes :=
  (manager.slots.map RoomSlot.isValid, manager.rows.updates.map StoredUpdate.bytes)

theorem glance_firstLife : (performOrderly firstLife (start sampleStore)).map glance =
    some ([false, true], [[7], [8]]) := by
  decide +kernel

theorem glance_secondLife :
    ((performOrderly firstLife (start sampleStore)).bind (performOrderly secondLife)).map glance =
      some ([false, false, true], [[9]]) := by
  decide +kernel

/-- In both lives of a graph its room is in step with it. -/
theorem mirrors_of_run_reopened : ∃ first second : RoomManager (List Bytes),
    performOrderly firstLife (start sampleStore) = some first ∧
    performOrderly secondLife first = some second ∧
    first.glance = ([false, true], [[7], [8]]) ∧ Mirrors logMeaning first ∧
    second.glance = ([false, false, true], [[9]]) ∧ Mirrors logMeaning second := by
  obtain ⟨first, hfirst, hglance⟩ := Option.map_eq_some_iff.mp glance_firstLife
  have hsecond := glance_secondLife
  rw [hfirst, Option.bind_some] at hsecond
  obtain ⟨second, hsecond, hglance'⟩ := Option.map_eq_some_iff.mp hsecond
  have hrun := run_performOrderly (.start sampleStore (by decide)) hfirst
  exact ⟨first, second, hfirst, hsecond, hglance,
    mirrors_of_run logLib_lawful briefDigests_injOn hrun, hglance',
    mirrors_of_run logLib_lawful briefDigests_injOn (run_performOrderly hrun hsecond)⟩

end RoomManager

end Neoseq.Server
