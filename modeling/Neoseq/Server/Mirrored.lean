import Neoseq.Server.Delivered
import Neoseq.Server.Manager

/-! A room against the rows of its graph: what a commit and a compaction keep of the rows, and
a room in step with them. -/

namespace Neoseq.Server
open Collections
open Domain (schemaVersion)

variable {G Op : Type} {m : Meaning G Op} {rows rows' : StoredGraph} {digests : Digests}
  {sent : Set Bytes}

namespace StoredGraph

/-- The cursor that a reconstruction gives its room. -/
def latestCursor (rows : StoredGraph) : Nat :=
  (rows.tail.getLast?.map StoredUpdate.cursor).getD rows.checkpoint.includedCursor

/-- What the transactions keep of the rows where only the bytes in `sent` are submitted:
everything that is known of an update is in the durable document. -/
structure Kept (m : Meaning G Op) (digests : Digests) (sent : Set Bytes) (rows : StoredGraph) :
    Prop where
  numbered : rows.Numbered
  ordered : rows.updates.Pairwise fun a b => a.cursor < b.cursor
  epoch : rows.checkpoint.historyEpoch = rows.historyEpoch
  updates : ∀ u ∈ rows.updates,
    u.bytes ∈ sent ∧ digests.contentId u.bytes = u.messageId ∧ m.content u.bytes ⊆ durable m rows
  receipts : ∀ r ∈ rows.receipts, ∀ bytes ∈ sent, digests.contentId bytes = r.1 →
    m.content bytes ⊆ durable m rows

theorem Kept.latestCursor_lt (h : rows.Kept m digests sent) : rows.latestCursor < rows.nextCursor := by
  unfold latestCursor
  cases hlast : rows.tail.getLast? with
  | none => exact h.numbered.included
  | some u => exact h.numbered.updates u (mem_tail.mp (List.mem_of_getLast? hlast)).1

theorem Kept.cursor_le (h : rows.Kept m digests sent) {u : StoredUpdate} (hu : u ∈ rows.tail) :
    u.cursor ≤ rows.latestCursor := by
  have hordered : rows.tail.Pairwise fun a b => a.cursor < b.cursor :=
    h.ordered.sublist List.filter_sublist
  unfold latestCursor
  rcases List.eq_nil_or_concat rows.tail with hnil | ⟨first, last, htail⟩
  · rw [hnil] at hu
    cases hu
  · rw [List.concat_eq_append] at htail
    rw [htail] at hu hordered ⊢
    rw [List.getLast?_append, List.getLast?_singleton]
    show u.cursor ≤ last.cursor
    rcases List.mem_append.mp hu with hu | hu
    · exact ((List.pairwise_append.mp hordered).2.2 u hu last (List.mem_singleton_self _)).le
    · rw [List.mem_singleton.mp hu]

theorem latestCursor_of_loadGraph {load : GraphLoad} (h : rows.loadGraph digests = .ok load) :
    load.latestCursor = rows.latestCursor ∧ load.historyEpoch = rows.historyEpoch := by
  unfold loadGraph at h
  obtain ⟨_, _, h⟩ := bind_eq_ok.mp h
  obtain ⟨_, _, h⟩ := bind_eq_ok.mp h
  obtain ⟨_, _, h⟩ := bind_eq_ok.mp h
  rw [← pure_eq_ok.mp h]
  exact ⟨rfl, rfl⟩

/-- The rows of a new graph. -/
theorem kept_create (schemaVersion byteQuota : Nat) (snapshot : Bytes)
    (members : String → Option MemberRow) {nextCursor : Nat} (h : 0 < nextCursor) :
    (GraphRows.create digests schemaVersion byteQuota snapshot members nextCursor).store.Kept m
      digests sent :=
  ⟨⟨h, nofun⟩, List.Pairwise.nil, rfl, nofun, nofun⟩

end StoredGraph

open StoredGraph

/-! ## Transactions -/

/-- What a commit that is answered has done. -/
theorem commitUpdate_cases {account messageId : String} {bytes : Bytes} {outcome : CommitOutcome}
    (hinjective : Set.InjOn digests.contentId sent) (h : rows.Kept m digests sent)
    (hsent : bytes ∈ sent) (hid : digests.contentId bytes = messageId)
    (hcommit : rows.commitUpdate digests account messageId bytes = .ok (outcome, rows')) :
    rows'.Kept m digests sent ∧ rows'.historyEpoch = rows.historyEpoch ∧
      durable m rows' = durable m rows ∪ m.content bytes ∧
      rows'.nextCursor ≠ 0 ∧
      rows'.latestCursor = match outcome with
        | .inserted cursor => cursor
        | .duplicate _ => rows.latestCursor := by
  rcases commitUpdate_ok hcommit with ⟨hprior, hout, rfl⟩ | ⟨_, rfl, rfl⟩
  · have hsub : m.content bytes ⊆ durable m rows' := by
      have hretained : Retained rows' messageId := by
        by_contra hnone
        rw [priorCursor_eq_none.mpr hnone] at hprior
        cases hprior
      rcases hretained with ⟨u, hu, hmessage⟩ | ⟨r, hr, hmessage⟩
      · obtain ⟨hu', hcontent, hsub⟩ := h.updates u hu
        rw [hinjective hsent hu' ((hid.trans hmessage.symm).trans hcontent.symm)]
        exact hsub
      · exact h.receipts r hr bytes hsent (hid.trans hmessage.symm)
    refine ⟨h, rfl, (Set.union_eq_self_of_subset_right hsub).symm,
      (Nat.zero_lt_of_lt h.numbered.included).ne', ?_⟩
    cases outcome with
    | inserted cursor => cases hout
    | duplicate cursor => rfl
  · have hdurable : durable m (rows.insertUpdate messageId bytes) =
        durable m rows ∪ m.content bytes := durable_insertUpdate h.numbered messageId bytes
    have hkeeps : durable m rows ⊆ durable m (rows.insertUpdate messageId bytes) := by
      rw [hdurable]
      exact Set.subset_union_left
    refine ⟨⟨numbered_insertUpdate h.numbered messageId bytes, ?_, h.epoch, fun u hu => ?_,
      fun r hr bytes' hsent' hbytes => (h.receipts r hr bytes' hsent' hbytes).trans hkeeps⟩, rfl,
      hdurable,
      Nat.succ_ne_zero _, ?_⟩
    · refine List.pairwise_append.mpr ⟨h.ordered, List.pairwise_singleton _ _, fun a ha b hb => ?_⟩
      rw [List.mem_singleton.mp hb]
      exact h.numbered.updates a ha
    · rcases List.mem_append.mp hu with hu | hu
      · obtain ⟨hu', hcontent, hsub⟩ := h.updates u hu
        exact ⟨hu', hcontent, hsub.trans hkeeps⟩
      · rw [List.mem_singleton.mp hu]
        refine ⟨hsent, hid, ?_⟩
        rw [hdurable]
        exact Set.subset_union_right
    · have htail : (rows.insertUpdate messageId bytes).tail =
          rows.tail ++ [⟨rows.nextCursor, messageId, bytes⟩] := by
        show List.filter _ (rows.updates ++ [_]) = List.filter _ rows.updates ++ [_]
        rw [List.filter_append]
        congr 1
        exact List.filter_cons_of_pos (decide_eq_true h.numbered.included)
      unfold StoredGraph.latestCursor
      rw [htail, List.getLast?_append, List.getLast?_singleton]
      rfl

/-- A compaction of the durable document at its cursor. -/
theorem compactCheckpoint_cases {epoch schema : Nat} {snapshot : Bytes}
    (hinjective : Set.InjOn digests.contentId sent) (h : rows.Kept m digests sent)
    (hsnapshot : m.content snapshot = durable m rows)
    (hcompact : rows.compactCheckpoint digests epoch rows.latestCursor schema snapshot =
      .ok rows') :
    rows'.Kept m digests sent ∧ rows'.historyEpoch = rows.historyEpoch ∧
      durable m rows' = durable m rows ∧ rows'.nextCursor ≠ 0 ∧
      rows'.latestCursor = rows.latestCursor := by
  have hdurable := durable_compactCheckpoint hsnapshot hcompact
  have hnumbered := numbered_compactCheckpoint h.numbered h.latestCursor_lt hcompact
  unfold StoredGraph.compactCheckpoint at hcompact
  obtain ⟨_, hepoch, hcompact⟩ := bind_eq_ok.mp hcompact
  obtain ⟨_, _, hcompact⟩ := bind_eq_ok.mp hcompact
  obtain ⟨_, _, hcompact⟩ := bind_eq_ok.mp hcompact
  obtain rfl := pure_eq_ok.mp hcompact
  refine ⟨⟨hnumbered, h.ordered.sublist List.filter_sublist,
    (not_not.mp (refuse_eq_ok.mp hepoch)).symm, fun u hu => ?_,
    fun r hr bytes hsent hbytes => ?_⟩, rfl, hdurable,
    (Nat.zero_lt_of_lt hnumbered.included).ne', ?_⟩
  · rw [hdurable]
    exact h.updates u (List.mem_of_mem_filter hu)
  · rw [hdurable]
    rcases mem_receiptsUpTo hr with hr | ⟨u, hu, rfl⟩
    · exact h.receipts r hr bytes hsent hbytes
    · obtain ⟨hu', hcontent, hsub⟩ := h.updates u hu
      rw [hinjective hsent hu' (hbytes.trans hcontent.symm)]
      exact hsub
  · -- nothing is left after the cursor of the last update
    have htail : rows.tail.filter (fun u => decide (rows.latestCursor < u.cursor)) = [] := by
      refine List.filter_eq_nil_iff.mpr fun u hu => ?_
      rw [decide_eq_true_iff]
      exact not_lt.mpr (h.cursor_le hu)
    show ((rows.tail.filter _).getLast?.map StoredUpdate.cursor).getD _ = _
    rw [htail]
    rfl

/-! ## Rooms -/

/-- The room is what a reconstruction makes of the rows: the document of the checkpoint and
the updates after it, at the last cursor. -/
structure Mirrored (m : Meaning G Op) (room : Room G) (rows : StoredGraph) : Prop where
  document : m.ops room.graph = durable m rows
  cursor : room.cursor = rows.latestCursor
  historyEpoch : room.historyEpoch = rows.historyEpoch

variable {lib : GraphLib G} {config : RoomConfig} {room room' : Room G}

theorem mirrored_of_loadRoom (hlib : lib.Lawful m) {faults : Faults}
    (h : loadRoom lib digests config faults rows = .ok room) : Mirrored m room rows := by
  have hdocument : m.ops room.graph = durable m rows := ops_loadRoom hlib h
  unfold loadRoom at h
  obtain ⟨_, _, h⟩ := bind_eq_ok.mp h
  obtain ⟨load, hload, h⟩ := bind_eq_ok.mp h
  obtain ⟨_, _, h⟩ := bind_eq_ok.mp h
  obtain ⟨_, _, h⟩ := bind_eq_ok.mp h
  obtain ⟨_, _, h⟩ := bind_eq_ok.mp h
  obtain ⟨_, _, h⟩ := bind_eq_ok.mp h
  obtain ⟨_, _, h⟩ := bind_eq_ok.mp h
  obtain ⟨hcursor, hepoch⟩ := latestCursor_of_loadGraph (mapError_eq_ok.mp hload)
  obtain rfl := pure_eq_ok.mp h
  exact ⟨hdocument, hcursor, hepoch⟩

/-- Another room of the same document. -/
structure SameDocument (room room' : Room G) : Prop where
  graph : room'.graph = room.graph
  cursor : room'.cursor = room.cursor
  historyEpoch : room'.historyEpoch = room.historyEpoch
  valid : room'.valid = room.valid

theorem SameDocument.refl (room : Room G) : SameDocument room room := ⟨rfl, rfl, rfl, rfl⟩

theorem Mirrored.same (h : Mirrored m room rows) (hsame : SameDocument room room') :
    Mirrored m room' rows :=
  ⟨by rw [hsame.graph, h.document], hsame.cursor.trans h.cursor,
    hsame.historyEpoch.trans h.historyEpoch⟩

theorem same_visit (lib : GraphLib G) (config : RoomConfig) (visit : Visit) (s : Site G) :
    SameDocument s.room (visit.run lib config s).room := by
  cases visit with
  | opening first second channel request =>
    rcases run_openWithBaseStatus lib config first second channel request s with
      ⟨e, he⟩ | ⟨membership, payload, _, he⟩
    · rw [show Visit.run lib config (.opening first second channel request) s = s from
        congrArg Prod.snd he]
      exact .refl _
    · rw [show Visit.run lib config (.opening first second channel request) s = _ from
        congrArg Prod.snd he]
      exact ⟨rfl, rfl, rfl, rfl⟩
  | presence membership connection presence =>
    rcases run_relayPresence config membership connection presence s with he | he
    · rw [show Visit.run lib config (.presence membership connection presence) s = s from he]
      exact .refl _
    · rw [show Visit.run lib config (.presence membership connection presence) s = _ from he]
      exact ⟨rfl, rfl, rfl, rfl⟩
  | recheck membership connection =>
    rcases run_recheck membership connection s with he | he
    · rw [show Visit.run lib config (.recheck membership connection) s = s from he]
      exact .refl _
    · rw [show Visit.run lib config (.recheck membership connection) s = _ from he]
      unfold offerFarewell
      split <;> exact ⟨rfl, rfl, rfl, rfl⟩
  | disconnect connection => exact ⟨rfl, rfl, rfl, rfl⟩

theorem same_acknowledge (connection : RoomConnection) (update : Update) (cursor : Nat)
    (s : Site G) :
    SameDocument s.room ((acknowledge connection update cursor).run s).2.room := by
  unfold Edit.run acknowledge
  split
  · exact .refl _
  · split <;> exact ⟨rfl, rfl, rfl, rfl⟩

/-- What follows a commit gives messages away, and asks for a checkpoint of the document. -/
theorem same_announce (lib : GraphLib G) (config : RoomConfig) (connection : RoomConnection)
    (update : Update) (outcome : CommitOutcome) (s : Site G) :
    SameDocument (recordOutcome update outcome s.room)
        (RoomManager.announce lib config connection update outcome s).1.room ∧
      ∀ work, (RoomManager.announce lib config connection update outcome s).2 = some work →
        ∃ snapshot, work = .compacting snapshot ∧
          lib.exportSnapshot (recordOutcome update outcome s.room).graph = some snapshot := by
  unfold RoomManager.announce
  dsimp only
  have hsame := same_acknowledge connection update outcome.cursor
    { s with room := recordOutcome update outcome s.room }
  generalize (acknowledge connection update outcome.cursor).run
    { s with room := recordOutcome update outcome s.room } = acknowledged at hsame
  obtain ⟨result, t⟩ := acknowledged
  cases result with
  | error error => exact ⟨hsame, nofun⟩
  | ok _ =>
    cases outcome with
    | duplicate cursor => exact ⟨hsame, nofun⟩
    | inserted cursor =>
      refine ⟨⟨hsame.graph, hsame.cursor, hsame.historyEpoch, hsame.valid⟩, fun work hwork => ?_⟩
      dsimp only at hwork
      split at hwork
      · obtain ⟨snapshot, hsnapshot, rfl⟩ := Option.map_eq_some_iff.mp hwork
        refine ⟨snapshot, rfl, ?_⟩
        rw [← hsnapshot]
        exact congrArg lib.exportSnapshot hsame.graph.symm
      · cases hwork

end Neoseq.Server
