import Neoseq.Local.Outbox

/-! What retention keeps in the browser while no row is corrupt: a row for every pending
record and for every update after the older checkpoint, so both checkpoints recover the same
document. -/

namespace Neoseq.Local
open Collections

variable {D E : Type} {lib : Library D E} {start : D} {log : List UpdateRecord}
  {graph graph' : BrowserGraph}

structure Retention (lib : Library D E) (start : D) (log : List UpdateRecord)
    (graph : BrowserGraph) : Prop where
  /-- A pending record carries its payload or refers to the row that has it. -/
  outbox : ∀ o ∈ graph.outbox,
    (∃ payload, o.payload = some payload ∧ o.messageId = lib.checksum payload) ∨
    ∃ u ∈ graph.updates, u.localSequence = o.localSequence ∧ u.checksum = o.messageId ∧
      lib.checksum u.bytes = o.messageId
  complete : ∀ c ∈ graph.checkpoints, ∀ u ∈ log, c.localSequence < u.localSequence →
    u ∈ graph.updates
  two : graph.checkpoints.length ≤ 2
  newest : ∃ newest, graph.checkpoints.head? = some newest ∧
    newest.localSequence = graph.metadata.compactedThrough ∧
    ∀ c ∈ graph.checkpoints, c.localSequence ≤ newest.localSequence
  drawn : (∀ u ∈ graph.updates, u.localSequence < graph.metadata.nextSequence) ∧
    (∀ c ∈ graph.checkpoints, c.localSequence < graph.metadata.nextSequence) ∧
    ∀ o ∈ graph.outbox, o.localSequence < graph.metadata.nextSequence
  tailBytes : graph.metadata.tailBytes = updateBytes graph.updates
  tailCount : graph.metadata.tailCount = graph.updates.length
  /-- Every checkpoint recovers the document of the log. -/
  recovers : ∀ c ∈ graph.checkpoints, ∃ base doc,
    lib.fromRecoverySnapshot graph.metadata.replicaId c.bytes = .ok base ∧
      replay lib base (graph.updatesAfter c.localSequence) = some doc ∧
      replay lib start log = some doc

/-! ## Rows of records -/

theorem find?_sequence {rows : List UpdateRecord}
    (h : Log.Ordered UpdateRecord.localSequence rows) {u : UpdateRecord} (hu : u ∈ rows) :
    rows.find? (fun r => r.localSequence = u.localSequence) = some u := by
  cases hfind : rows.find? fun r => r.localSequence = u.localSequence with
  | none => exact absurd (decide_eq_true rfl) (List.find?_eq_none.mp hfind u hu)
  | some r =>
    obtain ⟨hmem, heq⟩ := mem_of_find?_decide hfind
    rw [h.eq_of_key hmem hu heq]

/-- A record stands for the row of its sequence. -/
theorem Logged.delivers (h : Logged lib start log graph) {o : OutboxRecord}
    (hpayload : o.payload = none) {u : UpdateRecord} (hu : u ∈ graph.updates)
    (heq : u.localSequence = o.localSequence) (hsum : u.checksum = lib.checksum u.bytes) :
    Delivers lib graph o u.bytes := by
  refine .inr ⟨hpayload, u, ?_, rfl, hsum⟩
  rw [← heq]
  exact find?_sequence h.updates_ordered hu

/-- A settled outbox is so with any rows that leave those of its records. -/
theorem Settled.keep (hlogged : Logged lib start log graph') (h : Settled lib graph)
    (hrows : ∀ o ∈ graph'.outbox, o ∈ graph.outbox ∧ ∀ u ∈ graph.updates, o.payload = none →
      u.localSequence = o.localSequence → u.checksum = o.messageId → u ∈ graph'.updates) :
    Settled lib graph' := by
  intro o ho
  obtain ⟨hmem, hkept⟩ := hrows o ho
  obtain ⟨payload, hdelivers, hid⟩ := h o hmem
  rcases hdelivers with hp | ⟨hp, u, hu, hbytes, hsum⟩
  · exact ⟨payload, .inl hp, hid⟩
  · obtain ⟨hmem', heq⟩ := mem_of_find?_decide hu
    subst hbytes
    exact ⟨u.bytes, hlogged.delivers hp (hkept u hmem' hp heq (hsum.trans hid.symm)) heq hsum, hid⟩

theorem Settled.append (hlogged : Logged lib start log graph) (h : Settled lib graph)
    (htallied : Tallied lib graph) {payload : Bytes} {now : String} {outbox : Option Bytes}
    (hlogged' : Logged lib start (log ++ graph.inserted lib payload)
      (graph.appendUpdate lib payload now outbox).2) :
    Settled lib (graph.appendUpdate lib payload now outbox).2 := by
  -- the new record stands for the row of its bytes, whether or not that is new
  have hpend {updates : List UpdateRecord} {metadata : MetadataRecord} {sequence : Nat}
      (hnew : Logged lib start (log ++ graph.inserted lib payload)
        { graph with
          metadata := metadata
          updates := updates
          outbox := graph.pend (lib.checksum payload) sequence now outbox })
      (hsub : ∀ u ∈ graph.updates, u ∈ updates)
      (hrow : ∃ u ∈ updates, u.localSequence = sequence ∧ u.checksum = lib.checksum payload ∧
        u.checksum = lib.checksum u.bytes) :
      Settled lib { graph with
        metadata := metadata
        updates := updates
        outbox := graph.pend (lib.checksum payload) sequence now outbox } := by
    have hold (o : OutboxRecord) (ho : o ∈ graph.outbox) : ∃ bytes, Delivers lib
        { graph with
          metadata := metadata
          updates := updates
          outbox := graph.pend (lib.checksum payload) sequence now outbox } o bytes ∧
        o.messageId = lib.checksum bytes := by
      obtain ⟨bytes, hdelivers, hid⟩ := h o ho
      rcases hdelivers with hp | ⟨hp, u, hu, hbytes, hsum⟩
      · exact ⟨bytes, .inl hp, hid⟩
      · obtain ⟨hmem, heq⟩ := mem_of_find?_decide hu
        subst hbytes
        exact ⟨u.bytes, hnew.delivers hp (hsub u hmem) heq hsum, hid⟩
    intro o ho
    cases outbox with
    | none => exact hold o ho
    | some base =>
      rcases mem_putOutbox.mp ho with rfl | ⟨ho, _⟩
      · obtain ⟨u, hu, hsequence, hdigest, hsum⟩ := hrow
        exact ⟨u.bytes, hnew.delivers rfl hu hsequence hsum, hdigest.symm.trans hsum⟩
      · exact hold o ho
  rcases graph.append_cases lib payload with
    ⟨existing, hmem, hsum, hfind, _⟩ | ⟨hfind, _⟩
  · rw [BrowserGraph.appendUpdate_some hfind] at hlogged' ⊢
    exact hpend hlogged' (fun u hu => hu)
      ⟨existing, hmem, rfl, hsum, (of_decide_eq_true (htallied.intact existing hmem)).symm⟩
  · rw [BrowserGraph.appendUpdate_none hfind, putUpdate_last fun u hu => (hlogged.row_drawn hu).2]
      at hlogged' ⊢
    exact hpend hlogged' (fun u hu => List.mem_append_left _ hu)
      ⟨_, List.mem_append_right _ (List.mem_singleton_self _), rfl, rfl, rfl⟩

theorem Settled.acknowledgeOne (hlogged : Logged lib start log graph)
    (haddressed : Addressed lib graph) (h : Settled lib graph) {through : Nat}
    {messageId : String}
    (hlogged' : Logged lib start log (graph.acknowledgeOne through messageId)) :
    Settled lib (graph.acknowledgeOne through messageId) := by
  rcases graph.acknowledgeOne_cases through messageId with
    heq | ⟨record, hrecord, hid, hpos, _, update, hupdate, hsequence, heq⟩
  · rw [heq] at hlogged' ⊢
    exact h.keep hlogged' fun o ho => ⟨(List.mem_filter.mp ho).1, fun u hu _ _ _ => hu⟩
  · rw [heq] at hlogged' ⊢
    refine h.keep hlogged' fun o ho => ?_
    obtain ⟨ho, hne⟩ := List.mem_filter.mp ho
    have hne := of_decide_eq_true hne
    refine ⟨ho, fun u hu hp hsequence' hsum => List.mem_filter.mpr ⟨hu, decide_eq_true ?_⟩⟩
    -- the row that goes has the content id of the record that goes
    intro hsame
    have hrow : update.checksum = messageId := by
      rw [← hid]
      refine (haddressed.named record hrecord ?_).2 update hupdate hsequence
      cases hpayload : record.payload with
      | none => rfl
      | some payload =>
        have hzero := (haddressed.carried record hrecord payload hpayload).1
        omega
    have hu' : u = update :=
      hlogged.updates_ordered.eq_of_key hu hupdate (hsame.trans hsequence.symm)
    rw [hu', hrow] at hsum
    exact hne hsum.symm

/-! ## Counters -/

theorem updateBytes_append (rows : List UpdateRecord) (u : UpdateRecord) :
    updateBytes (rows ++ [u]) = updateBytes rows + u.bytes.length := by
  unfold updateBytes
  rw [List.map_append, List.sum_append, List.map_singleton, List.sum_singleton]

/-- Where a row goes the counters go down by its bytes. -/
theorem updateBytes_filter {rows : List UpdateRecord}
    (h : Log.Ordered UpdateRecord.localSequence rows) {u : UpdateRecord} (hu : u ∈ rows) :
    updateBytes (rows.filter fun r => decide (r.localSequence ≠ u.localSequence)) +
        u.bytes.length = updateBytes rows ∧
      (rows.filter fun r => decide (r.localSequence ≠ u.localSequence)).length + 1 =
        rows.length := by
  have hne : ∀ r ∈ rows, r ≠ u → r.localSequence ≠ u.localSequence :=
    fun r hr hne heq => hne (h.eq_of_key hr hu heq)
  obtain ⟨before, after, rfl⟩ := List.append_of_mem hu
  obtain ⟨_, hafter, hcross⟩ := List.pairwise_append.mp h
  have hbefore : ∀ r ∈ before, r.localSequence ≠ u.localSequence :=
    fun r hr => (hcross r hr u List.mem_cons_self).ne
  have hafter : ∀ r ∈ after, r.localSequence ≠ u.localSequence :=
    fun r hr => ((List.pairwise_cons.mp hafter).1 r hr).ne'
  rw [List.filter_append, List.filter_cons_of_neg (by simp),
    List.filter_eq_self.mpr fun r hr => decide_eq_true (hbefore r hr),
    List.filter_eq_self.mpr fun r hr => decide_eq_true (hafter r hr)]
  unfold updateBytes
  simp only [List.map_append, List.map_cons, List.sum_append, List.sum_cons, List.length_append,
    List.length_cons]
  omega

theorem Tallied.acknowledgeOne (hlogged : Logged lib start log graph) (h : Tallied lib graph)
    (through : Nat) (messageId : String) :
    Tallied lib (graph.acknowledgeOne through messageId) := by
  rcases graph.acknowledgeOne_cases through messageId with
    heq | ⟨record, _, _, _, _, update, hupdate, hsequence, heq⟩
  · rw [heq]
    exact ⟨h.intact, h.valid, h.newest, h.tailBytes, h.tailCount⟩
  · rw [heq, ← hsequence]
    obtain ⟨hbytes, hcount⟩ := updateBytes_filter hlogged.updates_ordered hupdate
    refine ⟨fun u hu => h.intact u (List.mem_filter.mp hu).1, h.valid, h.newest, ?_, ?_⟩
    · show graph.metadata.tailBytes - update.bytes.length = _
      rw [h.tailBytes, ← hbytes, Nat.add_sub_cancel]
    · show graph.metadata.tailCount - 1 = _
      rw [h.tailCount, ← hcount, Nat.add_sub_cancel]

theorem Tallied.append (hlogged : Logged lib start log graph) (h : Tallied lib graph)
    (payload : Bytes) (now : String) (outbox : Option Bytes) :
    Tallied lib (graph.appendUpdate lib payload now outbox).2 := by
  rcases graph.append_cases lib payload with
    ⟨existing, _, _, hfind, _⟩ | ⟨hfind, _⟩
  · rw [BrowserGraph.appendUpdate_some hfind]
    exact ⟨h.intact, h.valid, h.newest, h.tailBytes, h.tailCount⟩
  · rw [BrowserGraph.appendUpdate_none hfind, putUpdate_last fun u hu => (hlogged.row_drawn hu).2]
    refine ⟨fun u hu => ?_, h.valid, h.newest, ?_, ?_⟩
    · rcases List.mem_append.mp hu with hu | hu
      · exact h.intact u hu
      · rw [List.mem_singleton.mp hu]
        exact decide_eq_true rfl
    · show graph.metadata.tailBytes + payload.length = _
      rw [h.tailBytes, updateBytes_append]
    · show graph.metadata.tailCount + 1 = _
      rw [h.tailCount, List.length_append, List.length_singleton]

/-- A checkpoint that no other is above comes first. -/
theorem head?_retained {row : CheckpointRecord} {checkpoints : List CheckpointRecord}
    (h : ∀ c ∈ checkpoints, c.localSequence ≤ row.localSequence) :
    (retained (upsertCheckpoint row checkpoints)).head? = some row := by
  unfold retained upsertCheckpoint
  rw [List.filter_eq_nil_iff.mpr fun c hc hlt => ?_]
  · rfl
  · have hle := h c hc
    have hlt := of_decide_eq_true hlt
    omega

theorem Logged.le_newest (h : Logged lib start log graph) {newest : CheckpointRecord}
    (hnewest : graph.checkpoints.head? = some newest) :
    ∀ c ∈ graph.checkpoints, c.localSequence ≤ newest.localSequence := by
  intro c hc
  have hdescending := h.descending
  cases hcheckpoints : graph.checkpoints with
  | nil =>
    rw [hcheckpoints] at hc
    cases hc
  | cons first rest =>
    rw [hcheckpoints] at hnewest hdescending hc
    obtain rfl := Option.some.inj hnewest
    rcases List.mem_cons.mp hc with rfl | hc
    · exact le_rfl
    · exact ((List.pairwise_cons.mp hdescending).1 c hc).le

theorem Tallied.install (hlogged : Logged lib start log graph) (h : Tallied lib graph)
    {checkpoint : Bytes} {sequence schemaVersion : Nat}
    (hinstalled : graph.installCheckpoint lib checkpoint sequence schemaVersion = .ok graph') :
    Tallied lib graph' := by
  obtain ⟨_, hrange, hinstalled⟩ := bind_eq_ok.mp hinstalled
  obtain ⟨hlow, _⟩ := not_or.mp (refuse_eq_ok.mp hrange)
  obtain rfl := pure_eq_ok.mp hinstalled
  obtain ⟨newest, hnewest, hpointer⟩ := h.newest
  obtain ⟨_, _, hmem⟩ := retained_descending
    ⟨sequence, schemaVersion, lib.checksum checkpoint, checkpoint⟩ hlogged.descending
  refine ⟨fun u hu => h.intact u (List.mem_filter.mp hu).1, fun c hc => ?_,
    ⟨_, head?_retained fun c hc => ?_, ?_⟩, rfl, rfl⟩
  · rcases hmem c hc with rfl | hc
    · exact decide_eq_true rfl
    · exact h.valid c hc
  · have hle := hlogged.le_newest hnewest c hc
    show c.localSequence ≤ sequence
    omega
  · show sequence = max _ sequence
    omega

theorem tallied_replace (checkpoint : Bytes) (historyEpoch : Nat)
    (baseVersionVector rebasedTail : Bytes) (schemaVersion : Nat) (now : String) :
    Tallied lib (graph.replaceHistory lib checkpoint historyEpoch baseVersionVector rebasedTail
      schemaVersion now).2 := by
  have hcheckpoint : ∀ c ∈ [(⟨graph.metadata.nextSequence - 1, schemaVersion,
      lib.checksum checkpoint, checkpoint⟩ : CheckpointRecord)],
      lib.validChecksum c.checksum c.bytes = true := by
    intro c hc
    rw [List.mem_singleton.mp hc]
    exact decide_eq_true rfl
  cases rebasedTail with
  | nil => exact ⟨nofun, hcheckpoint, ⟨_, rfl, rfl⟩, rfl, rfl⟩
  | cons byte rest =>
    refine ⟨fun u hu => ?_, hcheckpoint, ⟨_, rfl, rfl⟩, rfl, rfl⟩
    rw [List.mem_singleton.mp hu]
    exact decide_eq_true rfl

/-! ## Runs -/

/-- What holds in every run without faults. -/
structure Kempt (lib : Library D E) (start : D) (log : List UpdateRecord)
    (graph : BrowserGraph) : Prop where
  logged : Logged lib start log graph
  addressed : Addressed lib graph
  tallied : Tallied lib graph
  settled : Settled lib graph

theorem Kempt.acknowledge (h : Kempt lib start log graph) (messageIds : List String) :
    Kempt lib start log (graph.acknowledge messageIds) := by
  unfold BrowserGraph.acknowledge
  have hthrough := (fallbackThrough_le graph.checkpoints graph.metadata.compactedThrough).2
  generalize BrowserGraph.fallbackThrough graph.checkpoints graph.metadata.compactedThrough =
    through at hthrough
  induction messageIds generalizing graph with
  | nil => exact h
  | cons messageId messageIds ih =>
    obtain ⟨hlogged, hcheckpoints⟩ := h.logged.acknowledgeOne hthrough messageId
    rw [List.foldl_cons]
    refine ih ⟨hlogged, h.addressed.acknowledgeOne through messageId,
      h.tallied.acknowledgeOne h.logged through messageId,
      h.settled.acknowledgeOne h.logged h.addressed hlogged⟩ ?_
    rw [hcheckpoints]
    exact hthrough

theorem kempt_imported {replicaId schemaVersion historyEpoch : Nat} {checkpoint : Bytes}
    {serverBase : Bool} {doc : D} (schema : supportsDocumentSchema schemaVersion = true)
    (hloads : lib.fromRecoverySnapshot replicaId checkpoint = .ok doc) :
    Kempt lib doc [] (BrowserGraph.installImportedGraph lib replicaId schemaVersion checkpoint
      historyEpoch serverBase) where
  logged := logged_imported schema hloads
  addressed := .of_empty rfl
  tallied := by
    refine ⟨nofun, fun c hc => ?_, ⟨_, rfl, rfl⟩, rfl, rfl⟩
    rw [List.mem_singleton.mp hc]
    exact decide_eq_true rfl
  settled := nofun

theorem kempt_created {replicaId : Nat} {snapshot : Bytes} {doc : D}
    (hloads : lib.fromRecoverySnapshot replicaId snapshot = .ok doc)
    (hinstalled : (BrowserGraph.opened replicaId).installCheckpoint lib snapshot 0 schemaVersion =
      .ok graph) : Kempt lib doc [] graph := by
  have hlogged := logged_created hloads hinstalled
  obtain ⟨_, _, hinstalled⟩ := bind_eq_ok.mp hinstalled
  obtain rfl := pure_eq_ok.mp hinstalled
  refine ⟨hlogged, .of_empty rfl, ⟨nofun, fun c hc => ?_, ⟨_, rfl, rfl⟩, rfl, rfl⟩, nofun⟩
  rw [List.mem_singleton.mp hc]
  exact decide_eq_true rfl

theorem Kempt.append (h : Kempt lib start log graph) {payload : Bytes} {now : String}
    {outbox : Option Bytes} (hmade : ∃ doc doc', replay lib start log = some doc ∧
      lib.importRecoveryUpdate doc payload = .ok doc') :
    Kempt lib start (log ++ graph.inserted lib payload)
      (graph.appendUpdate lib payload now outbox).2 :=
  ⟨h.logged.append hmade, h.addressed.append h.logged payload now outbox,
    h.tallied.append h.logged payload now outbox,
    h.settled.append h.logged h.tallied (h.logged.append hmade)⟩

theorem Kempt.install (h : Kempt lib start log graph) {checkpoint : Bytes}
    {sequence schemaVersion : Nat} (schema : supportsDocumentSchema schemaVersion = true)
    (hholds : Holds lib start log graph.metadata.replicaId sequence checkpoint)
    (hinstalled : graph.installCheckpoint lib checkpoint sequence schemaVersion = .ok graph') :
    Kempt lib start log graph' := by
  have hlogged := h.logged.install schema hholds hinstalled
  refine ⟨hlogged, h.addressed.install hinstalled, h.tallied.install h.logged hinstalled, ?_⟩
  obtain ⟨_, _, hinstalled⟩ := bind_eq_ok.mp hinstalled
  obtain rfl := pure_eq_ok.mp hinstalled
  refine h.settled.keep hlogged fun o ho => ⟨ho, fun u hu hp hsequence _ => ?_⟩
  -- the record pins its row
  have hpinned : u.localSequence ∈ BrowserGraph.pinned graph.outbox := by
    refine List.mem_filter.mpr ⟨List.mem_map.mpr ⟨o, ho, hsequence.symm⟩, decide_eq_true ?_⟩
    exact (h.logged.row_drawn hu).1
  refine List.mem_filter.mpr ⟨hu, Bool.or_eq_true_iff.mpr (.inr ?_)⟩
  exact List.contains_iff_mem.mpr hpinned

theorem Kempt.replace (h : Kempt lib start log graph) {checkpoint : Bytes} {historyEpoch : Nat}
    {baseVersionVector rebasedTail : Bytes} {schemaVersion : Nat} {now : String} {doc : D}
    (schema : supportsDocumentSchema schemaVersion = true)
    (hloads : lib.fromRecoverySnapshot graph.metadata.replicaId checkpoint = .ok doc)
    (hmade : rebasedTail ≠ [] → ∃ doc', lib.importRecoveryUpdate doc rebasedTail = .ok doc') :
    Kempt lib doc
      (if rebasedTail = [] then []
        else [⟨graph.metadata.nextSequence, lib.checksum rebasedTail, rebasedTail⟩])
      (graph.replaceHistory lib checkpoint historyEpoch baseVersionVector rebasedTail
        schemaVersion now).2 := by
  have hlogged : Logged lib doc _ (graph.replaceHistory lib checkpoint historyEpoch
    baseVersionVector rebasedTail schemaVersion now).2 := h.logged.replace schema hloads hmade
  refine ⟨hlogged, addressed_replace h.logged.next checkpoint historyEpoch baseVersionVector
    rebasedTail schemaVersion now, tallied_replace checkpoint historyEpoch baseVersionVector
    rebasedTail schemaVersion now, ?_⟩
  cases rebasedTail with
  | nil => exact nofun
  | cons byte rest =>
    intro o ho
    rw [List.mem_singleton.mp ho]
    exact ⟨byte :: rest, hlogged.delivers rfl (List.mem_singleton_self _) rfl rfl, rfl⟩

theorem kempt_of_history (h : BrowserHistory lib False start log graph) :
    Kempt lib start log graph := by
  induction h with
  | imported replicaId schemaVersion checkpoint historyEpoch serverBase schema loads =>
    exact kempt_imported schema loads
  | created replicaId loads installed => exact kempt_created loads installed
  | upgraded legacy normalized =>
    obtain ⟨hlogged, htallied, haddressed, hsettled⟩ := legacy.normalized normalized
    exact ⟨hlogged, haddressed, htallied, hsettled⟩
  | append _ payload now outbox made ih => exact ih.append made
  | acknowledge _ messageIds ih => exact ih.acknowledge messageIds
  | install _ checkpoint sequence schemaVersion schema holds installed ih =>
    exact ih.install schema holds installed
  | replace _ checkpoint historyEpoch baseVersionVector rebasedTail schemaVersion now schema loads
      made ih => exact ih.replace schema loads made
  | normalize _ ih =>
    rw [normalizeOutbox_of_settled ih.settled]
    exact ih
  | recover _ enabled _ => exact enabled.elim
  | strikeCheckpoint _ enabled _ _ _ _ => exact enabled.elim
  | strikeUpdate _ enabled _ _ _ _ => exact enabled.elim

/-! ## Retention -/

/-- Without faults every operation keeps what pending records and recoveries need. -/
theorem retention_of_history (h : BrowserHistory lib False start log graph) :
    Retention lib start log graph := by
  obtain ⟨hlogged, haddressed, htallied, hsettled⟩ := kempt_of_history h
  obtain ⟨kept, hsub, hrows, hafter⟩ := hlogged.rows
  obtain rfl := kept_eq_of_intact hrows htallied.intact
  obtain ⟨newest, hnewest, hpointer⟩ := htallied.newest
  constructor
  · intro o ho
    obtain ⟨payload, hdelivers, hid⟩ := hsettled o ho
    rcases hdelivers with hp | ⟨_, u, hu, hbytes, hsum⟩
    · exact .inl ⟨payload, hp, hid⟩
    · obtain ⟨hmem, heq⟩ := mem_of_find?_decide hu
      exact .inr ⟨u, hmem, heq, hsum.trans hid.symm, by rw [hbytes, hid]⟩
  · intro c hc u hu hlt
    have hmem := Log.mem_after.mpr ⟨hu, hlt⟩
    rw [← hafter c hc] at hmem
    exact (Log.mem_after.mp hmem).1
  · exact hlogged.two
  · exact ⟨newest, hnewest, hpointer, hlogged.le_newest hnewest⟩
  · refine ⟨fun u hu => (hlogged.row_drawn hu).2, fun c hc => (hlogged.covers c hc).drawn,
      fun o ho => ?_⟩
    cases hp : o.payload with
    | none => exact (haddressed.named o ho hp).1.2
    | some payload =>
      rw [(haddressed.carried o ho payload hp).1]
      exact hlogged.next
  · exact htallied.tailBytes
  · exact htallied.tailCount
  · intro c hc
    obtain ⟨base, hload, hbase⟩ := (hlogged.covers c hc).holds (htallied.valid c hc)
    obtain ⟨doc, hdoc⟩ := Option.isSome_iff_exists.mp hlogged.replays
    refine ⟨base, doc, hload, ?_, hdoc⟩
    show replay lib base (Log.after UpdateRecord.localSequence graph.updates c.localSequence) = _
    rw [hafter c hc, ← hdoc]
    conv_rhs => rw [← Log.upTo_append_after hlogged.ordered c.localSequence, replay_append, hbase]
    rfl

def pendingUpdate : UpdateRecord := ⟨1, byteLibrary.checksum [7], [7]⟩

/-- A graph with one update that waits for the server and that a checkpoint holds. -/
def pendingGraph : BrowserGraph where
  metadata := ⟨11, 0, 9, 2, 1, 1, 1, 1⟩
  checkpoints := [⟨1, 9, byteLibrary.checksum [7], [7]⟩, ⟨0, 9, byteLibrary.checksum [], []⟩]
  updates := [pendingUpdate]
  outbox := [⟨byteLibrary.checksum [7], 1, [], none, "2026-01-01T00:00:00Z"⟩]
  quarantine := []
  serverBase := true

theorem pendingGraph_history {faults : Prop} :
    BrowserHistory byteLibrary faults [] [pendingUpdate] pendingGraph := by
  have himported : BrowserHistory byteLibrary faults [] []
      (BrowserGraph.installImportedGraph byteLibrary 11 9 [] 0 true) :=
    .imported 11 9 [] 0 true rfl rfl
  have happended : BrowserHistory byteLibrary faults [] [pendingUpdate]
      ((BrowserGraph.installImportedGraph byteLibrary 11 9 [] 0 true).appendUpdate byteLibrary [7]
        "2026-01-01T00:00:00Z" (some [])).2 :=
    himported.append [7] "2026-01-01T00:00:00Z" (some []) ⟨[], [7], rfl, rfl⟩
  exact happended.install [7] 1 9 rfl ⟨[7], rfl, rfl⟩ rfl

theorem retention_acknowledged : Retention byteLibrary [] [pendingUpdate]
    (pendingGraph.acknowledge [byteLibrary.checksum [7]]) :=
  retention_of_history (pendingGraph_history.acknowledge _)

end Neoseq.Local
