import Neoseq.Local.Stored

/-! The outbox of a browser graph. Its records are found by the content ids of what they
deliver, and stay so under every operation. -/

namespace Neoseq.Local
open Collections

variable {D E : Type} {lib : Library D E} {start : D} {log : List UpdateRecord}
  {graph graph' : BrowserGraph}

theorem mapM_eq_ok {ε α β : Type} {f : α → Except ε β} {xs : List α} {ys : List β} :
    xs.mapM f = .ok ys ↔ List.Forall₂ (fun x y => f x = .ok y) xs ys := by
  induction xs generalizing ys with
  | nil =>
    rw [List.mapM_nil, pure_eq_ok, List.forall₂_nil_left_iff]
    exact eq_comm
  | cons x xs ih =>
    rw [List.mapM_cons, bind_eq_ok, List.forall₂_cons_left_iff]
    constructor
    · intro ⟨y, hy, h⟩
      obtain ⟨rest, hrest, h⟩ := bind_eq_ok.mp h
      exact ⟨y, rest, hy, ih.mp hrest, (pure_eq_ok.mp h).symm⟩
    · intro ⟨y, rest, hy, hrest, heq⟩
      exact ⟨y, hy, bind_eq_ok.mpr ⟨rest, ih.mpr hrest, pure_eq_ok.mpr heq.symm⟩⟩

/-! ## Inspection -/

/-- The payload that a record of the outbox stands for. -/
def Delivers (lib : Library D E) (graph : BrowserGraph) (record : OutboxRecord)
    (payload : Bytes) : Prop :=
  record.payload = some payload ∨ record.payload = none ∧
    ∃ u, graph.updates.find? (fun u => u.localSequence = record.localSequence) = some u ∧
      u.bytes = payload ∧ u.checksum = lib.checksum payload

/-- Every record can be read and has its content id. -/
def Settled (lib : Library D E) (graph : BrowserGraph) : Prop :=
  ∀ record ∈ graph.outbox, ∃ payload,
    Delivers lib graph record payload ∧ record.messageId = lib.checksum payload

theorem resolveOutbox_eq_ok {record : OutboxRecord}
    {resolved : OutboxRecord × Bytes × Option String} :
    graph.resolveOutbox record = .ok resolved ↔
      (∃ payload, record.payload = some payload ∧ resolved = (record, payload, none)) ∨
      (record.payload = none ∧ ∃ u,
        graph.updates.find? (fun u => u.localSequence = record.localSequence) = some u ∧
          resolved = (record, u.bytes, some u.checksum)) := by
  unfold BrowserGraph.resolveOutbox
  cases record.payload with
  | some payload => simp [eq_comm]
  | none => cases graph.updates.find? fun u => u.localSequence = record.localSequence <;>
      simp [eq_comm]

theorem inspectResolved_eq_ok {record : OutboxRecord} {payload : Bytes} {stored : Option String}
    {inspected : InspectedOutboxRecord} :
    BrowserGraph.inspectResolved lib (record, payload, stored) = .ok inspected ↔
      inspected = ⟨record, payload, lib.checksum payload⟩ ∧
        ∀ digest, stored = some digest → digest = lib.checksum payload := by
  unfold BrowserGraph.inspectResolved
  cases stored with
  | none => simp [eq_comm]
  | some digest => by_cases h : digest = lib.checksum payload <;> simp [h, eq_comm]

theorem inspect_eq_ok {record : OutboxRecord} {inspected : InspectedOutboxRecord} :
    (graph.resolveOutbox record >>= BrowserGraph.inspectResolved lib) = .ok inspected ↔
      inspected.persisted = record ∧ Delivers lib graph record inspected.payload ∧
        inspected.contentId = lib.checksum inspected.payload := by
  rw [bind_eq_ok]
  constructor
  · intro ⟨resolved, hresolved, h⟩
    rcases resolveOutbox_eq_ok.mp hresolved with ⟨payload, hp, rfl⟩ | ⟨hp, u, hu, rfl⟩
    · obtain ⟨rfl, _⟩ := inspectResolved_eq_ok.mp h
      exact ⟨rfl, .inl hp, rfl⟩
    · obtain ⟨rfl, hsum⟩ := inspectResolved_eq_ok.mp h
      exact ⟨rfl, .inr ⟨hp, u, hu, rfl, hsum _ rfl⟩, rfl⟩
  · intro ⟨hrecord, hdelivers, hid⟩
    have heq : inspected = ⟨record, inspected.payload, lib.checksum inspected.payload⟩ := by
      rw [← hrecord, ← hid]
    rcases hdelivers with hp | ⟨hp, u, hu, hbytes, hsum⟩
    · exact ⟨_, resolveOutbox_eq_ok.mpr (.inl ⟨_, hp, rfl⟩),
        inspectResolved_eq_ok.mpr ⟨heq, nofun⟩⟩
    · refine ⟨_, resolveOutbox_eq_ok.mpr (.inr ⟨hp, u, hu, rfl⟩),
        inspectResolved_eq_ok.mpr ⟨?_, fun digest h => ?_⟩⟩
      · rw [hbytes]
        exact heq
      · rw [← Option.some.inj h, hbytes]
        exact hsum

/-- Two passes over a list take each element through both steps. -/
theorem mapM_mapM_eq_ok {ε α β γ : Type} {f : α → Except ε β} {g : β → Except ε γ} {xs : List α}
    {zs : List γ} : (xs.mapM f >>= List.mapM g) = .ok zs ↔
      List.Forall₂ (fun x z => (f x >>= g) = .ok z) xs zs := by
  rw [bind_eq_ok]
  simp only [mapM_eq_ok, bind_eq_ok]
  constructor
  · intro ⟨ys, hf, hg⟩
    induction hf generalizing zs with
    | nil =>
      cases hg
      exact .nil
    | cons hx _ ih =>
      cases hg with
      | cons hy hg => exact .cons ⟨_, hx, hy⟩ (ih hg)
  · intro h
    induction h with
    | nil => exact ⟨[], .nil, .nil⟩
    | cons hxz _ ih =>
      obtain ⟨y, hx, hy⟩ := hxz
      obtain ⟨ys, hf, hg⟩ := ih
      exact ⟨y :: ys, .cons hx hf, .cons hy hg⟩

theorem inspectOutbox_eq_ok {inspected : List InspectedOutboxRecord} :
    graph.inspectOutbox lib none = .ok inspected ↔
      List.Forall₂ (fun record (i : InspectedOutboxRecord) => i.persisted = record ∧
        Delivers lib graph record i.payload ∧ i.contentId = lib.checksum i.payload)
        graph.outbox inspected := by
  have hpasses : graph.inspectOutbox lib none =
      (graph.outbox.mapM graph.resolveOutbox >>= List.mapM (BrowserGraph.inspectResolved lib)) := rfl
  rw [hpasses, mapM_mapM_eq_ok]
  simp only [inspect_eq_ok]

theorem forall₂_exists_left {α β : Type} {R : α → β → Prop} {xs : List α} {ys : List β} {y : β}
    (h : List.Forall₂ R xs ys) (hy : y ∈ ys) : ∃ x ∈ xs, R x y := by
  induction h with
  | nil => cases hy
  | @cons x z xs ys hxz _ ih =>
    rcases List.mem_cons.mp hy with rfl | hy
    · exact ⟨x, List.mem_cons_self, hxz⟩
    · obtain ⟨x', hx', h'⟩ := ih hy
      exact ⟨x', List.mem_cons_of_mem _ hx', h'⟩

/-- An inspection finds every content id in its place exactly where the outbox is settled. -/
theorem inspected_iff_settled : (∃ inspected, graph.inspectOutbox lib none = .ok inspected ∧
    BrowserGraph.isNormalized inspected = true) ↔ Settled lib graph := by
  unfold BrowserGraph.isNormalized Settled
  simp only [inspectOutbox_eq_ok, List.all_eq_true, decide_eq_true_eq]
  constructor
  · intro ⟨inspected, hinspected, hids⟩
    generalize graph.outbox = records at hinspected
    induction hinspected with
    | nil => exact nofun
    | @cons record i records inspected h _ ih =>
      intro r hr
      rcases List.mem_cons.mp hr with rfl | hr
      · have hid := hids i List.mem_cons_self
        rw [h.1, h.2.2] at hid
        exact ⟨i.payload, h.2.1, hid⟩
      · exact ih (fun j hj => hids j (List.mem_cons_of_mem _ hj)) r hr
  · intro h
    generalize graph.outbox = records at h
    induction records with
    | nil => exact ⟨[], .nil, nofun⟩
    | cons record records ih =>
      obtain ⟨payload, hdelivers, hid⟩ := h record List.mem_cons_self
      obtain ⟨inspected, hinspected, hids⟩ := ih fun r hr => h r (List.mem_cons_of_mem _ hr)
      refine ⟨⟨record, payload, lib.checksum payload⟩ :: inspected,
        .cons ⟨rfl, hdelivers, rfl⟩ hinspected, fun i hi => ?_⟩
      rcases List.mem_cons.mp hi with rfl | hi
      · exact hid
      · exact hids i hi

theorem normalizeOutbox_of_settled (h : Settled lib graph) :
    graph.normalizeOutbox lib = (.ok (), graph) := by
  obtain ⟨inspected, hinspected, hids⟩ := inspected_iff_settled.mpr h
  unfold BrowserGraph.normalizeOutbox
  simp only [hinspected, hids, if_true]

/-- An outbox that was normalized is settled. -/
theorem settled_of_normalizeOutbox (h : graph.normalizeOutbox lib = (.ok (), graph')) :
    Settled lib graph' := by
  unfold BrowserGraph.normalizeOutbox at h
  split at h
  · cases h
  · next inspected hinspected =>
    split at h
    · next hids =>
      cases h
      exact inspected_iff_settled.mp ⟨inspected, hinspected, hids⟩
    · dsimp only at h
      split at h
      · cases h
      · next normalized hnormalized =>
        split at h
        · next hids =>
          cases h
          exact inspected_iff_settled.mp ⟨normalized, hnormalized, hids⟩
        · cases h

/-! ## What a normalization keeps -/

theorem mem_putOutbox {record o : OutboxRecord} {records : List OutboxRecord} :
    o ∈ putOutbox record records ↔ o = record ∨ (o ∈ records ∧ o.messageId ≠ record.messageId) := by
  unfold putOutbox
  simp only [List.mem_append, List.mem_cons, List.mem_filter, decide_eq_true_eq, Bool.not_eq_true']
  constructor
  · rintro (⟨h, _⟩ | rfl | ⟨h, _⟩)
    · exact .inr h
    · exact .inl rfl
    · exact .inr h
  · rintro (rfl | h)
    · exact .inr (.inl rfl)
    · cases hbefore : o.before record with
      | true => exact .inl ⟨h, rfl⟩
      | false => exact .inr (.inr ⟨h, rfl⟩)

abbrev Distinct (records : List OutboxRecord) : Prop :=
  records.Pairwise fun a b => a.messageId ≠ b.messageId

theorem distinct_putOutbox (record : OutboxRecord) {records : List OutboxRecord}
    (h : Distinct records) : Distinct (putOutbox record records) := by
  have hothers : Distinct (records.filter fun r => decide (r.messageId ≠ record.messageId)) :=
    h.sublist List.filter_sublist
  have hperm : (putOutbox record records).Perm
      (record :: records.filter fun r => decide (r.messageId ≠ record.messageId)) := by
    refine List.perm_middle.trans (.cons _ ?_)
    exact List.filter_append_perm (fun r : OutboxRecord => r.before record) _
  refine hperm.symm.pairwise (List.pairwise_cons.mpr ⟨fun o ho => ?_, hothers⟩) fun h => h.symm
  exact (of_decide_eq_true (List.mem_filter.mp ho).2).symm

/-- Records differ at most in their ids. -/
def Renamed (records renamed : List OutboxRecord) : Prop :=
  ∀ o ∈ renamed, ∃ r ∈ records, o.localSequence = r.localSequence ∧ o.payload = r.payload

theorem live_eq_some {candidate live : InspectedOutboxRecord}
    (h : graph.live candidate = some live) : live.persisted ∈ graph.outbox := by
  unfold BrowserGraph.live at h
  split at h
  · cases h
  · next current hcurrent =>
    have hmem := (mem_of_find?_decide hcurrent).1
    split_ifs at h
    split at h
    · split_ifs at h
      cases h
      exact hmem
    · split at h
      · cases h
      · split_ifs at h
        cases h
        exact hmem

theorem rewriteOutbox_keeps (inspected : List InspectedOutboxRecord)
    (h : Distinct graph.outbox) :
    Distinct (graph.rewriteOutbox inspected).outbox ∧
      Renamed graph.outbox (graph.rewriteOutbox inspected).outbox := by
  have hlive : ∀ c ∈ inspected.filterMap graph.live, c.persisted ∈ graph.outbox := by
    intro c hc
    obtain ⟨candidate, _, hlive⟩ := List.mem_filterMap.mp hc
    exact live_eq_some hlive
  have hdeleted (renamed : List InspectedOutboxRecord) (records : List OutboxRecord) :
      (renamed.foldl (fun outbox c => deleteOutbox c.persisted.messageId outbox) records).Sublist
        records := by
    induction renamed generalizing records with
    | nil => exact .refl _
    | cons c renamed ih => exact (ih _).trans List.filter_sublist
  have hput (live : List InspectedOutboxRecord) (records : List OutboxRecord)
      (hlive : ∀ c ∈ live, c.persisted ∈ graph.outbox) (hdistinct : Distinct records)
      (hrenamed : Renamed graph.outbox records) :
      Distinct (live.foldl BrowserGraph.putNormalized records) ∧
        Renamed graph.outbox (live.foldl BrowserGraph.putNormalized records) := by
    induction live generalizing records with
    | nil => exact ⟨hdistinct, hrenamed⟩
    | cons c live ih =>
      refine ih _ (fun d hd => hlive d (List.mem_cons_of_mem _ hd)) ?_ ?_
      · unfold BrowserGraph.putNormalized
        split
        · exact hdistinct
        · exact distinct_putOutbox _ hdistinct
      · unfold BrowserGraph.putNormalized
        split
        · exact hrenamed
        · intro o ho
          rcases mem_putOutbox.mp ho with rfl | ⟨ho, _⟩
          · exact ⟨_, hlive c List.mem_cons_self, rfl, rfl⟩
          · exact hrenamed o ho
  have hsub := hdeleted ((inspected.filterMap graph.live).filter fun c =>
    decide (c.persisted.messageId ≠ c.contentId)) graph.outbox
  exact hput _ _ hlive (h.sublist hsub) fun o ho => ⟨o, hsub.subset ho, rfl, rfl⟩

/-- A normalization is about the outbox alone. -/
theorem normalizeOutbox_keeps (lib : Library D E) (h : Distinct graph.outbox) :
    ∃ outbox, (graph.normalizeOutbox lib).2 = { graph with outbox := outbox } ∧
      Distinct outbox ∧ Renamed graph.outbox outbox := by
  have hself : Renamed graph.outbox graph.outbox := fun o ho => ⟨o, ho, rfl, rfl⟩
  unfold BrowserGraph.normalizeOutbox
  split
  · exact ⟨_, rfl, h, hself⟩
  · next inspected _ =>
    split
    · exact ⟨_, rfl, h, hself⟩
    · have hkeeps := rewriteOutbox_keeps inspected h
      dsimp only
      split
      · exact ⟨_, rfl, hkeeps⟩
      · split
        · exact ⟨_, rfl, hkeeps⟩
        · exact ⟨_, rfl, hkeeps⟩

/-! ## The steps -/

theorem Addressed.of_empty (h : graph.outbox = []) : Addressed lib graph := by
  constructor <;> rw [h]
  · exact .nil
  · exact nofun
  · exact nofun

/-- Records and rows may go, and rows may become corrupt. -/
theorem Addressed.shrink (h : Addressed lib graph) (houtbox : graph'.outbox.Sublist graph.outbox)
    (hnext : graph'.metadata.nextSequence = graph.metadata.nextSequence)
    (hrows : ∀ u ∈ graph'.updates, ∃ v ∈ graph.updates,
      v.localSequence = u.localSequence ∧ v.checksum = u.checksum) : Addressed lib graph' where
  distinct := h.distinct.sublist houtbox
  carried o ho := h.carried o (houtbox.subset ho)
  named o ho hpayload := by
    obtain ⟨hdrawn, hnamed⟩ := h.named o (houtbox.subset ho) hpayload
    refine ⟨by rw [hnext]; exact hdrawn, fun u hu heq => ?_⟩
    obtain ⟨v, hv, hsequence, hsum⟩ := hrows u hu
    rw [← hsum]
    exact hnamed v hv (hsequence.trans heq)

/-- The outbox after an append refers to the row of the payload. -/
theorem Addressed.pend (h : Addressed lib graph) {metadata : MetadataRecord}
    {updates : List UpdateRecord} {payload : Bytes} {sequence : Nat} (now : String)
    (outbox : Option Bytes) (hnext : graph.metadata.nextSequence ≤ metadata.nextSequence)
    (hdrawn : 0 < sequence ∧ sequence < metadata.nextSequence)
    (hnamed : ∀ o ∈ graph.outbox, o.payload = none → ∀ u ∈ updates,
      u.localSequence = o.localSequence → u.checksum = o.messageId)
    (hrow : ∀ u ∈ updates, u.localSequence = sequence → u.checksum = lib.checksum payload) :
    Addressed lib { graph with
      metadata := metadata
      updates := updates
      outbox := graph.pend (lib.checksum payload) sequence now outbox } := by
  have hold (o : OutboxRecord) (ho : o ∈ graph.outbox) (hpayload : o.payload = none) :
      (0 < o.localSequence ∧ o.localSequence < metadata.nextSequence) ∧
        ∀ u ∈ updates, u.localSequence = o.localSequence → u.checksum = o.messageId :=
    ⟨⟨(h.named o ho hpayload).1.1, (h.named o ho hpayload).1.2.trans_le hnext⟩,
      hnamed o ho hpayload⟩
  cases outbox with
  | none => exact ⟨h.distinct, h.carried, hold⟩
  | some base =>
    refine ⟨distinct_putOutbox _ h.distinct, fun o ho p hp => ?_, fun o ho hp => ?_⟩
    · rcases mem_putOutbox.mp ho with rfl | ⟨ho, _⟩
      · cases hp
      · exact h.carried o ho p hp
    · rcases mem_putOutbox.mp ho with rfl | ⟨ho, _⟩
      · exact ⟨hdrawn, hrow⟩
      · exact hold o ho hp

theorem Addressed.append (hlogged : Logged lib start log graph) (h : Addressed lib graph)
    (payload : Bytes) (now : String) (outbox : Option Bytes) :
    Addressed lib (graph.appendUpdate lib payload now outbox).2 := by
  rcases graph.append_cases lib payload with
    ⟨existing, hmem, hsum, hfind, _⟩ | ⟨hfind, _⟩
  · rw [BrowserGraph.appendUpdate_some hfind]
    refine h.pend now outbox le_rfl (hlogged.row_drawn hmem)
      (fun o ho hp => (h.named o ho hp).2) fun u hu heq => ?_
    rw [hlogged.updates_ordered.eq_of_key hu hmem heq]
    exact hsum
  · rw [BrowserGraph.appendUpdate_none hfind, putUpdate_last fun u hu => (hlogged.row_drawn hu).2]
    refine h.pend now outbox (Nat.le_succ _) ⟨hlogged.next, Nat.lt_succ_self _⟩
      (fun o ho hp u hu heq => ?_) fun u hu heq => ?_
    · obtain ⟨⟨_, hdrawn⟩, hnamed⟩ := h.named o ho hp
      rcases List.mem_append.mp hu with hu | hu
      · exact hnamed u hu heq
      · rw [List.mem_singleton.mp hu] at heq
        exact absurd heq hdrawn.ne'
    · rcases List.mem_append.mp hu with hu | hu
      · exact absurd heq (hlogged.row_drawn hu).2.ne
      · rw [List.mem_singleton.mp hu]

theorem Addressed.acknowledgeOne (h : Addressed lib graph) (through : Nat) (messageId : String) :
    Addressed lib (graph.acknowledgeOne through messageId) := by
  rcases graph.acknowledgeOne_cases through messageId with
    heq | ⟨record, _, _, _, _, update, _, _, heq⟩
  · rw [heq]
    exact h.shrink List.filter_sublist rfl fun u hu => ⟨u, hu, rfl, rfl⟩
  · rw [heq]
    exact h.shrink List.filter_sublist rfl fun u hu => ⟨u, (List.mem_filter.mp hu).1, rfl, rfl⟩

theorem Addressed.acknowledge (h : Addressed lib graph) (messageIds : List String) :
    Addressed lib (graph.acknowledge messageIds) := by
  unfold BrowserGraph.acknowledge
  generalize BrowserGraph.fallbackThrough graph.checkpoints graph.metadata.compactedThrough =
    through
  induction messageIds generalizing graph with
  | nil => exact h
  | cons messageId messageIds ih => exact ih (h.acknowledgeOne through messageId)

theorem Addressed.install (h : Addressed lib graph) {checkpoint : Bytes}
    {sequence schemaVersion : Nat}
    (hinstalled : graph.installCheckpoint lib checkpoint sequence schemaVersion = .ok graph') :
    Addressed lib graph' := by
  obtain ⟨_, _, hinstalled⟩ := bind_eq_ok.mp hinstalled
  obtain rfl := pure_eq_ok.mp hinstalled
  exact h.shrink (.refl _) rfl fun u hu => ⟨u, (List.mem_filter.mp hu).1, rfl, rfl⟩

theorem Addressed.repair (h : Addressed lib graph) (checkpoint : Bytes)
    (validThrough schemaVersion : Nat) (records : List QuarantineRecord) :
    Addressed lib (graph.repairCorruptTail lib checkpoint validThrough schemaVersion records) :=
  h.shrink (.refl _) rfl fun u hu => ⟨u, (List.mem_filter.mp hu).1, rfl, rfl⟩

theorem addressed_replace (hnext : 0 < graph.metadata.nextSequence) (checkpoint : Bytes)
    (historyEpoch : Nat) (baseVersionVector rebasedTail : Bytes) (schemaVersion : Nat)
    (now : String) : Addressed lib (graph.replaceHistory lib checkpoint historyEpoch
      baseVersionVector rebasedTail schemaVersion now).2 := by
  cases rebasedTail with
  | nil => exact .of_empty rfl
  | cons byte rest =>
    refine ⟨List.pairwise_singleton _ _, fun o ho p hp => ?_, fun o ho _ => ?_⟩
    · rw [List.mem_singleton.mp ho] at hp
      cases hp
    · rw [List.mem_singleton.mp ho]
      refine ⟨⟨hnext, Nat.lt_succ_self _⟩, fun u hu _ => ?_⟩
      rw [List.mem_singleton.mp hu]

theorem Addressed.strikeCheckpoint (h : Addressed lib graph) (sequence : Nat) (bytes : Bytes) :
    Addressed lib (graph.strikeCheckpoint sequence bytes) :=
  h.shrink (.refl _) rfl fun u hu => ⟨u, hu, rfl, rfl⟩

theorem Addressed.strikeUpdate (h : Addressed lib graph) (sequence : Nat) (bytes : Bytes) :
    Addressed lib (graph.strikeUpdate sequence bytes) := by
  refine h.shrink (.refl _) rfl fun u hu => ?_
  obtain ⟨v, hv, rfl⟩ := List.mem_map.mp hu
  refine ⟨v, hv, ?_⟩
  split <;> exact ⟨rfl, rfl⟩

/-- What an inspection reads has the content id it is found by. -/
theorem Addressed.contentId (h : Addressed lib graph) {o : OutboxRecord} (ho : o ∈ graph.outbox)
    {payload : Bytes} (hdelivers : Delivers lib graph o payload) :
    o.messageId = lib.checksum payload := by
  rcases hdelivers with hp | ⟨hp, u, hu, _, hsum⟩
  · exact (h.carried o ho payload hp).2
  · obtain ⟨hmem, heq⟩ := mem_of_find?_decide hu
    rw [← hsum]
    exact ((h.named o ho hp).2 u hmem heq).symm

/-- An outbox with its content ids is normalized or cannot be read. -/
theorem Addressed.normalize (h : Addressed lib graph) :
    (graph.normalizeOutbox lib).2 = graph := by
  cases hinspect : graph.inspectOutbox lib none with
  | error error =>
    unfold BrowserGraph.normalizeOutbox
    rw [hinspect]
  | ok inspected =>
    have hsettled : Settled lib graph := by
      refine inspected_iff_settled.mp ⟨inspected, hinspect, List.all_eq_true.mpr fun i hi => ?_⟩
      obtain ⟨o, ho, hpersisted, hdelivers, hid⟩ :=
        forall₂_exists_left (inspectOutbox_eq_ok.mp hinspect) hi
      refine decide_eq_true ?_
      rw [hpersisted, hid]
      exact h.contentId ho hdelivers
    rw [normalizeOutbox_of_settled hsettled]

/-- The outbox of an old version has content ids once it is normalized. -/
theorem Legacy.normalized (h : Legacy lib start log graph)
    (hnormalized : graph.normalizeOutbox lib = (.ok (), graph')) :
    Logged lib start log graph' ∧ Tallied lib graph' ∧ Addressed lib graph' ∧
      Settled lib graph' := by
  have hsettled := settled_of_normalizeOutbox hnormalized
  obtain ⟨outbox, heq, hdistinct, hrenamed⟩ := normalizeOutbox_keeps lib h.distinct
  rw [hnormalized] at heq
  obtain rfl : graph' = { graph with outbox := outbox } := heq
  refine ⟨h.logged.outbox _, ⟨h.tallied.intact, h.tallied.valid, h.tallied.newest,
    h.tallied.tailBytes, h.tallied.tailCount⟩, ⟨hdistinct, fun o ho payload hp => ?_,
    fun o ho hp => ?_⟩, hsettled⟩
  · obtain ⟨r, hr, hsequence, hpayload⟩ := hrenamed o ho
    refine ⟨?_, ?_⟩
    · rw [hsequence]
      refine h.bootstrap r hr ?_
      rw [← hpayload, hp]
      rfl
    · obtain ⟨payload', hdelivers, hid⟩ := hsettled o ho
      rcases hdelivers with hp' | ⟨hp', _⟩
      · rw [hp] at hp'
        rw [hid, Option.some.inj hp']
      · rw [hp] at hp'
        cases hp'
  · obtain ⟨payload, hdelivers, hid⟩ := hsettled o ho
    rcases hdelivers with hp' | ⟨_, u, hu, _, hsum⟩
    · rw [hp] at hp'
      cases hp'
    · obtain ⟨hmem, heq⟩ := mem_of_find?_decide hu
      have hdrawn := h.logged.row_drawn hmem
      rw [heq] at hdrawn
      refine ⟨hdrawn, fun v hv hv' => ?_⟩
      rw [h.logged.updates_ordered.eq_of_key hv hmem (hv'.trans heq.symm), hsum, hid]

end Neoseq.Local
