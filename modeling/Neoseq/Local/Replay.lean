import Neoseq.Collections.Log
import Neoseq.Local.Recovery

/-! What stored rows say of the log they are from. The bytes of a row may become corrupt at
any time, and then its checksum is wrong; a replay takes the updates of the log up to the
first corrupt row. -/

namespace Neoseq.Local
open Collections

variable {D E : Type}

/-- The document after the updates of a log. -/
def replay (lib : Library D E) (start : D) (log : List UpdateRecord) : Option D :=
  log.foldlM (fun doc u => (lib.importRecoveryUpdate doc u.bytes).toOption) start

/-- A checkpoint that loads as the document of the log up to its sequence. -/
def Holds (lib : Library D E) (start : D) (log : List UpdateRecord) (peer : Nat)
    (sequence : Nat) (bytes : Bytes) : Prop :=
  ∃ doc, lib.fromRecoverySnapshot peer bytes = .ok doc ∧
    replay lib start (Log.upTo UpdateRecord.localSequence log sequence) = some doc

/-- The payload of a checkpoint changes. -/
def strikeCheckpoints (sequence : Nat) (bytes : Bytes) (rows : List CheckpointRecord) :
    List CheckpointRecord :=
  rows.map fun c => if c.localSequence = sequence then { c with bytes := bytes } else c

/-- The payload of an update changes. -/
def strikeUpdates (sequence : Nat) (bytes : Bytes) (rows : List UpdateRecord) :
    List UpdateRecord :=
  rows.map fun u => if u.localSequence = sequence then { u with bytes := bytes } else u

/-- The log without the updates whose rows are gone after a recovery. -/
def cutOff (before recovered : List UpdateRecord) (log : List UpdateRecord) : List UpdateRecord :=
  log.filter fun u =>
    !(before.any fun r => r.localSequence = u.localSequence) ||
      recovered.any fun r => r.localSequence = u.localSequence

/-- A recovered document can be exported and loaded again. -/
def Exports (lib : Library D E) : Prop :=
  ∀ peer doc bytes, lib.exportGcCheckpoint doc = .ok bytes → lib.fromSnapshot peer bytes = .ok doc

/-- So can a snapshot. -/
def ExportsSnapshot (lib : Library D E) : Prop :=
  ∀ peer doc bytes, lib.exportSnapshot doc = .ok bytes → lib.fromSnapshot peer bytes = .ok doc

/-! ## Rows and their log -/

/-- The row of an update, which may have become corrupt. -/
def Kept (lib : Library D E) (update row : UpdateRecord) : Prop :=
  row.localSequence = update.localSequence ∧ row.checksum = update.checksum ∧
    (row.bytes = update.bytes ∨ lib.validChecksum row.checksum row.bytes = false)

/-- What holds of a checkpoint in every state: it is of the log where it is valid. -/
structure Covers (lib : Library D E) (start : D) (log : List UpdateRecord)
    (replicaId nextSequence : Nat) (checkpoint : CheckpointRecord) : Prop where
  schema : supportsDocumentSchema checkpoint.schemaVersion = true
  drawn : checkpoint.localSequence < nextSequence
  holds : lib.validChecksum checkpoint.checksum checkpoint.bytes = true →
    Holds lib start log replicaId checkpoint.localSequence checkpoint.bytes

variable {lib : Library D E} {start : D} {log : List UpdateRecord}

theorem replay_append (first rest : List UpdateRecord) :
    replay lib start (first ++ rest) =
      (replay lib start first).bind fun doc => replay lib doc rest :=
  List.foldlM_append

/-- A row is on the same side of a sequence as its update. -/
theorem kept_filter {p : Nat → Bool} {kept rows : List UpdateRecord}
    (h : List.Forall₂ (Kept lib) kept rows) :
    List.Forall₂ (Kept lib) (kept.filter fun u => p u.localSequence)
      (rows.filter fun u => p u.localSequence) :=
  List.rel_filter (fun u row hrow => by
    show p u.localSequence = true ↔ p row.localSequence = true
    rw [hrow.1]) h

theorem kept_sequences {kept rows : List UpdateRecord} (h : List.Forall₂ (Kept lib) kept rows) :
    rows.map UpdateRecord.localSequence = kept.map UpdateRecord.localSequence := by
  induction h with
  | nil => rfl
  | cons hrow _ ih => rw [List.map_cons, List.map_cons, hrow.1, ih]

theorem any_sequence {kept rows : List UpdateRecord} (h : List.Forall₂ (Kept lib) kept rows)
    (sequence : Nat) : (rows.any fun r => r.localSequence = sequence) = true ↔
      ∃ u ∈ kept, u.localSequence = sequence := by
  have hmem : (rows.any fun r => r.localSequence = sequence) = true ↔
      sequence ∈ rows.map UpdateRecord.localSequence := by
    rw [List.any_eq_true, List.mem_map]
    exact exists_congr fun r => and_congr_right fun _ => decide_eq_true_iff
  rw [hmem, kept_sequences h, List.mem_map]

theorem cutOff_self (rows : List UpdateRecord) : cutOff rows rows log = log := by
  refine List.filter_eq_self.mpr fun u _ => ?_
  cases rows.any fun r => r.localSequence = u.localSequence <;> rfl

/-- Where the rows after a sequence are deleted, the log is cut off there. -/
theorem cutOff_upTo {kept rows : List UpdateRecord} {n : Nat}
    (hrows : List.Forall₂ (Kept lib) kept rows) (hkept : ∀ u ∈ log, n < u.localSequence → u ∈ kept) :
    cutOff rows (rows.filter fun u => decide (u.localSequence ≤ n)) log =
      Log.upTo UpdateRecord.localSequence log n := by
  refine List.filter_congr fun u hu => ?_
  have hbefore := any_sequence hrows u.localSequence
  rw [List.any_filter]
  by_cases hle : u.localSequence ≤ n
  · rw [decide_eq_true hle]
    cases hany : rows.any fun r => r.localSequence = u.localSequence with
    | false => rfl
    | true =>
      obtain ⟨r, hr, heq⟩ := List.any_eq_true.mp hany
      refine List.any_eq_true.mpr ⟨r, hr, ?_⟩
      have heq := of_decide_eq_true heq
      rw [Bool.and_eq_true]
      exact ⟨decide_eq_true (by omega), decide_eq_true heq⟩
  · rw [decide_eq_false hle, hbefore.mpr ⟨u, hkept u hu (by omega), rfl⟩, Bool.not_true,
      Bool.false_or]
    refine List.any_eq_false.mpr fun r _ => ?_
    rw [Bool.and_eq_true, not_and]
    intro hr heq
    have hr := of_decide_eq_true hr
    have heq := of_decide_eq_true heq
    omega

theorem kept_strike {kept rows : List UpdateRecord} {sequence : Nat} {bytes : Bytes}
    (h : List.Forall₂ (Kept lib) kept rows)
    (hcorrupt : ∀ u ∈ rows, u.localSequence = sequence →
      lib.validChecksum u.checksum bytes = false) :
    List.Forall₂ (Kept lib) kept (strikeUpdates sequence bytes rows) := by
  unfold strikeUpdates
  induction h with
  | nil => exact .nil
  | @cons u row kept rows hrow _ ih =>
    rw [List.map_cons]
    refine .cons ?_ (ih fun r hr => hcorrupt r (List.mem_cons_of_mem _ hr))
    split
    · next heq => exact ⟨hrow.1, hrow.2.1, .inr (hcorrupt row List.mem_cons_self heq)⟩
    · exact hrow

theorem covers_strike {checkpoints : List CheckpointRecord} {peer next sequence : Nat}
    {bytes : Bytes} (h : ∀ c ∈ checkpoints, Covers lib start log peer next c)
    (hcorrupt : ∀ c ∈ checkpoints, c.localSequence = sequence →
      lib.validChecksum c.checksum bytes = false) :
    ∀ c ∈ strikeCheckpoints sequence bytes checkpoints, Covers lib start log peer next c := by
  intro c hc
  obtain ⟨c, hmem, rfl⟩ := List.mem_map.mp hc
  have hold := h c hmem
  split
  · next heq =>
    refine ⟨hold.schema, hold.drawn, fun hvalid => ?_⟩
    have hvalid : lib.validChecksum c.checksum bytes = true := hvalid
    rw [hcorrupt c hmem heq] at hvalid
    cases hvalid
  · exact hold

/-- Rows none of which is corrupt are updates of the log. -/
theorem kept_eq_of_intact {kept rows : List UpdateRecord} (h : List.Forall₂ (Kept lib) kept rows)
    (hintact : ∀ u ∈ rows, lib.validChecksum u.checksum u.bytes = true) : kept = rows := by
  induction h with
  | nil => rfl
  | @cons u row kept rows hrow _ ih =>
    obtain ⟨hsequence, hsum, hbytes⟩ := hrow
    have hbytes : row.bytes = u.bytes := by
      rcases hbytes with hbytes | hcorrupt
      · exact hbytes
      · rw [hintact row List.mem_cons_self] at hcorrupt
        cases hcorrupt
    rw [ih fun r hr => hintact r (List.mem_cons_of_mem _ hr)]
    cases u
    cases row
    subst hsequence hsum hbytes
    rfl

theorem supports_schemaVersion : supportsDocumentSchema schemaVersion = true := by decide

/-! ## Checkpoints -/

theorem loadCheckpoint_eq_ok {peer : Nat} {c : CheckpointRecord} {doc : D} :
    loadCheckpoint lib peer c = .ok doc ↔
      supportsDocumentSchema c.schemaVersion = true ∧
        lib.validChecksum c.checksum c.bytes = true ∧
        lib.fromRecoverySnapshot peer c.bytes = .ok doc := by
  unfold loadCheckpoint
  cases hschema : supportsDocumentSchema c.schemaVersion with
  | false => exact iff_of_false nofun nofun
  | true =>
    rw [if_neg (by simp)]
    cases hvalid : lib.validChecksum c.checksum c.bytes with
    | false => exact iff_of_false nofun nofun
    | true =>
      rw [if_neg (by simp), mapError_eq_ok]
      exact ⟨fun h => ⟨rfl, rfl, h⟩, fun h => h.2.2⟩

/-- What is selected is a valid checkpoint. -/
theorem selectCheckpoint_mem {peer : Nat} {rows : List CheckpointRecord} {doc : D}
    {sequence : Nat} (h : (selectCheckpoint lib peer rows).2 = some (doc, sequence)) :
    ∃ c ∈ rows, c.localSequence = sequence ∧ lib.validChecksum c.checksum c.bytes = true := by
  induction rows with
  | nil => cases h
  | cons c rows ih =>
    unfold selectCheckpoint at h
    cases hload : loadCheckpoint lib peer c with
    | ok loaded =>
      rw [hload] at h
      cases h
      exact ⟨c, List.mem_cons_self, rfl, (loadCheckpoint_eq_ok.mp hload).2.1⟩
    | error reason =>
      rw [hload] at h
      obtain ⟨d, hd, heq⟩ := ih h
      exact ⟨d, List.mem_cons_of_mem _ hd, heq⟩

/-- The load of a checkpoint of a sound log ends well where its checksum is right. -/
theorem Covers.load {peer next : Nat} {c : CheckpointRecord}
    (h : Covers lib start log peer next c) :
    (lib.validChecksum c.checksum c.bytes = true ∧
      ∃ doc, loadCheckpoint lib peer c = .ok doc ∧
        replay lib start (Log.upTo UpdateRecord.localSequence log c.localSequence) = some doc) ∨
    (lib.validChecksum c.checksum c.bytes = false ∧
      ∃ reason, loadCheckpoint lib peer c = .error reason) := by
  cases hvalid : lib.validChecksum c.checksum c.bytes with
  | true =>
    obtain ⟨doc, hload, hreplay⟩ := h.holds hvalid
    exact .inl ⟨rfl, doc, loadCheckpoint_eq_ok.mpr ⟨h.schema, hvalid, hload⟩, hreplay⟩
  | false =>
    refine .inr ⟨rfl, ?_⟩
    cases hload : loadCheckpoint lib peer c with
    | error reason => exact ⟨reason, rfl⟩
    | ok doc =>
      have h := (loadCheckpoint_eq_ok.mp hload).2.1
      rw [hvalid] at h
      cases h

theorem fromRecoverySnapshot_valid {peer : Nat} {bytes : Bytes} {doc : D}
    (h : lib.fromRecoverySnapshot peer bytes = .ok doc) :
    lib.fromSnapshot peer bytes = .ok doc ∧ lib.validate doc = .ok () := by
  obtain ⟨loaded, hload, h⟩ := bind_eq_ok.mp h
  obtain ⟨_, hvalid, h⟩ := bind_eq_ok.mp h
  obtain rfl := pure_eq_ok.mp h
  exact ⟨hload, hvalid⟩

theorem importRecoveryUpdate_valid {doc doc' : D} {bytes : Bytes}
    (h : lib.importRecoveryUpdate doc bytes = .ok doc') : lib.validate doc' = .ok () := by
  obtain ⟨⟨candidate, pending⟩, _, h⟩ := bind_eq_ok.mp h
  obtain ⟨_, _, h⟩ := bind_eq_ok.mp h
  obtain ⟨_, hvalid, h⟩ := bind_eq_ok.mp h
  obtain rfl := pure_eq_ok.mp h
  exact hvalid

/-- The checkpoint a recovery starts from is the newest valid one. -/
structure Base (lib : Library D E) (start : D) (log : List UpdateRecord) (peer : Nat)
    (checkpoints : List CheckpointRecord) (base : CheckpointRecord) (doc : D) : Prop where
  mem : base ∈ checkpoints
  valid : lib.validChecksum base.checksum base.bytes = true
  load : lib.fromRecoverySnapshot peer base.bytes = .ok doc
  replays : replay lib start (Log.upTo UpdateRecord.localSequence log base.localSequence) = some doc
  newest : ∀ c ∈ checkpoints, lib.validChecksum c.checksum c.bytes = true →
    c.localSequence ≤ base.localSequence

/-- A recovery selects the newest valid checkpoint, or there is none. -/
theorem selectCheckpoint_cases {peer next : Nat} {checkpoints : List CheckpointRecord}
    (hcovers : ∀ c ∈ checkpoints, Covers lib start log peer next c)
    (hdescending : checkpoints.Pairwise fun a b => b.localSequence < a.localSequence) :
    (∃ base doc records, Base lib start log peer checkpoints base doc ∧
      selectCheckpoint lib peer checkpoints = (records, some (doc, base.localSequence))) ∨
    ((∀ c ∈ checkpoints, lib.validChecksum c.checksum c.bytes = false) ∧
      ∃ records, selectCheckpoint lib peer checkpoints = (records, none)) := by
  induction checkpoints with
  | nil => exact .inr ⟨nofun, [], rfl⟩
  | cons c rest ih =>
    obtain ⟨hbelow, hrest⟩ := List.pairwise_cons.mp hdescending
    have ih := ih (fun d hd => hcovers d (List.mem_cons_of_mem _ hd)) hrest
    unfold selectCheckpoint
    rcases (hcovers c List.mem_cons_self).load with
      ⟨hvalid, doc, hload, hdoc⟩ | ⟨hcorrupt, reason, hload⟩
    · rw [hload]
      refine .inl ⟨c, doc, [], ⟨List.mem_cons_self, hvalid, (loadCheckpoint_eq_ok.mp hload).2.2, hdoc,
        fun d hd _ => ?_⟩, rfl⟩
      rcases List.mem_cons.mp hd with rfl | hd
      · exact le_rfl
      · exact (hbelow d hd).le
    · rw [hload]
      have hnot (d : CheckpointRecord) (hd : d ∈ c :: rest)
          (hvalid : lib.validChecksum d.checksum d.bytes = true) : d ∈ rest := by
        rcases List.mem_cons.mp hd with rfl | hd
        · rw [hcorrupt] at hvalid
          cases hvalid
        · exact hd
      rcases ih with ⟨base, doc, records, hbase, hselect⟩ | ⟨hnone, records, hselect⟩
      · refine .inl ⟨base, doc, quarantinedCheckpoint c reason :: records,
          ⟨List.mem_cons_of_mem _ hbase.mem, hbase.valid, hbase.load, hbase.replays,
            fun d hd hvalid => hbase.newest d (hnot d hd hvalid) hvalid⟩, ?_⟩
        rw [hselect]
      · refine .inr ⟨fun d hd => ?_, quarantinedCheckpoint c reason :: records, ?_⟩
        · rcases List.mem_cons.mp hd with rfl | hd
          · exact hcorrupt
          · exact hnone d hd
        · rw [hselect]

/-! ## The replay -/

/-- Every record has its checksum, can be imported and leaves a valid document. -/
def Replays (lib : Library D E) (doc : D) (rows : List UpdateRecord) : Prop :=
  (∀ row ∈ rows, lib.validChecksum row.checksum row.bytes = true) ∧
    (replay lib doc rows).isSome = true

/-- A tail is cut at the first record with which it does not replay. -/
structure LongestValid (lib : Library D E) (doc : D) (rows taken left : List UpdateRecord) :
    Prop where
  split : rows = taken ++ left
  valid : Replays lib doc taken
  longest : ∀ row rest, left = row :: rest → ¬Replays lib doc (taken ++ [row])

theorem Replays.of_append {doc : D} {first rest : List UpdateRecord}
    (h : Replays lib doc (first ++ rest)) : Replays lib doc first := by
  refine ⟨fun row hrow => h.1 row (List.mem_append_left _ hrow), ?_⟩
  have hreplays := h.2
  rw [replay_append] at hreplays
  cases hfirst : replay lib doc first with
  | none =>
    rw [hfirst] at hreplays
    cases hreplays
  | some _ => rfl

/-- No valid part of the tail goes further. -/
theorem LongestValid.length_le {doc : D} {rows taken left other rest : List UpdateRecord}
    (h : LongestValid lib doc rows taken left) (hrows : rows = other ++ rest)
    (hother : Replays lib doc other) : other.length ≤ taken.length := by
  by_contra hlt
  have hsplit : taken ++ left = other ++ rest := h.split.symm.trans hrows
  have hstart : other <+: taken ++ left := hsplit ▸ List.prefix_append other rest
  obtain ⟨more, hmore⟩ : taken <+: other :=
    List.prefix_of_prefix_length_le (List.prefix_append _ _) hstart (by omega)
  cases more with
  | nil =>
    rw [List.append_nil] at hmore
    rw [hmore] at hlt
    exact hlt le_rfl
  | cons row more =>
    rw [← hmore, List.append_assoc] at hsplit
    refine h.longest row (more ++ rest) (List.append_cancel_left hsplit) ?_
    rw [← hmore, List.append_cons] at hother
    exact hother.of_append

theorem replay_singleton (doc : D) (row : UpdateRecord) :
    replay lib doc [row] = (lib.importRecoveryUpdate doc row.bytes).toOption := by
  unfold replay
  rw [List.foldlM_cons]
  cases lib.importRecoveryUpdate doc row.bytes <;> rfl

/-- A replay stops at the longest valid part of the tail; what is left goes to quarantine. -/
theorem replayTail_longest (lib : Library D E) (doc : D) (n : Nat) (rows : List UpdateRecord) :
    ∃ taken left, LongestValid lib doc rows taken left ∧
      replay lib doc taken = some (replayTail lib doc n rows).doc ∧
      (replayTail lib doc n rows).validThrough =
        (taken.getLast?.map UpdateRecord.localSequence).getD n ∧
      (replayTail lib doc n rows).replayed = taken.length ∧
      (replayTail lib doc n rows).tailIsCorrupt = !left.isEmpty ∧
      List.Forall₂ (fun row record => ∃ reason, record = quarantinedUpdate row reason) left
        (replayTail lib doc n rows).corruptTail := by
  induction rows using List.reverseRecOn with
  | nil =>
    exact ⟨[], [], ⟨rfl, ⟨nofun, rfl⟩, nofun⟩, rfl, rfl, rfl, rfl, .nil⟩
  | append_singleton rows row ih =>
    obtain ⟨taken, left, hlongest, hdoc, hthrough, hcount, hcorrupt, hleft⟩ := ih
    have hfold : replayTail lib doc n (rows ++ [row]) = (replayTail lib doc n rows).step lib row := by
      unfold replayTail
      rw [List.foldl_append]
      rfl
    rw [hfold]
    generalize replayTail lib doc n rows = replayed at hdoc hthrough hcount hcorrupt hleft
    have hreject (reason : String)
        (hlongest' : LongestValid lib doc (rows ++ [row]) taken (left ++ [row])) :
        ∃ taken left, LongestValid lib doc (rows ++ [row]) taken left ∧
          replay lib doc taken = some (replayed.reject row reason).doc ∧
          (replayed.reject row reason).validThrough =
            (taken.getLast?.map UpdateRecord.localSequence).getD n ∧
          (replayed.reject row reason).replayed = taken.length ∧
          (replayed.reject row reason).tailIsCorrupt = !left.isEmpty ∧
          List.Forall₂ (fun row record => ∃ reason, record = quarantinedUpdate row reason) left
            (replayed.reject row reason).corruptTail := by
      refine ⟨taken, left ++ [row], hlongest', hdoc, hthrough, hcount, ?_,
        List.rel_append hleft (.cons ⟨reason, rfl⟩ .nil)⟩
      cases left <;> rfl
    unfold TailReplay.step
    rw [hcorrupt]
    cases left with
    | cons first rest =>
      rw [List.isEmpty_cons, Bool.not_false, if_pos rfl]
      refine hreject _ ⟨?_, hlongest.valid, fun r more heq => ?_⟩
      · rw [hlongest.split, List.append_assoc]
      · exact hlongest.longest r rest (by rw [(List.cons.inj heq).1])
    | nil =>
      rw [List.isEmpty_nil, Bool.not_true, if_neg Bool.false_ne_true]
      have hrows : rows = taken := by rw [hlongest.split, List.append_nil]
      have hsplit : rows ++ [row] = taken ++ [row] := by rw [hrows]
      cases hvalid : lib.validChecksum row.checksum row.bytes with
      | false =>
        rw [if_pos rfl]
        refine hreject _ ⟨hsplit, hlongest.valid, fun r more heq hreplays => ?_⟩
        obtain ⟨rfl, _⟩ := List.cons.inj heq
        have hrow := hreplays.1 row (List.mem_append_right _ (List.mem_singleton_self _))
        rw [hvalid] at hrow
        cases hrow
      | true =>
        rw [if_neg (by simp)]
        cases himport : lib.importRecoveryUpdate replayed.doc row.bytes with
        | error error =>
          refine hreject _ ⟨hsplit, hlongest.valid, fun r more heq hreplays => ?_⟩
          obtain ⟨rfl, _⟩ := List.cons.inj heq
          have hreplays := hreplays.2
          rw [replay_append, hdoc, Option.bind_some, replay_singleton, himport] at hreplays
          cases hreplays
        | ok next =>
          have hnext : replay lib doc (taken ++ [row]) = some next := by
            rw [replay_append, hdoc, Option.bind_some, replay_singleton, himport]
            rfl
          refine ⟨taken ++ [row], [], ⟨by rw [hsplit, List.append_nil], ⟨fun r hr => ?_, ?_⟩, nofun⟩,
            hnext, ?_, ?_, rfl, hleft⟩
          · rcases List.mem_append.mp hr with hr | hr
            · exact hlongest.valid.1 r hr
            · rw [List.mem_singleton.mp hr]
              exact hvalid
          · rw [hnext]
            rfl
          · rw [List.getLast?_append, List.getLast?_singleton]
            rfl
          · show replayed.replayed + 1 = _
            rw [hcount, List.length_append, List.length_singleton]

/-- A tail that replays is taken whole. -/
theorem replayTail_of_replays {doc doc' : D} (n : Nat) {rows : List UpdateRecord}
    (hvalid : ∀ row ∈ rows, lib.validChecksum row.checksum row.bytes = true)
    (hdoc : replay lib doc rows = some doc') :
    replayTail lib doc n rows =
      { doc := doc'
        validThrough := (rows.getLast?.map UpdateRecord.localSequence).getD n
        replayed := rows.length } := by
  obtain ⟨taken, left, hlongest, htaken, hthrough, hcount, hcorrupt, hleft⟩ :=
    replayTail_longest lib doc n rows
  have hwhole : left = [] := by
    have hle := hlongest.length_le (List.append_nil rows).symm
      ⟨hvalid, by rw [hdoc]; rfl⟩
    have hlength := congrArg List.length hlongest.split
    rw [List.length_append] at hlength
    exact List.eq_nil_of_length_eq_zero (by omega)
  have hrows : rows = taken := by rw [hlongest.split, hwhole, List.append_nil]
  rw [hwhole] at hcorrupt hleft
  rw [← hrows] at htaken hthrough hcount
  rw [hdoc] at htaken
  generalize replayTail lib doc n rows = replayed at *
  cases replayed
  cases hleft
  obtain rfl := Option.some.inj htaken
  dsimp only at hthrough hcount hcorrupt
  subst hthrough hcount hcorrupt
  rfl

/-- How far a replay went: the updates it took are a part of the log, and it stopped at
the first row that is corrupt. -/
structure Replayed (lib : Library D E) (doc : D) (base : Nat) (kept rows : List UpdateRecord)
    (replayed : TailReplay D) (taken left : List UpdateRecord) : Prop where
  split : kept = taken ++ left
  doc : replay lib doc taken = some replayed.doc
  valid : lib.validate replayed.doc = .ok ()
  through : replayed.validThrough = (taken.getLast?.map UpdateRecord.localSequence).getD base
  count : replayed.replayed = taken.length
  tail : replayed.corruptTail.isEmpty = true ↔ left = []
  corrupt : replayed.tailIsCorrupt = true ↔ left ≠ []
  intact : left = [] ↔ ∀ row ∈ rows, lib.validChecksum row.checksum row.bytes = true

/-- Once the tail is corrupt the rest goes to quarantine. -/
theorem Replayed.reject {doc : D} {n : Nat} {kept rows taken left : List UpdateRecord}
    {replayed : TailReplay D} (h : Replayed lib doc n kept rows replayed taken left)
    {u row : UpdateRecord} {reason : String}
    (hcorrupt : left = [] → lib.validChecksum row.checksum row.bytes = false) :
    Replayed lib doc n (kept ++ [u]) (rows ++ [row]) (replayed.reject row reason) taken
      (left ++ [u]) where
  split := by rw [h.split, List.append_assoc]
  doc := h.doc
  valid := h.valid
  through := h.through
  count := h.count
  tail := by
    refine iff_of_false ?_ (by simp)
    show ¬(replayed.corruptTail ++ [_]).isEmpty = true
    simp
  corrupt := iff_of_true rfl (by simp)
  intact := by
    refine iff_of_false (by simp) fun hall => ?_
    have hrows : left = [] := h.intact.mpr fun r hr => hall r (List.mem_append_left _ hr)
    have hrow := hall row (List.mem_append_right _ (List.mem_singleton_self _))
    rw [hcorrupt hrows] at hrow
    cases hrow

theorem Replayed.step {doc : D} {n : Nat} {kept rows taken left : List UpdateRecord}
    {replayed : TailReplay D} (h : Replayed lib doc n kept rows replayed taken left)
    {u row : UpdateRecord} (hrow : Kept lib u row)
    (hreplays : (replay lib doc (kept ++ [u])).isSome = true) :
    ∃ taken' left', Replayed lib doc n (kept ++ [u]) (rows ++ [row]) (replayed.step lib row)
      taken' left' := by
  unfold TailReplay.step
  by_cases hleft : left = []
  · subst hleft
    have htail : replayed.tailIsCorrupt = false := by
      cases hc : replayed.tailIsCorrupt with
      | false => rfl
      | true => exact absurd rfl (h.corrupt.mp hc)
    have hkept : kept = taken := by rw [h.split, List.append_nil]
    rw [htail, if_neg Bool.false_ne_true]
    cases hvalid : lib.validChecksum row.checksum row.bytes with
    | false =>
      rw [if_pos rfl]
      exact ⟨taken, [] ++ [u], h.reject fun _ => hvalid⟩
    | true =>
      rw [if_neg (by simp)]
      have hbytes : row.bytes = u.bytes := by
        rcases hrow.2.2 with hbytes | hfalse
        · exact hbytes
        · rw [hvalid] at hfalse
          cases hfalse
      -- the update was made on the document that the replay has reached
      rw [replay_append, hkept, h.doc, Option.bind_some] at hreplays
      have hnext : replay lib replayed.doc [u] =
          (lib.importRecoveryUpdate replayed.doc u.bytes).toOption := by
        unfold replay
        rw [List.foldlM_cons]
        cases lib.importRecoveryUpdate replayed.doc u.bytes <;> rfl
      rw [hnext] at hreplays
      rw [hbytes]
      cases himport : lib.importRecoveryUpdate replayed.doc u.bytes with
      | error error =>
        rw [himport] at hreplays
        cases hreplays
      | ok doc' =>
        refine ⟨taken ++ [u], [], ?_⟩
        constructor
        · rw [hkept, List.append_nil]
        · rw [replay_append, h.doc, Option.bind_some, hnext, himport]
          rfl
        · exact importRecoveryUpdate_valid himport
        · rw [List.getLast?_append, List.getLast?_singleton]
          exact hrow.1
        · show replayed.replayed + 1 = _
          rw [h.count, List.length_append, List.length_singleton]
        · exact h.tail
        · exact iff_of_false Bool.false_ne_true (fun hne => hne rfl)
        · refine iff_of_true rfl fun r hr => ?_
          rcases List.mem_append.mp hr with hr | hr
          · exact h.intact.mp rfl r hr
          · rw [List.mem_singleton.mp hr]
            exact hvalid
  · rw [if_pos (h.corrupt.mpr hleft)]
    exact ⟨taken, left ++ [u], h.reject fun he => absurd he hleft⟩

theorem replayTail_replayed {doc : D} {n : Nat} {kept rows : List UpdateRecord}
    (hvalid : lib.validate doc = .ok ()) (hrows : List.Forall₂ (Kept lib) kept rows)
    (hreplays : (replay lib doc kept).isSome = true) :
    ∃ taken left, Replayed lib doc n kept rows (replayTail lib doc n rows) taken left := by
  have hfold (before beforeRows after afterRows : List UpdateRecord) (replayed : TailReplay D)
      (taken left : List UpdateRecord)
      (h : Replayed lib doc n before beforeRows replayed taken left)
      (hrows : List.Forall₂ (Kept lib) after afterRows)
      (hreplays : (replay lib doc (before ++ after)).isSome = true) :
      ∃ taken' left', Replayed lib doc n (before ++ after) (beforeRows ++ afterRows)
        (afterRows.foldl (.step lib) replayed) taken' left' := by
    induction hrows generalizing before beforeRows replayed taken left with
    | nil =>
      rw [List.append_nil, List.append_nil]
      exact ⟨taken, left, h⟩
    | @cons u row after afterRows hrow _ ih =>
      rw [List.append_cons] at hreplays
      have hfirst : (replay lib doc (before ++ [u])).isSome = true := by
        rw [replay_append] at hreplays
        cases hr : replay lib doc (before ++ [u]) with
        | none =>
          rw [hr] at hreplays
          cases hreplays
        | some _ => rfl
      obtain ⟨taken', left', hstep⟩ := h.step hrow hfirst
      have ih := ih _ _ _ _ _ hstep hreplays
      rwa [List.append_assoc, List.append_assoc] at ih
  have hstart : Replayed lib doc n [] [] { doc := doc, validThrough := n } [] [] :=
    ⟨rfl, rfl, hvalid, rfl, rfl, iff_of_true rfl rfl, iff_of_false Bool.false_ne_true
      (fun hne => hne rfl), iff_of_true rfl nofun⟩
  exact hfold [] [] kept rows _ [] [] hstart hrows hreplays

/-- Where a replay from a checkpoint of the log stops. -/
structure Stops (lib : Library D E) (start : D) (log : List UpdateRecord) (sequence : Nat)
    (replayed : TailReplay D) (taken left : List UpdateRecord) : Prop where
  base : sequence ≤ replayed.validThrough
  upTo : Log.upTo UpdateRecord.localSequence log replayed.validThrough =
    Log.upTo UpdateRecord.localSequence log sequence ++ taken
  replays : replay lib start (Log.upTo UpdateRecord.localSequence log replayed.validThrough) =
    some replayed.doc
  through : replayed.validThrough = sequence ∨
    ∃ u ∈ log, u.localSequence = replayed.validThrough
  whole : left = [] → Log.upTo UpdateRecord.localSequence log replayed.validThrough = log

theorem Replayed.stops (hordered : Log.Ordered UpdateRecord.localSequence log) {doc : D}
    {sequence : Nat} {rows taken left : List UpdateRecord} {replayed : TailReplay D}
    (hdoc : replay lib start (Log.upTo UpdateRecord.localSequence log sequence) = some doc)
    (h : Replayed lib doc sequence (Log.after UpdateRecord.localSequence log sequence) rows
      replayed taken left) :
    Stops lib start log sequence replayed taken left := by
  have hlog : log = Log.upTo UpdateRecord.localSequence log sequence ++ taken ++ left := by
    conv_lhs => rw [← Log.upTo_append_after hordered sequence, h.split]
    rw [List.append_assoc]
  have htaken (u : UpdateRecord) (hu : u ∈ taken) : u ∈ log ∧ sequence < u.localSequence := by
    have hu : u ∈ Log.after UpdateRecord.localSequence log sequence := by
      rw [h.split]
      exact List.mem_append_left _ hu
    exact Log.mem_after.mp hu
  have hthrough : sequence ≤ replayed.validThrough ∧
      (replayed.validThrough = sequence ∨ ∃ u ∈ log, u.localSequence = replayed.validThrough) ∧
      (∀ u ∈ taken, u.localSequence ≤ replayed.validThrough) ∧
      ∀ u ∈ left, replayed.validThrough < u.localSequence := by
    have hpairs : Log.Ordered UpdateRecord.localSequence (taken ++ left) :=
      h.split ▸ hordered.after sequence
    obtain ⟨hfirst, _, hcross⟩ := List.pairwise_append.mp hpairs
    rcases List.eq_nil_or_concat taken with rfl | ⟨init, last, rfl⟩
    · have hv : replayed.validThrough = sequence := h.through
      rw [hv]
      refine ⟨le_rfl, .inl rfl, nofun, fun u hu => ?_⟩
      have hu : u ∈ Log.after UpdateRecord.localSequence log sequence := by
        rw [h.split]
        exact hu
      exact (Log.mem_after.mp hu).2
    · have hv : replayed.validThrough = last.localSequence := by
        rw [h.through, List.concat_eq_append, List.getLast?_append, List.getLast?_singleton]
        rfl
      have hlast := htaken last (by simp)
      rw [hv]
      refine ⟨hlast.2.le, .inr ⟨last, hlast.1, rfl⟩, fun u hu => ?_, fun u hu => ?_⟩
      · rw [List.concat_eq_append] at hu hfirst
        rcases List.mem_append.mp hu with hu | hu
        · exact ((List.pairwise_append.mp hfirst).2.2 u hu last (List.mem_singleton_self _)).le
        · rw [List.mem_singleton.mp hu]
      · exact hcross last (by simp) u hu
  obtain ⟨hbase, hmember, hle, hlt⟩ := hthrough
  have hupTo : Log.upTo UpdateRecord.localSequence log replayed.validThrough =
      Log.upTo UpdateRecord.localSequence log sequence ++ taken := by
    conv_lhs => rw [hlog]
    refine Log.upTo_append (fun u hu => ?_) hlt
    rcases List.mem_append.mp hu with hu | hu
    · exact (Log.mem_upTo.mp hu).2.trans hbase
    · exact hle u hu
  refine ⟨hbase, hupTo, ?_, hmember, fun hleft => ?_⟩
  · rw [hupTo, replay_append, hdoc, Option.bind_some, h.doc]
  · rw [hleft, List.append_nil] at hlog
    rw [hupTo, ← hlog]

/-! ## A library -/

/-- A document is its bytes, and an update adds to them. -/
def byteLibrary : Library Bytes Unit where
  checksum bytes := String.ofList (bytes.map fun b => Char.ofNat b.toNat)
  new _ := .ok []
  fromSnapshot _ bytes := .ok bytes
  importUpdate doc update := .ok (doc ++ update, false)
  validate _ := .ok ()
  exportGcCheckpoint doc := .ok doc
  exportSnapshot doc := .ok doc
  missingDependencies := ()
  unsupportedSchema _ := ()
  display _ := "invalid-encoding"

theorem exports_byteLibrary : Exports byteLibrary := by
  intro _ doc bytes h
  cases h
  rfl

theorem exportsSnapshot_byteLibrary : ExportsSnapshot byteLibrary := by
  intro _ doc bytes h
  cases h
  rfl

end Neoseq.Local
