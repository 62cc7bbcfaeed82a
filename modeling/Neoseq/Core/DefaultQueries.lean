import Neoseq.Core.Execute
import Neoseq.Core.Outlines

/-! The list of default queries. It is read from every entry that is not deleted, by position and
id, and its first entries are published; the commands renumber and extend what is published. -/

namespace Neoseq.Core
open Domain Document Collections

variable (host : Host)

/-! ## All live queries -/

/-- One entry as it is published, `none` where it is deleted. -/
def snapshotOf (id : DefaultQueryId) (entry : DefaultQueryEntry) :
    Except CoreError (Option DefaultQuerySnapshot) := do
  match ← storedDefaultQuery id entry with
  | none => return none
  | some query =>
    let document ← decodeQueryDocument host query.document
    return some ⟨query.id, query.title, query.position, document⟩

/-- Default queries are shown by position, and by id where positions tie. -/
def ComesBefore (left right : DefaultQuerySnapshot) : Prop :=
  left.position < right.position ∨ left.position = right.position ∧ left.id < right.id

/-- Every entry can be read, and these are the ones that are not deleted, in their order. -/
structure LiveQueries (d : GraphDoc) (queries : List DefaultQuerySnapshot) : Prop where
  readable : ∀ id entry, d.defaultQueries.get id = some entry →
    ∃ r, snapshotOf host id entry = .ok r
  sorted : queries.Pairwise ComesBefore
  mem_iff : ∀ query, query ∈ queries ↔ ∃ entry, d.defaultQueries.get query.id = some entry ∧
    snapshotOf host query.id entry = .ok (some query)

variable {host}

theorem ComesBefore.asymm {a b : DefaultQuerySnapshot} (hab : ComesBefore a b)
    (hba : ComesBefore b a) : False := by
  rcases hab with hab | ⟨heq, hab⟩
  · rcases hba with hba | ⟨hba, -⟩
    · exact Nat.lt_asymm hab hba
    · exact absurd hab (hba ▸ Nat.lt_irrefl _)
  · rcases hba with hba | ⟨-, hba⟩
    · exact absurd hba (heq ▸ Nat.lt_irrefl _)
    · exact lt_asymm hab hba

theorem ComesBefore.ne {a b : DefaultQuerySnapshot} (h : ComesBefore a b) : a ≠ b := by
  rintro rfl
  exact h.asymm h

theorem storedDefaultQuery_eq_ok_iff {id : DefaultQueryId} {entry : DefaultQueryEntry}
    {r : Option StoredDefaultQuery} :
    storedDefaultQuery id entry = .ok r ↔
      entry.deleted = some true ∧ r = none ∨
        entry.deleted = some false ∧ ∃ title position document,
          entry.title = some title ∧ title.length ≤ maxDefaultQueryTitle ∧
            entry.position.bind u32FromI64 = some position ∧
              entry.document = some document ∧ r = some ⟨id, title, position, document⟩ := by
  unfold storedDefaultQuery
  constructor
  · intro h
    obtain ⟨deleted, hdeleted, h⟩ := bind_eq_ok.mp h
    have hdeleted := orElse_eq_ok.mp hdeleted
    cases deleted with
    | true => exact .inl ⟨hdeleted, (Except.ok.inj h).symm⟩
    | false =>
      rw [if_neg Bool.false_ne_true] at h
      obtain ⟨title, htitle, h⟩ := bind_eq_ok.mp h
      split at h
      · cases h
      · rename_i hlength
        obtain ⟨position, hposition, h⟩ := bind_eq_ok.mp h
        obtain ⟨document, hdocument, h⟩ := bind_eq_ok.mp h
        exact .inr ⟨hdeleted, title, position, document, orElse_eq_ok.mp htitle,
          Nat.le_of_not_lt hlength, orElse_eq_ok.mp hposition, orElse_eq_ok.mp hdocument,
          (Except.ok.inj h).symm⟩
  · rintro (⟨hdeleted, rfl⟩ | ⟨hdeleted, title, position, document, htitle, hlength, hposition,
      hdocument, rfl⟩)
    · rw [hdeleted]
      rfl
    · rw [hdeleted, htitle, hposition, hdocument]
      have hshort : ¬title.length > maxDefaultQueryTitle := Nat.not_lt.mpr hlength
      simp only [orElse, bind, Except.bind, if_neg hshort]
      rfl

/-- What an entry is read to. -/
theorem snapshotOf_eq_some_iff {id : DefaultQueryId} {entry : DefaultQueryEntry}
    {query : DefaultQuerySnapshot} :
    snapshotOf host id entry = .ok (some query) ↔
      query.id = id ∧ entry.deleted = some false ∧ entry.title = some query.title ∧
        query.title.length ≤ maxDefaultQueryTitle ∧
        entry.position.bind u32FromI64 = some query.position ∧
        ∃ document, entry.document = some document ∧
          decodeQueryDocument host document = .ok query.document := by
  unfold snapshotOf
  constructor
  · intro h
    obtain ⟨r, hr, h⟩ := bind_eq_ok.mp h
    rcases storedDefaultQuery_eq_ok_iff.mp hr with
      ⟨-, rfl⟩ | ⟨hdeleted, title, position, stored, htitle, hlength, hposition, hdocument, rfl⟩
    · cases h
    · obtain ⟨document, hdecode, h⟩ := bind_eq_ok.mp h
      obtain rfl := Option.some.inj (Except.ok.inj h)
      exact ⟨rfl, hdeleted, htitle, hlength, hposition, stored, hdocument, hdecode⟩
  · rintro ⟨hid, hdeleted, htitle, hlength, hposition, stored, hdocument, hdecode⟩
    refine bind_eq_ok.mpr ⟨_, storedDefaultQuery_eq_ok_iff.mpr (.inr ⟨hdeleted, query.title,
      query.position, stored, htitle, hlength, hposition, hdocument, rfl⟩), ?_⟩
    refine bind_eq_ok.mpr ⟨_, hdecode, ?_⟩
    subst hid
    rfl

theorem snapshotOf_eq_none_iff {id : DefaultQueryId} {entry : DefaultQueryEntry} :
    snapshotOf host id entry = .ok none ↔ entry.deleted = some true := by
  unfold snapshotOf
  constructor
  · intro h
    obtain ⟨r, hr, h⟩ := bind_eq_ok.mp h
    rcases storedDefaultQuery_eq_ok_iff.mp hr with
      ⟨hdeleted, -⟩ | ⟨-, title, position, stored, -, -, -, -, rfl⟩
    · exact hdeleted
    · obtain ⟨document, -, h⟩ := bind_eq_ok.mp h
      cases h
  · intro hdeleted
    exact bind_eq_ok.mpr ⟨_, storedDefaultQuery_eq_ok_iff.mpr (.inl ⟨hdeleted, rfl⟩), rfl⟩

/-! ## The published list -/

theorem LiveQueries.nodup {d : GraphDoc} {queries : List DefaultQuerySnapshot}
    (h : LiveQueries host d queries) : (queries.map DefaultQuerySnapshot.id).Nodup := by
  rw [List.nodup_iff_pairwise_ne, List.pairwise_map]
  refine (h.sorted.imp_of_mem (S := fun a b => a.id ≠ b.id) ?_)
  intro a b ha hb hab heq
  obtain ⟨entry, hentry, hread⟩ := (h.mem_iff a).mp ha
  obtain ⟨other, hother, hread'⟩ := (h.mem_iff b).mp hb
  rw [← heq, hentry] at hother
  obtain rfl := Option.some.inj hother
  rw [← heq, hread] at hread'
  exact hab.ne (Option.some.inj (Except.ok.inj hread'))

/-- The values that a list of successful results holds. -/
theorem mem_of_map_ok {ε γ δ : Type} {f : γ → Except ε δ} {xs : List γ} {ys : List δ}
    (h : xs.map f = ys.map .ok) {y : δ} : y ∈ ys ↔ ∃ x ∈ xs, f x = .ok y := by
  have hmap : y ∈ ys ↔ (.ok y : Except ε δ) ∈ ys.map .ok :=
    ⟨fun hy => List.mem_map_of_mem hy, fun hy => by
      obtain ⟨z, hz, heq⟩ := List.mem_map.mp hy
      exact Except.ok.inj heq ▸ hz⟩
  rw [hmap, ← h, List.mem_map]

theorem listed_ids_sublist {entries : List (DefaultQueryId × DefaultQueryEntry)}
    {scan : List (Option StoredDefaultQuery)}
    (h : entries.map (fun e => storedDefaultQuery e.1 e.2) = scan.map .ok) :
    ((scan.filterMap id).map StoredDefaultQuery.id).Sublist (entries.map Prod.fst) := by
  induction entries generalizing scan with
  | nil =>
    rw [List.map_eq_nil_iff.mp h.symm]
    exact List.Sublist.refl _
  | cons e rest ih =>
    cases scan with
    | nil => cases h
    | cons r scan =>
      rw [List.map_cons, List.map_cons] at h
      obtain ⟨hfirst, hrest⟩ := List.cons.inj h
      rcases storedDefaultQuery_eq_ok_iff.mp hfirst with
        ⟨-, rfl⟩ | ⟨-, title, position, document, -, -, -, -, rfl⟩
      · exact (ih hrest).cons _
      · exact (ih hrest).cons_cons _

/-- The queries that are read in order keep that order, which distinct ids make strict. -/
theorem sorted_projected {stored : List StoredDefaultQuery} {queries : List DefaultQuerySnapshot}
    (hqueries : stored.map (fun query => do
      let document ← decodeQueryDocument host query.document
      return (⟨query.id, query.title, query.position, document⟩ : DefaultQuerySnapshot)) =
        queries.map .ok)
    (hsorted : stored.Pairwise fun a b =>
      a.position < b.position ∨ (a.position = b.position ∧ a.id ≤ b.id))
    (hnodup : (stored.map StoredDefaultQuery.id).Nodup) : queries.Pairwise ComesBefore := by
  induction stored generalizing queries with
  | nil =>
    rw [List.map_eq_nil_iff.mp hqueries.symm]
    exact List.Pairwise.nil
  | cons query stored ih =>
    cases queries with
    | nil => cases hqueries
    | cons snapshot queries =>
      rw [List.map_cons, List.map_cons] at hqueries
      obtain ⟨hfirst, hrest⟩ := List.cons.inj hqueries
      rw [List.map_cons, List.nodup_cons] at hnodup
      rw [List.pairwise_cons] at hsorted
      refine List.pairwise_cons.mpr ⟨fun other hother => ?_, ih hrest hsorted.2 hnodup.2⟩
      obtain ⟨later, hlater, hproject⟩ := (mem_of_map_ok hrest).mp hother
      obtain ⟨_, _, hsnapshot⟩ := bind_eq_ok.mp hfirst
      obtain ⟨_, _, hmember⟩ := bind_eq_ok.mp hproject
      obtain rfl := Except.ok.inj hsnapshot
      obtain rfl := Except.ok.inj hmember
      have hne : query.id ≠ later.id := fun heq => hnodup.1 (heq ▸ List.mem_map_of_mem hlater)
      rcases hsorted.1 later hlater with hlt | ⟨heq, hle⟩
      · exact .inl hlt
      · exact .inr ⟨heq, lt_of_le_of_ne hle hne⟩

theorem keys_projected {stored : List StoredDefaultQuery} {queries : List DefaultQuerySnapshot}
    (hqueries : stored.map (fun query => do
      let document ← decodeQueryDocument host query.document
      return (⟨query.id, query.title, query.position, document⟩ : DefaultQuerySnapshot)) =
        queries.map .ok) :
    queries.map (fun query => (query.id, query.position)) =
      stored.map fun query => (query.id, query.position) := by
  induction stored generalizing queries with
  | nil =>
    rw [List.map_eq_nil_iff.mp hqueries.symm]
    rfl
  | cons query stored ih =>
    cases queries with
    | nil => cases hqueries
    | cons snapshot queries =>
      rw [List.map_cons, List.map_cons] at hqueries
      obtain ⟨hfirst, hrest⟩ := List.cons.inj hqueries
      obtain ⟨_, _, hsnapshot⟩ := bind_eq_ok.mp hfirst
      obtain rfl := Except.ok.inj hsnapshot
      rw [List.map_cons, List.map_cons, ih hrest]

instance : Std.Total fun a b : StoredDefaultQuery =>
    a.position < b.position ∨ (a.position = b.position ∧ a.id ≤ b.id) := ⟨fun a b => by
  rcases Nat.lt_trichotomy a.position b.position with h | h | h
  · exact .inl (.inl h)
  · exact (le_total a.id b.id).imp (fun hle => .inr ⟨h, hle⟩) fun hle => .inr ⟨h.symm, hle⟩
  · exact .inr (.inl h)⟩

instance : IsTrans StoredDefaultQuery fun a b =>
    a.position < b.position ∨ (a.position = b.position ∧ a.id ≤ b.id) := ⟨fun a b c hab hbc => by
  rcases hab with hab | ⟨hab, hle⟩
  · rcases hbc with hbc | ⟨hbc, -⟩
    · exact .inl (hab.trans hbc)
    · exact .inl (hbc ▸ hab)
  · rcases hbc with hbc | ⟨hbc, hle'⟩
    · exact .inl (hab ▸ hbc)
    · exact .inr ⟨hab.trans hbc, hle.trans hle'⟩⟩

/-- What is published are the first of the live queries, which are the stored ones. -/
theorem live_of_snapshot {d : GraphDoc} {published : List DefaultQuerySnapshot}
    (h : graphSettingsSnapshot host d = .ok published) :
    ∃ stored queries, storedDefaultQueries d = .ok stored ∧ LiveQueries host d queries ∧
      queries.map (fun query => (query.id, query.position)) =
        stored.map (fun query => (query.id, query.position)) ∧
      published = queries.take maxDefaultQueries := by
  unfold graphSettingsSnapshot at h
  obtain ⟨stored, hstored, h⟩ := bind_eq_ok.mp h
  obtain ⟨queries, hqueries, h⟩ := bind_eq_ok.mp h
  have hqueries := mapM_id_eq_ok.mp hqueries
  refine ⟨stored, queries, hstored, ?_, keys_projected hqueries, (Except.ok.inj h).symm⟩
  unfold storedDefaultQueries at hstored
  obtain ⟨scan, hscan, hstored⟩ := bind_eq_ok.mp hstored
  have hscan := mapM_id_eq_ok.mp hscan
  obtain rfl := Except.ok.inj hstored
  have hperm := List.perm_insertionSort (fun a b : StoredDefaultQuery =>
    a.position < b.position ∨ (a.position = b.position ∧ a.id ≤ b.id)) (scan.filterMap id)
  have hlive : ∀ query, query ∈ scan.filterMap id ↔
      ∃ e ∈ d.defaultQueries.entries, storedDefaultQuery e.1 e.2 = .ok (some query) := by
    intro query
    rw [← mem_of_map_ok hscan, List.mem_filterMap]
    exact ⟨fun ⟨_, hr, heq⟩ => heq ▸ hr, fun hr => ⟨_, hr, rfl⟩⟩
  constructor
  · intro key entry hentry
    have hresult : storedDefaultQuery key entry ∈ scan.map .ok := by
      rw [← hscan]
      exact List.mem_map_of_mem (f := fun e : DefaultQueryId × DefaultQueryEntry =>
        storedDefaultQuery e.1 e.2) (BTreeMap.mem_entries.mpr hentry)
    obtain ⟨r, -, hr⟩ := List.mem_map.mp hresult
    cases r with
    | none => exact ⟨none, bind_eq_ok.mpr ⟨none, hr.symm, rfl⟩⟩
    | some query =>
      have hmem := hperm.mem_iff.mpr ((hlive query).mpr
        ⟨(key, entry), BTreeMap.mem_entries.mpr hentry, hr.symm⟩)
      have hproject := List.mem_map_of_mem (f := fun query : StoredDefaultQuery => do
        let document ← decodeQueryDocument host query.document
        return (⟨query.id, query.title, query.position, document⟩ : DefaultQuerySnapshot)) hmem
      rw [hqueries] at hproject
      obtain ⟨snapshot, -, hsnapshot⟩ := List.mem_map.mp hproject
      obtain ⟨document, hdecode, hsnapshot⟩ := bind_eq_ok.mp hsnapshot.symm
      exact ⟨_, bind_eq_ok.mpr ⟨some query, hr.symm, bind_eq_ok.mpr ⟨document, hdecode, rfl⟩⟩⟩
  · refine sorted_projected hqueries (List.pairwise_insertionSort _ _) ?_
    exact (hperm.map StoredDefaultQuery.id).nodup_iff.mpr
      (d.defaultQueries.nodup_keys.sublist (listed_ids_sublist hscan))
  · intro query
    rw [mem_of_map_ok hqueries]
    constructor
    · rintro ⟨stored, hstored, hproject⟩
      obtain ⟨e, he, hread⟩ := (hlive stored).mp (hperm.mem_iff.mp hstored)
      have hsnapshot : snapshotOf host e.1 e.2 = .ok (some query) := by
        obtain ⟨document, hdecode, hproject⟩ := bind_eq_ok.mp hproject
        obtain rfl := Except.ok.inj hproject
        exact bind_eq_ok.mpr ⟨some stored, hread, bind_eq_ok.mpr ⟨document, hdecode, rfl⟩⟩
      have hid := (snapshotOf_eq_some_iff.mp hsnapshot).1
      exact ⟨e.2, hid ▸ BTreeMap.mem_entries.mp he, hid ▸ hsnapshot⟩
    · rintro ⟨entry, hentry, hsnapshot⟩
      obtain ⟨r, hread, hsnapshot⟩ := bind_eq_ok.mp hsnapshot
      cases r with
      | none => cases hsnapshot
      | some stored =>
        obtain ⟨document, hdecode, hsnapshot⟩ := bind_eq_ok.mp hsnapshot
        refine ⟨stored, hperm.mem_iff.mpr ((hlive stored).mpr
          ⟨(query.id, entry), BTreeMap.mem_entries.mpr hentry, hread⟩), ?_⟩
        refine bind_eq_ok.mpr ⟨document, hdecode, ?_⟩
        exact congrArg Except.ok (Option.some.inj (Except.ok.inj hsnapshot))

/-- Results that are all there are a list of results. -/
theorem exists_map_ok {ε γ δ : Type} {f : γ → Except ε δ} {xs : List γ}
    (h : ∀ x ∈ xs, ∃ y, f x = .ok y) : ∃ ys : List δ, xs.map f = ys.map .ok := by
  refine ⟨(xs.map f).filterMap Except.toOption, map_ok_filterMap fun r hr => ?_⟩
  obtain ⟨x, hx, rfl⟩ := List.mem_map.mp hr
  exact h x hx

/-- A document whose entries can all be read publishes the first of its live queries. -/
theorem exists_live {d : GraphDoc} (hreadable : ∀ id entry, d.defaultQueries.get id = some entry →
      ∃ r, snapshotOf host id entry = .ok r) :
    ∃ queries, LiveQueries host d queries ∧
      graphSettingsSnapshot host d = .ok (queries.take maxDefaultQueries) := by
  have hread : ∀ e ∈ d.defaultQueries.entries, ∃ r, storedDefaultQuery e.1 e.2 = .ok r := by
    intro e he
    obtain ⟨_, hr⟩ := hreadable e.1 e.2 (BTreeMap.mem_entries.mp he)
    obtain ⟨r, hr, -⟩ := bind_eq_ok.mp hr
    exact ⟨r, hr⟩
  obtain ⟨scan, hscan⟩ := exists_map_ok hread
  have hstored : storedDefaultQueries d = .ok ((scan.filterMap id).insertionSort fun a b =>
      a.position < b.position ∨ (a.position = b.position ∧ a.id ≤ b.id)) :=
    bind_eq_ok.mpr ⟨scan, mapM_id_eq_ok.mpr hscan, rfl⟩
  have hproject : ∀ query ∈ (scan.filterMap id).insertionSort (fun a b =>
      a.position < b.position ∨ (a.position = b.position ∧ a.id ≤ b.id)), ∃ snapshot,
        (do
          let document ← decodeQueryDocument host query.document
          return (⟨query.id, query.title, query.position, document⟩ : DefaultQuerySnapshot)) =
            .ok snapshot := by
    intro query hquery
    obtain ⟨r, hr, heq⟩ := List.mem_filterMap.mp ((List.perm_insertionSort _ _).mem_iff.mp hquery)
    obtain ⟨e, he, hstored⟩ := (mem_of_map_ok hscan).mp hr
    obtain ⟨_, hsnapshot⟩ := hreadable e.1 e.2 (BTreeMap.mem_entries.mp he)
    obtain ⟨_, hstored', hsnapshot⟩ := bind_eq_ok.mp hsnapshot
    rw [hstored] at hstored'
    obtain rfl := Except.ok.inj hstored'
    obtain rfl : r = some query := heq
    obtain ⟨document, hdecode, -⟩ := bind_eq_ok.mp hsnapshot
    exact ⟨_, bind_eq_ok.mpr ⟨document, hdecode, rfl⟩⟩
  obtain ⟨queries, hqueries⟩ := exists_map_ok hproject
  have hsnapshot : graphSettingsSnapshot host d = .ok (queries.take maxDefaultQueries) :=
    bind_eq_ok.mpr ⟨_, hstored, bind_eq_ok.mpr ⟨queries, mapM_id_eq_ok.mpr hqueries, rfl⟩⟩
  obtain ⟨-, live, -, hlive, -, hpublished⟩ := live_of_snapshot hsnapshot
  exact ⟨live, hlive, hpublished ▸ hsnapshot⟩

/-! ## What the commands are for -/

inductive DefaultQueryCommand where
  | create (id : DefaultQueryId) (title : String) (document : PropertyDocument)
  | rename (id : DefaultQueryId) (title : String)
  | move (id : DefaultQueryId) (index : Nat)
  | delete (id : DefaultQueryId)

def DefaultQueryCommand.intent : DefaultQueryCommand → Intent
  | .create id title document => .createDefaultQuery id title document
  | .rename id title => .renameDefaultQuery id title
  | .move id index => .moveDefaultQuery id index
  | .delete id => .deleteDefaultQuery id

/-- A published query apart from its position. -/
def DefaultQuerySnapshot.shown (query : DefaultQuerySnapshot) :
    DefaultQueryId × String × PropertyDocument :=
  (query.id, query.title, query.document)

def DefaultQuerySnapshot.retitled (id : DefaultQueryId) (title : String)
    (query : DefaultQuerySnapshot) : DefaultQuerySnapshot :=
  if query.id = id then { query with title := title } else query

/-- A list with the element of one index at another. -/
def moveTo {γ : Type} (list : List γ) (source index : Nat) : List γ :=
  match list[source]? with
  | some element => (list.eraseIdx source).insertIdx index element
  | none => list

/-- What a command makes of the published list. -/
def DefaultQueryCommand.Does (published after : List DefaultQuerySnapshot) :
    DefaultQueryCommand → Prop
  | .create id title _ =>
    ∃ document, after.map DefaultQuerySnapshot.shown =
      published.map DefaultQuerySnapshot.shown ++ [(id, title, document)]
  | .rename id title => after = published.map (DefaultQuerySnapshot.retitled id title)
  | .move id index =>
    ∃ source, (published.map DefaultQuerySnapshot.id)[source]? = some id ∧
      after.map DefaultQuerySnapshot.shown =
        moveTo (published.map DefaultQuerySnapshot.shown) source index
  | .delete id =>
    id ∈ published.map DefaultQuerySnapshot.id →
      ∃ joined, joined.length ≤ 1 ∧
        (∀ query ∈ joined, query.id ∉ published.map DefaultQuerySnapshot.id) ∧
        after = published.filter (fun query => query.id ≠ id) ++ joined

/-- No unpublished query comes before the last one of the new order, and no published query
before a new one. `live` has the ids and positions of all live queries in their order. -/
def DefaultQueryCommand.StaysInFront (live : List (DefaultQueryId × Nat)) :
    DefaultQueryCommand → Prop
  | .create id _ _ => ∀ last, live.getLast? = some last → last.2 < 4294967295 ∨ last.1 < id
  | .move id index =>
    ∀ source, ((live.take maxDefaultQueries).map Prod.fst)[source]? = some id →
      ∀ last, (moveTo ((live.take maxDefaultQueries).map Prod.fst) source index).getLast? =
        some last →
          ∀ other ∈ live.drop maxDefaultQueries,
            maxDefaultQueries - 1 < other.2 ∨ maxDefaultQueries - 1 = other.2 ∧ last < other.1
  | _ => True

/-! ## The order of changed lists -/

theorem ComesBefore.trans {a b c : DefaultQuerySnapshot} (hab : ComesBefore a b)
    (hbc : ComesBefore b c) : ComesBefore a c := by
  rcases hab with hab | ⟨hab, hlt⟩
  · rcases hbc with hbc | ⟨hbc, -⟩
    · exact .inl (hab.trans hbc)
    · exact .inl (hbc ▸ hab)
  · rcases hbc with hbc | ⟨hbc, hlt'⟩
    · exact .inl (hab ▸ hbc)
    · exact .inr ⟨hab.trans hbc, hlt.trans hlt'⟩

/-- Sorted lists with the same members are one list. -/
theorem eq_of_mem_iff {queries others : List DefaultQuerySnapshot}
    (h : queries.Pairwise ComesBefore) (h' : others.Pairwise ComesBefore)
    (hmem : ∀ query, query ∈ queries ↔ query ∈ others) : queries = others := by
  have hnodup {list : List DefaultQuerySnapshot} (hs : list.Pairwise ComesBefore) : list.Nodup :=
    hs.imp fun hbefore => hbefore.ne
  exact ((List.perm_ext_iff_of_nodup (hnodup h) (hnodup h')).mpr hmem).eq_of_pairwise
    (fun a b _ _ hab hba => (hab.asymm hba).elim) h h'

/-- Members of a sorted list, one among the first and one among the others. -/
theorem comesBefore_of_take {queries : List DefaultQuerySnapshot}
    (h : queries.Pairwise ComesBefore) {n : Nat} {a b : DefaultQuerySnapshot}
    (ha : a ∈ queries.take n) (hb : b ∈ queries.drop n) : ComesBefore a b := by
  rw [← List.take_append_drop n queries] at h
  exact (List.pairwise_append.mp h).2.2 a ha b hb

/-- With distinct ids a query is where its id is. -/
theorem mem_of_id_mem {queries others : List DefaultQuerySnapshot}
    (hnodup : (queries.map DefaultQuerySnapshot.id).Nodup) (hsub : ∀ q ∈ others, q ∈ queries)
    {query : DefaultQuerySnapshot} (hquery : query ∈ queries)
    (hid : query.id ∈ others.map DefaultQuerySnapshot.id) : query ∈ others := by
  obtain ⟨other, hother, heq⟩ := List.mem_map.mp hid
  rwa [← List.inj_on_of_nodup_map hnodup (hsub other hother) hquery heq]

theorem map_fst_shown (queries : List DefaultQuerySnapshot) :
    (queries.map DefaultQuerySnapshot.shown).map Prod.fst =
      queries.map DefaultQuerySnapshot.id := by
  rw [List.map_map]
  rfl

/-- An unpublished query has an id of its own. -/
theorem not_mem_take {queries : List DefaultQuerySnapshot}
    (hnodup : (queries.map DefaultQuerySnapshot.id).Nodup) {query : DefaultQuerySnapshot}
    (hquery : query ∈ queries.drop maxDefaultQueries) :
    query.id ∉ (queries.take maxDefaultQueries).map DefaultQuerySnapshot.id := by
  intro hin
  rw [← List.take_append_drop maxDefaultQueries queries, List.map_append, List.nodup_append]
    at hnodup
  exact hnodup.2.2 _ hin _ (List.mem_map_of_mem hquery) rfl

/-! ### A new query -/

theorem create_iff {queries next : List DefaultQuerySnapshot} {created : DefaultQuerySnapshot}
    (hqueries : queries.Pairwise ComesBefore) (hnext : next.Pairwise ComesBefore)
    (hnodup : (next.map DefaultQuerySnapshot.id).Nodup)
    (hmem : ∀ query, query ∈ next ↔ query ∈ queries ∨ query = created)
    (hnew : created.id ∉ queries.map DefaultQuerySnapshot.id) :
    (∃ document, next.map DefaultQuerySnapshot.shown =
        queries.map DefaultQuerySnapshot.shown ++ [(created.id, created.title, document)]) ↔
      ∀ last, queries.getLast? = some last → ComesBefore last created := by
  constructor
  · rintro ⟨document, heq⟩ last hlast
    have hids := congrArg (List.map Prod.fst) heq
    rw [List.map_append, map_fst_shown, map_fst_shown, List.map_singleton] at hids
    have hlength := congrArg List.length hids
    rw [List.length_append, List.length_map, List.length_map, List.length_singleton] at hlength
    have hnil : next ≠ [] := List.ne_nil_of_length_pos (by omega)
    obtain ⟨front, final, rfl⟩ : ∃ front final, next = front ++ [final] :=
      ⟨_, _, (List.dropLast_concat_getLast hnil).symm⟩
    rw [List.map_append, List.map_singleton] at hids
    obtain ⟨hfront, hfinal⟩ := List.append_inj' hids rfl
    have hcreated : final = created :=
      List.inj_on_of_nodup_map hnodup (List.mem_append_right _ List.mem_cons_self)
        ((hmem created).mpr (.inr rfl)) (List.cons.inj hfinal).1
    have hmember := List.mem_of_getLast? hlast
    have hinFront : last ∈ front := by
      refine mem_of_id_mem hnodup (fun q hq => List.mem_append_left _ hq)
        ((hmem last).mpr (.inl hmember)) ?_
      rw [hfront]
      exact List.mem_map_of_mem hmember
    rw [← hcreated]
    exact (List.pairwise_append.mp hnext).2.2 last hinFront final List.mem_cons_self
  · intro hbefore
    have hsorted : (queries ++ [created]).Pairwise ComesBefore := by
      refine List.pairwise_append.mpr ⟨hqueries, List.pairwise_singleton _ _, ?_⟩
      intro query hquery other hother
      obtain rfl := List.mem_singleton.mp hother
      obtain ⟨front, last, rfl⟩ : ∃ front last, queries = front ++ [last] :=
        ⟨_, _, (List.dropLast_concat_getLast (List.ne_nil_of_mem hquery)).symm⟩
      have hlast := hbefore last List.getLast?_concat
      rcases List.mem_append.mp hquery with hquery | hquery
      · exact ((List.pairwise_append.mp hqueries).2.2 query hquery last
          List.mem_cons_self).trans hlast
      · rwa [List.mem_singleton.mp hquery]
    have heq : next = queries ++ [created] := eq_of_mem_iff hnext hsorted fun query => by
      rw [hmem, List.mem_append, List.mem_singleton]
    exact ⟨created.document, by rw [heq, List.map_append]; rfl⟩

/-! ### A query less -/

theorem length_filter_id {queries : List DefaultQuerySnapshot} {id : DefaultQueryId}
    (hnodup : (queries.map DefaultQuerySnapshot.id).Nodup)
    (hid : id ∈ queries.map DefaultQuerySnapshot.id) :
    (queries.filter fun query => query.id ≠ id).length + 1 = queries.length := by
  induction queries with
  | nil => cases hid
  | cons query queries ih =>
    rw [List.map_cons, List.nodup_cons] at hnodup
    by_cases heq : query.id = id
    · have hrest : (queries.filter fun query => query.id ≠ id) = queries := by
        refine List.filter_eq_self.mpr fun other hother => decide_eq_true fun hother' => ?_
        exact hnodup.1 (heq.trans hother'.symm ▸ List.mem_map_of_mem hother)
      rw [List.filter_cons_of_neg (by simpa using heq), hrest, List.length_cons]
    · have hin : id ∈ queries.map DefaultQuerySnapshot.id :=
        (List.mem_cons.mp hid).resolve_left fun h => heq h.symm
      rw [List.filter_cons_of_pos (by simpa using heq), List.length_cons, ih hnodup.2 hin,
        List.length_cons]

theorem delete_does {queries next : List DefaultQuerySnapshot} {id : DefaultQueryId}
    (hqueries : queries.Pairwise ComesBefore) (hnext : next.Pairwise ComesBefore)
    (hnodup : (queries.map DefaultQuerySnapshot.id).Nodup)
    (hmem : ∀ query, query ∈ next ↔ query ∈ queries ∧ query.id ≠ id) :
    (DefaultQueryCommand.delete id).Does (queries.take maxDefaultQueries)
      (next.take maxDefaultQueries) := by
  intro hid
  have heq : next = queries.filter fun query => query.id ≠ id := by
    refine eq_of_mem_iff hnext (hqueries.filter _) fun query => ?_
    rw [hmem, List.mem_filter, decide_eq_true_iff]
  have hsplit := List.take_append_drop maxDefaultQueries queries
  have hapart : ∀ query ∈ queries.drop maxDefaultQueries,
      query.id ∉ (queries.take maxDefaultQueries).map DefaultQuerySnapshot.id :=
    fun query hquery => not_mem_take hnodup hquery
  have hrest : (queries.drop maxDefaultQueries).filter (fun query => query.id ≠ id) =
      queries.drop maxDefaultQueries := by
    refine List.filter_eq_self.mpr fun query hquery => decide_eq_true fun heq => ?_
    exact hapart query hquery (heq ▸ hid)
  refine ⟨(queries.drop maxDefaultQueries).take 1, List.length_take_le _ _,
    fun query hquery => hapart query (List.mem_of_mem_take hquery), ?_⟩
  rw [heq]
  conv => lhs; rw [← hsplit, List.filter_append, hrest]
  have hlength := length_filter_id
    (hnodup.sublist ((List.take_sublist maxDefaultQueries queries).map _)) hid
  rw [List.length_take] at hlength
  by_cases hlong : maxDefaultQueries ≤ queries.length
  · rw [min_eq_left hlong] at hlength
    rw [List.take_append, List.take_of_length_le (by omega), show maxDefaultQueries -
      ((queries.take maxDefaultQueries).filter fun query => query.id ≠ id).length = 1 by omega]
  · have hdrop : queries.drop maxDefaultQueries = [] := List.drop_eq_nil_of_le (by omega)
    rw [hdrop, List.take_nil, List.append_nil, List.take_of_length_le (by omega)]

/-! ### Another title -/

theorem rename_does {queries next : List DefaultQuerySnapshot} {id : DefaultQueryId}
    {title : String} (hqueries : queries.Pairwise ComesBefore) (hnext : next.Pairwise ComesBefore)
    (hmem : ∀ query, query ∈ next ↔ query ∈ queries.map (DefaultQuerySnapshot.retitled id title)) :
    (DefaultQueryCommand.rename id title).Does (queries.take maxDefaultQueries)
      (next.take maxDefaultQueries) := by
  have hkeys : ∀ query : DefaultQuerySnapshot, (query.retitled id title).id = query.id ∧
      (query.retitled id title).position = query.position := by
    intro query
    unfold DefaultQuerySnapshot.retitled
    split <;> exact ⟨rfl, rfl⟩
  have hsorted : (queries.map (DefaultQuerySnapshot.retitled id title)).Pairwise ComesBefore := by
    refine List.pairwise_map.mpr (hqueries.imp fun {a b} hab => ?_)
    unfold ComesBefore
    rw [(hkeys a).1, (hkeys a).2, (hkeys b).1, (hkeys b).2]
    exact hab
  show next.take maxDefaultQueries = (queries.take maxDefaultQueries).map _
  rw [eq_of_mem_iff hnext hsorted hmem, List.map_take]

/-! ### Another order -/

/-- Queries numbered in their order. -/
def renumbered (queries : List DefaultQuerySnapshot) : List DefaultQuerySnapshot :=
  queries.mapIdx fun position query => { query with position := position }

theorem shown_renumbered (queries : List DefaultQuerySnapshot) :
    (renumbered queries).map DefaultQuerySnapshot.shown =
      queries.map DefaultQuerySnapshot.shown := by
  refine List.ext_getElem? fun index => ?_
  unfold renumbered
  rw [List.getElem?_map, List.getElem?_mapIdx, Option.map_map, List.getElem?_map]
  rfl

theorem ids_renumbered (queries : List DefaultQuerySnapshot) :
    (renumbered queries).map DefaultQuerySnapshot.id = queries.map DefaultQuerySnapshot.id := by
  rw [← map_fst_shown, shown_renumbered, map_fst_shown]

theorem sorted_renumbered (queries : List DefaultQuerySnapshot) :
    (renumbered queries).Pairwise ComesBefore := by
  unfold renumbered
  rw [List.pairwise_iff_getElem]
  intro i j hi hj hij
  rw [List.getElem_mapIdx, List.getElem_mapIdx]
  exact .inl hij

theorem move_iff {queries next moved : List DefaultQuerySnapshot}
    (hqueries : queries.Pairwise ComesBefore) (hnext : next.Pairwise ComesBefore)
    (hnodup : (next.map DefaultQuerySnapshot.id).Nodup)
    (hperm : moved.Perm (queries.take maxDefaultQueries))
    (hapart : ∀ query ∈ queries.drop maxDefaultQueries,
      query.id ∉ (queries.take maxDefaultQueries).map DefaultQuerySnapshot.id)
    (hmem : ∀ query, query ∈ next ↔
      query ∈ renumbered moved ∨ query ∈ queries.drop maxDefaultQueries) :
    (next.take maxDefaultQueries).map DefaultQuerySnapshot.shown =
        moved.map DefaultQuerySnapshot.shown ↔
      ∀ last, (renumbered moved).getLast? = some last →
        ∀ other ∈ queries.drop maxDefaultQueries, ComesBefore last other := by
  constructor
  · intro heq last hlast other hother
    have hids := congrArg (List.map Prod.fst) heq
    rw [map_fst_shown, map_fst_shown] at hids
    have hlast := List.mem_of_getLast? hlast
    have hlastId : last.id ∈ moved.map DefaultQuerySnapshot.id := by
      rw [← ids_renumbered]
      exact List.mem_map_of_mem hlast
    have hlastTake : last ∈ next.take maxDefaultQueries := by
      refine mem_of_id_mem hnodup (fun q hq => List.mem_of_mem_take hq)
        ((hmem last).mpr (.inl hlast)) ?_
      rwa [hids]
    have hotherDrop : other ∈ next.drop maxDefaultQueries := by
      have hin := (hmem other).mpr (.inr hother)
      rw [← List.take_append_drop maxDefaultQueries next] at hin
      refine (List.mem_append.mp hin).resolve_left fun htake => ?_
      have hid := List.mem_map_of_mem (f := DefaultQuerySnapshot.id) htake
      rw [hids, (hperm.map DefaultQuerySnapshot.id).mem_iff] at hid
      exact hapart other hother hid
    exact comesBefore_of_take hnext hlastTake hotherDrop
  · intro hbefore
    have hsorted : (renumbered moved ++ queries.drop maxDefaultQueries).Pairwise ComesBefore := by
      refine List.pairwise_append.mpr ⟨sorted_renumbered moved,
        hqueries.sublist (List.drop_sublist _ _), fun query hquery other hother => ?_⟩
      obtain ⟨front, last, hlast⟩ : ∃ front last, renumbered moved = front ++ [last] :=
        ⟨_, _, (List.dropLast_concat_getLast (List.ne_nil_of_mem hquery)).symm⟩
      have hfinal := hbefore last (by rw [hlast, List.getLast?_concat]) other hother
      have hmoved := sorted_renumbered moved
      rw [hlast] at hquery hmoved
      rcases List.mem_append.mp hquery with hquery | hquery
      · exact ((List.pairwise_append.mp hmoved).2.2 query hquery last
          List.mem_cons_self).trans hfinal
      · rwa [List.mem_singleton.mp hquery]
    have heq : next = renumbered moved ++ queries.drop maxDefaultQueries :=
      eq_of_mem_iff hnext hsorted fun query => by rw [hmem, List.mem_append]
    have hlength : (renumbered moved).length = min maxDefaultQueries queries.length := by
      unfold renumbered
      rw [List.length_mapIdx, hperm.length_eq, List.length_take]
    have htake : next.take maxDefaultQueries = renumbered moved := by
      by_cases hlong : maxDefaultQueries ≤ queries.length
      · rw [min_eq_left hlong] at hlength
        rw [heq, ← hlength, List.take_left]
      · rw [heq, List.drop_eq_nil_of_le (by omega), List.append_nil,
          List.take_of_length_le (by omega)]
    rw [htake, shown_renumbered]

end Neoseq.Core
