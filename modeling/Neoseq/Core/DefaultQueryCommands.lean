import Neoseq.Core.DefaultQueries
import Neoseq.Core.Journals
import Neoseq.Core.QueryViews

/-! The commands on default queries. Each changes some entries, and its result is the list that
the changed entries are published as. -/

namespace Neoseq.Core
open Domain Document Collections

variable {host : Host}

/-! ## What the commands write -/

section Writes

variable {d d' : GraphDoc}

theorem get_queryEntry (d : GraphDoc) (id key : DefaultQueryId)
    (f : DefaultQueryEntry → DefaultQueryEntry) :
    (d.queryEntry id f).defaultQueries.get key =
      if key = id then (d.defaultQueries.get key).map f else d.defaultQueries.get key := by
  unfold GraphDoc.queryEntry
  by_cases heq : key = id
  · subst heq
    rw [if_pos rfl]
    cases hget : d.defaultQueries.get key with
    | none => exact hget
    | some entry =>
      show (d.defaultQueries.insert key (f entry)).get key = _
      rw [BTreeMap.get_insert, if_pos rfl]
      rfl
  · rw [if_neg heq]
    cases d.defaultQueries.get id with
    | none => rfl
    | some entry =>
      show (d.defaultQueries.insert id (f entry)).get key = _
      rw [BTreeMap.get_insert, if_neg heq]

/-- An entry with the position that a list assigns. -/
def DefaultQueryEntry.assigned (positions : List (DefaultQueryId × Nat)) (id : DefaultQueryId)
    (entry : DefaultQueryEntry) : DefaultQueryEntry :=
  match positions.lookup id with
  | some position => { entry with position := some position }
  | none => entry

theorem run_assignPosition {id : DefaultQueryId} {position : Nat} {u : Unit}
    (h : (assignPosition id position).run d = (.ok u, d')) :
    d' = d.queryEntry id fun entry => { entry with position := some position } := by
  obtain ⟨_, d₁, hread, hwrite⟩ := Edit.run_bind_eq_ok.mp h
  obtain ⟨-, rfl⟩ := Prod.mk.inj hread
  exact (Prod.mk.inj hwrite).2.symm

theorem get_assignPositions {positions : List (DefaultQueryId × Nat)} {u : Unit}
    (hnodup : (positions.map Prod.fst).Nodup)
    (h : (Edit.each (fun p => assignPosition p.1 p.2) positions).run d = (.ok u, d'))
    (key : DefaultQueryId) :
    d'.defaultQueries.get key =
      (d.defaultQueries.get key).map (DefaultQueryEntry.assigned positions key) := by
  induction positions generalizing d with
  | nil =>
    obtain ⟨-, rfl⟩ := Prod.mk.inj h
    cases d.defaultQueries.get key <;> rfl
  | cons p rest ih =>
    obtain ⟨_, d₁, hfirst, hrest⟩ := Edit.run_bind_eq_ok.mp h
    rw [List.map_cons, List.nodup_cons] at hnodup
    rw [ih hnodup.2 hrest, run_assignPosition hfirst, get_queryEntry]
    by_cases heq : key = p.1
    · subst heq
      rw [if_pos rfl, Option.map_map]
      refine congrArg (Option.map · _) (funext fun entry => ?_)
      have hnone : rest.lookup p.1 = none := by
        refine List.lookup_eq_none_iff.mpr fun other hother => bne_iff_ne.mpr fun heq => ?_
        exact hnodup.1 (heq ▸ List.mem_map_of_mem hother)
      unfold DefaultQueryEntry.assigned
      rw [List.lookup_cons, beq_self_eq_true]
      show (match rest.lookup p.1 with
        | some position => _
        | none => _) = _
      rw [hnone]
    · rw [if_neg heq]
      unfold DefaultQueryEntry.assigned
      rw [List.lookup_cons, beq_false_of_ne heq]

/-- A command that changes every entry in place, and with it what the entry is read to. -/
theorem LiveQueries.exists_changed {queries : List DefaultQuerySnapshot}
    (h : LiveQueries host d queries) {f : DefaultQueryId → DefaultQueryEntry → DefaultQueryEntry}
    {g : DefaultQuerySnapshot → Option DefaultQuerySnapshot}
    (hget : ∀ id, d'.defaultQueries.get id = (d.defaultQueries.get id).map (f id))
    (hread : ∀ id entry r, d.defaultQueries.get id = some entry →
      snapshotOf host id entry = .ok r → snapshotOf host id (f id entry) = .ok (r.bind g)) :
    ∃ next, LiveQueries host d' next ∧
      graphSettingsSnapshot host d' = .ok (next.take maxDefaultQueries) ∧
      ∀ query, query ∈ next ↔ ∃ before ∈ queries, g before = some query := by
  have hreadable : ∀ id entry, d'.defaultQueries.get id = some entry →
      ∃ r, snapshotOf host id entry = .ok r := by
    intro id entry hentry
    rw [hget] at hentry
    obtain ⟨before, hbefore, rfl⟩ := Option.map_eq_some_iff.mp hentry
    obtain ⟨r, hr⟩ := h.readable id before hbefore
    exact ⟨_, hread id before r hbefore hr⟩
  obtain ⟨next, hnext, hpublished⟩ := exists_live hreadable
  refine ⟨next, hnext, hpublished, fun query => ?_⟩
  rw [hnext.mem_iff, hget]
  constructor
  · rintro ⟨entry, hentry, hsnapshot⟩
    obtain ⟨before, hbefore, rfl⟩ := Option.map_eq_some_iff.mp hentry
    obtain ⟨r, hr⟩ := h.readable query.id before hbefore
    rw [hread query.id before r hbefore hr] at hsnapshot
    obtain ⟨shown, rfl, hshown⟩ := Option.bind_eq_some_iff.mp (Except.ok.inj hsnapshot)
    have hid : shown.id = query.id := (snapshotOf_eq_some_iff.mp hr).1
    exact ⟨shown, (h.mem_iff shown).mpr ⟨before, hid ▸ hbefore, hid ▸ hr⟩, hshown⟩
  · rintro ⟨shown, hmem, hshown⟩
    obtain ⟨before, hbefore, hr⟩ := (h.mem_iff shown).mp hmem
    have hsnapshot := hread shown.id before _ hbefore hr
    rw [Option.bind_some, hshown] at hsnapshot
    have hid : query.id = shown.id := (snapshotOf_eq_some_iff.mp hsnapshot).1
    rw [hid, hbefore]
    exact ⟨_, rfl, hsnapshot⟩

/-- A command that adds an entry. -/
theorem LiveQueries.exists_added {queries : List DefaultQuerySnapshot}
    (h : LiveQueries host d queries) (created : DefaultQuerySnapshot) {entry : DefaultQueryEntry}
    (hnew : d.defaultQueries.get created.id = none)
    (hget : d'.defaultQueries = d.defaultQueries.insert created.id entry)
    (hread : snapshotOf host created.id entry = .ok (some created)) :
    ∃ next, LiveQueries host d' next ∧
      graphSettingsSnapshot host d' = .ok (next.take maxDefaultQueries) ∧
      ∀ query, query ∈ next ↔ query ∈ queries ∨ query = created := by
  have hreadable : ∀ id other, d'.defaultQueries.get id = some other →
      ∃ r, snapshotOf host id other = .ok r := by
    intro id other hother
    rw [hget, BTreeMap.get_insert] at hother
    by_cases hid : id = created.id
    · rw [if_pos hid] at hother
      obtain rfl := Option.some.inj hother
      exact ⟨_, hid ▸ hread⟩
    · rw [if_neg hid] at hother
      exact h.readable id other hother
  obtain ⟨next, hnext, hpublished⟩ := exists_live hreadable
  refine ⟨next, hnext, hpublished, fun query => ?_⟩
  rw [hnext.mem_iff, hget, BTreeMap.get_insert]
  by_cases hid : query.id = created.id
  · rw [if_pos hid]
    constructor
    · rintro ⟨other, hother, hsnapshot⟩
      obtain rfl := Option.some.inj hother
      rw [hid, hread] at hsnapshot
      exact .inr (Option.some.inj (Except.ok.inj hsnapshot)).symm
    · rintro (hmem | rfl)
      · obtain ⟨other, hother, -⟩ := (h.mem_iff query).mp hmem
        rw [hid, hnew] at hother
        cases hother
      · exact ⟨entry, rfl, hread⟩
  · rw [if_neg hid, ← h.mem_iff]
    exact ⟨.inl, fun hmem => hmem.resolve_right fun heq => hid (heq ▸ rfl)⟩

/-! ### One entry -/

/-- The change of the entry of one query. -/
def changed (id : DefaultQueryId) (f : DefaultQueryEntry → DefaultQueryEntry)
    (key : DefaultQueryId) : DefaultQueryEntry → DefaultQueryEntry :=
  if key = id then f else fun entry => entry

theorem get_changed (d : GraphDoc) (id key : DefaultQueryId)
    (f : DefaultQueryEntry → DefaultQueryEntry) :
    (d.queryEntry id f).defaultQueries.get key =
      (d.defaultQueries.get key).map (changed id f key) := by
  rw [get_queryEntry]
  unfold changed
  by_cases heq : key = id
  · rw [if_pos heq, if_pos heq]
  · rw [if_neg heq, if_neg heq]
    exact Option.map_id'.symm

theorem snapshotOf_retitled {id : DefaultQueryId} {title : String}
    (hlength : title.length ≤ maxDefaultQueryTitle) {key : DefaultQueryId}
    {entry : DefaultQueryEntry} {r : Option DefaultQuerySnapshot}
    (h : snapshotOf host key entry = .ok r) :
    snapshotOf host key (changed id (fun entry => { entry with title := some title }) key entry) =
      .ok (r.bind fun query => some (query.retitled id title)) := by
  unfold changed
  cases r with
  | none =>
    have hdeleted := snapshotOf_eq_none_iff.mp h
    refine snapshotOf_eq_none_iff.mpr ?_
    split <;> exact hdeleted
  | some query =>
    obtain ⟨rfl, hdeleted, htitle, hshort, hposition, document, hdocument, hdecode⟩ :=
      snapshotOf_eq_some_iff.mp h
    rw [Option.bind_some]
    unfold DefaultQuerySnapshot.retitled
    by_cases heq : query.id = id
    · rw [if_pos heq, if_pos heq]
      exact snapshotOf_eq_some_iff.mpr
        ⟨rfl, hdeleted, rfl, hlength, hposition, document, hdocument, hdecode⟩
    · rw [if_neg heq, if_neg heq]
      exact h

theorem snapshotOf_deleted {id key : DefaultQueryId} {entry : DefaultQueryEntry}
    {r : Option DefaultQuerySnapshot} (h : snapshotOf host key entry = .ok r) :
    snapshotOf host key (changed id (fun entry => { entry with deleted := some true }) key entry) =
      .ok (r.bind fun query => if query.id = id then none else some query) := by
  unfold changed
  by_cases heq : key = id
  · rw [if_pos heq]
    have hnone : (r.bind fun query => if query.id = id then none else some query) = none := by
      cases r with
      | none => rfl
      | some query =>
        have hid := (snapshotOf_eq_some_iff.mp h).1
        rw [Option.bind_some, if_pos (hid.trans heq)]
    rw [hnone]
    exact snapshotOf_eq_none_iff.mpr rfl
  · rw [if_neg heq, h]
    cases r with
    | none => rfl
    | some query =>
      have hid := (snapshotOf_eq_some_iff.mp h).1
      rw [Option.bind_some, if_neg (hid ▸ heq)]

/-! ### Positions -/

def DefaultQuerySnapshot.assigned (positions : List (DefaultQueryId × Nat))
    (query : DefaultQuerySnapshot) : DefaultQuerySnapshot :=
  match positions.lookup query.id with
  | some position => { query with position := position }
  | none => query

theorem u32FromI64_natCast {n : Nat} (h : n < 4294967296) : u32FromI64 n = some n := by
  have hrange : (0 : Int) ≤ n ∧ (n : Int) < 4294967296 := by omega
  unfold u32FromI64
  rw [if_pos hrange, Int.toNat_natCast]

theorem snapshotOf_assigned {positions : List (DefaultQueryId × Nat)}
    (hbound : ∀ p ∈ positions, p.2 < 4294967296) {key : DefaultQueryId}
    {entry : DefaultQueryEntry} {r : Option DefaultQuerySnapshot}
    (h : snapshotOf host key entry = .ok r) :
    snapshotOf host key (entry.assigned positions key) =
      .ok (r.bind fun query => some (query.assigned positions)) := by
  unfold DefaultQueryEntry.assigned
  cases r with
  | none =>
    have hdeleted := snapshotOf_eq_none_iff.mp h
    refine snapshotOf_eq_none_iff.mpr ?_
    split <;> exact hdeleted
  | some query =>
    obtain ⟨rfl, hdeleted, htitle, hshort, hposition, document, hdocument, hdecode⟩ :=
      snapshotOf_eq_some_iff.mp h
    rw [Option.bind_some]
    unfold DefaultQuerySnapshot.assigned
    cases hlookup : positions.lookup query.id with
    | none => exact h
    | some position =>
      obtain ⟨before, after, rfl, -⟩ := List.lookup_eq_some_iff.mp hlookup
      have hrange := hbound (query.id, position) (by simp)
      have hcast : (some (position : Int)).bind u32FromI64 = some position :=
        (Option.bind_some ..).trans (u32FromI64_natCast hrange)
      exact snapshotOf_eq_some_iff.mpr
        ⟨rfl, hdeleted, htitle, hshort, hcast, document, hdocument, hdecode⟩

end Writes

/-! ### The numbers of a new order -/

theorem lookup_zipIdx_of_getElem? {γ : Type} [DecidableEq γ] {l : List γ} (hnodup : l.Nodup)
    {i : Nat} {x : γ} (h : l[i]? = some x) (n : Nat) : (l.zipIdx n).lookup x = some (n + i) := by
  induction l generalizing i n with
  | nil => cases h
  | cons y l ih =>
    rw [List.nodup_cons] at hnodup
    rw [List.zipIdx_cons, List.lookup_cons]
    cases i with
    | zero =>
      obtain rfl : y = x := Option.some.inj h
      rw [beq_self_eq_true]
      rfl
    | succ i =>
      have hne : x ≠ y := fun heq => hnodup.1 (heq ▸ List.mem_of_getElem? h)
      rw [beq_false_of_ne hne]
      show (l.zipIdx (n + 1)).lookup x = _
      rw [ih hnodup.2 h (n + 1), Nat.add_assoc, Nat.add_comm 1 i]

theorem lookup_zipIdx_of_not_mem {γ : Type} [DecidableEq γ] {l : List γ} {x : γ} (h : x ∉ l)
    (n : Nat) : (l.zipIdx n).lookup x = none := by
  refine List.lookup_eq_none_iff.mpr fun p hp => bne_iff_ne.mpr fun heq => ?_
  have hmem := List.mem_map_of_mem (f := Prod.fst) hp
  rw [List.zipIdx_map_fst] at hmem
  exact h (heq ▸ hmem)

/-- The positions of a new order, given to all live queries. -/
theorem mem_assigned_iff {queries moved : List DefaultQuerySnapshot}
    (hnodup : (queries.map DefaultQuerySnapshot.id).Nodup)
    (hperm : moved.Perm (queries.take maxDefaultQueries)) (query : DefaultQuerySnapshot) :
    (∃ before ∈ queries, some (before.assigned
        (moved.map DefaultQuerySnapshot.id).zipIdx) = some query) ↔
      query ∈ renumbered moved ∨ query ∈ queries.drop maxDefaultQueries := by
  have hmoved : (moved.map DefaultQuerySnapshot.id).Nodup :=
    (hperm.map _).nodup_iff.mpr (hnodup.sublist ((List.take_sublist _ _).map _))
  have hplaced : ∀ (i : Nat) (before : DefaultQuerySnapshot), moved[i]? = some before →
      DefaultQuerySnapshot.assigned (moved.map DefaultQuerySnapshot.id).zipIdx before =
        { before with position := i } := by
    intro i before hbefore
    have hlookup := lookup_zipIdx_of_getElem? hmoved (i := i) (x := before.id)
      (by rw [List.getElem?_map, hbefore]; rfl) 0
    unfold DefaultQuerySnapshot.assigned
    rw [hlookup, Nat.zero_add]
  have hstays : ∀ before ∈ queries.drop maxDefaultQueries,
      before.assigned (moved.map DefaultQuerySnapshot.id).zipIdx = before := by
    intro before hbefore
    have hapart := not_mem_take hnodup hbefore
    rw [← (hperm.map DefaultQuerySnapshot.id).mem_iff] at hapart
    unfold DefaultQuerySnapshot.assigned
    rw [lookup_zipIdx_of_not_mem hapart]
  have hrenumbered : query ∈ renumbered moved ↔
      ∃ (i : Nat) (before : DefaultQuerySnapshot),
        moved[i]? = some before ∧ { before with position := i } = query := by
    unfold renumbered
    rw [List.mem_mapIdx]
    constructor
    · rintro ⟨i, hi, heq⟩
      exact ⟨i, moved[i], List.getElem?_eq_getElem hi, heq⟩
    · rintro ⟨i, before, hbefore, heq⟩
      obtain ⟨hi, rfl⟩ := List.getElem?_eq_some_iff.mp hbefore
      exact ⟨i, hi, heq⟩
  rw [hrenumbered]
  constructor
  · rintro ⟨before, hbefore, heq⟩
    rw [← List.take_append_drop maxDefaultQueries queries] at hbefore
    rcases List.mem_append.mp hbefore with hbefore | hbefore
    · obtain ⟨i, hi⟩ := List.mem_iff_getElem?.mp (hperm.mem_iff.mpr hbefore)
      exact .inl ⟨i, before, hi, (hplaced i before hi).symm.trans (Option.some.inj heq)⟩
    · rw [hstays before hbefore] at heq
      exact .inr (Option.some.inj heq ▸ hbefore)
  · rintro (⟨i, before, hbefore, rfl⟩ | hquery)
    · exact ⟨before, List.mem_of_mem_take (hperm.mem_iff.mp (List.mem_of_getElem? hbefore)),
        congrArg some (hplaced i before hbefore)⟩
    · exact ⟨query, List.mem_of_mem_drop hquery, congrArg some (hstays query hquery)⟩

theorem map_moveTo {γ δ : Type} (f : γ → δ) (l : List γ) (source index : Nat) :
    (moveTo l source index).map f = moveTo (l.map f) source index := by
  unfold moveTo
  rw [List.getElem?_map]
  cases l[source]? with
  | none => rfl
  | some x =>
    show ((l.eraseIdx source).insertIdx index x).map f = _
    rw [List.map_insertIdx, List.eraseIdx_map]
    rfl

theorem moveTo_perm {γ : Type} {l : List γ} {source index : Nat} (h : index < l.length) :
    (moveTo l source index).Perm l := by
  unfold moveTo
  cases hsource : l[source]? with
  | none => exact List.Perm.refl _
  | some x =>
    obtain ⟨hlt, rfl⟩ := List.getElem?_eq_some_iff.mp hsource
    have hindex : index ≤ (l.eraseIdx source).length := by
      rw [List.length_eraseIdx_of_lt hlt]
      omega
    exact (List.perm_insertIdx _ _ hindex).trans (List.getElem_cons_eraseIdx_perm hlt)

/-! ## The document of a new query -/

section Written

variable (host)

def planStateOf : Option QueryPlan → StoredPlanState
  | none => .raw
  | some plan => .built queryPlanStateVersion plan

/-- A view is stored as what it is read from. Its position is a `u32`. -/
structure Storable (view : QueryView) : Prop where
  position : view.position < 4294967296
  columns : host.codec.columns (host.encodeColumns view.columns) = some view.columns
  options : host.codec.options (host.encodeOptions view.options) = some view.options
  planState : host.codec.planState (host.encodePlanState (planStateOf view.definition.plan)) =
    some (planStateOf view.definition.plan)

/-- The stored form of a new view. -/
def storedView (view : QueryView) : LoroMap :=
  updateDefinition (storedDefinition host view.definition)
    ((presented host (.of view) []).insert "deleted" (.bool false))

/-- The view that the stored form is read to. Where it has a plan, its source is derived. -/
def readBack (view : QueryView) : QueryView :=
  { view with definition := { view.definition with
      source := (view.definition.plan.bind (Document.derivedQuerySource host.codec)).getD
        view.definition.source } }

variable {host}

theorem validateStructure_readBack (view : QueryView) :
    (readBack host view).validateStructure host.codec = view.validateStructure host.codec := rfl

theorem validate_plan {codec : Codec} {view : QueryView} {plan : QueryPlan}
    (h : view.validateStructure codec = .ok ()) (hplan : view.definition.plan = some plan) :
    plan.validate codec = .ok () := by
  unfold QueryView.validateStructure at h
  by_cases hlanguage : (view.definition.language != queryLanguage) = true
  · rw [if_pos hlanguage] at h
    cases h
  · rw [if_neg hlanguage, hplan] at h
    obtain ⟨u, hvalid, -⟩ := bind_eq_ok.mp h
    exact hvalid

theorem readDefinition_stored {view : QueryView} (hstorable : Storable host view)
    (hvalid : view.validateStructure host.codec = .ok ()) (label : String) :
    readQueryDefinition host.codec (storedDefinition host view.definition []) label =
      .ok (readBack host view).definition := by
  have hlanguage : mapString (storedDefinition host view.definition []) "language" =
      some view.definition.language := by
    simp [storedDefinition, writeQueryPlanState, mapString, LoroMap.get_insert, queryPlanStateKey,
      Stored.intoString]
  have hsource : ((storedDefinition host view.definition []).get "source").bind Stored.intoText =
      some view.definition.source := by
    simp [storedDefinition, writeQueryPlanState, LoroMap.get_insert, queryPlanStateKey,
      Stored.intoText]
  have hstate : (storedDefinition host view.definition []).get queryPlanStateKey =
      some (.string (host.encodePlanState (planStateOf view.definition.plan))) := by
    unfold storedDefinition writeQueryPlanState
    rw [LoroMap.get_insert, if_pos rfl]
    rfl
  have hplanState : decodeQueryPlanState host.codec (storedDefinition host view.definition [])
      label = .ok view.definition.plan := by
    unfold decodeQueryPlanState
    rw [hstate]
    dsimp only [Stored.intoString]
    show (orElse (host.codec.planState _) _ >>= _) = _
    rw [hstorable.planState]
    cases hplan : view.definition.plan with
    | none => rfl
    | some plan =>
      have hcheck : validatePlan host.codec plan = .ok () := by
        unfold validatePlan
        rw [validate_plan hvalid hplan]
        rfl
      simp only [orElse, planStateOf, bind, Except.bind, bne_self_eq_false, hcheck]
      rfl
  unfold readQueryDefinition
  rw [hlanguage, hsource, hplanState]
  unfold readBack
  dsimp only
  cases view.definition.plan with
  | none => rfl
  | some plan => rfl

theorem get_storedView (view : QueryView) (key : String) :
    (storedView host view).get key =
      if key = "definition" then some (.map (storedDefinition host view.definition []))
      else if key = "deleted" then some (.bool false)
      else (presented host (.of view) []).get key := by
  have hchild : childMap ((presented host (.of view) []).insert "deleted" (.bool false))
      "definition" = [] := by
    unfold childMap presented
    simp only [LoroMap.get_insert]
    rfl
  unfold storedView updateDefinition
  rw [hchild, LoroMap.get_insert, LoroMap.get_insert]

theorem decodeKind_stored (view : QueryView) :
    decodeKind (storedView host view) view.id.asStr = .ok view.kind := by
  have hget : (storedView host view).get "kind" =
      (presented host (.of view) []).get "kind" := by
    simp [get_storedView]
  unfold decodeKind mapString
  rw [hget]
  cases hkind : view.kind <;>
    simp [presented, LoroMap.get_insert, Stored.intoString, QueryViewPresentation.of, hkind]

theorem decodeView_stored {view : QueryView} (hstorable : Storable host view)
    (hvalid : view.validateStructure host.codec = .ok ()) :
    decodeView host.codec (viewDefinition host.codec) view.id.asStr (storedView host view) =
      .ok (readBack host view) := by
  have hid := queryViewId_eq_ok.mpr (rfl : view.id.asStr = view.id.asStr)
  have hname : mapString (storedView host view) "name" = some view.name := by
    simp [mapString, get_storedView, presented, LoroMap.get_insert, Stored.intoString,
      QueryViewPresentation.of]
  have hdefinition : viewDefinition host.codec (storedView host view) view.id.asStr =
      .ok (readBack host view).definition := by
    unfold viewDefinition
    rw [get_storedView, if_pos rfl]
    exact readDefinition_stored hstorable hvalid _
  have hposition : mapU32 (storedView host view) "position" = some view.position := by
    have hget : mapI64 (storedView host view) "position" = some (view.position : Int) := by
      simp [mapI64, get_storedView, presented, LoroMap.get_insert, QueryViewPresentation.of]
    unfold mapU32
    rw [hget]
    exact (Option.bind_some ..).trans (u32FromI64_natCast hstorable.position)
  have hcolumns : (mapString (storedView host view) "columns").bind host.codec.columns =
      some view.columns := by
    have hget : mapString (storedView host view) "columns" =
        some (host.encodeColumns view.columns) := by
      simp [mapString, get_storedView, presented, LoroMap.get_insert, Stored.intoString,
        QueryViewPresentation.of]
    rw [hget]
    exact hstorable.columns
  have hoptions : (mapString (storedView host view) "options").bind host.codec.options =
      some view.options := by
    have hget : mapString (storedView host view) "options" =
        some (host.encodeOptions view.options) := by
      simp [mapString, get_storedView, presented, LoroMap.get_insert, Stored.intoString,
        QueryViewPresentation.of]
    rw [hget]
    exact hstorable.options
  unfold decodeView
  rw [hid, hname, hdefinition, decodeKind_stored, hposition, hcolumns, hoptions]
  rfl

theorem scanView_stored {view : QueryView} (hstorable : Storable host view)
    (hvalid : view.validateStructure host.codec = .ok ()) :
    scanView host.codec (viewDefinition host.codec) (view.id.asStr, .map (storedView host view)) =
      some (.ok (readBack host view)) := by
  have hdeleted : mapBool (storedView host view) "deleted" = some false := by
    simp [mapBool, get_storedView]
  unfold scanView
  dsimp only
  rw [hdeleted, decodeView_stored hstorable hvalid]
  rfl

theorem insert_of_not_mem {m : LoroMap} {key : String} (value : Stored)
    (h : key ∉ m.map Prod.fst) : m.insert key value = m ++ [(key, value)] := by
  induction m with
  | nil => rfl
  | cons e rest ih =>
    rw [List.map_cons, List.mem_cons, not_or] at h
    unfold LoroMap.insert
    rw [if_neg (Ne.symm h.1), ih h.2, List.cons_append]

theorem childMap_of_not_mem {m : LoroMap} {key : String} (h : key ∉ m.map Prod.fst) :
    childMap m key = [] := by
  have hnone : m.get key = none := by
    refine List.lookup_eq_none_iff.mpr fun e he => bne_iff_ne.mpr fun heq => ?_
    exact h (heq ▸ List.mem_map_of_mem he)
  unfold childMap
  rw [hnone]
  rfl

theorem write_view {document written : LoroMap} {view : QueryView}
    (hviews : document.get "views" = some (.map written))
    (hfresh : view.id.asStr ∉ written.map Prod.fst) :
    applyQueryViewWrite host ⟨.of view, some view.definition⟩ document =
      document.insert "views"
        (.map (written ++ [(view.id.asStr, .map (storedView host view))])) := by
  have hchild : childMap document "views" = written := by
    unfold childMap
    rw [hviews]
    rfl
  unfold applyQueryViewWrite updateView
  dsimp only
  rw [hchild]
  show document.insert "views" (.map (written.insert view.id.asStr (.map (updateDefinition
    (storedDefinition host view.definition) ((presented host (.of view)
      (childMap written view.id.asStr)).insert "deleted" (.bool false)))))) = _
  rw [childMap_of_not_mem hfresh, insert_of_not_mem _ hfresh]
  rfl

/-- The views of a document that are written one by one. -/
theorem get_written {views : List QueryView} {document written : LoroMap}
    (hviews : document.get "views" = some (.map written))
    (hnodup : (written.map Prod.fst ++ views.map fun view => view.id.asStr).Nodup) (key : String) :
    (views.foldl (fun document view =>
      applyQueryViewWrite host ⟨.of view, some view.definition⟩ document) document).get key =
      if key = "views" then some (.map (written ++
        views.map fun view => (view.id.asStr, .map (storedView host view))))
      else document.get key := by
  induction views generalizing document written with
  | nil =>
    rw [List.map_nil, List.append_nil, List.foldl_nil]
    by_cases hkey : key = "views"
    · rw [if_pos hkey, hkey, hviews]
    · rw [if_neg hkey]
  | cons view views ih =>
    have hfresh : view.id.asStr ∉ written.map Prod.fst := fun hmem =>
      (List.nodup_append.mp hnodup).2.2 _ hmem _ List.mem_cons_self rfl
    rw [List.foldl_cons, write_view hviews hfresh]
    have hgrown : (document.insert "views" (.map (written ++
        [(view.id.asStr, .map (storedView host view))]))).get "views" =
          some (.map (written ++ [(view.id.asStr, .map (storedView host view))])) := by
      rw [LoroMap.get_insert, if_pos rfl]
    rw [ih hgrown]
    · rw [LoroMap.get_insert, List.append_assoc, List.map_cons, List.singleton_append]
      by_cases hkey : key = "views"
      · rw [if_pos hkey, if_pos hkey]
      · rw [if_neg hkey, if_neg hkey, if_neg hkey]
    · rw [List.map_append, List.append_assoc]
      exact hnodup

theorem normalized_eq {document normalized : PropertyDocument}
    (h : normalizedQueryDocument host document = .ok normalized) :
    normalized = document ∧ document.validateStructure host.codec = .ok () ∧
      ∀ view ∈ document.views, view.validateStructure host.codec = .ok () := by
  unfold normalizedQueryDocument at h
  obtain ⟨views, hviews, h⟩ := bind_eq_ok.mp h
  obtain ⟨u, hvalid, h⟩ := bind_eq_ok.mp h
  obtain rfl := Except.ok.inj h
  have hviews := mapM_id_eq_ok.mp hviews
  have hsame : ∀ view view', normalizedQueryView host view = .ok view' →
      view' = view ∧ view.validateStructure host.codec = .ok () := by
    intro view view' hview
    unfold normalizedQueryView at hview
    obtain ⟨definition, hdefinition, hview⟩ := bind_eq_ok.mp hview
    obtain ⟨u, hvalid, hview⟩ := bind_eq_ok.mp hview
    obtain rfl := Except.ok.inj hview
    obtain rfl : definition = view.definition := by
      unfold normalizedQueryDefinition at hdefinition
      split at hdefinition
      · obtain ⟨_, _, hdefinition⟩ := bind_eq_ok.mp hdefinition
        exact (Except.ok.inj hdefinition).symm
      · exact (Except.ok.inj hdefinition).symm
    unfold queryError at hvalid
    obtain ⟨_, hvalid, -⟩ := bind_eq_ok.mp (mapError_eq_ok.mp hvalid)
    exact ⟨rfl, hvalid⟩
  have hlist : views = document.views := by
    refine List.ext_getElem? fun index => ?_
    have hindex : (document.views.map (normalizedQueryView host))[index]? =
        (views.map .ok)[index]? := by rw [hviews]
    rw [List.getElem?_map, List.getElem?_map] at hindex
    cases hbefore : document.views[index]? with
    | none =>
      rw [hbefore] at hindex
      exact Option.map_eq_none_iff.mp hindex.symm
    | some view =>
      rw [hbefore] at hindex
      obtain ⟨view', hafter, heq⟩ := Option.map_eq_some_iff.mp hindex.symm
      rw [hafter, (hsame view view' heq.symm).1]
  rw [hlist] at hvalid ⊢
  unfold queryError at hvalid
  obtain ⟨_, hvalid, -⟩ := bind_eq_ok.mp (mapError_eq_ok.mp hvalid)
  refine ⟨rfl, hvalid, fun view hview => ?_⟩
  have hresult := List.mem_map_of_mem (f := normalizedQueryView host) hview
  rw [hviews] at hresult
  obtain ⟨view', -, heq⟩ := List.mem_map.mp hresult
  exact (hsame view view' heq.symm).2

/-- The document that a new query gets can be read. -/
theorem decode_written {document normalized : PropertyDocument}
    (h : normalizedQueryDocument host document = .ok normalized)
    (hstorable : ∀ view ∈ document.views, Storable host view) :
    ∃ shown, decodeQueryDocument host (writePreparedQueryDocument host normalized []) =
      .ok shown := by
  obtain ⟨rfl, hvalid, hviews⟩ := normalized_eq h
  have hsupported := PropertyDocument.supported_of_validateStructure hvalid
  have hnodup : (normalized.views.map fun view => view.id.asStr).Nodup := by
    have hids := (nodup_of_validateStructure hvalid).2
    rw [show (normalized.views.map fun view => view.id.asStr) =
      (normalized.views.map QueryView.id).map OpaqueString.asStr by rw [List.map_map]; rfl]
    exact hids.map fun a b heq => OpaqueString.ext heq
  have hempty : (clearViews (writeHeader normalized [])).get "views" = some (.map []) := by
    unfold clearViews
    rw [LoroMap.get_insert, if_pos rfl]
  have hget : ∀ key, (normalized.views.foldl (fun document view => applyQueryViewWrite host
      ⟨.of view, some view.definition⟩ document) (clearViews (writeHeader normalized []))).get key =
        if key = "views" then some (.map (normalized.views.map fun view =>
          (view.id.asStr, .map (storedView host view))))
        else (clearViews (writeHeader normalized [])).get key :=
    get_written hempty (by simpa using hnodup)
  have hread : Readable host.codec (writePreparedQueryDocument host normalized [])
      (normalized.views.map fun view => (view.id.asStr, .map (storedView host view)))
      normalized.defaultViewId (normalized.views.map (readBack host)) := by
    unfold writePreparedQueryDocument
    constructor
    · unfold mapString
      rw [hget, ← hsupported.1]
      simp [clearViews, writeHeader, LoroMap.get_insert, Stored.intoString]
    · have hversion : mapI64 (clearViews (writeHeader normalized [])) "version" =
          some (normalized.version : Int) := by
        simp [clearViews, writeHeader, LoroMap.get_insert, mapI64]
      have hsame : mapI64 (normalized.views.foldl (fun document view =>
          applyQueryViewWrite host ⟨.of view, some view.definition⟩ document)
            (clearViews (writeHeader normalized []))) "version" =
          mapI64 (clearViews (writeHeader normalized [])) "version" := by
        unfold mapI64
        rw [hget, if_neg (by simp)]
      have hbound : normalized.version < 4294967296 := by
        rw [hsupported.2]
        decide
      unfold mapU32
      rw [hsame, hversion, Option.bind_some, u32FromI64_natCast hbound, hsupported.2]
    · unfold mapString
      rw [hget]
      simp [clearViews, writeHeader, LoroMap.get_insert, Stored.intoString]
    · rw [hget, if_pos rfl]
      rfl
    · unfold decodeViews
      rw [mapM_id_eq_ok, List.filterMap_map, List.map_map]
      rw [← List.filterMap_eq_map]
      refine List.filterMap_congr fun view hview => ?_
      exact scanView_stored (hstorable view hview) (hviews view hview)
    · intro view hview
      obtain ⟨before, hbefore, rfl⟩ := List.mem_map.mp hview
      rw [validateStructure_readBack]
      exact hviews before hbefore
  have hproject := project_of_readable hread (by rw [List.map_map]; exact hnodup)
  refine ⟨(publishLive normalized.defaultViewId
    (normalized.views.map (readBack host))).document, ?_⟩
  unfold decodeQueryDocument
  rw [hproject]

end Written
/-! ## The commands -/

section Commands

variable {source : IdSource} {now : Timestamp} {d d' : GraphDoc} {outcome : MutationOutcome}
  {queries : List DefaultQuerySnapshot}

theorem run_touchNothing (d : GraphDoc) : (touchTransition now {}).run d = (.ok (), d) := rfl

/-- What a command that is lowered to one operation did, where the operation touches no entity. -/
theorem run_of_executeIntent {intent : Intent}
    (h : (executeIntent host source now intent).run d = (.ok outcome, d')) :
    ∃ operations, lower host d intent = .ok operations ∧
      ∀ operation, operations = [operation] →
        TransitionFootprint.fromOperations [operation] = {} →
          ∃ done, (applyOperation host source now operation).run d = (.ok done, d') := by
  obtain ⟨transition, d₁, hprepare, happly⟩ := Edit.run_bind_eq_ok.mp h
  obtain ⟨hok, rfl⟩ := Prod.mk.inj hprepare
  have hok : (lower host d intent).map NormalizedTransition.new = .ok transition := hok
  obtain ⟨operations, hlower, rfl⟩ := map_eq_ok.mp hok
  refine ⟨operations, hlower, ?_⟩
  rintro operation rfl hfootprint
  unfold applyTransition at happly
  obtain ⟨result, d₂, hops, hrest⟩ := Edit.run_bind_eq_ok.mp happly
  obtain ⟨done, d₃, hop, hpure⟩ := Edit.run_bind_eq_ok.mp hops
  obtain ⟨-, rfl⟩ := Prod.mk.inj hpure
  refine ⟨done, ?_⟩
  rw [hop]
  by_cases hchanged : result.changed = true
  · have hnothing : (touchTransition now (NormalizedTransition.new [operation]).footprint).run d₃ =
        (.ok (), d₃) := by
      show (touchTransition now (TransitionFootprint.fromOperations [operation])).run d₃ = _
      rw [hfootprint]
      exact run_touchNothing d₃
    dsimp only at hrest
    rw [if_pos hchanged] at hrest
    obtain ⟨_, d₄, htouch, hpure'⟩ := Edit.run_bind_eq_ok.mp hrest
    rw [hnothing] at htouch
    rw [(Prod.mk.inj htouch).2, (Prod.mk.inj hpure').2]
  · dsimp only at hrest
    rw [if_neg hchanged] at hrest
    rw [(Prod.mk.inj hrest).2]

theorem run_inDefaultQuery {id : DefaultQueryId} {f : DefaultQueryEntry → DefaultQueryEntry}
    {u : Unit} (h : (inDefaultQuery id f).run d = (.ok u, d')) : d' = d.queryEntry id f := by
  obtain ⟨_, d₁, hread, hwrite⟩ := Edit.run_bind_eq_ok.mp h
  obtain ⟨-, rfl⟩ := Prod.mk.inj hread
  exact (Prod.mk.inj hwrite).2.symm

theorem rename_published (hlive : LiveQueries host d queries) {id : DefaultQueryId}
    {title : String} (h : (executeIntent host source now (.renameDefaultQuery id title)).run d =
      (.ok outcome, d')) :
    ∃ next : List DefaultQuerySnapshot,
      graphSettingsSnapshot host d' = .ok (next.take maxDefaultQueries) ∧
      (DefaultQueryCommand.rename id title).Does (queries.take maxDefaultQueries)
        (next.take maxDefaultQueries) := by
  obtain ⟨operations, hlower, hrun⟩ := run_of_executeIntent h
  obtain ⟨_, _, hlower⟩ := bind_eq_ok.mp hlower
  obtain ⟨u, htitle, hlower⟩ := bind_eq_ok.mp hlower
  obtain rfl := Except.ok.inj hlower
  obtain ⟨done, happly⟩ := hrun _ rfl rfl
  obtain ⟨_, d₁, hin, hpure⟩ := Edit.run_bind_eq_ok.mp happly
  obtain ⟨-, rfl⟩ := Prod.mk.inj hpure
  have hlength : title.length ≤ maxDefaultQueryTitle := by
    unfold validateDefaultQueryTitle at htitle
    split at htitle
    · cases htitle
    · omega
  rw [run_inDefaultQuery hin]
  obtain ⟨next, hnext, hpublished, hmem⟩ := hlive.exists_changed
    (fun key => get_changed d id key _) fun key entry r _ hr => snapshotOf_retitled hlength hr
  refine ⟨next, hpublished, rename_does hlive.sorted hnext.sorted fun query => ?_⟩
  rw [hmem, List.mem_map]
  exact ⟨fun ⟨before, hbefore, heq⟩ => ⟨before, hbefore, Option.some.inj heq⟩,
    fun ⟨before, hbefore, heq⟩ => ⟨before, hbefore, congrArg some heq⟩⟩

theorem delete_published (hlive : LiveQueries host d queries) {id : DefaultQueryId}
    (h : (executeIntent host source now (.deleteDefaultQuery id)).run d = (.ok outcome, d')) :
    ∃ next : List DefaultQuerySnapshot,
      graphSettingsSnapshot host d' = .ok (next.take maxDefaultQueries) ∧
      (DefaultQueryCommand.delete id).Does (queries.take maxDefaultQueries)
        (next.take maxDefaultQueries) := by
  obtain ⟨operations, hlower, hrun⟩ := run_of_executeIntent h
  obtain ⟨_, _, hlower⟩ := bind_eq_ok.mp hlower
  obtain rfl := Except.ok.inj hlower
  obtain ⟨done, happly⟩ := hrun _ rfl rfl
  obtain ⟨_, d₁, hin, hpure⟩ := Edit.run_bind_eq_ok.mp happly
  obtain ⟨-, rfl⟩ := Prod.mk.inj hpure
  rw [run_inDefaultQuery hin]
  obtain ⟨next, hnext, hpublished, hmem⟩ := hlive.exists_changed
    (fun key => get_changed d id key _) fun key entry r _ hr => snapshotOf_deleted hr
  refine ⟨next, hpublished, delete_does hlive.sorted hnext.sorted hlive.nodup fun query => ?_⟩
  rw [hmem]
  constructor
  · rintro ⟨before, hbefore, heq⟩
    split at heq
    · cases heq
    · next hne =>
      obtain rfl := Option.some.inj heq
      exact ⟨hbefore, hne⟩
  · rintro ⟨hquery, hne⟩
    exact ⟨query, hquery, if_neg hne⟩

/-- The order that is written, which one index of the published order is taken to another in. -/
theorem lower_move {published : List DefaultQuerySnapshot} {id : DefaultQueryId} {index : Nat}
    {operations : List PrimitiveOp} (hpublished : graphSettingsSnapshot host d = .ok published)
    (h : lower host d (.moveDefaultQuery id index) = .ok operations) :
    ∃ source, index < published.length ∧
      (published.map DefaultQuerySnapshot.id)[source]? = some id ∧
      operations = [.assignDefaultQueryPositions
        ((moveTo published source index).map DefaultQuerySnapshot.id).zipIdx] := by
  obtain ⟨_, _, h⟩ := bind_eq_ok.mp h
  obtain ⟨order, horder, h⟩ := bind_eq_ok.mp h
  rw [hpublished] at horder
  obtain rfl := Except.ok.inj horder
  by_cases hindex : index ≥ (published.map DefaultQuerySnapshot.id).length
  · rw [if_pos hindex] at h
    cases h
  · rw [if_neg hindex] at h
    obtain ⟨source, hsource, h⟩ := bind_eq_ok.mp h
    have hsource := orElse_eq_ok.mp hsource
    obtain rfl := Except.ok.inj h
    obtain ⟨hlt, hget, -⟩ := List.idxOf?_eq_some_iff.mp hsource
    have hat : (published.map DefaultQuerySnapshot.id)[source]? = some id :=
      List.getElem?_eq_some_iff.mpr ⟨hlt, hget⟩
    refine ⟨source, by simpa using hindex, hat, ?_⟩
    rw [map_moveTo]
    unfold moveTo
    rw [hat]

theorem move_published (hlive : LiveQueries host d queries) {id : DefaultQueryId} {index : Nat}
    (hpublished : graphSettingsSnapshot host d = .ok (queries.take maxDefaultQueries))
    (h : (executeIntent host source now (.moveDefaultQuery id index)).run d =
      (.ok outcome, d')) :
    ∃ (start : Nat) (next : List DefaultQuerySnapshot),
      index < (queries.take maxDefaultQueries).length ∧
      ((queries.take maxDefaultQueries).map DefaultQuerySnapshot.id)[start]? = some id ∧
      graphSettingsSnapshot host d' = .ok (next.take maxDefaultQueries) ∧
      ((next.take maxDefaultQueries).map DefaultQuerySnapshot.shown =
          moveTo ((queries.take maxDefaultQueries).map DefaultQuerySnapshot.shown) start index ↔
        ∀ last, (renumbered (moveTo (queries.take maxDefaultQueries) start index)).getLast? =
          some last → ∀ other ∈ queries.drop maxDefaultQueries, ComesBefore last other) := by
  obtain ⟨operations, hlower, hrun⟩ := run_of_executeIntent h
  obtain ⟨start, hindex, hfrom, rfl⟩ := lower_move hpublished hlower
  obtain ⟨done, happly⟩ := hrun _ rfl rfl
  obtain ⟨_, d₁, heach, hpure⟩ := Edit.run_bind_eq_ok.mp happly
  obtain ⟨-, rfl⟩ := Prod.mk.inj hpure
  have hperm : (moveTo (queries.take maxDefaultQueries) start index).Perm
      (queries.take maxDefaultQueries) := moveTo_perm hindex
  have hmoved : ((moveTo (queries.take maxDefaultQueries) start index).map
      DefaultQuerySnapshot.id).Nodup :=
    (hperm.map _).nodup_iff.mpr (hlive.nodup.sublist ((List.take_sublist _ _).map _))
  have hbound : ∀ p ∈ ((moveTo (queries.take maxDefaultQueries) start index).map
      DefaultQuerySnapshot.id).zipIdx, p.2 < 4294967296 := by
    intro p hp
    have hlt := (List.mem_zipIdx hp).2.1
    rw [List.length_map, hperm.length_eq, List.length_take] at hlt
    have : min maxDefaultQueries queries.length ≤ 8 := Nat.min_le_left _ _
    omega
  obtain ⟨next, hnext, hafter, hmem⟩ := hlive.exists_changed
    (get_assignPositions (by rw [List.zipIdx_map_fst]; exact hmoved) heach)
    fun key entry r _ hr => snapshotOf_assigned hbound hr
  refine ⟨start, next, hindex, hfrom, hafter, ?_⟩
  rw [← map_moveTo]
  exact move_iff hlive.sorted hnext.sorted hnext.nodup hperm
    (fun query hquery => not_mem_take hlive.nodup hquery)
    fun query => (hmem query).trans (mem_assigned_iff hlive.nodup hperm query)

/-- The position of a new query. -/
def nextPosition (published : List DefaultQuerySnapshot) : Nat :=
  match published.getLast? with
  | none => 0
  | some query => min (query.position + 1) 4294967295

theorem nextPosition_lt (published : List DefaultQuerySnapshot) :
    nextPosition published < 4294967296 := by
  unfold nextPosition
  split <;> omega

theorem LiveQueries.position_lt (h : LiveQueries host d queries) {query : DefaultQuerySnapshot}
    (hquery : query ∈ queries) : query.position < 4294967296 := by
  obtain ⟨entry, -, hread⟩ := (h.mem_iff query).mp hquery
  obtain ⟨-, -, -, -, hposition, -⟩ := snapshotOf_eq_some_iff.mp hread
  obtain ⟨value, -, hvalue⟩ := Option.bind_eq_some_iff.mp hposition
  unfold u32FromI64 at hvalue
  split at hvalue
  · next hrange =>
    have hnat := Option.some.inj hvalue
    omega
  · cases hvalue

/-- A new query comes last unless positions are used up. -/
theorem comesBefore_created (h : LiveQueries host d queries) {last created : DefaultQuerySnapshot}
    (hlast : queries.getLast? = some last) (hposition : created.position = nextPosition queries) :
    ComesBefore last created ↔ last.position < 4294967295 ∨ last.id < created.id := by
  have hbound := h.position_lt (List.mem_of_getLast? hlast)
  unfold ComesBefore
  unfold nextPosition at hposition
  rw [hlast] at hposition
  dsimp only at hposition
  by_cases hlt : last.position < 4294967295
  · exact iff_of_true (.inl (by omega)) (.inl hlt)
  · have hsame : last.position = created.position := by omega
    constructor
    · rintro (hbefore | ⟨-, hid⟩)
      · omega
      · exact .inr hid
    · rintro (hbefore | hid)
      · exact absurd hbefore hlt
      · exact .inr ⟨hsame, hid⟩

theorem start_unique {γ : Type} {l : List γ} (hnodup : l.Nodup) {i j : Nat} {x : γ}
    (hi : l[i]? = some x) (hj : l[j]? = some x) : i = j :=
  (List.getElem?_inj (List.getElem?_eq_some_iff.mp hi).1 hnodup).mp (hi.trans hj.symm)

theorem move_does_iff (hnodup : (queries.map DefaultQuerySnapshot.id).Nodup) {id : DefaultQueryId}
    {start index : Nat} {after : List DefaultQuerySnapshot}
    (hstart : ((queries.take maxDefaultQueries).map DefaultQuerySnapshot.id)[start]? = some id) :
    (DefaultQueryCommand.move id index).Does (queries.take maxDefaultQueries) after ↔
      after.map DefaultQuerySnapshot.shown =
        moveTo ((queries.take maxDefaultQueries).map DefaultQuerySnapshot.shown) start index := by
  have htake := hnodup.sublist ((List.take_sublist maxDefaultQueries queries).map _)
  constructor
  · rintro ⟨other, hother, heq⟩
    rwa [start_unique htake hstart hother]
  · intro heq
    exact ⟨start, hstart, heq⟩

/-- The last of the new order has the last of the published positions. -/
theorem staysInFront_move_iff (hnodup : (queries.map DefaultQuerySnapshot.id).Nodup)
    {id : DefaultQueryId} {start index : Nat}
    (hindex : index < (queries.take maxDefaultQueries).length)
    (hstart : ((queries.take maxDefaultQueries).map DefaultQuerySnapshot.id)[start]? = some id) :
    (DefaultQueryCommand.move id index).StaysInFront
        (queries.map fun query => (query.id, query.position)) ↔
      ∀ last, (renumbered (moveTo (queries.take maxDefaultQueries) start index)).getLast? =
        some last → ∀ other ∈ queries.drop maxDefaultQueries, ComesBefore last other := by
  have hids : ((queries.map fun query => (query.id, query.position)).take maxDefaultQueries).map
      Prod.fst = (queries.take maxDefaultQueries).map DefaultQuerySnapshot.id := by
    rw [← List.map_take, List.map_map]
    rfl
  have htake := hnodup.sublist ((List.take_sublist maxDefaultQueries queries).map _)
  have hlength : (moveTo (queries.take maxDefaultQueries) start index).length =
      (queries.take maxDefaultQueries).length := (moveTo_perm hindex).length_eq
  unfold DefaultQueryCommand.StaysInFront renumbered
  rw [hids, ← List.map_drop, List.getLast?_mapIdx, hlength]
  have hlong : ∀ other ∈ queries.drop maxDefaultQueries,
      (queries.take maxDefaultQueries).length = maxDefaultQueries := by
    intro other hother
    have hpos := List.length_pos_of_mem hother
    rw [List.length_drop] at hpos
    rw [List.length_take]
    omega
  constructor
  · intro hfront last hlast other hother
    obtain ⟨final, hfinal, rfl⟩ := Option.map_eq_some_iff.mp hlast
    rw [hlong other hother]
    exact hfront start hstart final.id
      (by rw [← map_moveTo, List.getLast?_map, hfinal]; rfl) (other.id, other.position)
      (List.mem_map_of_mem hother)
  · intro hbefore source hsource last hlast other hother
    obtain rfl := start_unique htake hstart hsource
    rw [← map_moveTo, List.getLast?_map] at hlast
    obtain ⟨final, hfinal, rfl⟩ := Option.map_eq_some_iff.mp hlast
    obtain ⟨query, hquery, rfl⟩ := List.mem_map.mp hother
    have hresult := hbefore _ (by rw [hfinal]; rfl) query hquery
    rw [hlong query hquery] at hresult
    exact hresult

/-- The query that is created: it is put after the last published one. -/
theorem lower_create {published : List DefaultQuerySnapshot} {id : DefaultQueryId}
    {title : String} {document : PropertyDocument} {operations : List PrimitiveOp}
    (hpublished : graphSettingsSnapshot host d = .ok published)
    (h : lower host d (.createDefaultQuery id title document) = .ok operations) :
    ∃ normalized, normalizedQueryDocument host document = .ok normalized ∧
      title.length ≤ maxDefaultQueryTitle ∧ d.defaultQueries.get id = none ∧
      published.length < maxDefaultQueries ∧
      operations = [.insertDefaultQuery ⟨id, title, normalized, nextPosition published⟩] := by
  obtain ⟨u, htitle, h⟩ := bind_eq_ok.mp h
  obtain ⟨normalized, hnormalized, h⟩ := bind_eq_ok.mp h
  have hlength : title.length ≤ maxDefaultQueryTitle := by
    unfold validateDefaultQueryTitle at htitle
    split at htitle
    · cases htitle
    · omega
  by_cases hexists : (d.defaultQueries.get id).isSome = true
  · rw [if_pos hexists] at h
    cases h
  rw [if_neg hexists] at h
  obtain ⟨current, hcurrent, h⟩ := bind_eq_ok.mp h
  rw [hpublished] at hcurrent
  obtain rfl := Except.ok.inj hcurrent
  by_cases hfull : published.length ≥ maxDefaultQueries
  · rw [if_pos hfull] at h
    cases h
  rw [if_neg hfull] at h
  obtain rfl := Except.ok.inj h
  exact ⟨normalized, hnormalized, hlength, Option.not_isSome_iff_eq_none.mp hexists,
    Nat.lt_of_not_le hfull, rfl⟩

theorem create_published (hlive : LiveQueries host d queries) {id : DefaultQueryId}
    {title : String} {document : PropertyDocument}
    (hpublished : graphSettingsSnapshot host d = .ok (queries.take maxDefaultQueries))
    (hstorable : ∀ view ∈ document.views, Storable host view)
    (h : (executeIntent host source now (.createDefaultQuery id title document)).run d =
      (.ok outcome, d')) :
    ∃ next : List DefaultQuerySnapshot,
      graphSettingsSnapshot host d' = .ok (next.take maxDefaultQueries) ∧
      ((DefaultQueryCommand.create id title document).Does (queries.take maxDefaultQueries)
          (next.take maxDefaultQueries) ↔
        ∀ last, queries.getLast? = some last → last.position < 4294967295 ∨ last.id < id) := by
  obtain ⟨operations, hlower, hrun⟩ := run_of_executeIntent h
  obtain ⟨normalized, hnormalized, hlength, hnew, hshort, rfl⟩ := lower_create hpublished hlower
  obtain ⟨done, happly⟩ := hrun _ rfl rfl
  obtain ⟨_, d₁, hwrite, hpure⟩ := Edit.run_bind_eq_ok.mp happly
  obtain ⟨-, rfl⟩ := Prod.mk.inj hpure
  obtain rfl := (Prod.mk.inj hwrite).2
  have hall : queries.take maxDefaultQueries = queries := by
    rw [List.length_take] at hshort
    exact List.take_of_length_le (by omega)
  rw [hall] at hpublished
  obtain ⟨shown, hshown⟩ := decode_written hnormalized hstorable
  have hread : snapshotOf host id (seededEntry host ⟨id, title, normalized,
      nextPosition (queries.take maxDefaultQueries)⟩ (d.defaultQueries.get id)) =
        .ok (some ⟨id, title, nextPosition (queries.take maxDefaultQueries), shown⟩) := by
    rw [hnew]
    have hposition : (some (nextPosition (queries.take maxDefaultQueries) : Int)).bind u32FromI64 =
        some (nextPosition (queries.take maxDefaultQueries)) :=
      (Option.bind_some ..).trans (u32FromI64_natCast (nextPosition_lt _))
    exact snapshotOf_eq_some_iff.mpr ⟨rfl, rfl, rfl, hlength, hposition, _, rfl, hshown⟩
  have hget : (applyDefaultQuerySeed host ⟨id, title, normalized,
      nextPosition (queries.take maxDefaultQueries)⟩ d).defaultQueries =
        d.defaultQueries.insert id (seededEntry host ⟨id, title, normalized,
          nextPosition (queries.take maxDefaultQueries)⟩ (d.defaultQueries.get id)) := rfl
  obtain ⟨next, hnext, hafter, hmem⟩ := hlive.exists_added
    ⟨id, title, nextPosition (queries.take maxDefaultQueries), shown⟩ hnew hget hread
  have hfresh : id ∉ queries.map DefaultQuerySnapshot.id := by
    intro hid
    obtain ⟨query, hquery, rfl⟩ := List.mem_map.mp hid
    obtain ⟨entry, hentry, -⟩ := (hlive.mem_iff query).mp hquery
    rw [hnew] at hentry
    cases hentry
  have hgrown : next.length = queries.length + 1 := by
    have hperm : next.Perm (queries ++ [⟨id, title, nextPosition (queries.take maxDefaultQueries),
        shown⟩]) := by
      refine (List.perm_ext_iff_of_nodup (hnext.nodup.of_map _) ?_).mpr fun query => ?_
      · refine List.nodup_append.mpr ⟨hlive.nodup.of_map _, List.nodup_singleton _, ?_⟩
        rintro query hquery other hother rfl
        rw [List.mem_singleton] at hother
        exact hfresh (List.mem_map.mpr ⟨query, hquery, congrArg DefaultQuerySnapshot.id hother⟩)
      · rw [hmem, List.mem_append, List.mem_singleton]
    rw [hperm.length_eq, List.length_append, List.length_singleton]
  have hwhole : next.take maxDefaultQueries = next := List.take_of_length_le (by
    rw [hall] at hshort
    omega)
  refine ⟨next, hafter, ?_⟩
  rw [hall, hwhole]
  refine (create_iff hlive.sorted hnext.sorted hnext.nodup hmem hfresh).trans ?_
  exact forall₂_congr fun last hlast => comesBefore_created hlive hlast (by rw [hall])

end Commands

/-! ## Every merge result -/

def sampleQuery : DefaultQueryEntry :=
  ⟨some "Query", some 0, some false, some (sampleDocument [("a", sampleView "A" 0 false)])⟩

/-- Queries that were created at one position, as replicas that have not merged create them. -/
def tiedQueries (ids : List DefaultQueryId) : GraphDoc where
  graphId := ⟨"graph", graph_valid⟩
  defaultQueries := ids.foldl (fun queries id => queries.insert id sampleQuery) ∅
  entities := ∅

/-- One query more than are published. -/
def nineIds : List DefaultQueryId :=
  [⟨"a", by decide⟩, ⟨"b", by decide⟩, ⟨"c", by decide⟩, ⟨"d", by decide⟩, ⟨"e", by decide⟩,
    ⟨"f", by decide⟩, ⟨"g", by decide⟩, ⟨"h", by decide⟩, ⟨"i", by decide⟩]

/-- Of every readable document, whatever its positions and however many its live queries: a command
that succeeds does what it says exactly if its queries stay in front of the others. -/
theorem defaultQueryCommand_does {source : IdSource} {now : Timestamp} {d d' : GraphDoc}
    {outcome : MutationOutcome} {published : List DefaultQuerySnapshot}
    (hpublished : graphSettingsSnapshot host d = .ok published) (command : DefaultQueryCommand)
    (hstorable : ∀ id title document, command = .create id title document →
      ∀ view ∈ document.views, Storable host view)
    (h : (executeIntent host source now command.intent).run d = (.ok outcome, d')) :
    ∃ stored after, storedDefaultQueries d = .ok stored ∧
      graphSettingsSnapshot host d' = .ok after ∧
      (command.Does published after ↔
        command.StaysInFront (stored.map fun query => (query.id, query.position))) := by
  obtain ⟨stored, queries, hstored, hlive, hkeys, rfl⟩ := live_of_snapshot hpublished
  cases command with
  | create id title document =>
    obtain ⟨next, hafter, hiff⟩ := create_published hlive hpublished
      (hstorable id title document rfl) h
    refine ⟨stored, _, hstored, hafter, hiff.trans ?_⟩
    unfold DefaultQueryCommand.StaysInFront
    rw [← hkeys, List.getLast?_map]
    constructor
    · intro hbefore last hlast
      obtain ⟨query, hquery, rfl⟩ := Option.map_eq_some_iff.mp hlast
      exact hbefore query hquery
    · intro hbefore last hlast
      exact hbefore (last.id, last.position) (Option.map_eq_some_iff.mpr ⟨last, hlast, rfl⟩)
  | rename id title =>
    obtain ⟨next, hafter, hdoes⟩ := rename_published hlive h
    exact ⟨stored, _, hstored, hafter, iff_of_true hdoes trivial⟩
  | move id index =>
    obtain ⟨start, next, hindex, hstart, hafter, hiff⟩ := move_published hlive hpublished h
    refine ⟨stored, _, hstored, hafter, (move_does_iff hlive.nodup hstart).trans (hiff.trans ?_)⟩
    rw [← hkeys]
    exact (staysInFront_move_iff hlive.nodup hindex hstart).symm
  | delete id =>
    obtain ⟨next, hafter, hdoes⟩ := delete_published hlive h
    exact ⟨stored, _, hstored, hafter, iff_of_true hdoes trivial⟩

theorem defaultQueryCommand_does_create : ∃ published stored after,
    graphSettingsSnapshot sampleHost (tiedQueries [⟨"a", by decide⟩]) = .ok published ∧
    storedDefaultQueries (tiedQueries [⟨"a", by decide⟩]) = .ok stored ∧
    graphSettingsSnapshot sampleHost ((executeIntent sampleHost noBlocks stagedTime
      (DefaultQueryCommand.create ⟨"b", by decide⟩ "Tasks" (.defaultQuery "")).intent).run
        (tiedQueries [⟨"a", by decide⟩])).2 = .ok after ∧
    ((DefaultQueryCommand.create ⟨"b", by decide⟩ "Tasks" (.defaultQuery "")).Does published after ↔
      (DefaultQueryCommand.create ⟨"b", by decide⟩ "Tasks" (.defaultQuery "")).StaysInFront
        (stored.map fun query => (query.id, query.position))) := by
  have hstorable : Storable sampleHost (defaultQueryView "") := ⟨by decide, rfl, rfl, rfl⟩
  obtain ⟨stored, after, hstored, hafter, hiff⟩ := defaultQueryCommand_does
    (show graphSettingsSnapshot sampleHost (tiedQueries [⟨"a", by decide⟩]) = .ok _ from rfl)
    (.create ⟨"b", by decide⟩ "Tasks" (.defaultQuery ""))
    (fun id title document heq view hview => by
      obtain ⟨-, -, rfl⟩ := DefaultQueryCommand.create.inj heq
      rwa [List.mem_singleton.mp hview])
    (show (executeIntent sampleHost noBlocks stagedTime _).run _ = (.ok _, _) from rfl)
  exact ⟨_, stored, after, rfl, hstored, hafter, hiff⟩

/-! ## A query that leaves the list -/

/-- The graph after its first query is moved to the end of the published list. -/
def movedToEnd : Except CoreError MutationOutcome × GraphDoc :=
  (executeIntent sampleHost noBlocks stagedTime (.moveDefaultQuery ⟨"a", by decide⟩ 7)).run
    (tiedQueries nineIds)

theorem moved_ids : ∃ published after outcome,
    graphSettingsSnapshot sampleHost (tiedQueries nineIds) = .ok published ∧
    movedToEnd.1 = .ok outcome ∧ graphSettingsSnapshot sampleHost movedToEnd.2 = .ok after ∧
    published.map (fun query => query.id.asStr) = ["a", "b", "c", "d", "e", "f", "g", "h"] ∧
    after.map (fun query => query.id.asStr) = ["b", "i", "c", "d", "e", "f", "g", "h"] :=
  ⟨_, _, _, rfl, rfl, rfl, rfl, rfl⟩

theorem mem_of_moved {published after : List DefaultQuerySnapshot} {id : DefaultQueryId}
    {index : Nat} (hindex : index < published.length)
    (h : (DefaultQueryCommand.move id index).Does published after) :
    id ∈ after.map DefaultQuerySnapshot.id := by
  obtain ⟨start, hstart, heq⟩ := h
  rw [← map_fst_shown, heq, map_moveTo, map_fst_shown]
  have hperm : (moveTo (published.map DefaultQuerySnapshot.id) start index).Perm
      (published.map DefaultQuerySnapshot.id) := moveTo_perm (by rwa [List.length_map])
  exact hperm.mem_iff.mpr (List.mem_of_getElem? hstart)

/-- Queries with one position: the one that was not published takes the place of one that was. -/
theorem move_leaves_list : ∃ published after outcome,
    graphSettingsSnapshot sampleHost (tiedQueries nineIds) = .ok published ∧
    movedToEnd.1 = .ok outcome ∧ graphSettingsSnapshot sampleHost movedToEnd.2 = .ok after ∧
    published.map (fun query => query.id.asStr) = ["a", "b", "c", "d", "e", "f", "g", "h"] ∧
    after.map (fun query => query.id.asStr) = ["b", "i", "c", "d", "e", "f", "g", "h"] ∧
    ¬(DefaultQueryCommand.move ⟨"a", by decide⟩ 7).Does published after := by
  obtain ⟨published, after, outcome, hbefore, hrun, hafter, hpublished, hids⟩ := moved_ids
  refine ⟨published, after, outcome, hbefore, hrun, hafter, hpublished, hids, fun hdoes => ?_⟩
  have hlength := congrArg List.length hpublished
  rw [List.length_map] at hlength
  have hmem := List.mem_map_of_mem (f := fun id : DefaultQueryId => id.asStr)
    (mem_of_moved (by rw [hlength]; decide) hdoes)
  rw [List.map_map] at hmem
  have hin : "a" ∈ after.map fun query => query.id.asStr := hmem
  rw [hids] at hin
  simp at hin

end Neoseq.Core
