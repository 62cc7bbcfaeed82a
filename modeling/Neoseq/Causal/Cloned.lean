import Neoseq.Causal.Clone

/-! What a clone holds. Every query document of an entity is rewritten, of the default
queries those that are published; on a text the rewriting is judged against the
intended one. -/

namespace Neoseq.Causal
open Domain Document Neoseq.Core Query

variable {host : Storage} {source target : GraphId}

/-! ## The default queries -/

/-- An entry of the default queries with its document rewritten. -/
def rewriteEntry (source target : GraphId) (entry : LoroMap) : LoroMap :=
  mapChild entry "document" (rewriteQueryDocument source target)

/-- What the rewriting of default queries leaves alone. -/
structure SettingsOnly (doc doc' : LoroDoc) : Prop where
  metadata : doc'.metadata = doc.metadata
  records : ∀ home, doc'.records home = doc.records home

theorem rewriteDefaultQuery_ok {doc doc' : LoroDoc} {id : DefaultQueryId}
    (h : rewriteDefaultQuery source target doc id = .ok doc') :
    doc' = { doc with
      graphSettings := mapChild doc.graphSettings "default_queries" fun queries =>
        mapChild queries id.asStr (rewriteEntry source target) } := by
  unfold rewriteDefaultQuery at h
  obtain ⟨_, _, h⟩ := bind_eq_ok.mp h
  obtain ⟨_, _, h⟩ := bind_eq_ok.mp h
  obtain ⟨_, _, h⟩ := bind_eq_ok.mp h
  exact (pure_eq_ok.mp h).symm

theorem defaultEntry_rewriteDefaultQuery {doc doc' : LoroDoc} {id : DefaultQueryId}
    (h : rewriteDefaultQuery source target doc id = .ok doc') (key : String) :
    defaultEntry doc' key =
      if key = id.asStr then (defaultEntry doc key).map (rewriteEntry source target)
      else defaultEntry doc key := by
  rw [rewriteDefaultQuery_ok h]
  unfold defaultEntry
  dsimp only
  rw [child_mapChild]
  cases child doc.graphSettings "default_queries" with
  | none => split <;> rfl
  | some queries =>
    rw [Option.map_some, Option.bind_some, Option.bind_some]
    by_cases hk : key = id.asStr
    · rw [if_pos hk, hk, child_mapChild]
    · rw [if_neg hk, child_mapChild_ne hk]

/-- The loop rewrites an entry as often as its id is listed. -/
theorem rewriteDefaultQueries_ok {ids : List DefaultQueryId} {doc doc' : LoroDoc}
    (h : rewriteDefaultQueries source target ids doc = .ok doc') :
    SettingsOnly doc doc' ∧ ∀ key, defaultEntry doc' key =
      (defaultEntry doc key).map
        (rewriteEntry source target)^[(ids.map OpaqueString.asStr).count key] := by
  induction ids generalizing doc with
  | nil =>
    obtain rfl := Except.ok.inj h
    exact ⟨⟨rfl, fun _ => rfl⟩, fun key => by simp⟩
  | cons id rest ih =>
    obtain ⟨mid, hmid, hrest⟩ := bind_eq_ok.mp h
    obtain ⟨hframe, hentry⟩ := ih hrest
    have hrecords : ∀ home, mid.records home = doc.records home := by
      rw [rewriteDefaultQuery_ok hmid]
      exact fun home => by cases home <;> rfl
    have hmetadata : mid.metadata = doc.metadata := by rw [rewriteDefaultQuery_ok hmid]
    refine ⟨⟨hframe.metadata.trans hmetadata,
      fun home => (hframe.records home).trans (hrecords home)⟩, fun key => ?_⟩
    rw [hentry, defaultEntry_rewriteDefaultQuery hmid, List.map_cons, List.count_cons]
    by_cases hk : key = id.asStr
    · subst hk
      rw [if_pos rfl, Option.map_map, beq_self_eq_true, if_pos rfl, Function.iterate_succ]
    · rw [if_neg hk, beq_false_of_ne (Ne.symm hk), if_neg Bool.false_ne_true, Nat.add_zero]

theorem document_iterate (n : Nat) (entry : LoroMap) :
    child ((rewriteEntry source target)^[n] entry) "document" =
      (child entry "document").map (rewriteQueryDocument source target)^[n] := by
  induction n generalizing entry with
  | zero => simp
  | succ n ih =>
    rw [Function.iterate_succ_apply, ih, rewriteEntry, child_mapChild, Option.map_map,
      Function.iterate_succ]

theorem deleted_iterate (n : Nat) (entry : LoroMap) :
    mapBool ((rewriteEntry source target)^[n] entry) "deleted" = mapBool entry "deleted" := by
  induction n generalizing entry with
  | zero => rfl
  | succ n ih =>
    rw [Function.iterate_succ_apply, ih]
    unfold mapBool rewriteEntry mapChild
    rw [get_mapEntry_ne (by decide)]

/-! ## The default queries that are published -/

theorem storedDefaultQueries_ok {doc : LoroDoc} {stored : List StoredDefaultQuery}
    (h : storedDefaultQueries doc = .ok stored) :
    ∃ queries scan, child doc.graphSettings "default_queries" = some queries ∧
      queries.map scanDefaultQuery = List.map .ok scan ∧
        stored = (scan.filterMap id).insertionSort queryBefore := by
  unfold storedDefaultQueries at h
  obtain ⟨queries, hqueries, h⟩ := bind_eq_ok.mp h
  obtain ⟨scan, hscan, h⟩ := bind_eq_ok.mp h
  unfold defaultQueriesMap at hqueries
  obtain ⟨_, _, hqueries⟩ := bind_eq_ok.mp hqueries
  exact ⟨queries, scan, orElse_eq_ok.mp hqueries, mapM_id_eq_ok.mp hscan, (pure_eq_ok.mp h).symm⟩

/-- An entry that could be read is deleted, or it has an id and a document. -/
theorem scanDefaultQuery_ok {e : String × Stored} {r : Option StoredDefaultQuery}
    (h : scanDefaultQuery e = .ok r) :
    ∃ entry, e.2 = .map entry ∧
      (r = none ∧ mapBool entry "deleted" = some true ∨
        ∃ query, r = some query ∧ query.id.asStr = e.1 ∧ mapBool entry "deleted" = some false ∧
          child entry "document" = some query.document) := by
  unfold scanDefaultQuery at h
  obtain ⟨id, hid, h⟩ := bind_eq_ok.mp h
  obtain ⟨entry, hentry, h⟩ := bind_eq_ok.mp h
  have hmap : e.2 = .map entry := by
    have hentry := orElse_eq_ok.mp hentry
    cases hs : e.2 with
    | map entries =>
      rw [hs] at hentry
      rw [Option.some.inj hentry]
    | _ =>
      rw [hs] at hentry
      cases hentry
  refine ⟨entry, hmap, ?_⟩
  unfold storedDefaultQuery at h
  obtain ⟨deleted, hdeleted, h⟩ := bind_eq_ok.mp h
  have hdeleted : mapBool entry "deleted" = some deleted := orElse_eq_ok.mp hdeleted
  cases deleted with
  | true => exact .inl ⟨(Except.ok.inj h).symm, hdeleted⟩
  | false =>
    rw [if_neg Bool.false_ne_true] at h
    obtain ⟨title, _, h⟩ := bind_eq_ok.mp h
    split at h
    · cases h
    obtain ⟨position, _, h⟩ := bind_eq_ok.mp h
    obtain ⟨document, hdocument, h⟩ := bind_eq_ok.mp h
    refine .inr ⟨⟨id, title, position, document⟩, (Except.ok.inj h).symm, ?_, hdeleted,
      orElse_eq_ok.mp hdocument⟩
    exact asStr_of_new (mapError_eq_ok.mp hid)

/-- The ids of the live entries are among the keys, in their order. -/
theorem ids_sublist_keys {queries : LoroMap} {scan : List (Option StoredDefaultQuery)}
    (h : queries.map scanDefaultQuery = List.map .ok scan) :
    ((scan.filterMap id).map fun query => query.id.asStr).Sublist (keys queries) := by
  induction queries generalizing scan with
  | nil =>
    rw [List.map_eq_nil_iff.mp h.symm]
    exact List.Sublist.refl _
  | cons e rest ih =>
    cases scan with
    | nil => cases h
    | cons r scan =>
      rw [List.map_cons, List.map_cons] at h
      obtain ⟨hscan, hrest⟩ := List.cons.inj h
      obtain ⟨_, _, ⟨rfl, _⟩ | ⟨query, rfl, hid, _⟩⟩ := scanDefaultQuery_ok hscan
      · exact (ih hrest).cons _
      · have hcons : (some query :: scan).filterMap id = query :: scan.filterMap id := rfl
        rw [hcons, List.map_cons, hid]
        exact (ih hrest).cons_cons _

/-- A live entry is among those that were read. -/
theorem mem_scan {queries entry : LoroMap} {scan : List (Option StoredDefaultQuery)}
    (h : queries.map scanDefaultQuery = List.map .ok scan) {key : String}
    (hentry : child queries key = some entry) (hlive : mapBool entry "deleted" = some false) :
    ∃ query ∈ scan.filterMap id, query.id.asStr = key ∧
      child entry "document" = some query.document := by
  have hmem := List.mem_map_of_mem (f := scanDefaultQuery) (mem_of_get (child_eq_some.mp hentry))
  rw [h] at hmem
  obtain ⟨r, hr, hscan⟩ := List.mem_map.mp hmem
  obtain ⟨entry', he, hcases⟩ := scanDefaultQuery_ok hscan.symm
  obtain rfl := Stored.map.inj he
  obtain ⟨_, hdeleted⟩ | ⟨query, rfl, hid, _, hdocument⟩ := hcases
  · rw [hlive] at hdeleted
    cases hdeleted
  · exact ⟨query, List.mem_filterMap.mpr ⟨some query, hr, rfl⟩, hid, hdocument⟩

theorem nodup_storedIds {doc : LoroDoc} (hk : doc.Keyed) {stored : List StoredDefaultQuery}
    (h : storedDefaultQueries doc = .ok stored) :
    (stored.map fun query => query.id.asStr).Nodup := by
  obtain ⟨queries, scan, hqueries, hscan, rfl⟩ := storedDefaultQueries_ok h
  have hn : (keys queries).Nodup := (hk.graphSettings.child hqueries).nodup
  have hp := (List.perm_insertionSort queryBefore (scan.filterMap id)).map
    fun query : StoredDefaultQuery => query.id.asStr
  exact hp.nodup_iff.mpr (hn.sublist (ids_sublist_keys hscan))

theorem projectGraphSettings_ok {doc : LoroDoc}
    {settings : List DefaultQuerySnapshot × List DefaultQueryId}
    (h : projectGraphSettings host doc = .ok settings) :
    ∃ stored queries, storedDefaultQueries doc = .ok stored ∧
      stored.map (projectDefaultQuery host) = List.map .ok queries ∧
        settings.1 = queries.take maxDefaultQueries := by
  unfold projectGraphSettings at h
  obtain ⟨stored, hstored, h⟩ := bind_eq_ok.mp h
  obtain ⟨queries, hqueries, h⟩ := bind_eq_ok.mp h
  rw [← pure_eq_ok.mp h]
  exact ⟨stored, queries, hstored, mapM_id_eq_ok.mp hqueries, rfl⟩

theorem projectDefaultQuery_ok {query : StoredDefaultQuery} {snapshot : DefaultQuerySnapshot}
    (h : projectDefaultQuery host query = .ok snapshot) :
    snapshot.id = query.id ∧ ∃ p, projectQueryDocument host.codec query.document = .ok p := by
  unfold projectDefaultQuery at h
  obtain ⟨p, hp, h⟩ := bind_eq_ok.mp h
  rw [← pure_eq_ok.mp h]
  exact ⟨rfl, p, mapError_eq_ok.mp hp⟩

theorem ids_of_projected {stored : List StoredDefaultQuery} {queries : List DefaultQuerySnapshot}
    (h : stored.map (projectDefaultQuery host) = List.map .ok queries) :
    queries.map DefaultQuerySnapshot.id = stored.map StoredDefaultQuery.id := by
  induction stored generalizing queries with
  | nil =>
    rw [List.map_eq_nil_iff.mp h.symm]
    rfl
  | cons query rest ih =>
    cases queries with
    | nil => cases h
    | cons snapshot queries =>
      rw [List.map_cons, List.map_cons] at h
      obtain ⟨hfirst, hrest⟩ := List.cons.inj h
      rw [List.map_cons, List.map_cons, ih hrest, (projectDefaultQuery_ok hfirst).1]

/-- The loop visits each default query that is published once, and no other. -/
theorem count_published {doc : LoroDoc} (hk : doc.Keyed)
    {settings : List DefaultQuerySnapshot × List DefaultQueryId}
    (h : projectGraphSettings host doc = .ok settings) (key : String) :
    (((settings.1.map DefaultQuerySnapshot.id).map OpaqueString.asStr).count key = 1 ∧
        Published doc key) ∨
      (((settings.1.map DefaultQuerySnapshot.id).map OpaqueString.asStr).count key = 0 ∧
        ¬Published doc key) := by
  obtain ⟨stored, queries, hstored, hqueries, hvisible⟩ := projectGraphSettings_ok h
  have hids : (settings.1.map DefaultQuerySnapshot.id).map OpaqueString.asStr =
      (stored.take maxDefaultQueries).map fun query => query.id.asStr := by
    rw [hvisible, List.map_take, ids_of_projected hqueries, List.map_take, List.map_take,
      List.map_map]
    rfl
  have hn : ((stored.take maxDefaultQueries).map fun query => query.id.asStr).Nodup :=
    (nodup_storedIds hk hstored).sublist ((List.take_sublist _ _).map _)
  have hpublished : Published doc key ↔
      key ∈ (stored.take maxDefaultQueries).map fun query => query.id.asStr := by
    rw [List.mem_map]
    constructor
    · rintro ⟨stored', hstored', hmem⟩
      obtain rfl := Except.ok.inj (hstored.symm.trans hstored')
      exact hmem
    · exact fun hmem => ⟨stored, hstored, hmem⟩
  rw [hids, hpublished]
  by_cases hmem : key ∈ (stored.take maxDefaultQueries).map fun query => query.id.asStr
  · exact .inl ⟨List.count_eq_one_of_mem hn hmem, hmem⟩
  · exact .inr ⟨List.count_eq_zero_of_not_mem hmem, hmem⟩

/-! ## Query documents that a replica can read -/

theorem mapI64_of_mapU32 {m : LoroMap} {key : String} {n : Nat} (h : mapU32 m key = some n) :
    mapI64 m key = some (n : Int) := by
  unfold mapU32 u32FromI64 at h
  obtain ⟨value, hvalue, h⟩ := Option.bind_eq_some_iff.mp h
  split at h
  · next hrange =>
    rw [hvalue, ← Option.some.inj h, Int.toNat_of_nonneg hrange.1]
  · cases h

theorem supported_of_project {document : LoroMap} {p : ProjectedQueryDocument}
    (h : projectQueryDocument host.codec document = .ok p) : Supported document := by
  obtain ⟨views, requested, live, hr⟩ := readable_of_project h
  exact ⟨hr.schema, mapI64_of_mapU32 hr.version⟩

/-- The bags that are looked into are those whose documents are read. -/
theorem mem_queryBags {record bag : LoroMap} {home : QueryHome}
    (h : bagIn record home = some bag) : bag ∈ queryBags record := by
  unfold queryBags
  cases home with
  | properties _ _ =>
    have h : ((root record).get "properties").bind Stored.intoMap = some bag := h
    rw [h]
    exact List.mem_append_left _ (List.mem_append_left _ (List.mem_singleton_self _))
  | defaults _ _ =>
    have h : (record.get "defaults").bind Stored.intoMap = some bag := h
    rw [h]
    exact List.mem_append_left _ (List.mem_append_right _ (List.mem_singleton_self _))
  | block _ _ node =>
    obtain ⟨nodes, hnodes, h⟩ := Option.bind_eq_some_iff.mp h
    obtain ⟨n, hfind, h⟩ := Option.bind_eq_some_iff.mp h
    rw [hnodes]
    exact List.mem_append_right _
      (List.mem_filterMap.mpr ⟨n, List.mem_of_find?_eq_some hfind, h⟩)
  | defaultQuery _ => cases h

theorem mem_storedQueryDocuments {doc : LoroDoc} {home : QueryHome} {document : LoroMap}
    (hhome : ∀ id, home ≠ .defaultQuery id) (h : queryDocumentAt host doc home = some document) :
    document ∈ storedQueryDocuments host doc := by
  rw [queryDocumentAt_eq hhome] at h
  obtain ⟨record, hrecord, h⟩ := Option.bind_eq_some_iff.mp h
  obtain ⟨bag, hbag, h⟩ := Option.bind_eq_some_iff.mp h
  obtain ⟨place, id, hchild⟩ : ∃ place id, child (doc.records place) id = some record := by
    cases home with
    | properties place id => exact ⟨place, id, hrecord⟩
    | defaults place id => exact ⟨place, id, hrecord⟩
    | block place id _ => exact ⟨place, id, hrecord⟩
    | defaultQuery id => exact absurd rfl (hhome id)
  unfold storedQueryDocuments
  refine List.mem_flatMap.mpr ⟨place, mem_homes place, List.mem_flatMap.mpr
    ⟨(id, .map record), mem_of_get (child_eq_some.mp hchild), ?_⟩⟩
  exact List.mem_filterMap.mpr ⟨bag, mem_queryBags hbag, h⟩

/-- Where a replica verified a document, the query documents of its entities and of its
live default queries have a header it supports. -/
theorem supported_of_verified {doc : LoroDoc} {graphId : GraphId} {u : Unit}
    (h : verifySchema host doc graphId = .ok u) {home : QueryHome} (hlive : Live doc home)
    {document : LoroMap} (hdocument : queryDocumentAt host doc home = some document) :
    Supported document := by
  unfold verifySchema at h
  obtain ⟨_, _, h⟩ := bind_eq_ok.mp h
  obtain ⟨_, hsettings, hqueries⟩ := bind_eq_ok.mp h
  by_cases hhome : ∀ id, home ≠ .defaultQuery id
  · have hcheck := checkAll_eq_ok.mp hqueries document (mem_storedQueryDocuments hhome hdocument)
    obtain ⟨p, hp, _⟩ := bind_eq_ok.mp hcheck
    exact supported_of_project (mapError_eq_ok.mp hp)
  · push Not at hhome
    obtain ⟨id, rfl⟩ := hhome
    obtain ⟨entry, hentry, hdeleted⟩ := hlive
    obtain ⟨settings, hsettings, _⟩ := bind_eq_ok.mp hsettings
    obtain ⟨stored, queries, hstored, hprojected, _⟩ := projectGraphSettings_ok hsettings
    obtain ⟨map, scan, hmap, hscan, rfl⟩ := storedDefaultQueries_ok hstored
    have hdocument : (defaultEntry doc id).bind (fun entry => child entry "document") =
        some document := hdocument
    rw [hentry, Option.bind_some] at hdocument
    unfold defaultEntry at hentry
    rw [hmap, Option.bind_some] at hentry
    obtain ⟨query, hquery, _, hread⟩ := mem_scan hscan hentry hdeleted
    obtain rfl := Option.some.inj (hread.symm.trans hdocument)
    have hmem := List.mem_map_of_mem (f := projectDefaultQuery host)
      ((List.perm_insertionSort queryBefore _).mem_iff.mpr hquery)
    rw [hprojected] at hmem
    obtain ⟨snapshot, _, hok⟩ := List.mem_map.mp hmem
    obtain ⟨_, p, hp⟩ := projectDefaultQuery_ok hok.symm
    exact supported_of_project hp

/-! ## The clone -/

/-- The homes that the rewriting visits. -/
def Visited (doc : LoroDoc) : QueryHome → Prop
  | .defaultQuery id => Published doc id
  | _ => True

/-- The clone of a document against the document. -/
structure Rewritten (host : Storage) (source target : GraphId) (doc clone : LoroDoc) : Prop where
  verified : verifySchema host clone target = .ok ()
  records : ∀ home, clone.records home = (rewriteHomes host source target doc).records home
  entry : ∀ key, ∃ n, (n = 1 ∧ Published doc key ∨ n = 0 ∧ ¬Published doc key) ∧
    defaultEntry clone key = (defaultEntry doc key).map (rewriteEntry source target)^[n]

theorem rewritten_of_export {doc clone : LoroDoc} (hk : doc.Keyed)
    (h : exportCloneSnapshot host source target doc = .ok clone) :
    target ≠ source ∧ Rewritten host source target doc clone := by
  unfold exportCloneSnapshot at h
  obtain ⟨_, hdistinct, h⟩ := bind_eq_ok.mp h
  obtain ⟨rewritten, hrewritten, h⟩ := bind_eq_ok.mp h
  obtain ⟨u, hverified, h⟩ := bind_eq_ok.mp h
  obtain ⟨_, _, h⟩ := bind_eq_ok.mp h
  obtain rfl := pure_eq_ok.mp h
  refine ⟨refuse_eq_ok.mp hdistinct, ?_⟩
  unfold rewriteGraphScopedQueryIris at hrewritten
  obtain ⟨settings, hsettings, hdefaults⟩ := bind_eq_ok.mp hrewritten
  obtain ⟨hframe, hentry⟩ := rewriteDefaultQueries_ok hdefaults
  -- the homes are rewritten before the default queries, whose settings they leave alone
  have hsettings : projectGraphSettings host doc = .ok settings := hsettings
  refine ⟨hverified, fun home => (by cases home <;> rfl : _ = _).trans (hframe.records home), ?_⟩
  intro key
  exact ⟨_, count_published hk hsettings key, hentry key⟩

namespace Rewritten

variable {doc clone : LoroDoc}

theorem record (h : Rewritten host source target doc clone) (home : QueryHome) :
    home.record clone = (home.record doc).map (rewriteRecord host source target) := by
  rw [← record_rewriteHomes]
  cases home with
  | defaultQuery id => rfl
  | properties place id => exact congrArg (child · id) (h.records place)
  | defaults place id => exact congrArg (child · id) (h.records place)
  | block place id _ => exact congrArg (child · id) (h.records place)

theorem child_records (h : Rewritten host source target doc clone) (home : Home) (id : String) :
    child (clone.records home) id =
      (child (doc.records home) id).map (rewriteRecord host source target) := by
  rw [h.records, child_rewriteHomes]

/-- A document that is visited is rewritten once or twice, and no other is touched. -/
theorem queryDocumentAt (h : Rewritten host source target doc clone) (home : QueryHome) :
    ∃ n, ((n = 1 ∨ n = 2) ∧ Visited doc home ∨ n = 0 ∧ ¬Visited doc home) ∧
      Causal.queryDocumentAt host clone home =
        (Causal.queryDocumentAt host doc home).map (rewriteQueryDocument source target)^[n] := by
  by_cases hhome : ∀ id, home ≠ .defaultQuery id
  · obtain ⟨n, hn, hdocument⟩ : ∃ n, (n = 1 ∨ n = 2) ∧
        Causal.queryDocumentAt host (rewriteHomes host source target doc) home =
          (Causal.queryDocumentAt host doc home).map (rewriteQueryDocument source target)^[n] :=
      queryDocumentAt_rewriteHomes doc hhome
    have hvisited : Visited doc home := by
      cases home with
      | defaultQuery id => exact absurd rfl (hhome id)
      | _ => trivial
    refine ⟨n, .inl ⟨hn, hvisited⟩, ?_⟩
    rw [← hdocument, queryDocumentAt_eq hhome, queryDocumentAt_eq hhome, h.record,
      record_rewriteHomes]
  · push Not at hhome
    obtain ⟨id, rfl⟩ := hhome
    obtain ⟨n, hn, hentry⟩ := h.entry id
    refine ⟨n, ?_, ?_⟩
    · rcases hn with ⟨hn, hpublished⟩ | ⟨hn, hhidden⟩
      · exact .inl ⟨.inl hn, hpublished⟩
      · exact .inr ⟨hn, hhidden⟩
    · show (defaultEntry clone id).bind _ = ((defaultEntry doc id).bind _).map _
      rw [hentry]
      cases defaultEntry doc id with
      | none => rfl
      | some entry => exact document_iterate n entry

/-- No entity and no default query is deleted or restored. -/
theorem live_iff (h : Rewritten host source target doc clone) (home : QueryHome) :
    Live clone home ↔ Live doc home := by
  have hrecord : ∀ place id, (∃ record, child (clone.records place) id = some record ∧
      storedDeleted record = false) ↔
        ∃ record, child (doc.records place) id = some record ∧ storedDeleted record = false := by
    intro place id
    rw [h.child_records]
    cases child (doc.records place) id with
    | none => exact Iff.rfl
    | some record => simp [storedDeleted_rewriteRecord]
  cases home with
  | properties place id => exact hrecord place id
  | defaults place id => exact hrecord place id
  | block place id node =>
    unfold Live
    dsimp only
    rw [h.child_records]
    cases child (doc.records place) id with
    | none => exact Iff.rfl
    | some record =>
      simp only [Option.map_some, Option.some.injEq, exists_eq_left', storedDeleted_rewriteRecord,
        outline_rewriteRecord]
      cases (record.get "outline").bind Stored.intoTree with
      | none => exact Iff.rfl
      | some nodes =>
        simp only [Option.map_some, Option.some.injEq, exists_eq_left', find_rewriteNode]
        cases nodes.find? fun n => n.id = node with
        | none => exact Iff.rfl
        | some n => simp [rewriteNode]
  | defaultQuery id =>
    obtain ⟨n, _, hentry⟩ := h.entry id
    unfold Live
    dsimp only
    rw [hentry]
    cases defaultEntry doc id with
    | none => exact Iff.rfl
    | some entry => simp [deleted_iterate]

/-- The sources of a live home, rewritten as often as the home is visited. -/
theorem sourceAt (h : Rewritten host source target doc clone) {home : QueryHome}
    (hlive : Live doc home) :
    ∃ n, ((n = 1 ∨ n = 2) ∧ Visited doc home ∨ n = 0 ∧ ¬Visited doc home) ∧
      ∀ viewId, Causal.sourceAt host clone home viewId =
        (Causal.sourceAt host doc home viewId).map (rewriteText source target)^[n] := by
  obtain ⟨n, hn, hdocument⟩ := h.queryDocumentAt home
  refine ⟨n, hn, fun viewId => ?_⟩
  unfold Causal.sourceAt
  rw [hdocument]
  cases hd : Causal.queryDocumentAt host doc home with
  | none => rfl
  | some document =>
    rw [hd, Option.map_some] at hdocument
    have hsupported : Supported document := (supported_iterate n document).mp
      (supported_of_verified h.verified ((h.live_iff home).mpr hlive) hdocument)
    exact documentSource_iterate n hsupported viewId

end Rewritten

/-- A source that the rewriting turns into what it is to be: where its home is visited
it holds no prefix that the passes mistake, elsewhere it holds no IRI of the source. -/
def Portable (source target : GraphId) (doc : LoroDoc) (home : QueryHome) (text : String) : Prop :=
  (Visited doc home → ∀ x ∈ affectedPrefixes source target, ¬x <:+: text.toList) ∧
    (¬Visited doc home → ∀ kind ∈ entityKinds, ¬iriPrefix source kind <:+: text.toList)

theorem iterate_eq_retarget_iff (hne : target ≠ source) {doc : LoroDoc} {home : QueryHome} {n : Nat}
    (hn : (n = 1 ∨ n = 2) ∧ Visited doc home ∨ n = 0 ∧ ¬Visited doc home) (text : String) :
    (rewriteText source target)^[n] text = retarget source target text ↔
      Portable source target doc home text := by
  unfold Portable
  rcases hn with ⟨hn, hvisited⟩ | ⟨rfl, hhidden⟩
  · rw [iterate_rewriteText_eq_iff hne hn]
    exact ⟨fun h => ⟨fun _ => h, fun hhidden => absurd hvisited hhidden⟩, fun h => h.1 hvisited⟩
  · rw [Function.iterate_zero, id, eq_retarget_iff hne]
    exact ⟨fun h => ⟨fun hvisited => absurd hvisited hhidden, fun _ => h⟩, fun h => h.2 hhidden⟩

/-- A clone is what it is to be exactly where every source of a live home is portable:
where the document has no more default queries than are published, and no graph is
called as the kind of a page, it always is. -/
theorem retargeted_iff (host : Storage) (source target : GraphId) (doc clone : LoroDoc)
    (hk : doc.Keyed) (h : exportCloneSnapshot host source target doc = .ok clone) :
    Retargeted host source target doc clone ↔
      ∀ home viewId text, Live doc home → sourceAt host doc home viewId = some text →
        Portable source target doc home text := by
  obtain ⟨hne, hrewritten⟩ := rewritten_of_export hk h
  constructor
  · intro hretargeted home viewId text hlive htext
    obtain ⟨n, hn, hsources⟩ := hrewritten.sourceAt hlive
    have heq := (hsources viewId).symm.trans (hretargeted.sources home viewId hlive)
    rw [htext, Option.map_some, Option.map_some] at heq
    exact (iterate_eq_retarget_iff hne hn text).mp (Option.some.inj heq)
  · intro hportable
    have hsources : ∀ home viewId, Live doc home → sourceAt host clone home viewId =
        (sourceAt host doc home viewId).map (retarget source target) := by
      intro home viewId hlive
      obtain ⟨n, hn, hsources⟩ := hrewritten.sourceAt hlive
      rw [hsources]
      cases htext : sourceAt host doc home viewId with
      | none => rfl
      | some text =>
        exact congrArg some
          ((iterate_eq_retarget_iff hne hn text).mpr (hportable home viewId text hlive htext))
    refine ⟨hrewritten.live_iff, hsources, ?_⟩
    intro home viewId text hlive htext
    rw [hsources home viewId ((hrewritten.live_iff home).mp hlive)] at htext
    obtain ⟨before, _, rfl⟩ := Option.map_eq_some_iff.mp htext
    exact not_infix_retarget hne before

/-! ## A ninth default query -/

def sampleDefault (id : String) (position : Int) (views : LoroMap) : String × Stored :=
  (id, .map [("title", .string "Open"), ("position", .i64 position), ("deleted", .bool false),
    ("document", .map (sampleDocument views))])

def sampleQueries (first last : LoroMap) : LoroMap :=
  [sampleDefault "1" 1 first, sampleDefault "2" 2 [], sampleDefault "3" 3 [],
    sampleDefault "4" 4 [], sampleDefault "5" 5 [], sampleDefault "6" 6 [],
    sampleDefault "7" 7 [], sampleDefault "8" 8 [], sampleDefault "9" 9 last]

def sampleIri (graph : String) : String :=
  "ASK \x7b<urn:neoseq:entity:" ++ graph ++ ":page:p> ?p <urn:neoseq:entity:c:tag:t>\x7d"

def sampleAsk (source : String) : LoroMap :=
  [("v", .map [("name", .string "All"), ("kind", .string "list"), ("position", .i64 0),
    ("columns", .string "[]"), ("options", .string "\x7b\x7d"), ("deleted", .bool false),
    ("definition", .map [("language", .string queryLanguage), ("source", .text source)])])]

def sampleDoc (graph : String) (first last : LoroMap) : LoroDoc where
  metadata := [("graph_id", .string graph), ("schema_version", .i64 9)]
  graphSettings := [("schema_version", .i64 1), ("default_queries", .map (sampleQueries first last))]
  entities := []
  pages := []
  tags := []

theorem keyed_sampleAsk (source : String) : Keyed (.map (sampleAsk source)) := by
  have hdefinition : Keyed (.map [("language", .string queryLanguage), ("source", .text source)]) :=
    .map _ (show ["language", "source"].Nodup by decide) (by
      simp only [List.forall_mem_cons]
      exact ⟨.string _, .text _, nofun⟩)
  refine .map _ (show ["v"].Nodup by decide) (List.forall_mem_singleton.mpr (.map _ ?_ ?_))
  · show ["name", "kind", "position", "columns", "options", "deleted", "definition"].Nodup
    decide
  · simp only [List.forall_mem_cons]
    exact ⟨.string _, .string _, .i64 _, .string _, .string _, .bool _, hdefinition, nofun⟩

theorem keyed_nil : Keyed (.map []) := .map _ List.nodup_nil nofun

theorem keyed_sampleDefault (id : String) (position : Int) {views : LoroMap}
    (h : Keyed (.map views)) : Keyed (sampleDefault id position views).2 := by
  have hdocument : Keyed (.map (sampleDocument views)) :=
    .map _ (show ["schema", "version", "default_view_id", "views"].Nodup by decide) (by
      unfold sampleDocument
      simp only [List.forall_mem_cons]
      exact ⟨.string _, .i64 _, .string _, h, nofun⟩)
  refine .map _ (show ["title", "position", "deleted", "document"].Nodup by decide) ?_
  simp only [List.forall_mem_cons]
  exact ⟨.string _, .i64 _, .bool _, hdocument, nofun⟩

theorem keyed_sampleDoc (graph : String) {first last : LoroMap} (hfirst : Keyed (.map first))
    (hlast : Keyed (.map last)) : (sampleDoc graph first last).Keyed := by
  have hqueries : Keyed (.map (sampleQueries first last)) :=
    .map _ (show ["1", "2", "3", "4", "5", "6", "7", "8", "9"].Nodup by decide) (by
      unfold sampleQueries
      simp only [List.forall_mem_cons]
      exact ⟨keyed_sampleDefault _ _ hfirst, keyed_sampleDefault _ _ keyed_nil,
        keyed_sampleDefault _ _ keyed_nil, keyed_sampleDefault _ _ keyed_nil,
        keyed_sampleDefault _ _ keyed_nil, keyed_sampleDefault _ _ keyed_nil,
        keyed_sampleDefault _ _ keyed_nil, keyed_sampleDefault _ _ keyed_nil,
        keyed_sampleDefault _ _ hlast, nofun⟩)
  refine ⟨.map _ ?_ ?_, .map _ ?_ ?_, fun home => (by cases home <;> exact keyed_nil)⟩
  · show ["graph_id", "schema_version"].Nodup
    decide
  · unfold sampleDoc
    simp only [List.forall_mem_cons]
    exact ⟨.string _, .i64 _, nofun⟩
  · show ["schema_version", "default_queries"].Nodup
    decide
  · unfold sampleDoc
    simp only [List.forall_mem_cons]
    exact ⟨.i64 _, hqueries, nofun⟩

/-- Only the first of the default queries has a source. -/
theorem eq_of_sourceAt {first : LoroMap} {id viewId text : String}
    (h : sourceAt sampleStorage (sampleDoc "a" first []) (.defaultQuery id) viewId = some text) :
    id = "1" := by
  obtain ⟨document, hdocument, hsource⟩ := Option.bind_eq_some_iff.mp h
  obtain ⟨entry, hentry, hdocument⟩ := Option.bind_eq_some_iff.mp hdocument
  have hmem : (id, Stored.map entry) ∈ sampleQueries first [] :=
    mem_of_get (child_eq_some.mp hentry)
  have hempty {title : String} {position : Int}
      (heq : (id, Stored.map entry) = sampleDefault title position []) : False := by
    obtain ⟨_, hentry⟩ := Prod.mk.inj heq
    obtain rfl := Stored.map.inj hentry
    obtain rfl := Option.some.inj hdocument
    cases hsource
  unfold sampleQueries at hmem
  simp only [List.mem_cons, List.not_mem_nil, or_false] at hmem
  rcases hmem with heq | heq | heq | heq | heq | heq | heq | heq | heq
  · exact congrArg Prod.fst heq
  all_goals exact (hempty heq).elim

/-- A query that names a page of the graph names that page of the clone in it, and the tag of
another graph as before. -/
theorem retargeted_sample :
    Retargeted sampleStorage ⟨"a", by decide⟩ ⟨"b", by decide⟩
      (sampleDoc "a" (sampleAsk (sampleIri "a")) [])
      (sampleDoc "b" (sampleAsk (sampleIri "b")) []) := by
  refine (retargeted_iff sampleStorage ⟨"a", by decide⟩ ⟨"b", by decide⟩
    (sampleDoc "a" (sampleAsk (sampleIri "a")) []) (sampleDoc "b" (sampleAsk (sampleIri "b")) [])
    (keyed_sampleDoc "a" (keyed_sampleAsk _) keyed_nil) rfl).mpr
      fun home viewId text _ htext => ⟨fun _ => nofun, fun hhidden => absurd ?_ hhidden⟩
  cases home with
  | defaultQuery id =>
    obtain rfl := eq_of_sourceAt htext
    exact ⟨_, rfl, _, List.mem_cons_self, rfl⟩
  | _ => trivial

/-- Of nine default queries the last is not published, and the clone keeps the IRI of a
page of the source graph in it. -/
theorem clone_keeps_overflow :
    (sampleDoc "a" [] (sampleAsk (sampleIri "a"))).Keyed ∧
    ∃ clone, exportCloneSnapshot sampleStorage ⟨"a", by decide⟩ ⟨"b", by decide⟩
        (sampleDoc "a" [] (sampleAsk (sampleIri "a"))) = .ok clone ∧
      ¬Retargeted sampleStorage ⟨"a", by decide⟩ ⟨"b", by decide⟩
        (sampleDoc "a" [] (sampleAsk (sampleIri "a"))) clone := by
  refine ⟨keyed_sampleDoc "a" keyed_nil (keyed_sampleAsk _),
    sampleDoc "b" [] (sampleAsk (sampleIri "a")), rfl, ?_⟩
  intro h
  have hlive : Live (sampleDoc "b" [] (sampleAsk (sampleIri "a"))) (.defaultQuery "9") :=
    ⟨_, rfl, rfl⟩
  exact h.clear _ "v" (sampleIri "a") hlive rfl "page" (by decide) (by decide)

end Neoseq.Causal
