import Neoseq.Document.Stored
import Neoseq.Domain.Query
import Neoseq.Result

/-! Reading a query document that many peers have merged. Every live view is
decoded, the views are put into their order, and what is published is bounded:
views past the limit are listed as overflow and a default that cannot be shown
is replaced. -/

namespace Neoseq.Document
open Domain

def queryPlanStateKey : String := "plan_state"
def queryPlanStateVersion : Nat := 1

variable (codec : Codec)

/-- `InvalidHierarchy` as the readers print it. -/
def invalid (message : String) : String := "invalid block hierarchy: " ++ message

/-- A failed property check as the readers print it. -/
def validatePlan (plan : QueryPlan) : Except String Unit :=
  (plan.validate codec).mapError fun e => "property validation failed: " ++ e.message

/-- The register of the plan, and before it the pair of older slots. -/
def decodeQueryPlanState (definition : LoroMap) (label : String) :
    Except String (Option QueryPlan) :=
  match definition.get queryPlanStateKey with
  | some value => do
    let encoded ← orElse value.intoString (invalid (label ++ " query plan state is invalid"))
    let state ← orElse (codec.planState encoded) (invalid (label ++ " query plan state is invalid"))
    match state with
    | .raw => return none
    | .built version plan =>
      if version != queryPlanStateVersion then
        throw (invalid (label ++ " query plan storage version is unsupported"))
      validatePlan codec plan
      return some plan
  | none =>
    match definition.get "plan_version", definition.get "plan" with
    | none, none => .ok none
    | some (.i64 version), some (.string payload) => do
      let version ← orElse (u32FromI64 version)
        (invalid (label ++ " query plan version is invalid"))
      validatePlan codec ⟨version, payload⟩
      return some ⟨version, payload⟩
    | _, _ => .error (invalid (label ++ " query plan is incomplete or invalid"))

/-- A derived source that a query may have. -/
def derivedQuerySource (plan : QueryPlan) : Option String :=
  (codec.derivePlanSource plan).filter fun source =>
    decide (source.utf8ByteSize ≤ maxQuerySourceBytes)

def readQueryDefinition (map : LoroMap) (label : String) : Except String QueryDefinition := do
  let language ← orElse (mapString map "language") (label ++ " language is missing")
  let rawSource ← orElse ((map.get "source").bind Stored.intoText) (label ++ " source is missing")
  let candidate ← decodeQueryPlanState codec map label
  match candidate with
  | some plan => return ⟨(derivedQuerySource codec plan).getD rawSource, language, some plan⟩
  | none => return ⟨rawSource, language, none⟩

def queryViewId (raw : String) : Except String QueryViewId :=
  (OpaqueString.new raw : Except IdError QueryViewId).mapError IdError.message

def decodeKind (view : LoroMap) (rawId : String) : Except String QueryViewKind :=
  match mapString view "kind" with
  | some "table" => .ok .table
  | some "list" => .ok .list
  | _ => .error ("query view " ++ rawId ++ " kind is invalid")

/-- One live view of the stored map. -/
def decodeView (decodeDefinition : LoroMap → String → Except String QueryDefinition)
    (rawId : String) (view : LoroMap) : Except String QueryView := do
  let id ← queryViewId rawId
  let name ← orElse (mapString view "name") ("query view " ++ rawId ++ " name is missing")
  let definition ← decodeDefinition view rawId
  let kind ← decodeKind view rawId
  let position ← orElse (mapU32 view "position")
    ("query view " ++ rawId ++ " position is invalid")
  let columns ← orElse ((mapString view "columns").bind codec.columns)
    ("query view " ++ rawId ++ " columns are invalid")
  -- the switches decode leniently, so a newer peer's view still opens
  let options := ((mapString view "options").bind codec.options).getD {}
  return ⟨id, name, definition, kind, position, columns, options⟩

/-- One step of the walk over the views: nothing for a deleted view. -/
def scanView (decodeDefinition : LoroMap → String → Except String QueryDefinition) :
    String × Stored → Option (Except String QueryView)
  | (rawId, .map view) =>
    if mapBool view "deleted" = some true then none
    else some (decodeView codec decodeDefinition rawId view)
  | (rawId, _) => some (.error ("query view " ++ rawId ++ " is not a map"))

/-- The walk over the views, which reports the first issue it met. -/
def decodeViews (decodeDefinition : LoroMap → String → Except String QueryDefinition)
    (views : LoroMap) : Except String (List QueryView) :=
  (views.filterMap (scanView codec decodeDefinition)).mapM id

/-- Views are shown by position, and by id where positions tie. -/
def viewBefore (left right : QueryView) : Prop :=
  left.position < right.position ∨
    left.position = right.position ∧ left.id.asStr ≤ right.id.asStr

instance : DecidableRel viewBefore := fun left right => by
  unfold viewBefore
  infer_instance

structure ProjectedQueryDocument where
  document : PropertyDocument
  overflowIds : List QueryViewId
  unavailableDefault : Option (QueryViewId × QueryViewId)
  sourceOverflows : List (QueryViewId × Nat)
  deriving DecidableEq

/-- The views in their order, or the fallback where none is live. -/
def orderedViews (decoded : List QueryView) : List QueryView :=
  let decoded := decoded.insertionSort viewBefore
  if decoded.isEmpty then [defaultQueryView ""] else decoded

/-- The loop that checks each decoded view. -/
def checkViews : List QueryView → Except QueryError Unit
  | [] => .ok ()
  | view :: rest => do
    view.validateStructure codec
    checkViews rest

/-- The published document for views that are ordered and not empty. -/
def publish (schema : String) (version : Nat) (requested : QueryViewId)
    (decoded : List QueryView) (first : QueryViewId) : ProjectedQueryDocument :=
  let published := decoded.take maxQueryViews
  let default :=
    if published.any fun view => view.id = requested then requested else first
  { document := ⟨schema, version, published, default⟩
    overflowIds := (decoded.drop maxQueryViews).map QueryView.id
    unavailableDefault := if default ≠ requested then some (requested, default) else none
    sourceOverflows :=
      (decoded.filter fun view =>
        decide (view.definition.source.utf8ByteSize > maxQuerySourceBytes)).map
          fun view => (view.id, view.definition.source.utf8ByteSize) }

def projectQueryDocumentWith (document : LoroMap) (schema : String) (version : Nat)
    (decodeDefinition : LoroMap → String → Except String QueryDefinition) :
    Except String ProjectedQueryDocument := do
  let raw ← orElse (mapString document "default_view_id")
    "query document default view is missing"
  let requested ← queryViewId raw
  let views ← orElse ((document.get "views").bind Stored.intoMap)
    "query document views are missing"
  let decoded ← decodeViews codec decodeDefinition views
  let decoded := orderedViews decoded
  (checkViews codec decoded).mapError QueryError.message
  -- `decoded[0]`, which the fallback makes present
  let first := (decoded.head?.map QueryView.id).getD allViewId
  let projected := publish schema version requested decoded first
  (projected.document.validateStructure codec).mapError QueryError.message
  return projected

/-- The definition of a view in a document. -/
def viewDefinition (view : LoroMap) (rawId : String) : Except String QueryDefinition := do
  let definition ← orElse ((view.get "definition").bind Stored.intoMap)
    ("query view " ++ rawId ++ " definition is missing")
  readQueryDefinition codec definition ("query view " ++ rawId)

def projectQueryDocument (document : LoroMap) : Except String ProjectedQueryDocument := do
  let schema ← orElse (mapString document "schema") "query document schema is missing"
  let version ← orElse (mapU32 document "version") "query document version is invalid"
  projectQueryDocumentWith codec document schema version (viewDefinition codec)

/-! ## The order of views -/

instance : Std.Total viewBefore := ⟨fun a b => by
  unfold viewBefore
  rcases Nat.lt_trichotomy a.position b.position with h | h | h
  · exact .inl (.inl h)
  · rcases le_total a.id.asStr b.id.asStr with hs | hs
    · exact .inl (.inr ⟨h, hs⟩)
    · exact .inr (.inr ⟨h.symm, hs⟩)
  · exact .inr (.inl h)⟩

instance : IsTrans QueryView viewBefore := ⟨fun a b c hab hbc => by
  unfold viewBefore at *
  rcases hab with hab | ⟨hab, hs⟩
  · rcases hbc with hbc | ⟨hbc, _⟩
    · exact .inl (hab.trans hbc)
    · exact .inl (hbc ▸ hab)
  · rcases hbc with hbc | ⟨hbc, ht⟩
    · exact .inl (hab ▸ hbc)
    · exact .inr ⟨hab.trans hbc, hs.trans ht⟩⟩

theorem id_eq_of_viewBefore {a b : QueryView} (hab : viewBefore a b) (hba : viewBefore b a) :
    a.id = b.id := by
  unfold viewBefore at *
  refine OpaqueString.ext ?_
  rcases hab with hab | ⟨_, hs⟩
  · rcases hba with hba | ⟨hba, _⟩ <;> omega
  · rcases hba with hba | ⟨_, ht⟩
    · omega
    · exact le_antisymm hs ht

/-- Views with distinct ids have one order, however they were listed. -/
theorem insertionSort_eq_of_perm {l l' : List QueryView} (hp : l.Perm l')
    (hn : (l.map QueryView.id).Nodup) :
    l.insertionSort viewBefore = l'.insertionSort viewBefore := by
  have hl := List.perm_insertionSort viewBefore l
  have hl' := List.perm_insertionSort viewBefore l'
  refine List.Perm.eq_of_pairwise (fun a b ha hb hab hba => ?_)
    (List.pairwise_insertionSort viewBefore l) (List.pairwise_insertionSort viewBefore l')
    (hl.trans (hp.trans hl'.symm))
  have ha' : a ∈ l := hl.mem_iff.mp ha
  have hb' : b ∈ l := hp.mem_iff.mpr (hl'.mem_iff.mp hb)
  exact List.inj_on_of_nodup_map hn ha' hb' (id_eq_of_viewBefore hab hba)

/-! ## The walk over the views -/

section Walk
variable {codec}

/-- The same views in another order decode to the same views in another order. -/
theorem decodeViews_perm {decode : LoroMap → String → Except String QueryDefinition}
    {views views' : LoroMap} {live : List QueryView} (hp : views.Perm views')
    (h : decodeViews codec decode views = .ok live) :
    ∃ live', decodeViews codec decode views' = .ok live' ∧ live.Perm live' := by
  have hs := (mapM_id_eq_ok.mp h) ▸ hp.filterMap (scanView codec decode)
  have hok : ∀ x ∈ views'.filterMap (scanView codec decode), ∃ v, x = .ok v := fun x hx => by
    obtain ⟨v, _, hv⟩ := List.mem_map.mp (hs.mem_iff.mpr hx)
    exact ⟨v, hv.symm⟩
  refine ⟨_, mapM_id_eq_ok.mpr (map_ok_filterMap hok), ?_⟩
  have := hs.filterMap Except.toOption
  rwa [List.filterMap_map, show (Except.toOption ∘ Except.ok : QueryView → _) = some from rfl,
    List.filterMap_some] at this

theorem queryViewId_eq_ok {raw : String} {id : QueryViewId} :
    queryViewId raw = .ok id ↔ raw = id.asStr := by
  rw [queryViewId, mapError_eq_ok]
  constructor
  · intro h
    unfold OpaqueString.new at h
    split at h
    · exact congrArg OpaqueString.asStr (Except.ok.inj h)
    · cases h
  · rintro rfl
    exact id.new_asStr

theorem id_of_decodeView {decode : LoroMap → String → Except String QueryDefinition}
    {raw : String} {view : LoroMap} {v : QueryView}
    (h : decodeView codec decode raw view = .ok v) : v.id.asStr = raw := by
  unfold decodeView at h
  obtain ⟨id, hid, h⟩ := bind_eq_ok.mp h
  obtain ⟨_, _, h⟩ := bind_eq_ok.mp h
  obtain ⟨_, _, h⟩ := bind_eq_ok.mp h
  obtain ⟨_, _, h⟩ := bind_eq_ok.mp h
  obtain ⟨_, _, h⟩ := bind_eq_ok.mp h
  obtain ⟨_, _, h⟩ := bind_eq_ok.mp h
  obtain rfl := pure_eq_ok.mp h
  exact (queryViewId_eq_ok.mp hid).symm

theorem id_of_scanView {decode : LoroMap → String → Except String QueryDefinition}
    {raw : String} {stored : Stored} {v : QueryView}
    (h : scanView codec decode (raw, stored) = some (.ok v)) : v.id.asStr = raw := by
  unfold scanView at h
  split at h
  · next raw' view heq =>
    obtain ⟨rfl, _⟩ := Prod.mk.inj heq
    split at h
    · cases h
    · exact id_of_decodeView (Option.some.inj h)
  · cases h

/-- The decoded views carry the keys they are stored under. -/
theorem ids_sublist {decode : LoroMap → String → Except String QueryDefinition}
    {views : LoroMap} {live : List QueryView} (h : decodeViews codec decode views = .ok live) :
    (live.map fun v => v.id.asStr).Sublist (views.map Prod.fst) := by
  replace h := mapM_id_eq_ok.mp h
  induction views generalizing live with
  | nil =>
    obtain rfl : live = [] := by simpa using h.symm
    exact List.Sublist.slnil
  | cons e views ih =>
    obtain ⟨raw, stored⟩ := e
    cases hs : scanView codec decode (raw, stored) with
    | none =>
      rw [List.filterMap_cons_none hs] at h
      exact (ih h).cons raw
    | some r =>
      rw [List.filterMap_cons_some hs] at h
      cases live with
      | nil => cases h
      | cons v live =>
        obtain ⟨rfl, hlive⟩ := List.cons.inj h
        rw [List.map_cons, List.map_cons, id_of_scanView hs]
        exact (ih hlive).cons_cons raw

theorem nodup_ids {decode : LoroMap → String → Except String QueryDefinition}
    {views : LoroMap} {live : List QueryView} (hk : (views.map Prod.fst).Nodup)
    (h : decodeViews codec decode views = .ok live) : (live.map QueryView.id).Nodup := by
  have hs := hk.sublist (ids_sublist h)
  rw [show (live.map fun v => v.id.asStr) = (live.map QueryView.id).map OpaqueString.asStr from
    by simp] at hs
  exact hs.of_map _

end Walk

/-! ## What is published -/

section Publish
variable {codec}

theorem checkViews_eq_ok {views : List QueryView} :
    checkViews codec views = .ok () ↔ ∀ v ∈ views, v.validateStructure codec = .ok () := by
  induction views with
  | nil => simp [checkViews]
  | cons v views ih =>
    rw [checkViews, bind_eq_ok, List.forall_mem_cons, ih]
    exact ⟨fun ⟨(), h⟩ => h, fun h => ⟨(), h⟩⟩

/-- A document of the supported kind whose live views decode and are well formed. -/
structure Readable (codec : Codec) (document views : LoroMap) (requested : QueryViewId)
    (live : List QueryView) : Prop where
  schema : mapString document "schema" = some queryDocumentSchema
  version : mapU32 document "version" = some queryDocumentVersion
  default : mapString document "default_view_id" = some requested.asStr
  entries : (document.get "views").bind Stored.intoMap = some views
  decoded : decodeViews codec (viewDefinition codec) views = .ok live
  valid : ∀ v ∈ live, v.validateStructure codec = .ok ()

theorem orderedViews_nil : orderedViews [] = [defaultQueryView ""] := rfl

theorem orderedViews_of_ne_nil {live : List QueryView} (h : live ≠ []) :
    orderedViews live = live.insertionSort viewBefore := by
  have hp := List.perm_insertionSort viewBefore live
  have he : (live.insertionSort viewBefore).isEmpty = false := by
    rw [List.isEmpty_eq_false_iff]
    exact fun hn => h (List.perm_nil.mp (hn ▸ hp).symm)
  rw [orderedViews, he]
  rfl

theorem valid_orderedViews {live : List QueryView} :
    (∀ v ∈ orderedViews live, v.validateStructure codec = .ok ()) ↔
      ∀ v ∈ live, v.validateStructure codec = .ok () := by
  by_cases h : live = []
  · subst h
    simp [orderedViews_nil, validateStructure_defaultQueryView]
  · rw [orderedViews_of_ne_nil h]
    simp only [List.mem_insertionSort]

theorem nodup_orderedViews {live : List QueryView} (h : (live.map QueryView.id).Nodup) :
    ((orderedViews live).map QueryView.id).Nodup := by
  by_cases hl : live = []
  · subst hl
    simp [orderedViews_nil]
  · rw [orderedViews_of_ne_nil hl]
    exact ((List.perm_insertionSort viewBefore live).map _).nodup_iff.mpr h

theorem orderedViews_ne_nil (live : List QueryView) :
    ∃ first rest, orderedViews live = first :: rest := by
  by_cases h : live = []
  · exact ⟨_, [], by rw [h, orderedViews_nil]⟩
  · cases hs : live.insertionSort viewBefore with
    | nil =>
      have hp := List.perm_insertionSort viewBefore live
      exact absurd (List.perm_nil.mp (hs ▸ hp).symm) h
    | cons first rest => exact ⟨first, rest, by rw [orderedViews_of_ne_nil h, hs]⟩

/-- What projection publishes of the live views. -/
def publishLive (requested : QueryViewId) (live : List QueryView) : ProjectedQueryDocument :=
  publish queryDocumentSchema queryDocumentVersion requested (orderedViews live)
    (((orderedViews live).head?.map QueryView.id).getD allViewId)

/-- The published default is published, and is the stored one where it can be. -/
theorem publishLive_default (requested : QueryViewId) (live : List QueryView) :
    let document := (publishLive requested live).document
    document.defaultViewId ∈ document.views.map QueryView.id ∧
      (requested ∈ document.views.map QueryView.id → document.defaultViewId = requested) := by
  obtain ⟨first, rest, he⟩ := orderedViews_ne_nil live
  have hfirst : first ∈ (first :: rest).take maxQueryViews := by simp [maxQueryViews]
  have hiff : (((first :: rest).take maxQueryViews).any fun view => view.id = requested) = true ↔
      requested ∈ ((first :: rest).take maxQueryViews).map QueryView.id := by
    rw [List.any_eq_true, List.mem_map]
    simp only [decide_eq_true_eq]
  simp only [publishLive, publish, he, List.head?_cons, Option.map_some, Option.getD_some]
  by_cases hr : requested ∈ ((first :: rest).take maxQueryViews).map QueryView.id
  · rw [if_pos (hiff.mpr hr)]
    exact ⟨hr, fun _ => rfl⟩
  · rw [if_neg (fun h => hr (hiff.mp h))]
    exact ⟨List.mem_map_of_mem hfirst, fun h => absurd h hr⟩

/-- The published document passes the check of every reader. -/
theorem validateStructure_publishLive {requested : QueryViewId} {live : List QueryView}
    (hv : ∀ v ∈ live, v.validateStructure codec = .ok ())
    (hn : (live.map QueryView.id).Nodup) :
    (publishLive requested live).document.validateStructure codec = .ok () := by
  obtain ⟨first, rest, he⟩ := orderedViews_ne_nil live
  have hn' := nodup_orderedViews hn
  refine PropertyDocument.validateStructure_ok rfl rfl ?_ (List.length_take_le _ _) ?_ ?_
    (publishLive_default requested live).1
  · show (orderedViews live).take maxQueryViews ≠ []
    simp [he, maxQueryViews]
  · exact fun v hm => valid_orderedViews.mpr hv v (List.mem_of_mem_take hm)
  · exact hn'.sublist ((List.take_sublist _ _).map _)

theorem project_of_readable {document views : LoroMap} {requested : QueryViewId}
    {live : List QueryView} (h : Readable codec document views requested live)
    (hk : (views.map Prod.fst).Nodup) :
    projectQueryDocument codec document = .ok (publishLive requested live) := by
  have hcheck := checkViews_eq_ok.mpr (valid_orderedViews.mpr h.valid)
  have hvalid : (publishLive requested live).document.validateStructure codec = .ok () :=
    validateStructure_publishLive h.valid (nodup_ids hk h.decoded)
  have hid := queryViewId_eq_ok.mpr (rfl : requested.asStr = requested.asStr)
  unfold publishLive at hvalid ⊢
  unfold projectQueryDocument projectQueryDocumentWith
  simp only [h.schema, h.version, h.default, h.entries, h.decoded, hid, hcheck, hvalid, orElse,
    bind, Except.bind, Except.mapError]
  rfl

/-- Only readable documents are projected, and what is published are the live views. -/
theorem publishLive_of_project {document : LoroMap} {p : ProjectedQueryDocument}
    (h : projectQueryDocument codec document = .ok p) :
    ∃ views requested live, Readable codec document views requested live ∧
      p = publishLive requested live := by
  unfold projectQueryDocument at h
  obtain ⟨schema, hs, h⟩ := bind_eq_ok.mp h
  obtain ⟨version, hv, h⟩ := bind_eq_ok.mp h
  unfold projectQueryDocumentWith at h
  obtain ⟨raw, hraw, h⟩ := bind_eq_ok.mp h
  obtain ⟨requested, hid, h⟩ := bind_eq_ok.mp h
  obtain ⟨views, hviews, h⟩ := bind_eq_ok.mp h
  obtain ⟨live, hlive, h⟩ := bind_eq_ok.mp h
  obtain ⟨_, hcheck, h⟩ := bind_eq_ok.mp h
  obtain ⟨_, hdoc, h⟩ := bind_eq_ok.mp h
  rw [mapError_eq_ok] at hcheck hdoc
  rw [orElse_eq_ok] at hs hv hraw hviews
  rw [queryViewId_eq_ok] at hid
  obtain ⟨hschema, hversion⟩ := PropertyDocument.supported_of_validateStructure hdoc
  obtain rfl : schema = queryDocumentSchema := hschema
  obtain rfl : version = queryDocumentVersion := hversion
  exact ⟨views, requested, live, ⟨hs, hv, hraw.trans (congrArg some hid), hviews, hlive,
    valid_orderedViews.mp (checkViews_eq_ok.mp hcheck)⟩, (pure_eq_ok.mp h).symm⟩

theorem readable_of_project {document : LoroMap} {p : ProjectedQueryDocument}
    (h : projectQueryDocument codec document = .ok p) :
    ∃ views requested live, Readable codec document views requested live := by
  obtain ⟨views, requested, live, hread, -⟩ := publishLive_of_project h
  exact ⟨views, requested, live, hread⟩

/-- The same views stored in another order are as readable. -/
theorem Readable.reorder {document document' views views' : LoroMap} {requested : QueryViewId}
    {live : List QueryView} (h : Readable codec document views requested live)
    (hp : views.Perm views') (hv : document'.get "views" = some (.map views'))
    (hrest : ∀ key, key ≠ "views" → document'.get key = document.get key) :
    ∃ live', Readable codec document' views' requested live' ∧ live.Perm live' := by
  obtain ⟨live', hd, hl⟩ := decodeViews_perm hp h.decoded
  have hstring : ∀ key, key ≠ "views" → mapString document' key = mapString document key := by
    intro key hkey
    rw [mapString, mapString, hrest key hkey]
  have hversion : mapU32 document' "version" = mapU32 document "version" := by
    rw [mapU32, mapU32, mapI64, mapI64, hrest "version" (by decide)]
  refine ⟨live', ⟨?_, ?_, ?_, ?_, hd, ?_⟩, hl⟩
  · rw [hstring _ (by decide)]; exact h.schema
  · rw [hversion]; exact h.version
  · rw [hstring _ (by decide)]; exact h.default
  · rw [hv]; rfl
  · exact fun v hm => h.valid v (hl.mem_iff.mpr hm)

theorem publishLive_perm {requested : QueryViewId} {live live' : List QueryView}
    (hp : live.Perm live') (hn : (live.map QueryView.id).Nodup) :
    publishLive requested live' = publishLive requested live := by
  have he : orderedViews live' = orderedViews live := by
    unfold orderedViews
    rw [insertionSort_eq_of_perm hp hn]
  rw [publishLive, publishLive, he]

/-- Projection of a stored query document: it succeeds exactly on the readable
ones, publishes the first views in their order with a default among them, lists
the rest, passes the readers' check, and depends on no iteration order. -/
theorem project_query_document_correct {document : LoroMap}
    (hk : ∀ views, (document.get "views").bind Stored.intoMap = some views →
      (views.map Prod.fst).Nodup) :
    ((∃ p, projectQueryDocument codec document = .ok p) ↔
      ∃ views requested live, Readable codec document views requested live) ∧
    ∀ views requested live, Readable codec document views requested live →
      ∃ (p : ProjectedQueryDocument) (sorted : List QueryView),
        projectQueryDocument codec document = .ok p ∧ sorted.Perm live ∧ sorted.Pairwise viewBefore ∧ (sorted.map QueryView.id).Nodup ∧
        p.document.views =
          (if live = [] then [defaultQueryView ""] else sorted.take maxQueryViews) ∧
        p.document.defaultViewId ∈ p.document.views.map QueryView.id ∧
        (requested ∈ p.document.views.map QueryView.id →
          p.document.defaultViewId = requested) ∧
        (live ≠ [] →
          p.document.views.map QueryView.id ++ p.overflowIds = sorted.map QueryView.id) ∧
        (live = [] → p.overflowIds = []) ∧
        p.document.validateStructure codec = .ok () ∧
        ∀ document' views', views.Perm views' → document'.get "views" = some (.map views') →
          (∀ key, key ≠ "views" → document'.get key = document.get key) →
          projectQueryDocument codec document' = .ok p := by
  refine ⟨⟨fun ⟨p, h⟩ => readable_of_project h, fun ⟨views, requested, live, h⟩ =>
    ⟨_, project_of_readable h (hk views h.entries)⟩⟩, fun views requested live h => ?_⟩
  have hkeys := hk views h.entries
  have hn := nodup_ids hkeys h.decoded
  have hp := List.perm_insertionSort viewBefore live
  obtain ⟨hmem, hreq⟩ := publishLive_default requested live
  refine ⟨publishLive requested live, live.insertionSort viewBefore,
    project_of_readable h hkeys, hp, List.pairwise_insertionSort viewBefore live,
    (hp.map _).nodup_iff.mpr hn, ?_, hmem, hreq, ?_, ?_,
    validateStructure_publishLive h.valid hn, ?_⟩
  · split
    · next hl =>
      subst hl
      rfl
    · next hl =>
      show (orderedViews live).take maxQueryViews = _
      rw [orderedViews_of_ne_nil hl]
  · intro hl
    show ((orderedViews live).take maxQueryViews).map QueryView.id ++
      ((orderedViews live).drop maxQueryViews).map QueryView.id = _
    rw [← List.map_append, List.take_append_drop, orderedViews_of_ne_nil hl]
  · rintro rfl
    rfl
  · intro document' views' hperm hv hrest
    obtain ⟨live', h', hl⟩ := h.reorder hperm hv hrest
    rw [project_of_readable h' ((hperm.map _).nodup_iff.mp hkeys), publishLive_perm hl hn]

end Publish

/-! ## A document that two peers have merged -/

/-- The JSON texts that the sample below stores. -/
def sampleCodec : Codec where
  isObject s := if s = "\x7b\x7d" then some true else none
  columns s := if s = "[]" then some [] else none
  options s := if s = "\x7b\x7d" then some {} else none
  planState s := if s = "raw" then some .raw else none
  derivePlanSource _ := none

def sampleView (name : String) (position : Int) (deleted : Bool) : Stored :=
  .map [("name", .string name), ("kind", .string "list"), ("position", .i64 position),
    ("columns", .string "[]"), ("options", .string "\x7b\x7d"), ("deleted", .bool deleted),
    ("definition", .map [("language", .string queryLanguage), ("source", .text "ASK \x7b\x7d")])]

def sampleDocument (views : LoroMap) : LoroMap :=
  [("schema", .string queryDocumentSchema), ("version", .i64 2),
    ("default_view_id", .string "gone"), ("views", .map views)]

/-- A tie in position, a deleted view and a default that points at it. -/
theorem project_query_document_sample :
    ∃ p, projectQueryDocument sampleCodec (sampleDocument
      [("b", sampleView "B" 0 false), ("gone", sampleView "" 0 true),
        ("a", sampleView "A" 0 false)]) = .ok p := by
  refine (project_query_document_correct ?_).1.mpr ⟨_, ⟨"gone", by decide⟩, _,
    { schema := rfl, version := rfl, default := rfl, entries := rfl, decoded := rfl,
      valid := by decide }⟩
  intro views h
  obtain rfl := Option.some.inj h
  decide

/-- A live view that decodes, in a document that cannot be projected: its name
is empty. -/
theorem project_query_document_empty_name :
    ∃ live, decodeViews sampleCodec (viewDefinition sampleCodec)
        [("a", sampleView "" 0 false)] = .ok live ∧
      projectQueryDocument sampleCodec (sampleDocument [("a", sampleView "" 0 false)]) =
        .error "invalid property document: invalid query view name" :=
  ⟨_, rfl, rfl⟩

end Neoseq.Document
