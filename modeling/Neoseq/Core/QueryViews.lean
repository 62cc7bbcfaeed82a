import Neoseq.Core.Outlines

/-! Commands on query views, with the places where the code expects a value. What a document
shows and what it stores are not the same: where every stored view is deleted a view is shown
that need not be stored. -/

namespace Neoseq.Core
open Domain Document Collections Content

deriving instance DecidableEq for QueryOwner

/-! ## Commands -/

/-- The commands on the views of a query document. -/
inductive QueryCommand where
  | setQuerySource (owner : QueryOwner) (viewId : QueryViewId) (source : String)
  | spliceQuerySource (owner : QueryOwner) (viewId : QueryViewId) (index delete : Nat)
    (insert : String)
  | setQueryPlan (owner : QueryOwner) (viewId : QueryViewId) (plan : QueryPlan)
  | putQueryView (owner : QueryOwner) (view : QueryView)
  | removeQueryView (owner : QueryOwner) (viewId : QueryViewId)
  | setQueryDefaultView (owner : QueryOwner) (viewId : QueryViewId)

def QueryCommand.intent : QueryCommand → Intent
  | .setQuerySource owner viewId source => .setQuerySource owner viewId source
  | .spliceQuerySource owner viewId index delete insert =>
    .spliceQuerySource owner viewId index delete insert
  | .setQueryPlan owner viewId plan => .setQueryPlan owner viewId plan
  | .putQueryView owner view => .putQueryView owner view
  | .removeQueryView owner viewId => .removeQueryView owner viewId
  | .setQueryDefaultView owner viewId => .setQueryDefaultView owner viewId

def QueryCommand.owner : QueryCommand → QueryOwner
  | .setQuerySource owner _ _ => owner
  | .spliceQuerySource owner _ _ _ _ => owner
  | .setQueryPlan owner _ _ => owner
  | .putQueryView owner _ => owner
  | .removeQueryView owner _ => owner
  | .setQueryDefaultView owner _ => owner

/-- The owner of the query document that an operation writes. -/
def PrimitiveOp.queryOwner : PrimitiveOp → Option QueryOwner
  | .initializeQueryDocument owner => some owner
  | .putQueryView owner _ => some owner
  | .removeQueryView owner _ _ => some owner
  | .assignQueryDefaultView owner _ => some owner
  | .replaceQuerySource target _ => some target.owner
  | .assignQueryPlan target _ => some target.owner
  | .spliceQuerySource target _ => some target.definition.owner
  | _ => none

/-- The `query_owners` of a footprint. -/
def queryOwners (operations : List PrimitiveOp) : List QueryOwner :=
  (operations.filterMap PrimitiveOp.queryOwner).foldl
    (fun owners owner => if owner ∈ owners then owners else owners ++ [owner]) []

/-- `NormalizedTransition::query`, which panics where there is not one owner. -/
def queryTransition (operations : List PrimitiveOp) : Except Halt NormalizedTransition :=
  if (queryOwners operations).length = 1 then .ok (.new operations) else .error .panic

variable (host : Host) (d : GraphDoc)

def preparePutQueryView (owner : QueryOwner) (view : QueryView) :
    Except Halt NormalizedTransition := do
  (d.validateQueryOwner owner).mapError .refused
  let document ← (d.queryDocument host owner).mapError .refused
  let (document, normalized) ← (placeView host document view).mapError .refused
  (queryError (document.validate host.codec)).mapError .refused
  let stored ← (d.requireQueryDocumentForOwner owner).mapError .refused
  let definition ← if rawViewExists stored view.id then pure none
    else (orElse normalized .panic).map fun normalized => some normalized.definition
  queryTransition [.putQueryView owner ⟨.of view, definition⟩]

def prepareRemoveQueryView (owner : QueryOwner) (viewId : QueryViewId) :
    Except Halt NormalizedTransition := do
  (d.validateQueryOwner owner).mapError .refused
  let document ← (d.queryDocument host owner).mapError .refused
  let visible := hasView document viewId
  let stored ← (d.requireQueryDocumentForOwner owner).mapError .refused
  if !visible && !rawViewExists stored viewId then throw (.refused missingView)
  if visible && document.views.length = 1 then
    (invalidQuery "the last query view cannot be removed").mapError .refused
  let nextDefault ← if visible && document.defaultViewId = viewId then
      (orElse (document.views.find? fun view => decide (view.id ≠ viewId)) .panic).map
        fun view => some view.id
    else pure none
  queryTransition [.removeQueryView owner viewId nextDefault]

/-- `prepare_transition` of a command on query views. -/
def prepareQueryCommand (command : QueryCommand) : Except Halt NormalizedTransition :=
  match command with
  | .putQueryView owner view => preparePutQueryView host d owner view
  | .removeQueryView owner viewId => prepareRemoveQueryView host d owner viewId
  | command => do
    let operations ← (lower host d command.intent).mapError .refused
    queryTransition operations

/-- A view that is deleted. -/
def IsTombstone (stored : Stored) : Prop :=
  ∃ view, stored = .map view ∧ mapBool view "deleted" = some true

/-- A view with the definition of the only view of a fresh document. -/
def fallbackView (view : QueryView) : QueryView :=
  { view with definition := (defaultQueryView "").definition }

/-- The command puts the view that is shown where every stored view is deleted, and no view is
stored under its id. -/
def QueryCommand.PutsFallback : QueryCommand → Prop
  | .putQueryView owner view =>
    d.validateQueryOwner owner = .ok () ∧ view.id = allViewId ∧
      (fallbackView view).validate host.codec = .ok () ∧
      ∃ stored p, d.requireQueryDocumentForOwner owner = .ok stored ∧
        projectQueryDocument host.codec stored = .ok p ∧
        (∀ entry ∈ childMap stored "views", IsTombstone entry.2) ∧
        rawViewExists stored allViewId = false
  | _ => False

/-! ## Owners -/

variable {host d} {owner : QueryOwner}

theorem queryOwners_eq {operations : List PrimitiveOp} (hne : operations ≠ [])
    (h : ∀ op ∈ operations, op.queryOwner = some owner) : queryOwners operations = [owner] := by
  have hrest (operations : List PrimitiveOp) (h : ∀ op ∈ operations, op.queryOwner = some owner) :
      (operations.filterMap PrimitiveOp.queryOwner).foldl
        (fun owners owner => if owner ∈ owners then owners else owners ++ [owner]) [owner] =
          [owner] := by
    induction operations with
    | nil => rfl
    | cons op operations ih =>
      rw [List.filterMap_cons_some (h op (List.mem_cons_self ..)), List.foldl_cons,
        if_pos (List.mem_singleton_self _)]
      exact ih fun op hop => h op (List.mem_cons_of_mem _ hop)
  cases operations with
  | nil => exact absurd rfl hne
  | cons op operations =>
    unfold queryOwners
    rw [List.filterMap_cons_some (h op (List.mem_cons_self ..)), List.foldl_cons,
      if_neg List.not_mem_nil]
    exact hrest operations fun op hop => h op (List.mem_cons_of_mem _ hop)

/-- Operations on one document are a transition. -/
theorem queryTransition_eq {operations : List PrimitiveOp} (hne : operations ≠ [])
    (h : ∀ op ∈ operations, op.queryOwner = some owner) :
    queryTransition operations = .ok (.new operations) := by
  unfold queryTransition
  rw [queryOwners_eq hne h]
  rfl

/-! ## What is shown -/

/-- What is projected shows the only view of a fresh document exactly where no view is live, or
where one is live under its id. -/
theorem hasView_publishLive {codec : Codec} {views : LoroMap} {requested viewId : QueryViewId}
    {live : List QueryView} (hlive : decodeViews codec (viewDefinition codec) views = .ok live)
    (h : hasView (publishLive requested live).document viewId = true)
    (hraw : (views.get viewId.asStr).isSome = false) : live = [] ∧ viewId = allViewId := by
  obtain ⟨view, hmem, hid⟩ := List.any_eq_true.mp h
  obtain rfl := of_decide_eq_true hid
  have hshown : view ∈ orderedViews live := List.mem_of_mem_take hmem
  by_cases hl : live = []
  · subst hl
    rw [orderedViews_nil] at hshown
    obtain rfl := List.mem_singleton.mp hshown
    exact ⟨rfl, rfl⟩
  · rw [orderedViews_of_ne_nil hl, List.mem_insertionSort] at hshown
    have hkey : view.id.asStr ∈ views.map Prod.fst :=
      (ids_sublist hlive).subset (List.mem_map_of_mem (f := fun v : QueryView => v.id.asStr) hshown)
    obtain ⟨entry, hentry, hname⟩ := List.mem_map.mp hkey
    have hsome : (views.get view.id.asStr).isSome = true :=
      List.lookup_isSome_iff.mpr ⟨entry, hentry, by rw [hname]; exact beq_self_eq_true _⟩
    rw [hraw] at hsome
    cases hsome

theorem decodeViews_eq_nil {codec : Codec} {views : LoroMap} :
    decodeViews codec (viewDefinition codec) views = .ok [] ↔
      ∀ entry ∈ views, IsTombstone entry.2 := by
  unfold decodeViews
  rw [mapM_id_eq_ok, List.map_nil, List.filterMap_eq_nil_iff]
  refine forall₂_congr fun entry _ => ?_
  obtain ⟨raw, stored⟩ := entry
  unfold scanView IsTombstone
  cases stored with
  | map view =>
    dsimp only
    by_cases hdeleted : mapBool view "deleted" = some true
    · rw [if_pos hdeleted]
      exact iff_of_true rfl ⟨view, rfl, hdeleted⟩
    · rw [if_neg hdeleted]
      exact iff_of_false nofun fun ⟨view', hview, h⟩ =>
        hdeleted (by cases hview; exact h)
  | _ => exact iff_of_false nofun nofun

/-! ## Panics -/

/-- A check that is passed on the way to a panic. -/
theorem refused_bind {γ δ : Type} {x : Except CoreError γ} {f : γ → Except Halt δ} :
    (x.mapError .refused >>= f) = .error .panic ↔ ∃ a, x = .ok a ∧ f a = .error .panic := by
  cases x with
  | error e => exact iff_of_false nofun nofun
  | ok a => exact ⟨fun h => ⟨a, rfl, h⟩, fun ⟨_, ha, h⟩ => Except.ok.inj ha ▸ h⟩

theorem queryDocument_ok {document : PropertyDocument} :
    d.queryDocument host owner = .ok document ↔
      ∃ stored p, d.requireQueryDocumentForOwner owner = .ok stored ∧
        projectQueryDocument host.codec stored = .ok p ∧ p.document = document := by
  unfold GraphDoc.queryDocument decodeQueryDocument
  rw [bind_eq_ok]
  refine exists_congr fun stored => ?_
  cases hp : projectQueryDocument host.codec stored with
  | error e => exact iff_of_false nofun nofun
  | ok p =>
    refine ⟨fun ⟨hstored, h⟩ => ⟨p, hstored, rfl, Except.ok.inj h⟩, fun ⟨p', hstored, h, hp⟩ => ?_⟩
    obtain rfl := Except.ok.inj h
    exact ⟨hstored, congrArg _ hp⟩

/-- Without a live view a fresh document is shown. -/
theorem publishLive_nil (requested : QueryViewId) :
    (publishLive requested []).document = .defaultQuery "" := by
  unfold publishLive publish
  rw [orderedViews_nil]
  by_cases h : allViewId = requested
  · subst h
    rfl
  · have hany : (([defaultQueryView ""].take maxQueryViews).any
        fun view => decide (view.id = requested)) = false := by
      simp [maxQueryViews, defaultQueryView, h]
    dsimp only
    rw [hany]
    rfl

/-- A document of one view. -/
def documentOf (view : QueryView) : PropertyDocument :=
  ⟨queryDocumentSchema, queryDocumentVersion, [view], allViewId⟩

/-- The only view of a fresh document is put in its own place. -/
theorem placeView_fallback {view : QueryView} (hid : view.id = allViewId) :
    placeView host (.defaultQuery "") view =
      .ok (documentOf (fallbackView view), none) := by
  obtain ⟨id, name, definition, kind, position, columns, options⟩ := view
  obtain rfl : id = allViewId := hid
  rfl

theorem validate_fallback (view : QueryView) (hid : view.id = allViewId) :
    (documentOf view).validate host.codec = view.validate host.codec := by
  unfold PropertyDocument.validate QueryView.validate PropertyDocument.validateStructure
  dsimp only [documentOf]
  rw [validateViews, validateViews]
  cases view.validateStructure host.codec with
  | error e => rfl
  | ok _ =>
    obtain ⟨id, name, definition, kind, position, columns, options⟩ := view
    obtain rfl : id = allViewId := hid
    rfl

/-- The place of a view that is shown is kept. -/
theorem placeView_ok {document document' : PropertyDocument} {view : QueryView}
    {normalized : Option QueryView} (h : placeView host document view = .ok (document', normalized)) :
    normalized = none ↔ hasView document view.id = true := by
  unfold placeView at h
  by_cases hview : hasView document view.id = true
  · rw [if_pos hview] at h
    cases h
    exact iff_of_true rfl hview
  · rw [if_neg hview] at h
    obtain ⟨view', -, h⟩ := bind_eq_ok.mp h
    cases h
    exact iff_of_false nofun hview

theorem preparePutQueryView_panics {view : QueryView} :
    preparePutQueryView host d owner view = .error .panic ↔
      (QueryCommand.putQueryView owner view).PutsFallback host d := by
  have htransition (definition : Option QueryDefinition) :
      queryTransition [.putQueryView owner ⟨.of view, definition⟩] =
        .ok (.new [.putQueryView owner ⟨.of view, definition⟩]) :=
    queryTransition_eq (List.cons_ne_nil _ _) fun op hop => by
      rw [List.mem_singleton.mp hop]
      rfl
  unfold preparePutQueryView QueryCommand.PutsFallback
  constructor
  · intro h
    obtain ⟨_, howner, h⟩ := refused_bind.mp h
    obtain ⟨document, hdocument, h⟩ := refused_bind.mp h
    obtain ⟨placed, hplace, h⟩ := refused_bind.mp h
    obtain ⟨document', normalized⟩ := placed
    obtain ⟨_, hvalid, h⟩ := refused_bind.mp h
    obtain ⟨stored, hstored, hlast⟩ := refused_bind.mp h
    obtain ⟨stored', p, hstored', hp, rfl⟩ := queryDocument_ok.mp hdocument
    obtain rfl := Except.ok.inj (hstored.symm.trans hstored')
    obtain ⟨views, requested, live, hread, rfl⟩ := publishLive_of_project hp
    have hviews : childMap stored "views" = views := by
      unfold childMap
      rw [hread.entries]
      rfl
    cases hraw : rawViewExists stored view.id with
    | true =>
      rw [hraw] at hlast
      cases (htransition none).symm.trans hlast
    | false =>
      rw [hraw] at hlast
      cases normalized with
      | some normalized => cases (htransition (some normalized.definition)).symm.trans hlast
      | none =>
        have hraw' := hraw
        unfold rawViewExists at hraw'
        rw [hviews] at hraw'
        obtain ⟨rfl, hid⟩ := hasView_publishLive hread.decoded ((placeView_ok hplace).mp rfl) hraw'
        rw [publishLive_nil, placeView_fallback hid] at hplace
        obtain ⟨rfl, -⟩ := Prod.mk.inj (Except.ok.inj hplace)
        rw [queryError, mapError_eq_ok, validate_fallback (fallbackView view) hid]
          at hvalid
        rw [hid] at hraw
        refine ⟨howner, hid, hvalid, stored, _, hstored, hp, ?_, hraw⟩
        rw [hviews]
        exact decodeViews_eq_nil.mp hread.decoded
  · intro ⟨howner, hid, hvalid, stored, p, hstored, hp, hdeleted, hraw⟩
    obtain ⟨views, requested, live, hread, rfl⟩ := publishLive_of_project hp
    have hviews : childMap stored "views" = views := by
      unfold childMap
      rw [hread.entries]
      rfl
    rw [hviews] at hdeleted
    obtain rfl : live = [] :=
      Except.ok.inj (hread.decoded.symm.trans (decodeViews_eq_nil.mpr hdeleted))
    refine refused_bind.mpr ⟨(), howner, refused_bind.mpr ⟨_, queryDocument_ok.mpr
      ⟨stored, _, hstored, hp, publishLive_nil requested⟩, refused_bind.mpr
        ⟨_, placeView_fallback hid, refused_bind.mpr ⟨(), ?_, refused_bind.mpr
          ⟨stored, hstored, ?_⟩⟩⟩⟩⟩
    · rw [queryError, mapError_eq_ok, validate_fallback (fallbackView view) hid]
      exact hvalid
    · rw [hid, hraw]
      rfl

/-- The loop over views lets no id pass twice. -/
theorem nodup_of_validateViews {codec : Codec} {views : List QueryView}
    {seen ids : List QueryViewId} (h : validateViews codec views seen = .ok ids) :
    (views.map QueryView.id).Nodup ∧ ∀ view ∈ views, view.id ∉ seen := by
  induction views generalizing seen with
  | nil => exact ⟨List.nodup_nil, nofun⟩
  | cons view views ih =>
    rw [validateViews] at h
    obtain ⟨_, -, h⟩ := bind_eq_ok.mp h
    by_cases hseen : seen.contains view.id = true
    · rw [if_pos hseen] at h
      cases h
    · rw [if_neg hseen] at h
      obtain ⟨hnodup, hfresh⟩ := ih h
      rw [List.contains_iff_mem] at hseen
      refine ⟨?_, List.forall_mem_cons.mpr ⟨hseen, fun other hother hmem =>
        hfresh other hother (List.mem_cons_of_mem _ hmem)⟩⟩
      rw [List.map_cons, List.nodup_cons]
      refine ⟨fun hmem => ?_, hnodup⟩
      obtain ⟨other, hother, hid⟩ := List.mem_map.mp hmem
      exact hfresh other hother (hid ▸ List.mem_cons_self ..)

theorem nodup_of_validateStructure {codec : Codec} {document : PropertyDocument}
    (h : document.validateStructure codec = .ok ()) :
    document.views ≠ [] ∧ (document.views.map QueryView.id).Nodup := by
  unfold PropertyDocument.validateStructure at h
  by_cases hschema : (document.schema != queryDocumentSchema ||
      document.version != queryDocumentVersion) = true
  · rw [if_pos hschema] at h
    cases h
  rw [if_neg hschema] at h
  by_cases hviews : (document.views.isEmpty ||
      decide (document.views.length > maxQueryViews)) = true
  · simp only [hviews] at h
    cases h
  simp only [hviews] at h
  obtain ⟨ids, hids, -⟩ := bind_eq_ok.mp h
  refine ⟨fun hnil => ?_, (nodup_of_validateViews hids).1⟩
  rw [hnil] at hviews
  exact hviews rfl

/-- Two views of a document that is valid have two ids. -/
theorem exists_other_view {codec : Codec} {document : PropertyDocument} (viewId : QueryViewId)
    (hvalid : document.validateStructure codec = .ok ()) (hlength : document.views.length ≠ 1) :
    ∃ view, (document.views.find? fun view => decide (view.id ≠ viewId)) = some view := by
  obtain ⟨hne, hnodup⟩ := nodup_of_validateStructure hvalid
  cases hfind : document.views.find? fun view => decide (view.id ≠ viewId) with
  | some view => exact ⟨view, rfl⟩
  | none =>
    exfalso
    have hsame (view : QueryView) (hview : view ∈ document.views) : view.id = viewId :=
      not_not.mp fun hother => List.find?_eq_none.mp hfind view hview (decide_eq_true hother)
    cases hviews : document.views with
    | nil => exact hne hviews
    | cons first rest =>
      rw [hviews] at hsame hnodup hlength
      cases rest with
      | nil => exact hlength rfl
      | cons second rest =>
        have hids : second.id = first.id :=
          (hsame second (by simp)).trans (hsame first (by simp)).symm
        rw [List.map_cons, List.nodup_cons, List.map_cons, hids] at hnodup
        exact hnodup.1 (List.mem_cons_self ..)

theorem validateStructure_of_project {codec : Codec} {document : LoroMap}
    {p : ProjectedQueryDocument} (h : projectQueryDocument codec document = .ok p) :
    p.document.validateStructure codec = .ok () := by
  unfold projectQueryDocument projectQueryDocumentWith at h
  obtain ⟨_, _, h⟩ := bind_eq_ok.mp h
  obtain ⟨_, _, h⟩ := bind_eq_ok.mp h
  obtain ⟨_, _, h⟩ := bind_eq_ok.mp h
  obtain ⟨_, _, h⟩ := bind_eq_ok.mp h
  obtain ⟨_, _, h⟩ := bind_eq_ok.mp h
  obtain ⟨_, _, h⟩ := bind_eq_ok.mp h
  obtain ⟨_, _, h⟩ := bind_eq_ok.mp h
  obtain ⟨_, hvalid, h⟩ := bind_eq_ok.mp h
  obtain rfl := pure_eq_ok.mp h
  exact mapError_eq_ok.mp hvalid

/-- A view that may be removed has a successor. -/
theorem prepareRemoveQueryView_not_panics {viewId : QueryViewId} :
    prepareRemoveQueryView host d owner viewId ≠ .error .panic := by
  have htransition (next : Option QueryViewId) :
      queryTransition [.removeQueryView owner viewId next] =
        .ok (.new [.removeQueryView owner viewId next]) :=
    queryTransition_eq (List.cons_ne_nil _ _) fun op hop => by
      rw [List.mem_singleton.mp hop]
      rfl
  intro h
  obtain ⟨_, -, h⟩ := refused_bind.mp h
  obtain ⟨document, hdocument, h⟩ := refused_bind.mp h
  obtain ⟨stored, -, h⟩ := refused_bind.mp h
  obtain ⟨_, p, -, hp, hdoc⟩ := queryDocument_ok.mp hdocument
  have hvalid := validateStructure_of_project hp
  rw [hdoc] at hvalid
  dsimp only at h
  by_cases hmissing : (!hasView document viewId && !rawViewExists stored viewId) = true
  · rw [if_pos hmissing] at h
    cases h
  rw [if_neg hmissing] at h
  by_cases honly : (hasView document viewId && decide (document.views.length = 1)) = true
  · simp only [honly] at h
    cases h
  simp only [honly] at h
  by_cases hdefault : (hasView document viewId &&
      decide (document.defaultViewId = viewId)) = true
  · simp only [hdefault] at h
    have hlength : document.views.length ≠ 1 := by
      intro hlength
      rw [Bool.and_eq_true] at hdefault honly
      exact honly ⟨hdefault.1, decide_eq_true hlength⟩
    obtain ⟨view, hview⟩ := exists_other_view viewId hvalid hlength
    rw [hview] at h
    cases (htransition (some view.id)).symm.trans h
  · simp only [hdefault] at h
    cases (htransition none).symm.trans h

theorem definition_checkedQuerySourceTarget {definition : QueryDefinitionTarget} {source : String}
    {index delete bytes : Nat} {target : QuerySourceTarget}
    (h : checkedQuerySourceTarget definition source index delete bytes = .ok target) :
    target.definition = definition := by
  unfold checkedQuerySourceTarget at h
  by_cases hrange : index + delete > source.length
  · rw [if_pos hrange] at h
    cases h
  rw [if_neg hrange] at h
  by_cases hbytes : source.utf8ByteSize - utf8Len ((source.toList.drop index).take delete) + bytes >
      maxQuerySourceBytes
  · simp only [hbytes] at h
    cases h
  · simp only [hbytes] at h
    cases h
    rfl

/-- The operations of a command write the document of its owner. -/
theorem queryOwner_of_lower {command : QueryCommand} {operations : List PrimitiveOp}
    (h : lower host d command.intent = .ok operations) :
    operations ≠ [] ∧ ∀ op ∈ operations, op.queryOwner = some command.owner := by
  have hinit (missing : Bool) (owner : QueryOwner) (operations : List PrimitiveOp)
      (hne : operations ≠ []) (hops : ∀ op ∈ operations, op.queryOwner = some owner) :
      initializing missing owner operations ≠ [] ∧
        ∀ op ∈ initializing missing owner operations, op.queryOwner = some owner := by
    cases missing with
    | false => exact ⟨hne, hops⟩
    | true => exact ⟨List.cons_ne_nil _ _, List.forall_mem_cons.mpr ⟨rfl, hops⟩⟩
  cases command with
  | setQuerySource owner viewId source =>
    obtain ⟨missing, -, h⟩ := bind_eq_ok.mp h
    by_cases hlong : source.utf8ByteSize > maxQuerySourceBytes
    · rw [if_pos hlong] at h
      cases h
    rw [if_neg hlong] at h
    cases h
    exact hinit missing owner _ (List.cons_ne_nil _ _) (by simp [PrimitiveOp.queryOwner])
  | setQueryPlan owner viewId plan =>
    obtain ⟨missing, -, h⟩ := bind_eq_ok.mp h
    obtain ⟨_, -, h⟩ := bind_eq_ok.mp h
    obtain ⟨_, -, h⟩ := bind_eq_ok.mp h
    cases h
    exact hinit missing owner _ (List.cons_ne_nil _ _) (by simp [PrimitiveOp.queryOwner])
  | spliceQuerySource owner viewId index delete insert =>
    obtain ⟨_, -, h⟩ := bind_eq_ok.mp h
    obtain ⟨document, -, h⟩ := bind_eq_ok.mp h
    obtain ⟨view, -, h⟩ := bind_eq_ok.mp h
    by_cases hplan : view.definition.plan.isSome = true
    · rw [if_pos hplan] at h
      cases h
    rw [if_neg hplan] at h
    obtain ⟨splice, hsplice, h⟩ := bind_eq_ok.mp h
    cases h
    refine ⟨List.cons_ne_nil _ _, List.forall_mem_cons.mpr ⟨?_, by simp [PrimitiveOp.queryOwner,
      QueryCommand.owner]⟩⟩
    show some splice.definition.owner = some owner
    rw [definition_checkedQuerySourceTarget hsplice]
  | putQueryView owner view =>
    obtain ⟨_, -, h⟩ := bind_eq_ok.mp h
    obtain ⟨document, -, h⟩ := bind_eq_ok.mp h
    obtain ⟨placed, -, h⟩ := bind_eq_ok.mp h
    obtain ⟨_, -, h⟩ := bind_eq_ok.mp h
    obtain ⟨stored, -, h⟩ := bind_eq_ok.mp h
    cases h
    exact ⟨List.cons_ne_nil _ _, by simp [PrimitiveOp.queryOwner, QueryCommand.owner]⟩
  | removeQueryView owner viewId =>
    obtain ⟨_, -, h⟩ := bind_eq_ok.mp h
    obtain ⟨document, -, h⟩ := bind_eq_ok.mp h
    obtain ⟨stored, -, h⟩ := bind_eq_ok.mp h
    dsimp only at h
    by_cases hmissing : (!hasView document viewId && !rawViewExists stored viewId) = true
    · rw [if_pos hmissing] at h
      cases h
    rw [if_neg hmissing] at h
    by_cases honly : (hasView document viewId && decide (document.views.length = 1)) = true
    · simp only [honly] at h
      cases h
    simp only [honly] at h
    cases h
    exact ⟨List.cons_ne_nil _ _, by simp [PrimitiveOp.queryOwner, QueryCommand.owner]⟩
  | setQueryDefaultView owner viewId =>
    obtain ⟨_, -, h⟩ := bind_eq_ok.mp h
    obtain ⟨document, -, h⟩ := bind_eq_ok.mp h
    by_cases hview : (!hasView document viewId) = true
    · rw [if_pos hview] at h
      cases h
    rw [if_neg hview] at h
    cases h
    exact ⟨List.cons_ne_nil _ _, by simp [PrimitiveOp.queryOwner, QueryCommand.owner]⟩

/-- The only command that the code answers with a panic puts the view that is shown where every
stored view is deleted. -/
theorem prepareQueryCommand_panics (command : QueryCommand) :
    prepareQueryCommand host d command ≠ .error .panic ↔ ¬command.PutsFallback host d := by
  have hother {command : QueryCommand} (h : ¬command.PutsFallback host d) :
      (do
        let operations ← (lower host d command.intent).mapError Halt.refused
        queryTransition operations) ≠ .error .panic ↔ ¬command.PutsFallback host d := by
    refine iff_of_true (fun hpanic => ?_) h
    obtain ⟨operations, hlower, hpanic⟩ := refused_bind.mp hpanic
    obtain ⟨hne, hops⟩ := queryOwner_of_lower hlower
    cases (queryTransition_eq hne hops).symm.trans hpanic
  cases command with
  | putQueryView owner view => exact not_congr preparePutQueryView_panics
  | removeQueryView owner viewId => exact iff_of_true prepareRemoveQueryView_not_panics id
  | setQuerySource owner viewId source => exact hother id
  | spliceQuerySource owner viewId index delete insert => exact hother id
  | setQueryPlan owner viewId plan => exact hother id
  | setQueryDefaultView owner viewId => exact hother id

/-! ## A panic -/

def viewsId : DefaultQueryId := ⟨"query", by decide⟩

/-- A default query both of whose views two replicas have removed. -/
def removedViews : GraphDoc where
  graphId := ⟨"graph", graph_valid⟩
  defaultQueries := (∅ : BTreeMap DefaultQueryId DefaultQueryEntry).insert viewsId
    ⟨some "Query", some 0, some false,
      some (sampleDocument [("a", sampleView "A" 0 true), ("b", sampleView "B" 0 true)])⟩
  entities := ∅

theorem putQueryView_panics : ∃ stored p,
    removedViews.validateQueryOwner (.graphDefault viewsId) = .ok () ∧
    removedViews.requireQueryDocumentForOwner (.graphDefault viewsId) = .ok stored ∧
    projectQueryDocument sampleHost.codec stored = .ok p ∧
    hasView p.document allViewId = true ∧ rawViewExists stored allViewId = false ∧
    prepareQueryCommand sampleHost removedViews
      (.putQueryView (.graphDefault viewsId) (defaultQueryView "")) = .error .panic :=
  ⟨_, _, rfl, rfl, rfl, rfl, rfl, rfl⟩

end Neoseq.Core
