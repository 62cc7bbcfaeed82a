import Neoseq.Causal.Reported

/-! The validators of the stored document do not look into trees: only the blocks of an
outline are read from one, node by node. -/

namespace Neoseq.Causal
open Domain Document Neoseq.Core Content

variable (host : Storage)

/-! ## Reading -/

@[simp] theorem intoString_bare (s : Stored) : (bare s).intoString = s.intoString := by
  cases s <;> rfl

@[simp] theorem intoText_bare (s : Stored) : (bare s).intoText = s.intoText := by
  cases s <;> rfl

@[simp] theorem intoDelta_bare (s : Stored) : (bare s).intoDelta = s.intoDelta := by
  cases s <;> rfl

@[simp] theorem intoMap_bare (s : Stored) : (bare s).intoMap = s.intoMap.map bareMap := by
  cases s <;> rfl

@[simp] theorem intoTree_bare (s : Stored) :
    (bare s).intoTree = s.intoTree.map fun _ => [] := by
  cases s <;> rfl

@[simp] theorem mapString_bareMap (m : LoroMap) (key : String) :
    mapString (bareMap m) key = mapString m key := by
  unfold mapString
  rw [get_bareMap]
  cases m.get key with
  | none => rfl
  | some s => exact intoString_bare s

@[simp] theorem mapI64_bareMap (m : LoroMap) (key : String) :
    mapI64 (bareMap m) key = mapI64 m key := by
  unfold mapI64
  rw [get_bareMap]
  cases m.get key with
  | none => rfl
  | some s => cases s <;> rfl

@[simp] theorem mapBool_bareMap (m : LoroMap) (key : String) :
    mapBool (bareMap m) key = mapBool m key := by
  unfold mapBool
  rw [get_bareMap]
  cases m.get key with
  | none => rfl
  | some s => cases s <;> rfl

@[simp] theorem mapU32_bareMap (m : LoroMap) (key : String) :
    mapU32 (bareMap m) key = mapU32 m key := by
  unfold mapU32
  rw [mapI64_bareMap]

@[simp] theorem map_bind {ε γ γ' δ : Type} (x : Except ε γ) (g : γ → γ') (f : γ' → Except ε δ) :
    (x.map g >>= f) = x >>= fun a => f (g a) := by
  cases x <;> rfl

@[simp] theorem ok_bind {ε γ δ : Type} (a : γ) (f : γ → Except ε δ) :
    ((Except.ok a : Except ε γ) >>= f) = f a := rfl

@[simp] theorem requiredMap_bare (value : Option Stored) (label : String) :
    requiredMap (value.map bare) label = (requiredMap value label).map bareMap := by
  cases value with
  | none => rfl
  | some s => cases s <;> rfl

@[simp] theorem requiredChildMap_bareMap (m : LoroMap) (key label : String) :
    requiredChildMap (bareMap m) key label = (requiredChildMap m key label).map bareMap := by
  unfold requiredChildMap
  rw [get_bareMap, requiredMap_bare]

@[simp] theorem requiredChildTree_bareMap (m : LoroMap) (key label : String) :
    requiredChildTree (bareMap m) key label =
      (requiredChildTree m key label).map fun _ => [] := by
  unfold requiredChildTree
  rw [get_bareMap]
  cases m.get key with
  | none => rfl
  | some s => cases s <;> rfl

@[simp] theorem requiredChildText_bareMap (m : LoroMap) (key label : String) :
    requiredChildText (bareMap m) key label = requiredChildText m key label := by
  unfold requiredChildText
  rw [get_bareMap]
  cases m.get key with
  | none => rfl
  | some s => cases s <;> rfl

/-! ## Query documents -/

@[simp] theorem decodeQueryPlanState_bareMap (definition : LoroMap) (label : String) :
    decodeQueryPlanState host (bareMap definition) label =
      decodeQueryPlanState host definition label := by
  unfold decodeQueryPlanState
  rw [get_bareMap, get_bareMap, get_bareMap]
  cases definition.get queryPlanStateKey with
  | some value => simp
  | none =>
    cases definition.get "plan_version" with
    | none => cases definition.get "plan" <;> rfl
    | some version =>
      cases definition.get "plan" with
      | none => cases version <;> rfl
      | some plan => cases version <;> cases plan <;> rfl

@[simp] theorem validateQueryDefinition_bareMap (definition : LoroMap) (label : String) :
    validateQueryDefinition host (bareMap definition) label =
      validateQueryDefinition host definition label := by
  simp [validateQueryDefinition]

@[simp] theorem validateQueryView_bareMap (views : LoroMap) (label rawId : String) :
    validateQueryView host (bareMap views) label rawId =
      validateQueryView host views label rawId := by
  simp [validateQueryView]

@[simp] theorem validateQueryDocument_bareMap (document : LoroMap) (label : String) :
    validateQueryDocument host (bareMap document) label =
      validateQueryDocument host document label := by
  have hview : ∀ views, validateQueryView host (bareMap views) label =
      validateQueryView host views label :=
    fun views => funext fun rawId => validateQueryView_bareMap host views label rawId
  simp [validateQueryDocument, hview]

/-! ## Property bags -/

@[simp] theorem storedPropertyShape_bareMap (field : LoroMap) (label : String) :
    storedPropertyShape host (bareMap field) label = storedPropertyShape host field label := by
  simp [storedPropertyShape]

@[simp] theorem validateStoredPropertyValue_bare (value : Stored) (key : PropertyKey)
    (shape : StoredPropertyShape) (label : String) :
    validateStoredPropertyValue host (bare value) key shape label =
      validateStoredPropertyValue host value key shape label := by
  simp [validateStoredPropertyValue]

@[simp] theorem validatePayload_bareMap (field : LoroMap) (key : PropertyKey)
    (shape : StoredPropertyShape) (label : String) :
    validatePayload host (bareMap field) key shape label =
      validatePayload host field key shape label := by
  unfold validatePayload
  split
  · simp
  · rw [get_bareMap]
    cases field.get "single" with
    | none => rfl
    | some value => simp
  · simp only [requiredChildMap_bareMap, map_bind, keys_bareMap, get_bareMap]
    refine congrArg _ (funext fun values => congrArg (checkAll · (keys values)) ?_)
    funext member
    cases LoroMap.get values member with
    | none => rfl
    | some value => simp [orElse]

@[simp] theorem validateField_bareMap (properties : LoroMap) (owner rawKey : String) :
    validateField host (bareMap properties) owner rawKey =
      validateField host properties owner rawKey := by
  simp [validateField]

@[simp] theorem validatePropertyBag_bareMap (properties : LoroMap) (owner : String) :
    validatePropertyBag host (bareMap properties) owner =
      validatePropertyBag host properties owner := by
  have hfield : validateField host (bareMap properties) owner =
      validateField host properties owner :=
    funext fun rawKey => validateField_bareMap host properties owner rawKey
  simp [validatePropertyBag, hfield]

@[simp] theorem validateSingleStringProperty_bareMap (properties : LoroMap) (key : PropertyKey)
    (required : Bool) (owner : String) :
    validateSingleStringProperty host (bareMap properties) key required owner =
      validateSingleStringProperty host properties key required owner := by
  unfold validateSingleStringProperty
  rw [get_bareMap]
  cases properties.get key.asStr with
  | none => rfl
  | some s => cases s <;> simp [Stored.intoMap, bare]

@[simp] theorem validateLifecycle_bareMap (properties : LoroMap) (deletable : Bool)
    (owner : String) :
    validateLifecycle host (bareMap properties) deletable owner =
      validateLifecycle host properties deletable owner := by
  simp [validateLifecycle]

/-! ## Records -/

@[simp] theorem validateTagReferences_bareMap (tagRefs : LoroMap) (owner : String) :
    validateTagReferences (bareMap tagRefs) owner = validateTagReferences tagRefs owner := by
  simp [validateTagReferences]

@[simp] theorem validateEntityFields_bareMap (record : LoroMap) :
    validateEntityFields host (bareMap record) = validateEntityFields host record := by
  unfold validateEntityFields
  rw [get_bareMap, get_bareMap]
  cases record.get "defaults" with
  | none => simp
  | some s => cases s <;> simp [bare, requiredMap, orElse, Stored.intoMap, Except.mapError]

@[simp] theorem pageRegister_bareMap (page : LoroMap) (label : String) :
    pageRegister (bareMap page) label = pageRegister page label := by
  unfold pageRegister
  rw [get_bareMap]
  cases page.get "name" with
  | none => rfl
  | some s => cases s <;> rfl

theorem bind_map {ε γ δ δ' : Type} (x : Except ε γ) (f : γ → Except ε δ) (g : δ → δ') :
    (x >>= f).map g = x >>= fun a => (f a).map g := by
  cases x <;> rfl

theorem validatePageHeader_bareMap (pageId : PageId) (page : LoroMap) :
    validatePageHeader host pageId (bareMap page) =
      (validatePageHeader host pageId page).map fun _ => [] := by
  simp only [validatePageHeader, bind_map, requiredChildMap_bareMap, map_bind,
    requiredChildText_bareMap, pageRegister_bareMap, validateTagReferences_bareMap,
    validatePropertyBag_bareMap, validateLifecycle_bareMap, validateSingleStringProperty_bareMap,
    requiredChildTree_bareMap]
  repeat refine bind_congr fun _ => ?_
  split <;> simp [bind_map]

theorem validateTagHeader_bareMap (tagId : TagId) (tag : LoroMap) :
    validateTagHeader host tagId (bareMap tag) =
      (validateTagHeader host tagId tag).map fun _ => [] := by
  simp [validateTagHeader, bind_map]

theorem validateHeader_bareMap (home : Home) (rawId : String) (records : LoroMap) :
    validateHeader host home rawId (bareMap records) =
      (validateHeader host home rawId records).map fun header => ([], header.2) := by
  cases home <;>
    simp only [validateHeader, bind_map, map_bind, get_bareMap, requiredMap_bare,
      validateEntityFields_bareMap, validateTagHeader_bareMap, validatePageHeader_bareMap] <;>
    rfl

theorem validateHeader_of_get {home : Home} {rawId : String} {records records' : LoroMap}
    (h : records.get rawId = records'.get rawId) :
    validateHeader host home rawId records = validateHeader host home rawId records' := by
  cases home <;> simp [validateHeader, h]

/-- The header of a record depends on the record without its blocks. -/
theorem validateHeader_congr {home : Home} {rawId : String} {records records' : LoroMap}
    (hb : (records.get rawId).map bare = (records'.get rawId).map bare)
    {header : List (TreeNode LoroMap) × String}
    (h : validateHeader host home rawId records = .ok header) :
    ∃ nodes, validateHeader host home rawId records' = .ok (nodes, header.2) := by
  have hbare : validateHeader host home rawId (bareMap records) =
      validateHeader host home rawId (bareMap records') := by
    apply validateHeader_of_get
    rw [get_bareMap, get_bareMap, hb]
  rw [validateHeader_bareMap, validateHeader_bareMap, h] at hbare
  cases h' : validateHeader host home rawId records' with
  | error e =>
    rw [h'] at hbare
    cases hbare
  | ok header' =>
    rw [h'] at hbare
    exact ⟨header'.1, congrArg Except.ok (Prod.ext rfl (Prod.mk.inj (Except.ok.inj hbare)).2.symm)⟩

theorem tree_of_required {m : LoroMap} {key label : String} {nodes : List (TreeNode LoroMap)}
    (h : requiredChildTree m key label = .ok nodes) : m.get key = some (.tree nodes) := by
  obtain ⟨value, hv, htree⟩ := Option.bind_eq_some_iff.mp (orElse_eq_ok.mp h)
  cases value with
  | tree entries => rw [hv, Option.some.inj htree]
  | _ => cases htree

theorem outline_of_tagHeader {tagId : TagId} {tag : LoroMap} {nodes : List (TreeNode LoroMap)}
    (h : validateTagHeader host tagId tag = .ok nodes) :
    tag.get "outline" = some (.tree nodes) := by
  obtain ⟨_, _, h⟩ := bind_eq_ok.mp h
  obtain ⟨_, _, h⟩ := bind_eq_ok.mp h
  obtain ⟨_, _, h⟩ := bind_eq_ok.mp h
  obtain ⟨_, _, h⟩ := bind_eq_ok.mp h
  obtain ⟨_, _, h⟩ := bind_eq_ok.mp h
  obtain ⟨_, _, h⟩ := bind_eq_ok.mp h
  obtain ⟨_, _, h⟩ := bind_eq_ok.mp h
  exact tree_of_required h

theorem outline_of_pageHeader {pageId : PageId} {page : LoroMap} {nodes : List (TreeNode LoroMap)}
    (h : validatePageHeader host pageId page = .ok nodes) :
    page.get "outline" = some (.tree nodes) := by
  obtain ⟨_, _, h⟩ := bind_eq_ok.mp h
  obtain ⟨_, _, h⟩ := bind_eq_ok.mp h
  obtain ⟨_, _, h⟩ := bind_eq_ok.mp h
  obtain ⟨_, _, h⟩ := bind_eq_ok.mp h
  obtain ⟨_, _, h⟩ := bind_eq_ok.mp h
  obtain ⟨_, _, h⟩ := bind_eq_ok.mp h
  obtain ⟨_, _, h⟩ := bind_eq_ok.mp h
  obtain ⟨_, _, h⟩ := bind_eq_ok.mp h
  obtain ⟨_, _, h⟩ := bind_eq_ok.mp h
  obtain ⟨_, _, h⟩ := bind_eq_ok.mp h
  split at h
  · obtain ⟨_, _, h⟩ := bind_eq_ok.mp h
    obtain ⟨_, _, h⟩ := bind_eq_ok.mp h
    exact tree_of_required h
  · obtain ⟨_, _, h⟩ := bind_eq_ok.mp h
    exact tree_of_required h

/-- The outline of a record that has a header. -/
theorem outline_of_header {home : Home} {rawId : String} {records : LoroMap}
    {header : List (TreeNode LoroMap) × String}
    (h : validateHeader host home rawId records = .ok header) :
    header.2 = ownerLabel home rawId ∧ ∃ record : LoroMap,
      records.get rawId = some (.map record) ∧ record.get "outline" = some (.tree header.1) := by
  cases home with
  | tags =>
    obtain ⟨tagId, hid, h⟩ := bind_eq_ok.mp h
    obtain ⟨tag, htag, h⟩ := bind_eq_ok.mp h
    obtain ⟨_, _, h⟩ := bind_eq_ok.mp h
    obtain ⟨outline, houtline, h⟩ := bind_eq_ok.mp h
    obtain rfl := Except.ok.inj h
    obtain rfl := asStr_of_new (mapError_eq_ok.mp hid)
    exact ⟨rfl, tag, child_eq_some.mp (orElse_eq_ok.mp htag), outline_of_tagHeader host houtline⟩
  | entities =>
    obtain ⟨pageId, hid, h⟩ := bind_eq_ok.mp h
    obtain ⟨page, hpage, h⟩ := bind_eq_ok.mp h
    obtain ⟨_, _, h⟩ := bind_eq_ok.mp h
    obtain ⟨outline, houtline, h⟩ := bind_eq_ok.mp h
    obtain rfl := Except.ok.inj h
    obtain rfl := asStr_of_new (mapError_eq_ok.mp hid)
    exact ⟨rfl, page, child_eq_some.mp (orElse_eq_ok.mp hpage), outline_of_pageHeader host houtline⟩
  | pages =>
    obtain ⟨pageId, hid, h⟩ := bind_eq_ok.mp h
    obtain ⟨page, hpage, h⟩ := bind_eq_ok.mp h
    obtain ⟨_, _, h⟩ := bind_eq_ok.mp h
    obtain ⟨outline, houtline, h⟩ := bind_eq_ok.mp h
    obtain rfl := Except.ok.inj h
    obtain rfl := asStr_of_new (mapError_eq_ok.mp hid)
    exact ⟨rfl, page, child_eq_some.mp (orElse_eq_ok.mp hpage), outline_of_pageHeader host houtline⟩

/-! ## The graph -/

theorem validateMetadata_congr {doc doc' : LoroDoc}
    (hb : bareMap doc.metadata = bareMap doc'.metadata) (graphId : GraphId) :
    validateMetadata doc graphId = validateMetadata doc' graphId := by
  unfold validateMetadata
  rw [← mapString_bareMap, ← mapI64_bareMap, hb, mapString_bareMap, mapI64_bareMap]

@[simp] theorem validateDefaultQuery_bareMap (queries : LoroMap) (rawId : String) :
    validateDefaultQuery host (bareMap queries) rawId =
      validateDefaultQuery host queries rawId := by
  simp [validateDefaultQuery]

/-- The settings as a map on its own. -/
def validateSettingsMap (settings : LoroMap) : Except CoreError Unit := do
  refuse (mapI64 settings "schema_version" ≠ some graphSettingsSchemaVersion)
    (.invalidHierarchy "graph settings schema is missing or unsupported")
  let queries ← requiredChildMap settings "default_queries" "graph default queries"
  checkAll (validateDefaultQuery host queries) (keys queries)

theorem validateSettingsMap_bareMap (settings : LoroMap) :
    validateSettingsMap host (bareMap settings) = validateSettingsMap host settings := by
  have hquery : ∀ queries, validateDefaultQuery host (bareMap queries) =
      validateDefaultQuery host queries :=
    fun queries => funext fun rawId => validateDefaultQuery_bareMap host queries rawId
  simp [validateSettingsMap, hquery]

theorem validateGraphSettings_congr {doc doc' : LoroDoc}
    (hb : bareMap doc.graphSettings = bareMap doc'.graphSettings) :
    validateGraphSettings host doc = validateGraphSettings host doc' := by
  show validateSettingsMap host doc.graphSettings = validateSettingsMap host doc'.graphSettings
  rw [← validateSettingsMap_bareMap, hb, validateSettingsMap_bareMap]

/-! ## Blocks -/

/-- What is required of the metadata of a block. -/
def validateNodeData (doc : LoroDoc) (owner : String) (id : TreeId) (data : LoroMap) :
    Except CoreError Unit := do
  let label := owner ++ ": block " ++ id.asStr
  let content ← requiredChildText data "content" (label ++ " content")
  let properties ← requiredChildMap data "properties" (label ++ " properties")
  let tagRefs ← requiredChildMap data "tag_refs" (label ++ " tag references")
  validatePropertyBag host properties (label ++ " properties")
  let _ ← validateLifecycle host properties false label
  validateTagReferences tagRefs label
  validateInlinePageReferences doc content owner

theorem validateNodeData_bareMap (doc : LoroDoc) (owner : String) (id : TreeId) (data : LoroMap) :
    validateNodeData host doc owner id (bareMap data) =
      validateNodeData host doc owner id data := by
  simp [validateNodeData]

theorem validateOutlineNode_eq {doc : LoroDoc} {outline : List (TreeNode LoroMap)} {owner : String}
    {id : TreeId} {n : TreeNode LoroMap} (hn : outline.find? (fun n => n.id = id) = some n) :
    validateOutlineNode host doc outline owner id =
      if n.data.isEmpty && n.deleted then .ok () else validateNodeData host doc owner id n.data := by
  unfold validateOutlineNode
  rw [hn]
  rfl

theorem validateSegment_mono {doc doc' : LoroDoc}
    (hc : ∀ id, doc.contains id = true → doc'.contains id = true) {owner : String}
    {segment : TextDelta} (h : validateSegment doc owner segment = .ok ()) :
    validateSegment doc' owner segment = .ok () := by
  match segment with
  | .insert insert (some (.string raw)) =>
    obtain ⟨pageId, hid, h⟩ := bind_eq_ok.mp h
    refine bind_eq_ok.mpr ⟨pageId, hid, refuse_eq_ok.mpr fun hrefused => refuse_eq_ok.mp h ?_⟩
    refine hrefused.imp_left fun hmissing => ?_
    by_contra hthere
    rw [Bool.not_eq_false] at hthere
    rw [hc pageId hthere] at hmissing
    cases hmissing
  | .insert _ (some .other) => exact h
  | .insert _ none => exact h
  | .retain => exact h
  | .delete => exact h

/-- A document with every record of another accepts what the other does. -/
theorem validateNodeData_mono {doc doc' : LoroDoc}
    (hc : ∀ id, doc.contains id = true → doc'.contains id = true) {owner : String} {id : TreeId}
    {data : LoroMap} {u : Unit} (h : validateNodeData host doc owner id data = .ok u) :
    validateNodeData host doc' owner id data = .ok () := by
  obtain ⟨content, hcontent, h⟩ := bind_eq_ok.mp h
  obtain ⟨properties, hproperties, h⟩ := bind_eq_ok.mp h
  obtain ⟨tagRefs, htagRefs, h⟩ := bind_eq_ok.mp h
  obtain ⟨_, hbag, h⟩ := bind_eq_ok.mp h
  obtain ⟨deleted, hlifecycle, h⟩ := bind_eq_ok.mp h
  obtain ⟨_, hrefs, h⟩ := bind_eq_ok.mp h
  refine bind_eq_ok.mpr ⟨content, hcontent, bind_eq_ok.mpr ⟨properties, hproperties,
    bind_eq_ok.mpr ⟨tagRefs, htagRefs, bind_eq_ok.mpr ⟨_, hbag, bind_eq_ok.mpr ⟨deleted, hlifecycle,
      bind_eq_ok.mpr ⟨_, hrefs, checkAll_eq_ok.mpr fun segment hsegment => ?_⟩⟩⟩⟩⟩⟩
  exact validateSegment_mono hc (checkAll_eq_ok.mp h segment hsegment)

end Neoseq.Causal
