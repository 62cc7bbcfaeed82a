import Neoseq.Causal.Current
import Neoseq.Causal.Iris

/-! Cloning a graph under a new identity. The IRIs in stored query sources name their
graph, so they are rewritten home by home before the copy is exported. -/

namespace Neoseq.Causal
open Domain Document Neoseq.Core Query

/-! ## Changing a part of a map -/

/-- The value under a key, changed in place. -/
def mapEntry (m : LoroMap) (key : String) (f : Stored → Stored) : LoroMap :=
  m.map fun e => if e.1 = key then (e.1, f e.2) else e

def onMap (f : LoroMap → LoroMap) : Stored → Stored
  | .map entries => .map (f entries)
  | s => s

def onTree (f : TreeNode LoroMap → TreeNode LoroMap) : Stored → Stored
  | .tree nodes => .tree (nodes.map f)
  | s => s

/-- The child map under a key, changed in place. -/
def mapChild (m : LoroMap) (key : String) (f : LoroMap → LoroMap) : LoroMap :=
  mapEntry m key (onMap f)

theorem get_map (m : LoroMap) (f : Stored → Stored) (key : String) :
    LoroMap.get (m.map fun e => (e.1, f e.2)) key = (m.get key).map f := by
  unfold LoroMap.get
  induction m with
  | nil => rfl
  | cons e rest ih =>
    rw [List.map_cons, List.lookup_cons, List.lookup_cons, ih]
    cases key == e.1 <;> rfl

theorem get_mapEntry (m : LoroMap) (key key' : String) (f : Stored → Stored) :
    (mapEntry m key f).get key' = if key' = key then (m.get key').map f else m.get key' := by
  unfold mapEntry LoroMap.get
  induction m with
  | nil => simp
  | cons e rest ih =>
    rw [List.map_cons, List.lookup_cons, List.lookup_cons, ih]
    by_cases he : e.1 = key
    · by_cases hk : key' = key
      · subst hk
        simp [he]
      · simp [he, hk, beq_false_of_ne hk]
    · by_cases hk : key' = e.1
      · subst hk
        simp [he]
      · simp [he, beq_false_of_ne hk]

theorem get_mapEntry_ne {m : LoroMap} {key key' : String} (h : key' ≠ key) (f : Stored → Stored) :
    (mapEntry m key f).get key' = m.get key' := by
  rw [get_mapEntry, if_neg h]

theorem intoMap_onMap (f : LoroMap → LoroMap) (s : Stored) :
    (onMap f s).intoMap = s.intoMap.map f := by
  cases s <;> rfl

theorem child_mapChild (m : LoroMap) (key : String) (f : LoroMap → LoroMap) :
    child (mapChild m key f) key = (child m key).map f := by
  unfold child mapChild
  rw [get_mapEntry, if_pos rfl]
  cases m.get key with
  | none => rfl
  | some s => exact intoMap_onMap f s

theorem child_mapEntry_ne {m : LoroMap} {key key' : String} (h : key' ≠ key)
    (f : Stored → Stored) : child (mapEntry m key f) key' = child m key' := by
  unfold child
  rw [get_mapEntry_ne h]

theorem child_mapChild_ne {m : LoroMap} {key key' : String} (h : key' ≠ key)
    (f : LoroMap → LoroMap) : child (mapChild m key f) key' = child m key' :=
  child_mapEntry_ne h _

/-! ## The rewriting -/

variable (host : Storage)

section

variable (source target : GraphId)

def rewriteSource (s : Stored) : Stored :=
  match s.intoText with
  | some current =>
    if rewriteText source target current ≠ current then .text (rewriteText source target current)
    else s
  | none => s

def rewriteView (view : LoroMap) : LoroMap :=
  mapChild view "definition" fun definition =>
    mapEntry definition "source" (rewriteSource source target)

/-- `rewrite_query_document_iris`. -/
def rewriteQueryDocument (document : LoroMap) : LoroMap :=
  if mapString document "schema" ≠ some queryDocumentSchema ∨
      mapI64 document "version" ≠ some (queryDocumentVersion : Int) then document
  else
    mapChild document "views" fun views =>
      views.map fun e => (e.1, onMap (rewriteView source target) e.2)

/-- The query document of a bag, where it has one. -/
def rewriteBag (bag : LoroMap) : LoroMap :=
  if (queryDocumentFromBag host bag).isSome then
    mapChild bag queryKey.asStr fun field =>
      mapChild field "document" (rewriteQueryDocument source target)
  else bag

def rewriteBags (container : LoroMap) : LoroMap :=
  mapChild (mapChild container "properties" (rewriteBag host source target)) "defaults"
    (rewriteBag host source target)

def rewriteNode (node : TreeNode LoroMap) : TreeNode LoroMap :=
  { node with data := mapChild node.data "properties" (rewriteBag host source target) }

/-- The bags of the root, those of the record, and those of its blocks. The root of
the oldest tags is the record. -/
def rewriteRecord (record : LoroMap) : LoroMap :=
  let record := match child record "root" with
    | some _ => mapChild record "root" (rewriteBags host source target)
    | none => rewriteBags host source target record
  mapEntry (rewriteBags host source target record) "outline"
    (onTree (rewriteNode host source target))

def rewriteRecords (records : LoroMap) : LoroMap :=
  records.map fun e => (e.1, onMap (rewriteRecord host source target) e.2)

/-- One turn of the loop over the published default queries. -/
def rewriteDefaultQuery (doc : LoroDoc) (id : DefaultQueryId) : Except CoreError LoroDoc := do
  let queries ← defaultQueriesMap doc
  let entry ← orElse (child queries id.asStr) (.invalidHierarchy "default query is missing")
  let _ ← orElse (child entry "document")
    (.invalidHierarchy "default query document is missing")
  return { doc with
    graphSettings := mapChild doc.graphSettings "default_queries" fun queries =>
      mapChild queries id.asStr fun entry =>
        mapChild entry "document" (rewriteQueryDocument source target) }

def rewriteDefaultQueries : List DefaultQueryId → LoroDoc → Except CoreError LoroDoc
  | [], doc => .ok doc
  | id :: rest, doc => do
    let doc ← rewriteDefaultQuery source target doc id
    rewriteDefaultQueries rest doc

def rewriteGraphScopedQueryIris (doc : LoroDoc) : Except CoreError LoroDoc := do
  let doc : LoroDoc := { doc with
    entities := rewriteRecords host source target doc.entities
    pages := rewriteRecords host source target doc.pages
    tags := rewriteRecords host source target doc.tags }
  let settings ← projectGraphSettings host doc
  rewriteDefaultQueries source target (settings.1.map DefaultQuerySnapshot.id) doc

/-- `export_clone_snapshot` up to the encoding of the result. The baseline that is
copied has every container that is not deleted. -/
def exportCloneSnapshot (doc : LoroDoc) : Except CoreError LoroDoc := do
  refuse (target = source) .cloneTargetMatchesSource
  let doc ← rewriteGraphScopedQueryIris host source target doc
  let doc : LoroDoc :=
    { doc with metadata := doc.metadata.insert "graph_id" (.string target.asStr) }
  verifySchema host doc target
  validateEntityNames host doc
  return doc

end

/-! ## Where query sources are stored -/

/-- What a query document belongs to. -/
inductive QueryHome where
  | properties (home : Home) (id : String)
  | defaults (home : Home) (id : String)
  | block (home : Home) (id : String) (node : TreeId)
  | defaultQuery (id : String)
  deriving DecidableEq

/-- The bag of a record in which a query document is looked for. -/
def bagIn (record : LoroMap) : QueryHome → Option LoroMap
  | .properties .. => child (root record) "properties"
  | .defaults .. => child record "defaults"
  | .block _ _ node =>
    ((record.get "outline").bind Stored.intoTree).bind fun nodes =>
      (nodes.find? fun n => n.id = node).bind fun n => child n.data "properties"
  | .defaultQuery _ => none

def defaultEntry (doc : LoroDoc) (id : String) : Option LoroMap :=
  (child doc.graphSettings "default_queries").bind fun queries => child queries id

namespace QueryHome

/-- The record that holds it, none for a default query. -/
def record (doc : LoroDoc) : QueryHome → Option LoroMap
  | .properties home id | .defaults home id | .block home id _ => child (doc.records home) id
  | .defaultQuery _ => none

end QueryHome

def queryDocumentAt (doc : LoroDoc) (home : QueryHome) : Option LoroMap :=
  match home with
  | .defaultQuery id => (defaultEntry doc id).bind fun entry => child entry "document"
  | _ => (home.record doc).bind fun record =>
    (bagIn record home).bind (queryDocumentFromBag host)

/-- The source of one view of a query document. -/
def documentSource (document : LoroMap) (viewId : String) : Option String :=
  (child document "views").bind fun views =>
    (child views viewId).bind fun view =>
      (child view "definition").bind fun definition =>
        (definition.get "source").bind Stored.intoText

def sourceAt (doc : LoroDoc) (home : QueryHome) (viewId : String) : Option String :=
  (queryDocumentAt host doc home).bind fun document => documentSource document viewId

/-- The page, tag, block or default query is not deleted. -/
def Live (doc : LoroDoc) : QueryHome → Prop
  | .defaultQuery id => ∃ entry, defaultEntry doc id = some entry ∧
      mapBool entry "deleted" = some false
  | .block home id node => ∃ record, child (doc.records home) id = some record ∧
      storedDeleted record = false ∧
      ∃ nodes, (record.get "outline").bind Stored.intoTree = some nodes ∧
        ∃ n, nodes.find? (fun n => n.id = node) = some n ∧ n.deleted = false
  | .properties home id | .defaults home id =>
    ∃ record, child (doc.records home) id = some record ∧ storedDeleted record = false

/-- The default query is one of those that are published. -/
def Published (doc : LoroDoc) (id : String) : Prop :=
  ∃ stored, storedDefaultQueries doc = .ok stored ∧
    ∃ query ∈ stored.take maxDefaultQueries, query.id.asStr = id

/-- What a clone is: of every live entity the sources with every IRI of the source graph
as the IRI of the same entity in the target, and nothing else changed. -/
structure Retargeted (source target : GraphId) (doc clone : LoroDoc) : Prop where
  live : ∀ home, Live clone home ↔ Live doc home
  sources : ∀ home viewId, Live doc home →
    sourceAt host clone home viewId = (sourceAt host doc home viewId).map (retarget source target)
  clear : ∀ home viewId text, Live clone home → sourceAt host clone home viewId = some text →
    ∀ kind ∈ entityKinds, ¬iriPrefix source kind <:+: text.toList

/-! ## What the rewriting does to a query document -/

section

variable {host} {source target : GraphId}

theorem intoText_rewriteSource (s : Stored) :
    (rewriteSource source target s).intoText = s.intoText.map (rewriteText source target) := by
  unfold rewriteSource
  cases h : s.intoText with
  | none => exact h
  | some current =>
    by_cases hr : rewriteText source target current = current
    · simp [hr, h]
    · simp [hr, Stored.intoText]

/-- The header that readers of this build support. -/
def Supported (document : LoroMap) : Prop :=
  mapString document "schema" = some queryDocumentSchema ∧
    mapI64 document "version" = some (queryDocumentVersion : Int)

theorem supported_rewriteQueryDocument (document : LoroMap) :
    Supported (rewriteQueryDocument source target document) ↔ Supported document := by
  unfold rewriteQueryDocument
  split
  · exact Iff.rfl
  · unfold Supported mapString mapI64 mapChild
    rw [get_mapEntry_ne (by decide), get_mapEntry_ne (by decide)]

theorem documentSource_rewriteQueryDocument {document : LoroMap} (h : Supported document)
    (viewId : String) :
    documentSource (rewriteQueryDocument source target document) viewId =
      (documentSource document viewId).map (rewriteText source target) := by
  unfold rewriteQueryDocument
  rw [if_neg fun hn => hn.elim (fun hs => hs h.1) fun hv => hv h.2]
  unfold documentSource
  rw [child_mapChild]
  cases child document "views" with
  | none => rfl
  | some views =>
    have hview : child (views.map fun e => (e.1, onMap (rewriteView source target) e.2)) viewId =
        (child views viewId).map (rewriteView source target) := by
      unfold child
      rw [get_map]
      cases views.get viewId with
      | none => rfl
      | some s => exact intoMap_onMap _ s
    rw [Option.map_some, Option.bind_some, Option.bind_some, hview]
    cases child views viewId with
    | none => rfl
    | some view =>
      rw [Option.map_some, Option.bind_some, Option.bind_some, rewriteView, child_mapChild]
      cases child view "definition" with
      | none => rfl
      | some definition =>
        rw [Option.map_some, Option.bind_some, Option.bind_some, get_mapEntry, if_pos rfl]
        cases definition.get "source" with
        | none => rfl
        | some s => exact intoText_rewriteSource s

/-! ## What it does to a bag -/

theorem queryDocumentFromBag_rewriteBag (bag : LoroMap) :
    queryDocumentFromBag host (rewriteBag host source target bag) =
      (queryDocumentFromBag host bag).map (rewriteQueryDocument source target) := by
  unfold rewriteBag
  cases hd : queryDocumentFromBag host bag with
  | none => simp [hd]
  | some document =>
    unfold queryDocumentFromBag at hd
    obtain ⟨field, hfield, hd⟩ := Option.bind_eq_some_iff.mp hd
    obtain ⟨shape, hshape, hd⟩ := Option.bind_eq_some_iff.mp hd
    obtain ⟨_, hguard, hdocument⟩ := Option.bind_eq_some_iff.mp hd
    have hdocument : child field "document" = some document := hdocument
    have hfield' : child (mapChild bag queryKey.asStr fun field =>
        mapChild field "document" (rewriteQueryDocument source target)) queryKey.asStr =
          some (mapChild field "document" (rewriteQueryDocument source target)) := by
      rw [child_mapChild]
      exact congrArg _ hfield
    have hshape' : (storedPropertyShape host
        (mapChild field "document" (rewriteQueryDocument source target)) queryKey.asStr).toOption =
          some shape := by
      rw [← hshape]
      unfold storedPropertyShape mapString mapChild
      rw [get_mapEntry_ne (by decide)]
    rw [Option.isSome_some, if_pos rfl]
    unfold queryDocumentFromBag
    refine Option.bind_eq_some_iff.mpr ⟨_, hfield', Option.bind_eq_some_iff.mpr ⟨_, hshape', ?_⟩⟩
    refine Option.bind_eq_some_iff.mpr ⟨(), hguard, ?_⟩
    show child (mapChild field "document" (rewriteQueryDocument source target)) "document" = _
    rw [child_mapChild, hdocument]
    rfl

theorem get_rewriteBag_ne {bag : LoroMap} {key : String} (h : key ≠ queryKey.asStr) :
    (rewriteBag host source target bag).get key = bag.get key := by
  unfold rewriteBag
  split
  · exact get_mapEntry_ne h _
  · rfl

theorem child_rewriteBags_properties (container : LoroMap) :
    child (rewriteBags host source target container) "properties" =
      (child container "properties").map (rewriteBag host source target) := by
  unfold rewriteBags
  rw [child_mapChild_ne (by decide), child_mapChild]

theorem child_rewriteBags_defaults (container : LoroMap) :
    child (rewriteBags host source target container) "defaults" =
      (child container "defaults").map (rewriteBag host source target) := by
  unfold rewriteBags
  rw [child_mapChild, child_mapChild_ne (by decide)]

theorem get_rewriteBags_ne {container : LoroMap} {key : String} (hp : key ≠ "properties")
    (hd : key ≠ "defaults") :
    (rewriteBags host source target container).get key = container.get key := by
  unfold rewriteBags mapChild
  rw [get_mapEntry_ne hd, get_mapEntry_ne hp]

/-! ## What it does to a record -/

theorem root_eq (record : LoroMap) : root record = (child record "root").getD record := rfl

/-- The record before its blocks are rewritten. -/
def rewrittenBags (host : Storage) (source target : GraphId) (record : LoroMap) : LoroMap :=
  rewriteBags host source target
    (match child record "root" with
      | some _ => mapChild record "root" (rewriteBags host source target)
      | none => rewriteBags host source target record)

theorem child_rewriteRecord {record : LoroMap} {key : String} (h : key ≠ "outline") :
    child (rewriteRecord host source target record) key =
      child (rewrittenBags host source target record) key := child_mapEntry_ne h _

theorem rewriteRecord_rooted {record r : LoroMap} (hr : child record "root" = some r) :
    root (rewriteRecord host source target record) = rewriteBags host source target r ∧
      child (rewriteRecord host source target record) "defaults" =
        (child record "defaults").map (rewriteBag host source target) := by
  have hroot : child (rewriteRecord host source target record) "root" =
      some (rewriteBags host source target r) := by
    rw [child_rewriteRecord (by decide), rewrittenBags, hr]
    unfold child
    rw [get_rewriteBags_ne (by decide) (by decide)]
    show child (mapChild record "root" (rewriteBags host source target)) "root" = _
    rw [child_mapChild, hr]
    rfl
  constructor
  · rw [root_eq, hroot]
    rfl
  · rw [child_rewriteRecord (by decide), rewrittenBags, hr, child_rewriteBags_defaults]
    show (child (mapChild record "root" _) "defaults").map _ = _
    rw [child_mapChild_ne (by decide)]

theorem rewriteRecord_unrooted {record : LoroMap} (hr : child record "root" = none) :
    root (rewriteRecord host source target record) = rewriteRecord host source target record ∧
      (∀ key, key ≠ "outline" → child (rewriteRecord host source target record) key =
        child (rewriteBags host source target (rewriteBags host source target record)) key) := by
  have hchild : ∀ key, key ≠ "outline" → child (rewriteRecord host source target record) key =
      child (rewriteBags host source target (rewriteBags host source target record)) key := by
    intro key hkey
    rw [child_rewriteRecord hkey, rewrittenBags, hr]
  have hroot : child (rewriteRecord host source target record) "root" = none := by
    rw [hchild _ (by decide)]
    unfold child at hr ⊢
    rw [get_rewriteBags_ne (by decide) (by decide), get_rewriteBags_ne (by decide) (by decide)]
    exact hr
  refine ⟨?_, hchild⟩
  rw [root_eq, hroot]
  rfl

theorem get_outline_rewriteRecord (record : LoroMap) :
    (rewriteRecord host source target record).get "outline" =
      (record.get "outline").map (onTree (rewriteNode host source target)) := by
  have hget : (rewrittenBags host source target record).get "outline" = record.get "outline" := by
    unfold rewrittenBags
    rw [get_rewriteBags_ne (by decide) (by decide)]
    split
    · exact get_mapEntry_ne (by decide) _
    · exact get_rewriteBags_ne (by decide) (by decide)
  show (mapEntry (rewrittenBags host source target record) "outline" _).get "outline" = _
  rw [get_mapEntry, if_pos rfl, hget]

theorem intoTree_onTree (f : TreeNode LoroMap → TreeNode LoroMap) (s : Stored) :
    (onTree f s).intoTree = s.intoTree.map (List.map f) := by
  cases s <;> rfl

theorem outline_rewriteRecord (record : LoroMap) :
    ((rewriteRecord host source target record).get "outline").bind Stored.intoTree =
      ((record.get "outline").bind Stored.intoTree).map
        (List.map (rewriteNode host source target)) := by
  rw [get_outline_rewriteRecord]
  cases record.get "outline" with
  | none => rfl
  | some s => exact intoTree_onTree _ s

theorem find_rewriteNode (nodes : List (TreeNode LoroMap)) (node : TreeId) :
    (nodes.map (rewriteNode host source target)).find? (fun n => n.id = node) =
      (nodes.find? fun n => n.id = node).map (rewriteNode host source target) := by
  rw [List.find?_map]
  rfl

/-- Each bag is rewritten once, or twice where the record is its own root. -/
theorem bagIn_rewriteRecord (record : LoroMap) (home : QueryHome) :
    ∃ n, (n = 1 ∨ n = 2) ∧ bagIn (rewriteRecord host source target record) home =
      (bagIn record home).map (rewriteBag host source target)^[n] := by
  cases home with
  | properties h id =>
    cases hr : child record "root" with
    | some r =>
      refine ⟨1, .inl rfl, ?_⟩
      show child (root _) _ = (child (root _) _).map _
      rw [(rewriteRecord_rooted hr).1, child_rewriteBags_properties, root_eq record, hr]
      rfl
    | none =>
      refine ⟨2, .inr rfl, ?_⟩
      show child (root _) _ = (child (root _) _).map _
      rw [(rewriteRecord_unrooted hr).1, (rewriteRecord_unrooted hr).2 _ (by decide),
        child_rewriteBags_properties, child_rewriteBags_properties, root_eq record, hr,
        Option.map_map]
      rfl
  | defaults h id =>
    cases hr : child record "root" with
    | some r => exact ⟨1, .inl rfl, (rewriteRecord_rooted hr).2⟩
    | none =>
      refine ⟨2, .inr rfl, ?_⟩
      show child _ _ = (child _ _).map _
      rw [(rewriteRecord_unrooted hr).2 _ (by decide), child_rewriteBags_defaults,
        child_rewriteBags_defaults, Option.map_map]
      rfl
  | block h id node =>
    refine ⟨1, .inl rfl, ?_⟩
    unfold bagIn
    dsimp only
    rw [outline_rewriteRecord]
    cases (record.get "outline").bind Stored.intoTree with
    | none => rfl
    | some nodes =>
      rw [Option.map_some, Option.bind_some, Option.bind_some, find_rewriteNode]
      cases nodes.find? fun n => n.id = node with
      | none => rfl
      | some n => exact child_mapChild ..
  | defaultQuery id => exact ⟨1, .inl rfl, rfl⟩

theorem get_deletedAt_rewriteBag (n : Nat) (bag : LoroMap) :
    LoroMap.get ((rewriteBag host source target)^[n] bag) deletedAtKey.asStr =
      bag.get deletedAtKey.asStr := by
  induction n generalizing bag with
  | zero => rfl
  | succ n ih =>
    have hone : (rewriteBag host source target bag).get deletedAtKey.asStr =
        bag.get deletedAtKey.asStr := get_rewriteBag_ne (by decide)
    exact (ih _).trans hone

theorem storedDeleted_rewriteRecord (record : LoroMap) :
    storedDeleted (rewriteRecord host source target record) = storedDeleted record := by
  obtain ⟨n, _, hbag⟩ :
      ∃ n, (n = 1 ∨ n = 2) ∧ child (root (rewriteRecord host source target record)) "properties" =
        (child (root record) "properties").map (rewriteBag host source target)^[n] :=
    bagIn_rewriteRecord record (.properties .pages "")
  unfold storedDeleted
  show (match child (root _) "properties" with | some bag => _ | none => false) =
    match child (root record) "properties" with | some bag => _ | none => false
  rw [hbag]
  cases child (root record) "properties" with
  | none => rfl
  | some bag => exact congrArg Option.isSome (get_deletedAt_rewriteBag n bag)

/-! ## What it does to the homes -/

/-- The homes rewritten. -/
def rewriteHomes (host : Storage) (source target : GraphId) (doc : LoroDoc) : LoroDoc :=
  { doc with
    entities := rewriteRecords host source target doc.entities
    pages := rewriteRecords host source target doc.pages
    tags := rewriteRecords host source target doc.tags }

theorem child_rewriteHomes (doc : LoroDoc) (home : Home) (id : String) :
    child ((rewriteHomes host source target doc).records home) id =
      (child (doc.records home) id).map (rewriteRecord host source target) := by
  have hrecords : (rewriteHomes host source target doc).records home =
      rewriteRecords host source target (doc.records home) := by
    cases home <;> rfl
  rw [hrecords]
  unfold child rewriteRecords
  rw [get_map]
  cases (doc.records home).get id with
  | none => rfl
  | some s => exact intoMap_onMap _ s

/-- The record of a query document outside the settings. -/
theorem queryDocumentAt_eq {doc : LoroDoc} {home : QueryHome} (h : ∀ id, home ≠ .defaultQuery id) :
    queryDocumentAt host doc home = (home.record doc).bind fun record =>
      (bagIn record home).bind (queryDocumentFromBag host) := by
  cases home with
  | defaultQuery id => exact absurd rfl (h id)
  | properties home id => rfl
  | defaults home id => rfl
  | block home id node => rfl

theorem record_rewriteHomes (doc : LoroDoc) (home : QueryHome) :
    home.record (rewriteHomes host source target doc) =
      (home.record doc).map (rewriteRecord host source target) := by
  cases home with
  | defaultQuery id => rfl
  | properties home id => exact child_rewriteHomes doc home id
  | defaults home id => exact child_rewriteHomes doc home id
  | block home id node => exact child_rewriteHomes doc home id

theorem queryDocumentFromBag_iterate (n : Nat) (bag : LoroMap) :
    queryDocumentFromBag host ((rewriteBag host source target)^[n] bag) =
      (queryDocumentFromBag host bag).map (rewriteQueryDocument source target)^[n] := by
  induction n generalizing bag with
  | zero => simp
  | succ n ih =>
    rw [Function.iterate_succ_apply, ih, queryDocumentFromBag_rewriteBag, Option.map_map,
      Function.iterate_succ]

/-- Each query document of an entity is rewritten once or twice. -/
theorem queryDocumentAt_rewriteHomes (doc : LoroDoc) {home : QueryHome}
    (h : ∀ id, home ≠ .defaultQuery id) :
    ∃ n, (n = 1 ∨ n = 2) ∧ queryDocumentAt host (rewriteHomes host source target doc) home =
      (queryDocumentAt host doc home).map (rewriteQueryDocument source target)^[n] := by
  rw [queryDocumentAt_eq h, queryDocumentAt_eq h, record_rewriteHomes]
  cases home.record doc with
  | none => exact ⟨1, .inl rfl, rfl⟩
  | some record =>
    obtain ⟨n, hn, hbag⟩ :
        ∃ n, (n = 1 ∨ n = 2) ∧ bagIn (rewriteRecord host source target record) home =
          (bagIn record home).map (rewriteBag host source target)^[n] :=
      bagIn_rewriteRecord record home
    refine ⟨n, hn, ?_⟩
    rw [Option.map_some, Option.bind_some, Option.bind_some, hbag]
    cases bagIn record home with
    | none => rfl
    | some bag => exact queryDocumentFromBag_iterate n bag

theorem supported_iterate (n : Nat) (document : LoroMap) :
    Supported ((rewriteQueryDocument source target)^[n] document) ↔ Supported document := by
  induction n generalizing document with
  | zero => rfl
  | succ n ih => exact (ih _).trans (supported_rewriteQueryDocument document)

theorem documentSource_iterate (n : Nat) {document : LoroMap} (h : Supported document)
    (viewId : String) :
    documentSource ((rewriteQueryDocument source target)^[n] document) viewId =
      (documentSource document viewId).map (rewriteText source target)^[n] := by
  induction n generalizing document with
  | zero => simp
  | succ n ih =>
    rw [Function.iterate_succ_apply, ih ((supported_rewriteQueryDocument document).mpr h),
      documentSource_rewriteQueryDocument h, Option.map_map, Function.iterate_succ]

/-- The text of a source after one or two passes. -/
theorem iterate_rewriteText_eq_iff (hne : target ≠ source) {n : Nat} (hn : n = 1 ∨ n = 2)
    (text : String) :
    (rewriteText source target)^[n] text = retarget source target text ↔
      ∀ x ∈ affectedPrefixes source target, ¬x <:+: text.toList := by
  rcases hn with rfl | rfl
  · exact rewriteText_eq_iff hne text
  · exact rewriteText_twice_eq_iff hne text

end

end Neoseq.Causal
