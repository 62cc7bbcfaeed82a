import Neoseq.Domain.Ids

/-! Saved queries. A query document is a bounded list of views; the checks here
are the ones every reader of a document applies. What a JSON text means is not
decided here: a `Codec` names the decoders the stored strings go through. -/

namespace Neoseq.Domain

def queryDocumentSchema : String := "neoseq.query"
def queryDocumentVersion : Nat := 2
def queryLanguage : String := "sparql-1.1/neoseq-v1"
def queryPlanLimit : Nat := 32768
def maxQuerySourceBytes : Nat := 65536
def maxQueryViews : Nat := 32
def queryViewSortLimit : Nat := 8

/-- The property errors a query document can be refused with. -/
inductive QueryError where
  | stringTooLong
  | unsupportedDocument (schema : String) (version : Nat)
  | invalidDocument (message : String)
  deriving Repr, DecidableEq

def QueryError.message : QueryError → String
  | .stringTooLong => "property string exceeds 65536 bytes"
  | .unsupportedDocument schema version =>
    "unsupported property document " ++ schema ++ " v" ++ toString version
  | .invalidDocument message => "invalid property document: " ++ message

inductive QueryViewKind where
  | table
  | list
  deriving Repr, DecidableEq

structure QueryViewColumn where
  variableName : String
  hidden : Bool
  width : Option Nat
  deriving Repr, DecidableEq

structure QueryViewSort where
  variableName : String
  descending : Bool
  deriving Repr, DecidableEq

structure QueryViewFieldSort where
  field : String
  descending : Bool
  deriving Repr, DecidableEq

structure QueryViewOptions where
  conditionsOpen : Option Bool := none
  compact : Bool := false
  wrap : Bool := false
  sort : List QueryViewSort := []
  listSort : List QueryViewFieldSort := []
  deriving Repr, DecidableEq

structure QueryPlan where
  version : Nat
  payload : String
  deriving Repr, DecidableEq

structure QueryDefinition where
  source : String
  language : String
  plan : Option QueryPlan
  deriving Repr, DecidableEq

structure QueryView where
  id : QueryViewId
  name : String
  definition : QueryDefinition
  kind : QueryViewKind
  position : Nat
  columns : List QueryViewColumn
  options : QueryViewOptions
  deriving DecidableEq

structure PropertyDocument where
  schema : String
  version : Nat
  views : List QueryView
  defaultViewId : QueryViewId
  deriving DecidableEq

inductive StoredPlanState where
  | raw
  | built (version : Nat) (plan : QueryPlan)
  deriving Repr, DecidableEq

/-- The decoders of stored strings: the JSON parser at each type it is used at,
and the query layer's derivation of a plan's source. -/
structure Codec where
  /-- Whether a JSON text is an object, `none` where it is not JSON. -/
  isObject : String → Option Bool
  columns : String → Option (List QueryViewColumn)
  options : String → Option QueryViewOptions
  planState : String → Option StoredPlanState
  derivePlanSource : QueryPlan → Option String

variable (codec : Codec)

def QueryPlan.validate (plan : QueryPlan) : Except QueryError Unit :=
  if plan.version = 0 then .error (.invalidDocument "query plan version must be positive")
  else if plan.payload.utf8ByteSize > queryPlanLimit then .error .stringTooLong
  else
    match codec.isObject plan.payload with
    | none => .error (.invalidDocument "query plan is not JSON")
    | some false => .error (.invalidDocument "query plan must be a JSON object")
    | some true => .ok ()

/-- A name of bounded length without control characters. -/
def validTerm (limit : Nat) (term : String) : Bool :=
  !(term.isEmpty || decide (term.utf8ByteSize > limit) || term.toList.any isControl)

/-- The loop over the terms of one order: each term is checked, then looked for
among those before it. -/
def validateTerms (limit : Nat) (invalid duplicate : String) :
    List String → (seen : List String) → Except QueryError Unit
  | [], _ => .ok ()
  | term :: rest, seen =>
    if !validTerm limit term then .error (.invalidDocument invalid)
    else if seen.contains term then .error (.invalidDocument duplicate)
    else validateTerms limit invalid duplicate rest (term :: seen)

def QueryView.validateStructure (view : QueryView) : Except QueryError Unit := do
  if view.definition.language != queryLanguage then
    throw (.invalidDocument "unsupported query language")
  match view.definition.plan with
  | some plan => plan.validate codec
  | none => pure ()
  if view.name.isEmpty || view.name.utf8ByteSize > 128 then
    throw (.invalidDocument "invalid query view name")
  let names := view.columns.map QueryViewColumn.variableName
  if names.length > 128 || names.any (fun v => !validTerm 128 v) then
    throw (.invalidDocument "invalid query view column selection")
  if !decide names.Nodup then throw (.invalidDocument "duplicate query view column")
  if view.options.sort.length > queryViewSortLimit then
    throw (.invalidDocument "too many query view sort terms")
  validateTerms 128 "invalid query view sort variable" "duplicate query view sort variable"
    (view.options.sort.map QueryViewSort.variableName) []
  if view.options.listSort.length > queryViewSortLimit then
    throw (.invalidDocument "too many query list sort terms")
  validateTerms 256 "invalid query list sort field" "duplicate query list sort field"
    (view.options.listSort.map QueryViewFieldSort.field) []

/-- The loop over the views of a document. -/
def validateViews : List QueryView → (seen : List QueryViewId) →
    Except QueryError (List QueryViewId)
  | [], seen => .ok seen
  | view :: rest, seen => do
    view.validateStructure codec
    if seen.contains view.id then throw (.invalidDocument "duplicate query view id")
    validateViews rest (view.id :: seen)

def PropertyDocument.validateStructure (document : PropertyDocument) : Except QueryError Unit := do
  if document.schema != queryDocumentSchema || document.version != queryDocumentVersion then
    throw (.unsupportedDocument document.schema document.version)
  if document.views.isEmpty || document.views.length > maxQueryViews then
    throw (.invalidDocument "query document must contain between 1 and 32 views")
  let ids ← validateViews codec document.views []
  if !ids.contains document.defaultViewId then
    throw (.invalidDocument "default query view does not exist")

/-- The id of the only view of a fresh document. -/
def allViewId : QueryViewId := ⟨"all", by decide⟩

def defaultQueryView (source : String) : QueryView where
  id := allViewId
  name := "All"
  definition := ⟨source, queryLanguage, none⟩
  kind := .table
  position := 0
  columns := []
  options := {}

def PropertyDocument.defaultQuery (source : String) : PropertyDocument where
  schema := queryDocumentSchema
  version := queryDocumentVersion
  views := [defaultQueryView source]
  defaultViewId := allViewId

/-! ## What the checks accept -/

variable {codec}

theorem validateStructure_defaultQueryView (source : String) :
    (defaultQueryView source).validateStructure codec = .ok () := rfl

/-- Views that pass their own check and have distinct ids pass the loop. -/
theorem validateViews_ok {views : List QueryView} {seen : List QueryViewId}
    (hv : ∀ v ∈ views, v.validateStructure codec = .ok ())
    (hn : (views.map QueryView.id).Nodup) (hd : ∀ v ∈ views, v.id ∉ seen) :
    validateViews codec views seen = .ok ((views.map QueryView.id).reverse ++ seen) := by
  induction views generalizing seen with
  | nil => rfl
  | cons v views ih =>
    rw [List.map_cons, List.nodup_cons] at hn
    have hs : seen.contains v.id = false := by simpa using hd v (List.mem_cons_self ..)
    have hd' : ∀ w ∈ views, w.id ∉ v.id :: seen := by
      intro w hw hm
      rcases List.mem_cons.mp hm with he | hm
      · exact hn.1 (he ▸ List.mem_map_of_mem hw)
      · exact hd w (List.mem_cons_of_mem _ hw) hm
    have hrest := ih (fun w hw => hv w (List.mem_cons_of_mem _ hw)) hn.2 hd'
    unfold validateViews
    simp only [hv v (List.mem_cons_self ..), hs, hrest, bind, Except.bind]
    simp

/-- A document of checked views with distinct ids is well formed. -/
theorem PropertyDocument.validateStructure_ok {document : PropertyDocument}
    (hs : document.schema = queryDocumentSchema) (hver : document.version = queryDocumentVersion)
    (hne : document.views ≠ []) (hlen : document.views.length ≤ maxQueryViews)
    (hv : ∀ v ∈ document.views, v.validateStructure codec = .ok ())
    (hn : (document.views.map QueryView.id).Nodup)
    (hd : document.defaultViewId ∈ document.views.map QueryView.id) :
    document.validateStructure codec = .ok () := by
  have hempty : document.views.isEmpty = false := by simpa using hne
  have hlong : ¬document.views.length > maxQueryViews := by omega
  unfold PropertyDocument.validateStructure
  rw [validateViews_ok hv hn (by simp)]
  simp [hs, hver, hempty, hlong, hd, bind, Except.bind, pure, Except.pure]

theorem PropertyDocument.supported_of_validateStructure {document : PropertyDocument}
    (h : document.validateStructure codec = .ok ()) :
    document.schema = queryDocumentSchema ∧ document.version = queryDocumentVersion := by
  unfold PropertyDocument.validateStructure at h
  by_cases hs : document.schema = queryDocumentSchema ∧ document.version = queryDocumentVersion
  · exact hs
  · have hb : (document.schema != queryDocumentSchema ||
        document.version != queryDocumentVersion) = true := by
      simpa [imp_iff_not_or, bne_iff_ne] using not_and_or.mp hs
    simp only [hb] at h
    cases h

end Neoseq.Domain
