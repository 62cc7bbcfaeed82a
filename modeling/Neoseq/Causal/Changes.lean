import Neoseq.Causal.Validate

/-! Admission of an imported update. The diffs of the import are sorted into
validation units, and only the units that changed are validated; a diff that fits no
unit asks for the whole document. -/

namespace Neoseq.Causal
open Domain Document Neoseq.Core Content

/-! ## Diffs of an import -/

inductive Index where
  | key (name : String)
  | node (id : TreeId)
  | seq (index : Nat)
  deriving DecidableEq

abbrev Path := List Index

inductive TreeExternalDiff where
  | create | move | delete
  deriving DecidableEq

structure TreeDiffItem where
  target : TreeId
  action : TreeExternalDiff
  deriving DecidableEq

/-- What changed in a container: of a map the new value of every key that changed. -/
inductive Diff where
  | map (updated : List (String × Option Stored))
  | tree (diff : List TreeDiffItem)
  | text
  | other

structure ContainerDiff where
  path : Path
  diff : Diff
  isUnknown : Bool

/-! ## Validation units -/

/-- The containers an update changed. -/
structure CausalChanges where
  full : Bool := false
  metadata : Bool := false
  settings : Bool := false
  /-- Documents whose fields changed. -/
  headers : List (Home × String) := []
  /-- Documents to validate completely. -/
  documents : List (Home × String) := []
  /-- Blocks created or edited, by document. -/
  blocks : List (Home × String × TreeId) := []

namespace CausalChanges

def addHeader (changes : CausalChanges) (home : Home) (id : String) : CausalChanges :=
  { changes with headers := changes.headers.insert (home, id) }

def addDocument (changes : CausalChanges) (home : Home) (id : String) : CausalChanges :=
  { changes with documents := changes.documents.insert (home, id) }

def addBlock (changes : CausalChanges) (home : Home) (id : String) (node : TreeId) :
    CausalChanges :=
  { changes with blocks := changes.blocks.insert (home, id, node) }

/-- The documents of a diff of a home; false once one was removed. -/
def addUpdated (home : Home) : List (String × Option Stored) → CausalChanges → CausalChanges × Bool
  | [], changes => (changes, true)
  | (_, none) :: _, changes => (changes, false)
  | (id, some _) :: rest, changes => addUpdated home rest (changes.addDocument home id)

/-- The blocks that the diff of an outline creates. -/
def addCreated (home : Home) (id : String) (diff : List TreeDiffItem) (changes : CausalChanges) :
    CausalChanges :=
  diff.foldl (fun changes item =>
    if item.action = .create then changes.addBlock home id item.target else changes) changes

end CausalChanges

def keyAt (path : Path) (index : Nat) : Option String :=
  match path[index]? with
  | some (.key name) => some name
  | _ => none

/-- A diff within a document. -/
def classifyDocument (home : Home) (id : String) (change : ContainerDiff)
    (changes : CausalChanges) : CausalChanges × Bool :=
  match keyAt change.path 2 with
  | none => (changes.addDocument home id, true)
  | some field =>
    if field = "outline" then
      match change.path[3]? with
      | none =>
        match change.diff with
        | .tree diff => (changes.addCreated home id diff, true)
        | _ => (changes, false)
      | some (.node node) => (changes.addBlock home id node, true)
      | some _ => (changes, false)
    else (changes.addHeader home id, true)

/-- The unit of a diff; false where no unit covers it. -/
def classify (changes : CausalChanges) (change : ContainerDiff) : CausalChanges × Bool :=
  if change.isUnknown then (changes, false)
  else match keyAt change.path 0 with
  | none => (changes, false)
  | some root =>
    if root = "meta" then ({ changes with metadata := true }, true)
    else if root = "graph_settings" then ({ changes with settings := true }, true)
    else match homes.find? fun home => home.asStr = root with
    | none => (changes, false)
    | some home =>
      match keyAt change.path 1 with
      | none =>
        match change.diff with
        | .map updated => changes.addUpdated home updated
        | _ => (changes, false)
      | some id => classifyDocument home id change changes

def recordChange (changes : CausalChanges) (change : ContainerDiff) : CausalChanges :=
  if changes.full then changes
  else
    let (changes, classified) := classify changes change
    if classified then changes else { changes with full := true }

/-- `CausalChanges::record`, over the diffs of all events of an import. -/
def record (events : List ContainerDiff) : CausalChanges := events.foldl recordChange {}

/-! ## Scoped validation -/

variable (host : Storage)

def ownerLabel (home : Home) (rawId : String) : String :=
  (if home = .tags then "tag" else "page") ++ ":" ++ rawId

/-- One turn of the loop over the blocks. -/
def validateBlock (doc : LoroDoc) (home : Home) (rawId : String) (node : TreeId) :
    Except CoreError Unit := do
  let record ← requiredMap ((doc.records home).get rawId) ("document " ++ rawId)
  let outline ← requiredChildTree record "outline" (home.asStr ++ " " ++ rawId ++ " outline")
  validateOutlineNode host doc outline (ownerLabel home rawId) node

/-- The loops over the documents, the headers and the blocks that changed. -/
def validateUnits (doc : LoroDoc) (changes : CausalChanges) : Except CoreError Unit := do
  checkAll (fun d : Home × String => do
    requireSingle doc d.2
    validateDocument host doc d.1 d.2 true) changes.documents
  checkAll (fun d : Home × String =>
    if d ∈ changes.documents then .ok () else validateDocument host doc d.1 d.2 false)
    changes.headers
  checkAll (fun b : Home × String × TreeId =>
    if (b.1, b.2.1) ∈ changes.documents then .ok () else validateBlock host doc b.1 b.2.1 b.2.2)
    changes.blocks

/-- A validation that runs where a unit asks for it. -/
def validateIf (asked : Bool) (validation : Except CoreError Unit) : Except CoreError Unit :=
  if asked then validation else .ok ()

def validateCausalChanges (doc : LoroDoc) (graphId : GraphId) (changes : CausalChanges) :
    Except CoreError Unit :=
  if changes.full then validateCausalDocument host doc graphId
  else do
    validateIf changes.metadata (validateMetadata doc graphId)
    validateIf changes.settings (validateGraphSettings host doc)
    validateUnits host doc changes

/-! ## What a diff asks for -/

inductive ValidationUnit where
  | metadata
  | settings
  | header (home : Home) (id : String)
  | document (home : Home) (id : String)
  | block (home : Home) (id : String) (node : TreeId)
  deriving DecidableEq

def CausalChanges.Has (changes : CausalChanges) : ValidationUnit → Prop
  | .metadata => changes.metadata = true
  | .settings => changes.settings = true
  | .header home id => (home, id) ∈ changes.headers
  | .document home id => (home, id) ∈ changes.documents
  | .block home id node => (home, id, node) ∈ changes.blocks

/-- The units of a diff in a home, by what is left of its path. -/
def homeUnits (home : Home) (diff : Diff) : Path → Option (List ValidationUnit)
  | .key id :: .key field :: rest =>
    if field = "outline" then
      match rest, diff with
      | [], .tree items =>
        some ((items.filter fun item => item.action = .create).map fun item =>
          .block home id item.target)
      | [], _ => none
      | .node node :: _, _ => some [.block home id node]
      | _ :: _, _ => none
    else some [.header home id]
  | .key id :: _ => some [.document home id]
  | _ =>
    match diff with
    | .map updated =>
      if ∀ u ∈ updated, u.2.isSome then some (updated.map fun u => .document home u.1) else none
    | _ => none

/-- The units of a diff, nothing where no unit covers it. -/
def unitsOf (change : ContainerDiff) : Option (List ValidationUnit) :=
  if change.isUnknown then none
  else match change.path with
  | .key root :: rest =>
    if root = "meta" then some [.metadata]
    else if root = "graph_settings" then some [.settings]
    else (homes.find? fun home => home.asStr = root).bind fun home =>
      homeUnits home change.diff rest
  | _ => none

/-- The changes with some units more. -/
def Extends (changes changes' : CausalChanges) (units : List ValidationUnit) : Prop :=
  changes'.full = changes.full ∧ ∀ u, changes'.Has u ↔ changes.Has u ∨ u ∈ units

theorem extends_addDocument (changes : CausalChanges) (home : Home) (id : String) :
    Extends changes (changes.addDocument home id) [.document home id] := by
  refine ⟨rfl, fun u => ?_⟩
  cases u <;> simp [CausalChanges.Has, CausalChanges.addDocument, or_comm]

theorem extends_addHeader (changes : CausalChanges) (home : Home) (id : String) :
    Extends changes (changes.addHeader home id) [.header home id] := by
  refine ⟨rfl, fun u => ?_⟩
  cases u <;> simp [CausalChanges.Has, CausalChanges.addHeader, or_comm]

theorem extends_addBlock (changes : CausalChanges) (home : Home) (id : String) (node : TreeId) :
    Extends changes (changes.addBlock home id node) [.block home id node] := by
  refine ⟨rfl, fun u => ?_⟩
  cases u <;> simp [CausalChanges.Has, CausalChanges.addBlock, or_comm]

theorem Extends.nil (changes : CausalChanges) : Extends changes changes [] :=
  ⟨rfl, fun u => by simp⟩

theorem Extends.trans {a b c : CausalChanges} {l m : List ValidationUnit} (h : Extends a b l)
    (h' : Extends b c m) : Extends a c (l ++ m) := by
  refine ⟨h'.1.trans h.1, fun u => ?_⟩
  rw [h'.2, h.2, List.mem_append, or_assoc]

theorem addUpdated_spec (home : Home) (updated : List (String × Option Stored))
    (changes : CausalChanges) :
    (∀ u ∈ updated, u.2.isSome = true) ∧ (changes.addUpdated home updated).2 = true ∧
        Extends changes (changes.addUpdated home updated).1
          (updated.map fun u => .document home u.1) ∨
      (¬∀ u ∈ updated, u.2.isSome = true) ∧ (changes.addUpdated home updated).2 = false := by
  induction updated generalizing changes with
  | nil => exact .inl ⟨nofun, rfl, Extends.nil changes⟩
  | cons u rest ih =>
    obtain ⟨id, value⟩ := u
    cases value with
    | none => exact .inr ⟨fun h => (nomatch h _ (List.mem_cons_self ..)), rfl⟩
    | some value =>
      rcases ih (changes.addDocument home id) with ⟨hall, hok, hext⟩ | ⟨hsome, hok⟩
      · exact .inl ⟨List.forall_mem_cons.mpr ⟨rfl, hall⟩, hok,
          (extends_addDocument changes home id).trans hext⟩
      · exact .inr ⟨fun h => hsome (List.forall_mem_cons.mp h).2, hok⟩

theorem addCreated_spec (home : Home) (id : String) (items : List TreeDiffItem)
    (changes : CausalChanges) :
    Extends changes (changes.addCreated home id items)
      ((items.filter fun item => item.action = .create).map fun item =>
        .block home id item.target) := by
  induction items generalizing changes with
  | nil => exact Extends.nil changes
  | cons item rest ih =>
    unfold CausalChanges.addCreated
    rw [List.foldl_cons, List.filter_cons]
    by_cases hc : item.action = .create
    · simp only [hc, if_true, decide_true]
      exact (extends_addBlock changes home id item.target).trans (ih _)
    · simp only [hc, if_false, decide_false]
      exact ih _

/-- What the sorting of one diff does. -/
def Sorts (changes : CausalChanges) (result : CausalChanges × Bool)
    (units : Option (List ValidationUnit)) : Prop :=
  match units with
  | some units => result.2 = true ∧ Extends changes result.1 units
  | none => result.2 = false

theorem sorts_classifyDocument (home : Home) (id : String) (change : ContainerDiff)
    (changes : CausalChanges) {root : String} {rest : Path}
    (hp : change.path = .key root :: .key id :: rest) :
    Sorts changes (classifyDocument home id change changes)
      (homeUnits home change.diff (.key id :: rest)) := by
  unfold classifyDocument keyAt
  rw [hp]
  match rest with
  | [] => exact ⟨rfl, extends_addDocument ..⟩
  | .node _ :: _ => exact ⟨rfl, extends_addDocument ..⟩
  | .seq _ :: _ => exact ⟨rfl, extends_addDocument ..⟩
  | .key field :: deeper =>
    show Sorts changes (if field = "outline" then _ else _) (if field = "outline" then _ else _)
    by_cases hf : field = "outline"
    · rw [if_pos hf, if_pos hf]
      match deeper with
      | [] =>
        show Sorts changes (match change.diff with | .tree diff => _ | _ => _) _
        cases change.diff with
        | tree items => exact ⟨rfl, addCreated_spec ..⟩
        | map _ => rfl
        | text => rfl
        | other => rfl
      | .node node :: _ => exact ⟨rfl, extends_addBlock ..⟩
      | .key _ :: _ => rfl
      | .seq _ :: _ => rfl
    · rw [if_neg hf, if_neg hf]
      exact ⟨rfl, extends_addHeader ..⟩

theorem sorts_classify (changes : CausalChanges) (change : ContainerDiff) :
    Sorts changes (classify changes change) (unitsOf change) := by
  unfold classify unitsOf
  by_cases hu : change.isUnknown = true
  · rw [if_pos hu, if_pos hu]
    rfl
  rw [if_neg hu, if_neg hu]
  match hp : change.path with
  | [] => rfl
  | .node _ :: _ => rfl
  | .seq _ :: _ => rfl
  | .key root :: rest =>
    show Sorts changes (if root = "meta" then _ else if root = "graph_settings" then _ else _) _
    by_cases hm : root = "meta"
    · rw [if_pos hm]
      dsimp only
      rw [if_pos hm]
      refine ⟨rfl, rfl, fun u => ?_⟩
      cases u <;> simp [CausalChanges.Has]
    by_cases hs : root = "graph_settings"
    · rw [if_neg hm, if_pos hs]
      dsimp only
      rw [if_neg hm, if_pos hs]
      refine ⟨rfl, rfl, fun u => ?_⟩
      cases u <;> simp [CausalChanges.Has]
    rw [if_neg hm, if_neg hs]
    dsimp only
    rw [if_neg hm, if_neg hs]
    cases homes.find? fun home => home.asStr = root with
    | none => rfl
    | some home =>
      dsimp only
      rw [Option.bind_some]
      match rest with
      | .key id :: rest => exact sorts_classifyDocument home id change changes hp
      | [] | .node _ :: _ | .seq _ :: _ =>
        show Sorts changes (match change.diff with | .map updated => _ | _ => _)
          (match change.diff with | .map updated => _ | _ => _)
        cases change.diff with
        | map updated =>
          dsimp only
          rcases addUpdated_spec home updated changes with ⟨hall, hok, hext⟩ | ⟨hsome, hok⟩
          · rw [if_pos hall]
            exact ⟨hok, hext⟩
          · rw [if_neg hsome]
            exact hok
        | tree _ => rfl
        | text => rfl
        | other => rfl

theorem full_of_full {events : List ContainerDiff} {changes : CausalChanges}
    (h : changes.full = true) : (events.foldl recordChange changes).full = true := by
  induction events generalizing changes with
  | nil => exact h
  | cons e rest ih =>
    refine ih ?_
    unfold recordChange
    rw [if_pos h]
    exact h

theorem foldl_recordChange {events : List ContainerDiff} {changes : CausalChanges}
    (h : (events.foldl recordChange changes).full = false) :
    (∀ e ∈ events, (unitsOf e).isSome = true) ∧ ∀ u, (events.foldl recordChange changes).Has u ↔
      changes.Has u ∨ ∃ e ∈ events, ∃ units, unitsOf e = some units ∧ u ∈ units := by
  induction events generalizing changes with
  | nil => exact ⟨nofun, fun u => by simp⟩
  | cons e rest ih =>
    have hfull : changes.full = false := by
      by_contra hf
      rw [Bool.not_eq_false] at hf
      rw [full_of_full hf] at h
      cases h
    have hsorts := sorts_classify changes e
    have hstep : recordChange changes e = if (classify changes e).2 then (classify changes e).1
        else { (classify changes e).1 with full := true } := by
      unfold recordChange
      rw [if_neg (by rw [hfull]; exact Bool.false_ne_true)]
    rw [List.foldl_cons] at h ⊢
    cases hunits : unitsOf e with
    | none =>
      rw [hunits] at hsorts
      have hfalse : (classify changes e).2 = false := hsorts
      rw [hstep, hfalse, if_neg Bool.false_ne_true, full_of_full rfl] at h
      cases h
    | some units =>
      rw [hunits] at hsorts
      obtain ⟨htrue, hext⟩ := hsorts
      rw [hstep, htrue, if_pos rfl] at h ⊢
      obtain ⟨hcovered, hhas⟩ := ih h
      refine ⟨List.forall_mem_cons.mpr ⟨by rw [hunits]; rfl, hcovered⟩, fun u => ?_⟩
      rw [hhas, hext.2, List.exists_mem_cons_iff, or_assoc]
      simp [hunits]

/-- Unless the whole document is to be validated every diff has its units, and the
units recorded are those of the diffs. -/
theorem record_spec {events : List ContainerDiff} (h : (record events).full = false) :
    (∀ e ∈ events, (unitsOf e).isSome = true) ∧ ∀ u, (record events).Has u ↔
      ∃ e ∈ events, ∃ units, unitsOf e = some units ∧ u ∈ units := by
  obtain ⟨hcovered, hhas⟩ := foldl_recordChange h
  refine ⟨hcovered, fun u => (hhas u).trans (or_iff_right ?_)⟩
  cases u <;> simp [CausalChanges.Has]

end Neoseq.Causal
