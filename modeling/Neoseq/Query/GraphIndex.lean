import Neoseq.Query.Projection
import Neoseq.Query.TextIndex

/-! The derived index of a graph: built from all units, or carried along by deltas
that replace whole units. -/

namespace Neoseq.Query
open Collections Domain

/-- The tables that projecting units fills. -/
structure ProjectionBuild where
  store : Finset Triple
  entityRefs : HashMap String QueryEntityRef
  ownerEntities : HashMap OutlineOwner (BTreeSet String)
  textIndex : TextIndex
  propertyIndex : PropertyIndex
  normalizedText : NormalizedText
  tripleCount : Nat

def ProjectionBuild.empty : ProjectionBuild where
  store := ∅
  entityRefs := ∅
  ownerEntities := ∅
  textIndex := TextIndex.empty
  propertyIndex := PropertyIndex.empty
  normalizedText := ∅
  tripleCount := 0

structure GraphIndex extends ProjectionBuild where
  graphId : GraphId
  revision : Nat
  frontier : String

def usizeMax : Nat := 18446744073709551615

def checkedAdd (a b : Nat) : Option Nat := if a + b ≤ usizeMax then some (a + b) else none

def checkedSub (a b : Nat) : Option Nat := if b ≤ a then some (a - b) else none

variable (unicode : Unicode) (numerals : Numerals)

/-- The loop that puts the texts of a projection in. -/
def insertTexts : List (String × String) → TextIndex × NormalizedText →
    Except QueryError (TextIndex × NormalizedText)
  | [], state => .ok state
  | (key, value) :: rest, (index, normalized) => do
    let state ← index.insert unicode key value normalized
    insertTexts rest state

/-- The loop that posts the triples of a projection under the ids of their
subjects. -/
def insertProperties (ids : TextIndex) : List (String × Finset Triple) → PropertyIndex →
    Except QueryError PropertyIndex
  | [], index => .ok index
  | (key, triples) :: rest, index => do
    let id ← orElse (ids.id key) (.index "projected entity has no text subject")
    insertProperties ids rest (index.insertSubject numerals id triples)

def unionAll (entities : List (String × Finset Triple)) : Finset Triple :=
  entities.foldr (fun e s => e.2 ∪ s) ∅

def total (entities : List (String × Finset Triple)) : Nat :=
  (entities.map fun e => e.2.card).sum

def tripleCountOverflow : QueryError := .index "triple count overflow"

/-- One unit of a cold build. -/
def ProjectionBuild.projectUnit (graph : GraphId) (s : ProjectionBuild) (unit : IndexUnit) :
    Except QueryError ProjectionBuild := do
  let projected := Query.projectUnit numerals graph Projection.empty unit
  if projected.entityRefs.entries.any fun e => (s.entityRefs.lookup e.1).isSome then
    throw (.index "projection contains a duplicate entity subject")
  let keys := (projected.ownerEntities.lookup unit.owner).getD ∅
  let (textIndex, normalizedText) ←
    insertTexts unicode projected.entityText.entries (s.textIndex, s.normalizedText)
  let propertyIndex ←
    insertProperties numerals textIndex projected.entities.entries s.propertyIndex
  let tripleCount ← orElse (checkedAdd s.tripleCount (total projected.entities.entries))
    tripleCountOverflow
  return { store := s.store ∪ unionAll projected.entities.entries
           entityRefs :=
             projected.entityRefs.entries.foldl (fun m e => m.insert e.1 e.2) s.entityRefs
           ownerEntities := s.ownerEntities.insert unit.owner keys
           textIndex, propertyIndex, normalizedText, tripleCount }

def GraphIndex.fromUnits (graphId : GraphId) (frontier : String) (units : List IndexUnit) :
    Except QueryError GraphIndex := do
  let projected ← units.foldlM (ProjectionBuild.projectUnit unicode numerals graphId)
    ProjectionBuild.empty
  return { projected with graphId, revision := 1, frontier }

/-! ## Deltas -/

inductive IndexUnitId where
  | page (id : PageId)
  | tag (id : TagId)

namespace IndexUnitId

def owner : IndexUnitId → OutlineOwner
  | .page id => .page id
  | .tag id => .tag id

theorem owner_injective : Function.Injective owner := by
  rintro (a | a) (b | b) h <;> cases h <;> rfl

instance : LinearOrder IndexUnitId := LinearOrder.lift' _ owner_injective

end IndexUnitId

def IndexUnit.id : IndexUnit → IndexUnitId
  | .page snapshot => .page snapshot.id
  | .tag snapshot => .tag snapshot.id

inductive IndexChange where
  | upsert (unit : IndexUnit)
  | remove (id : IndexUnitId)

def IndexChange.key : IndexChange → IndexUnitId
  | .upsert unit => unit.id
  | .remove id => id

/-- At most one change a unit. -/
structure IndexDelta where
  changes : BTreeMap IndexUnitId IndexChange
  frontier : String
  keyed : ∀ e ∈ changes.entries, e.2.key = e.1

theorem keyed_foldl_insert {changes : List IndexChange} {m : BTreeMap IndexUnitId IndexChange}
    (h : ∀ e ∈ m.entries, e.2.key = e.1) :
    ∀ e ∈ (changes.foldl (fun m c => m.insert c.key c) m).entries, e.2.key = e.1 := by
  induction changes generalizing m with
  | nil => exact h
  | cons c rest ih =>
    refine ih fun e he => ?_
    rcases BTreeMap.mem_insertEntry he with rfl | he
    · rfl
    · exact h e he

/-- The last change that names a unit is the one that counts. -/
def IndexDelta.new (frontier : String) (changes : List IndexChange) : IndexDelta where
  changes := changes.foldl (fun m c => m.insert c.key c) ∅
  frontier := frontier
  keyed := keyed_foldl_insert (by simp)

def triplesForSubject (store : Finset Triple) (key : String) : Finset Triple :=
  store.filter fun t => t.subject = key

def writeEntityDiff (store : Finset Triple) (previous next : Option (Finset Triple)) :
    Finset Triple :=
  (store \ (previous.getD ∅ \ next.getD ∅)) ∪ (next.getD ∅ \ previous.getD ∅)

/-- The subjects that a delta replaces: those its units had, and those they have. -/
def replacedSubjects (ownerEntities : HashMap OutlineOwner (BTreeSet String))
    (projected : Projection) (owners : List OutlineOwner) : BTreeSet String :=
  owners.foldl (fun replaced owner =>
    (replaced.extend ((ownerEntities.lookup owner).getD ∅).toList).extend
      ((projected.ownerEntities.lookup owner).getD ∅).toList) ∅

/-- The triples that the replaced subjects have in the store. -/
def previousTriples (store : Finset Triple) (replaced : List String) :
    BTreeMap String (Finset Triple) :=
  replaced.foldl (fun previous key =>
    let triples := triplesForSubject store key
    if triples = ∅ then previous else previous.insert key triples) ∅

/-- The loop that takes replaced subjects out of the postings. -/
def dropSubjects (previous : BTreeMap String (Finset Triple)) : List String →
    PropertyIndex × TextIndex × NormalizedText → PropertyIndex × TextIndex × NormalizedText
  | [], state => state
  | key :: rest, (properties, texts, normalized) =>
    let properties :=
      match texts.id key, previous.get key with
      | some id, some triples => properties.removeSubject numerals id triples
      | _, _ => properties
    let (texts, normalized) := texts.remove key normalized
    dropSubjects previous rest (properties, texts, normalized)

/-- The ledger entry of a changed unit. -/
def updateOwner (projected : Projection) (ledger : HashMap OutlineOwner (BTreeSet String))
    (owner : OutlineOwner) : HashMap OutlineOwner (BTreeSet String) :=
  match projected.ownerEntities.lookup owner with
  | some keys => (ledger.erase owner).insert owner keys
  | none => ledger.erase owner

def IndexDelta.owners (delta : IndexDelta) : BTreeSet OutlineOwner :=
  (∅ : BTreeSet OutlineOwner).extend (delta.changes.entries.map fun e => e.1.owner)

def IndexDelta.project (delta : IndexDelta) (graph : GraphId) : Projection :=
  delta.changes.entries.foldl (fun p e =>
    match e.2 with
    | .upsert unit => projectUnit numerals graph p unit
    | .remove _ => p) Projection.empty

def GraphIndex.applyDelta (ix : GraphIndex) (delta : IndexDelta) :
    Except QueryError (GraphIndex × Bool) := do
  let projected := delta.project numerals ix.graphId
  let owners := delta.owners.toList
  let replaced := (replacedSubjects ix.ownerEntities projected owners).toList
  let previous := previousTriples ix.store replaced
  let triplesChanged :=
    replaced.any fun key => decide (previous.get key ≠ projected.entities.get key)
  if !triplesChanged && ix.frontier == delta.frontier then
    return (ix, false)
  let entityRefs := projected.entityRefs.entries.foldl (fun m e => m.insert e.1 e.2)
    (replaced.foldl (fun m key => m.erase key) ix.entityRefs)
  let ownerEntities := owners.foldl (updateOwner projected) ix.ownerEntities
  let revision := min (ix.revision + 1) usizeMax
  if triplesChanged then
    let tripleCount ← orElse
      ((checkedSub ix.tripleCount (total previous.entries)).bind
        fun count => checkedAdd count (total projected.entities.entries))
      tripleCountOverflow
    let store := replaced.foldl (fun store key =>
      writeEntityDiff store (previous.get key) (projected.entities.get key)) ix.store
    let (properties, texts, normalized) := dropSubjects numerals previous replaced
      (ix.propertyIndex, ix.textIndex, ix.normalizedText)
    let (textIndex, normalizedText) ←
      insertTexts unicode projected.entityText.entries (texts, normalized)
    let propertyIndex ←
      insertProperties numerals textIndex projected.entities.entries properties
    return ({ ix with store, entityRefs, ownerEntities, textIndex, propertyIndex, normalizedText,
                      tripleCount, revision, frontier := delta.frontier }, true)
  else
    return ({ ix with entityRefs, ownerEntities, revision, frontier := delta.frontier }, true)

end Neoseq.Query
