import Neoseq.Collections.StrictWeak
import Neoseq.Editor.Halves
import Neoseq.Query.Plan
import Neoseq.Query.Projection

/-! The saved order of a result: a comparator of rows from the semantics of each sort key. -/

namespace Neoseq.Answers

open Collections (StrictWeakOn compareVectors sortBy)
open Domain (BlockSnapshot F64 OutlineOwner PropertyValue QueryViewFieldSort QueryViewSort)
open Neoseq.Query (PlanField QueryEntityRef)

inductive Missing where
  | below | last
  deriving DecidableEq

inductive OrderSemantics where
  | ranked (values : List String) (missing : Missing)
  | number
  | date
  | boolean
  | text
  | entityLabel
  deriving DecidableEq

inductive RdfTerm where
  | iri (value : String) (entity : Option QueryEntityRef)
  | literal (value datatype : String) (language : Option String)
  deriving DecidableEq

def RdfTerm.value : RdfTerm → String
  | .iri value _ => value
  | .literal value .. => value

/-- A comparison of texts that is a total preorder, as that of a locale. -/
structure Collator where
  compare : String → String → Ordering
  weak : StrictWeakOn (fun _ => True) compare

/-- What the comparators use of the surface: its locale, the names of entities, and the finite
numbers that texts stand for. -/
structure CellContext where
  collator : Collator
  entityName : QueryEntityRef → String
  finiteNumber : String → Option Rat

def CellContext.compare (context : CellContext) (left right : String) : Ordering :=
  context.collator.compare left right

/-! ## Terms -/

/-- Known values and bound values stay ahead of fallbacks in either direction: the row comparator
reverses descending order, and this reverses it before. -/
def fixedBucket (comparison : Ordering) (descending : Bool) : Ordering :=
  if descending then comparison.swap else comparison

def textOf (term : RdfTerm) (semantics : OrderSemantics) (context : CellContext) : String :=
  match semantics, term with
  | .entityLabel, .iri _ (some entity) => context.entityName entity
  | _, term => term.value

/-- `===` and `<` of strings, by their UTF-16 units. -/
def compareUnits (left right : String) : Ordering :=
  if Editor.utf16 left.toList = Editor.utf16 right.toList then .eq
  else if Editor.utf16 left.toList < Editor.utf16 right.toList then .lt
  else .gt

def booleanRank (value : String) : Nat := if value = "true" ∨ value = "1" then 1 else 0

/-- Two bound terms, where their values have no declared ranks. -/
def compareBoundTerms (left right : RdfTerm) (semantics : OrderSemantics)
    (context : CellContext) : Ordering :=
  let texts := context.compare (textOf left semantics context) (textOf right semantics context)
  match semantics with
  | .number =>
    match context.finiteNumber left.value, context.finiteNumber right.value with
    | some leftNumber, some rightNumber => Ord.compare leftNumber rightNumber
    | _, _ => texts
  | .boolean => Ord.compare (booleanRank left.value) (booleanRank right.value)
  | .date => compareUnits left.value right.value
  | _ => texts

/-- Two terms whose values have ranks, or are fallbacks outside of them. -/
def compareRanks (left right : RdfTerm) (values : List String) (context : CellContext)
    (descending : Bool) : Ordering :=
  match values.idxOf? left.value, values.idxOf? right.value with
  | none, none => context.compare left.value right.value
  | none, some _ => fixedBucket .gt descending
  | some _, none => fixedBucket .lt descending
  | some leftRank, some rightRank =>
    if leftRank ≠ rightRank then Ord.compare leftRank rightRank
    else context.compare left.value right.value

/-- An ascending term comparator. `descending` is needed only to pre-compensate
direction-invariant buckets. -/
def compareResultTerms (left right : Option RdfTerm) (semantics : OrderSemantics)
    (context : CellContext) (descending : Bool) : Ordering :=
  match semantics with
  | .ranked values missing =>
    match left, right with
    | none, none => .eq
    | none, some right =>
      if missing = .last then fixedBucket .gt descending
      else if values.idxOf? right.value = none then fixedBucket .lt descending
      else .lt
    | some left, none =>
      if missing = .last then fixedBucket .lt descending
      else if values.idxOf? left.value = none then fixedBucket .gt descending
      else .gt
    | some left, some right => compareRanks left right values context descending
  | semantics =>
    match left, right with
    | none, none => .eq
    | none, some _ => fixedBucket .gt descending
    | some _, none => fixedBucket .lt descending
    | some left, some right => compareBoundTerms left right semantics context

/-! ## Sort values -/

structure SortValue where
  terms : List RdfTerm
  time : Option RdfTerm
  deriving DecidableEq

/-- Two digits below 24, a colon, and two digits below 60. -/
def isTimeOfDay (value : String) : Bool :=
  match value.toList with
  | [h, h', ':', m, m'] =>
    h.isDigit && h'.isDigit && m.isDigit && m'.isDigit &&
      decide (10 * (h.toNat - 48) + (h'.toNat - 48) < 24) &&
      decide (10 * (m.toNat - 48) + (m'.toNat - 48) < 60)
  | _ => false

def validTime : Option RdfTerm → Option RdfTerm
  | some (.literal value datatype language) =>
    if isTimeOfDay value then some (.literal value datatype language) else none
  | _ => none

def sortedTerms (terms : List RdfTerm) (semantics : OrderSemantics) (context : CellContext) :
    List RdfTerm :=
  sortBy (fun a b => compareResultTerms (some a) (some b) semantics context false) terms

def compareSortValues (left right : SortValue) (semantics : OrderSemantics)
    (context : CellContext) (descending : Bool) : Ordering :=
  if left.terms = [] ∨ right.terms = [] then
    compareResultTerms left.terms.head? right.terms.head? semantics context descending
  else
    (compareVectors
        (fun a b => compareResultTerms (some a) (some b) semantics context descending)
        (sortedTerms left.terms semantics context) (sortedTerms right.terms semantics context)).then
      -- a companion clock refines equal dates
      (compareResultTerms (validTime left.time) (validTime right.time) .text context descending)

/-- The comparison by one sort key. -/
def compareKeys (semantics : OrderSemantics) (context : CellContext) (descending : Bool)
    (left right : SortValue) : Ordering :=
  let comparison := compareSortValues left right semantics context descending
  if descending then comparison.swap else comparison

/-! ## Result rows -/

structure ResultViewRow where
  key : String
  /-- The own members of the object of terms. -/
  values : String → Option (List RdfTerm)
  subject : Option QueryEntityRef

/-- The members of `Object.prototype` that are no arrays and have no length zero. A lookup in an
object finds them where it has no member of its own. -/
def objectMembers : List String :=
  ["constructor", "__proto__", "hasOwnProperty", "isPrototypeOf", "propertyIsEnumerable",
    "__defineGetter__", "__defineSetter__", "__lookupGetter__", "__lookupSetter__"]

/-- The terms that a lookup finds. The members with length zero are like no terms. -/
def ResultViewRow.lookup (row : ResultViewRow) (name : String) : Option (List RdfTerm) :=
  match row.values name with
  | some terms => some terms
  | none => if name ∈ objectMembers then none else some []

structure ResultColumn where
  variableName : String
  timeColumn : Option String
  ordering : OrderSemantics
  sortable : Bool

/-- A later column of a variable replaces an earlier one. -/
def columnOf (columns : List ResultColumn) (variableName : String) : Option ResultColumn :=
  columns.reverse.find? fun column => column.variableName = variableName

/-- The value of a row for a sort key, if what a lookup finds is one. A member that is no array of
terms has no first item either. -/
def resultValue (column : ResultColumn) (sort : QueryViewSort) (row : ResultViewRow) :
    Option SortValue :=
  (row.lookup sort.variableName).map fun terms =>
    { terms
      time := (column.timeColumn.filter (· ≠ "")).bind fun time =>
        (row.values time).bind List.head? }

/-- The comparison of what two lookups find. It throws where both have to be spread and one is no
array. -/
def compareResultValues (semantics : OrderSemantics) (context : CellContext) (descending : Bool) :
    Option SortValue → Option SortValue → Option Ordering
  | some left, some right => some (compareKeys semantics context descending left right)
  | some left, none => if left.terms = [] then some .eq else none
  | none, some right => if right.terms = [] then some .eq else none
  | none, none => none

def compareResultRows (sorts : List QueryViewSort) (columns : List ResultColumn)
    (context : CellContext) (left right : ResultViewRow) : Option Ordering :=
  match sorts with
  | [] => some .eq
  | sort :: sorts =>
    match (columnOf columns sort.variableName).filter ResultColumn.sortable with
    | none => compareResultRows sorts columns context left right
    | some column =>
      match compareResultValues column.ordering context sort.descending
          (resultValue column sort left) (resultValue column sort right) with
      | some .eq => compareResultRows sorts columns context left right
      | comparison => comparison

/-- Equal rows retain the query's order. Which pairs are compared is up to the engine, so there is
no order where the comparison of a pair throws. -/
def orderResultRows (rows : List ResultViewRow) (sorts : List QueryViewSort)
    (columns : List ResultColumn) (context : CellContext) : Option (List ResultViewRow) :=
  if sorts = [] ∨ rows.length < 2 then some rows
  else if rows.Pairwise fun left right =>
      (compareResultRows sorts columns context left right).isSome = true then
    some (sortBy (fun left right =>
      (compareResultRows sorts columns context left right).getD .eq) rows)
  else none

/-! ## Block rows -/

/-- One filter field as the list sorter understands it. -/
structure ListSortField where
  id : String
  field : PlanField
  ordering : OrderSemantics

structure OutlineRow where
  block : BlockSnapshot
  index : Nat

/-- What the surface shows: the row of a block in its outline, and numbers as texts. -/
structure ListContext extends CellContext where
  outlineRow : OutlineOwner → String → Option OutlineRow
  numberText : F64 → String

def xsd : String := "http://www.w3.org/2001/XMLSchema#"

def literalTerm (value datatype : String) : RdfTerm := .literal value (xsd ++ datatype) none

def entityTerm : QueryEntityRef → RdfTerm
  | .page id => .iri id (some (.page id))
  | .block owner id => .iri id (some (.block owner id))
  | .tag id => .iri id (some (.tag id))

def propertyTerm (context : ListContext) : PropertyValue → List RdfTerm
  | .number value => [literalTerm (context.numberText value) "double"]
  | .string value => [literalTerm value "string"]
  | .page id => [entityTerm (.page id.asStr)]
  | .checkbox value => [literalTerm (if value then "true" else "false") "boolean"]
  | .date value => [literalTerm value.asStr "date"]
  | .document _ => []
  | .unsupportedDocument .. => []

def fieldTerms (context : ListContext) (owner : OutlineOwner) (row : OutlineRow) :
    PlanField → List RdfTerm
  | .content => [literalTerm row.block.markdown "string"]
  | .property key =>
    ((row.block.properties.fields.find? fun field => field.key.asStr = key).map fun field =>
      field.values.flatMap (propertyTerm context)).getD []
  | .tag => row.block.tags.map fun id => entityTerm (.tag id.asStr)
  | .page | .ancestor =>
    match owner with
    | .page id => [entityTerm (.page id.asStr)]
    | .tag _ => []
  | .siblingIndex => [literalTerm (toString row.index) "integer"]

def isTaskDateKey (key : String) : Bool :=
  key = "builtin.task-scheduled" || key = "builtin.task-deadline"

def timeKeyFor (key : String) : String :=
  if key = "builtin.task-scheduled" then "builtin.task-scheduled-time"
  else "builtin.task-deadline-time"

/-- A later field of an id replaces an earlier one. -/
def descriptorOf (fields : List ListSortField) (id : String) : Option ListSortField :=
  fields.reverse.find? fun field => field.id = id

/-- The value of a block for a sort key; blocks that are not shown have none. -/
def blockValue (context : ListContext) (descriptor : ListSortField) (row : ResultViewRow) :
    Option SortValue :=
  match row.subject with
  | some (.block owner id) =>
    (context.outlineRow owner id).map fun blockRow =>
      { terms := fieldTerms context owner blockRow descriptor.field
        time := match descriptor.field with
          | .property key =>
            if isTaskDateKey key then
              (fieldTerms context owner blockRow (.property (timeKeyFor key))).head?
            else none
          | _ => none }
  | _ => none

/-- `values.get(key)`, where a later row of a key replaces an earlier one. -/
def valueOfKey (context : ListContext) (rows : List ResultViewRow) (descriptor : ListSortField)
    (key : String) : SortValue :=
  ((rows.reverse.find? fun row => row.key = key).bind
    (blockValue context descriptor)).getD ⟨[], none⟩

def compareBlockRows (context : ListContext) (rows : List ResultViewRow)
    (sorts : List QueryViewFieldSort) (fields : List ListSortField)
    (left right : ResultViewRow) : Ordering :=
  match sorts with
  | [] => compareUnits left.key right.key
  | sort :: sorts =>
    match descriptorOf fields sort.field with
    | none => compareBlockRows context rows sorts fields left right
    | some descriptor =>
      (compareKeys descriptor.ordering context.toCellContext sort.descending
        (valueOfKey context rows descriptor left.key)
        (valueOfKey context rows descriptor right.key)).then
        (compareBlockRows context rows sorts fields left right)

def orderBlockRows (context : ListContext) (rows : List ResultViewRow)
    (sorts : List QueryViewFieldSort) (fields : List ListSortField) : List ResultViewRow :=
  if sorts = [] ∨ rows.length < 2 then rows
  else sortBy (compareBlockRows context rows sorts fields) rows

/-! ## Comparisons of terms -/

theorem weak_compareUnits {α : Type} (f : α → String) :
    StrictWeakOn (fun _ => True) fun a b => compareUnits (f a) (f b) := by
  refine (Collections.weak_compare fun a => Editor.utf16 (f a).toList).congr fun a b _ _ => ?_
  unfold compareUnits
  split_ifs with heq hlt
  · exact (compare_eq_iff_eq.mpr heq).symm
  · exact (compare_lt_iff_lt.mpr hlt).symm
  · exact (compare_gt_iff_gt.mpr (lt_of_le_of_ne (le_of_not_gt hlt) (Ne.symm heq))).symm

theorem weak_texts {α : Type} (context : CellContext) (f : α → String) :
    StrictWeakOn (fun _ => True) fun a b => context.compare (f a) (f b) :=
  context.collator.weak.comap f

theorem compareRanks_swap (left right : RdfTerm) (values : List String) (context : CellContext)
    (descending : Bool) :
    compareRanks left right values context descending =
      (compareRanks right left values context descending).swap := by
  have htexts := (weak_texts context id).oriented left.value right.value trivial trivial
  unfold compareRanks
  cases hrank : values.idxOf? left.value with
  | none =>
    cases hrank' : values.idxOf? right.value with
    | none => exact htexts
    | some j => cases descending <;> rfl
  | some i =>
    cases hrank' : values.idxOf? right.value with
    | none => cases descending <;> rfl
    | some j =>
      dsimp only
      by_cases hij : i = j
      · subst hij
        rw [if_neg (not_not.mpr rfl), if_neg (not_not.mpr rfl)]
        exact htexts
      · rw [if_pos hij, if_pos (Ne.symm hij)]
        exact (Collections.weak_compare (id : Nat → Nat)).oriented i j trivial trivial

theorem compareBoundTerms_swap (left right : RdfTerm) (semantics : OrderSemantics)
    (context : CellContext) :
    compareBoundTerms left right semantics context =
      (compareBoundTerms right left semantics context).swap := by
  have htexts := (weak_texts context id).oriented (textOf left semantics context)
    (textOf right semantics context) trivial trivial
  cases semantics with
  | number =>
    unfold compareBoundTerms
    dsimp only
    cases context.finiteNumber left.value with
    | none => cases context.finiteNumber right.value <;> exact htexts
    | some p =>
      cases context.finiteNumber right.value with
      | none => exact htexts
      | some q => exact (Collections.weak_compare (id : Rat → Rat)).oriented p q trivial trivial
  | boolean =>
    exact (Collections.weak_compare fun a : RdfTerm => booleanRank a.value).oriented left right
      trivial trivial
  | date => exact (weak_compareUnits RdfTerm.value).oriented left right trivial trivial
  | ranked values missing => exact htexts
  | text => exact htexts
  | entityLabel => exact htexts

/-- Where there are no ranks, whatever is missing comes last. -/
theorem compareResultTerms_unranked {semantics : OrderSemantics}
    (h : ∀ values missing, semantics ≠ .ranked values missing) (left right : Option RdfTerm)
    (context : CellContext) (descending : Bool) :
    compareResultTerms left right semantics context descending =
      match left, right with
      | none, none => .eq
      | none, some _ => fixedBucket .gt descending
      | some _, none => fixedBucket .lt descending
      | some left, some right => compareBoundTerms left right semantics context := by
  cases semantics with
  | ranked values missing => exact absurd rfl (h values missing)
  | number | boolean | date | text | entityLabel => rfl

theorem compareResultTerms_swap (left right : Option RdfTerm) (semantics : OrderSemantics)
    (context : CellContext) (descending : Bool) :
    compareResultTerms left right semantics context descending =
      (compareResultTerms right left semantics context descending).swap := by
  cases semantics with
  | ranked values missing =>
    cases left with
    | none =>
      cases right with
      | none => rfl
      | some right =>
        unfold compareResultTerms
        dsimp only
        split_ifs <;> cases descending <;> rfl
    | some left =>
      cases right with
      | none =>
        unfold compareResultTerms
        dsimp only
        split_ifs <;> cases descending <;> rfl
      | some right => exact compareRanks_swap left right values context descending
  | number | boolean | date | text | entityLabel =>
    rw [compareResultTerms_unranked (fun _ _ h => by cases h),
      compareResultTerms_unranked (fun _ _ h => by cases h)]
    cases left with
    | none => cases right <;> cases descending <;> rfl
    | some left =>
      cases right with
      | none => cases descending <;> rfl
      | some right => exact compareBoundTerms_swap left right _ context

/-- Ranks come first and fallbacks behind them, whichever way the rows run. -/
theorem weak_compareRanks (values : List String) (context : CellContext) (descending : Bool) :
    StrictWeakOn (fun _ => True) fun a b => compareRanks a b values context descending := by
  refine .of_classes
    (fun a => if (values.idxOf? a.value).isNone = descending then 0 else 1) (fun i => ?_)
    (fun a b _ _ => compareRanks_swap a b values context descending) fun a b _ _ hk => ?_
  · have hsame {a b : RdfTerm}
        (h : (if (values.idxOf? a.value).isNone = descending then 0 else 1) = i)
        (h' : (if (values.idxOf? b.value).isNone = descending then 0 else 1) = i) :
        compareRanks a b values context descending =
          (Ord.compare ((values.idxOf? a.value).getD 0) ((values.idxOf? b.value).getD 0)).then
            (context.compare a.value b.value) := by
      unfold compareRanks
      cases hrank : values.idxOf? a.value with
      | none =>
        cases hrank' : values.idxOf? b.value with
        | none => rfl
        | some j => cases descending <;> simp [hrank, hrank'] at h h' <;> omega
      | some i' =>
        cases hrank' : values.idxOf? b.value with
        | none => cases descending <;> simp [hrank, hrank'] at h h' <;> omega
        | some j =>
          dsimp only [Option.getD_some]
          split_ifs with hne
          · cases hcmp : Ord.compare i' j with
            | eq => exact absurd (compare_eq_iff_eq.mp hcmp) hne
            | lt => rfl
            | gt => rfl
          · rw [not_not] at hne
            rw [compare_eq_iff_eq.mpr hne]
            rfl
    exact (((Collections.weak_compare fun a : RdfTerm => (values.idxOf? a.value).getD 0).andThen
      (weak_texts context RdfTerm.value)).mono fun _ _ => trivial).congr
        fun a b ha hb => hsame ha.2 hb.2
  · unfold compareRanks fixedBucket
    cases hrank : values.idxOf? a.value <;> cases hrank' : values.idxOf? b.value <;>
      cases descending <;> simp [hrank, hrank'] at hk ⊢

/-- Each text that is not a finite number cuts the numbers in their order: those that the locale
puts before, level with and behind it ascend, and those level with it are equal. -/
structure Interleaved (context : CellContext) (T : RdfTerm → Prop) : Prop where
  before : ∀ a b x p q, T a → T b → T x → context.finiteNumber a.value = some p →
    context.finiteNumber b.value = some q → context.finiteNumber x.value = none → p ≤ q →
    (context.compare b.value x.value).isLE = true → (context.compare a.value x.value).isLE = true
  behind : ∀ a b x p q, T a → T b → T x → context.finiteNumber a.value = some p →
    context.finiteNumber b.value = some q → context.finiteNumber x.value = none → p ≤ q →
    (context.compare x.value a.value).isLE = true → (context.compare x.value b.value).isLE = true
  across : ∀ a b x p q, T a → T b → T x → context.finiteNumber a.value = some p →
    context.finiteNumber b.value = some q → context.finiteNumber x.value = none →
    (context.compare a.value x.value).isLE = true →
    (context.compare x.value b.value).isLE = true → p ≤ q

/-- What a comparison of bound terms asks of the numbers among them. -/
def Numbers (semantics : OrderSemantics) (context : CellContext) (T : RdfTerm → Prop) : Prop :=
  semantics = .number → Interleaved context T

theorem Interleaved.mono {context : CellContext} {T T' : RdfTerm → Prop}
    (h : Interleaved context T) (hT : ∀ t, T' t → T t) : Interleaved context T' where
  before a b x p q ha hb hx := h.before a b x p q (hT a ha) (hT b hb) (hT x hx)
  behind a b x p q ha hb hx := h.behind a b x p q (hT a ha) (hT b hb) (hT x hx)
  across a b x p q ha hb hx := h.across a b x p q (hT a ha) (hT b hb) (hT x hx)

theorem weak_numbers {context : CellContext} {T : RdfTerm → Prop} (h : Interleaved context T) :
    StrictWeakOn T fun a b => compareBoundTerms a b .number context := by
  have htexts := weak_texts context RdfTerm.value
  have hle {a b : Rat} : (Ord.compare a b).isLE = true ↔ a ≤ b := by
    rw [← compare_le_iff_le, Ordering.isLE_iff_ne_gt]
  refine ⟨fun a b _ _ => compareBoundTerms_swap a b .number context,
    fun a b c ha hb hc hab hbc => ?_⟩
  · unfold compareBoundTerms at hab hbc ⊢
    dsimp only [textOf] at hab hbc ⊢
    cases hp : context.finiteNumber a.value with
    | none =>
      rw [hp] at hab
      cases hq : context.finiteNumber b.value with
      | none =>
        rw [hq] at hbc
        exact htexts.trans a b c trivial trivial trivial hab hbc
      | some q =>
        rw [hq] at hbc
        cases hr : context.finiteNumber c.value with
        | none =>
          rw [hr] at hbc
          exact htexts.trans a b c trivial trivial trivial hab hbc
        | some r =>
          rw [hr] at hbc
          exact h.behind b c a q r hb hc ha hq hr hp (hle.mp hbc) hab
    | some p =>
      rw [hp] at hab
      cases hq : context.finiteNumber b.value with
      | none =>
        rw [hq] at hab hbc
        cases hr : context.finiteNumber c.value with
        | none => exact htexts.trans a b c trivial trivial trivial hab hbc
        | some r => exact hle.mpr (h.across a c b p r ha hc hb hp hr hq hab hbc)
      | some q =>
        rw [hq] at hab hbc
        cases hr : context.finiteNumber c.value with
        | none =>
          rw [hr] at hbc
          exact h.before a b c p q ha hb hc hp hq hr (hle.mp hab) hbc
        | some r =>
          rw [hr] at hbc
          exact hle.mpr ((hle.mp hab).trans (hle.mp hbc))

theorem weak_compareBoundTerms {semantics : OrderSemantics} {context : CellContext}
    {T : RdfTerm → Prop} (h : Numbers semantics context T) :
    StrictWeakOn T fun a b => compareBoundTerms a b semantics context := by
  have hall {cmp : RdfTerm → RdfTerm → Ordering} (hcmp : StrictWeakOn (fun _ => True) cmp) :
      StrictWeakOn T cmp := hcmp.mono fun _ _ => trivial
  cases semantics with
  | number => exact weak_numbers (h rfl)
  | boolean => exact hall (Collections.weak_compare fun a : RdfTerm => booleanRank a.value)
  | date => exact hall (weak_compareUnits RdfTerm.value)
  | ranked values missing => exact hall (weak_texts context fun a => textOf a _ context)
  | text => exact hall (weak_texts context fun a => textOf a _ context)
  | entityLabel => exact hall (weak_texts context fun a => textOf a _ context)

/-- Bound terms are ordered, given what is asked of the numbers. -/
theorem weak_terms {semantics : OrderSemantics} {context : CellContext} {T : RdfTerm → Prop}
    (h : Numbers semantics context T) (descending : Bool) :
    StrictWeakOn T fun a b =>
      compareResultTerms (some a) (some b) semantics context descending := by
  cases semantics with
  | ranked values missing =>
    exact (weak_compareRanks values context descending).mono fun _ _ => trivial
  | number => exact weak_compareBoundTerms h
  | boolean => exact weak_compareBoundTerms h
  | date => exact weak_compareBoundTerms h
  | text => exact weak_compareBoundTerms h
  | entityLabel => exact weak_compareBoundTerms h

/-- Clocks are compared as texts; a missing one comes last, whichever way the rows run. -/
theorem weak_clocks (context : CellContext) (descending : Bool) :
    StrictWeakOn (fun _ => True) fun a b : Option RdfTerm =>
      compareResultTerms a b .text context descending := by
  refine .of_classes (fun a => if a.isNone = descending then 0 else 1) (fun i => ?_)
    (fun a b _ _ => compareResultTerms_swap a b .text context descending) fun a b _ _ hk => ?_
  · refine ((weak_texts context fun a : Option RdfTerm => (a.map RdfTerm.value).getD "").mono
      fun _ _ => trivial).congr fun a b ha hb => ?_
    cases a with
    | none =>
      cases b with
      | none => exact ((weak_texts context id).refl trivial).symm
      | some b =>
        have hk := ha.2.trans hb.2.symm
        cases descending <;> simp at hk
    | some a =>
      cases b with
      | none =>
        have hk := ha.2.trans hb.2.symm
        cases descending <;> simp at hk
      | some b => rfl
  · cases a <;> cases b <;> cases descending <;>
      simp [compareResultTerms, fixedBucket] at hk ⊢

/-! ## Comparisons of sort values -/

theorem mem_sortedTerms (terms : List RdfTerm) (semantics : OrderSemantics)
    (context : CellContext) (t : RdfTerm) :
    t ∈ sortedTerms terms semantics context ↔ t ∈ terms :=
  (Collections.sortBy_perm _ terms).mem_iff

/-- Values that are there are compared term by term, and by their clocks. -/
theorem weak_bound {semantics : OrderSemantics} {context : CellContext}
    {R : SortValue → Prop} (hnumbers : Numbers semantics context fun t => ∃ v, R v ∧ t ∈ v.terms)
    (hbound : ∀ v, R v → v.terms ≠ []) (descending : Bool) :
    StrictWeakOn R fun a b => compareSortValues a b semantics context descending := by
  have hvectors := (weak_terms hnumbers descending).vectors.comap fun v : SortValue =>
    sortedTerms v.terms semantics context
  have hclocks := (weak_clocks context descending).comap fun v : SortValue => validTime v.time
  refine ((hvectors.mono fun v hv => ?_).andThen (hclocks.mono fun _ _ => trivial)).congr
    fun a b ha hb => ?_
  · intro t ht
    exact ⟨v, hv, (mem_sortedTerms ..).mp ht⟩
  · unfold compareSortValues
    rw [if_neg]
    exact not_or.mpr ⟨hbound a ha, hbound b hb⟩

/-- The first term of a value as it was read is a fallback. -/
def FirstFallback (values : List String) (v : SortValue) : Prop :=
  ∃ t, v.terms.head? = some t ∧ values.idxOf? t.value = none

instance (values : List String) (v : SortValue) : Decidable (FirstFallback values v) :=
  match h : v.terms.head? with
  | none => .isFalse fun ⟨_, ht, _⟩ => by rw [h] at ht; cases ht
  | some t =>
    if hfallback : values.idxOf? t.value = none then .isTrue ⟨t, h, hfallback⟩
    else .isFalse fun ⟨_, ht, hnone⟩ => by
      rw [h] at ht
      exact hfallback (Option.some.inj ht ▸ hnone)

/-- When a sort key orders some values: numbers do not mix with texts that stand among them out of
order; and where missing values have a rank and the order descends, no value begins with a
fallback and has a rank as well, unless none is missing. -/
structure Sound (semantics : OrderSemantics) (context : CellContext) (descending : Bool)
    (R : SortValue → Prop) : Prop where
  numbers : Numbers semantics context fun t => ∃ v, R v ∧ t ∈ v.terms
  ranks : ∀ values, semantics = .ranked values .below → descending = true →
    (∃ v, R v ∧ v.terms = []) → ∀ v, R v → FirstFallback values v →
    ∀ t ∈ v.terms, values.idxOf? t.value = none

/-! ## Missing values and fallbacks -/

theorem compareSortValues_swap (left right : SortValue) (semantics : OrderSemantics)
    (context : CellContext) (descending : Bool) :
    compareSortValues left right semantics context descending =
      (compareSortValues right left semantics context descending).swap := by
  unfold compareSortValues
  by_cases h : left.terms = [] ∨ right.terms = []
  · rw [if_pos h, if_pos h.symm]
    exact compareResultTerms_swap _ _ _ _ _
  · rw [if_neg h, if_neg fun h' => h h'.symm, Ordering.swap_then,
      ← compareResultTerms_swap, ← Collections.compareVectors_swap]
    exact fun a _ b _ => compareResultTerms_swap (some a) (some b) semantics context descending

/-- A value with a rank begins with one once it is sorted. -/
theorem sortedTerms_of_ranked {values : List String} (missing : Missing) (context : CellContext)
    {terms : List RdfTerm} {t : RdfTerm} (ht : t ∈ terms) (hrank : values.idxOf? t.value ≠ none) :
    ∃ first rest, sortedTerms terms (.ranked values missing) context = first :: rest ∧
      first ∈ terms ∧ values.idxOf? first.value ≠ none := by
  have hsorted : (sortedTerms terms (.ranked values missing) context).Pairwise fun a b =>
      (compareRanks a b values context false).isLE :=
    ((weak_compareRanks values context false).mono fun _ _ => trivial).pairwise_sortBy
  have hmem := (mem_sortedTerms _ (.ranked values missing) context t).mpr ht
  cases hlist : sortedTerms terms (.ranked values missing) context with
  | nil =>
    rw [hlist] at hmem
    cases hmem
  | cons first rest =>
    have hfirst : first ∈ terms := (mem_sortedTerms ..).mp (hlist ▸ List.mem_cons_self)
    refine ⟨first, rest, rfl, hfirst, fun hnone => ?_⟩
    rw [hlist] at hmem hsorted
    rcases List.mem_cons.mp hmem with rfl | hrest
    · exact hrank hnone
    · have hle := List.rel_of_pairwise_cons hsorted hrest
      obtain ⟨i, hi⟩ := Option.ne_none_iff_exists'.mp hrank
      unfold compareRanks at hle
      rw [hnone, hi] at hle
      cases hle

/-- Fallbacks only, against a value with a rank. -/
theorem compareSortValues_fallbacks {values : List String} {missing : Missing}
    {context : CellContext} {left right : SortValue} {t : RdfTerm} (hleft : left.terms ≠ [])
    (hfallback : ∀ t ∈ left.terms, values.idxOf? t.value = none) (ht : t ∈ right.terms)
    (hrank : values.idxOf? t.value ≠ none) (descending : Bool) :
    compareSortValues left right (.ranked values missing) context descending =
      fixedBucket .gt descending := by
  obtain ⟨first, rest, hright, -, hfirst⟩ :=
    sortedTerms_of_ranked missing context ht hrank
  have hne : ¬(left.terms = [] ∨ right.terms = []) := by
    rintro (hnil | hnil)
    · exact hleft hnil
    · rw [hnil] at ht
      cases ht
  cases hlist : sortedTerms left.terms (.ranked values missing) context with
  | nil =>
    obtain ⟨t', ht'⟩ := List.exists_mem_of_ne_nil _ hleft
    have hmem := (mem_sortedTerms _ (.ranked values missing) context t').mpr ht'
    rw [hlist] at hmem
    cases hmem
  | cons other rest' =>
    have hother : values.idxOf? other.value = none :=
      hfallback other ((mem_sortedTerms ..).mp (hlist ▸ List.mem_cons_self))
    obtain ⟨i, hi⟩ := Option.ne_none_iff_exists'.mp hfirst
    have hcompare : compareResultTerms (some other) (some first) (.ranked values missing) context
        descending = fixedBucket .gt descending := by
      show compareRanks other first values context descending = _
      unfold compareRanks
      rw [hother, hi]
    unfold compareSortValues
    rw [if_neg hne, hlist, hright, compareVectors, hcompare]
    cases descending <;> rfl

/-- Where missing values have no rank they come last. -/
theorem compareSortValues_missing {semantics : OrderSemantics}
    (h : ∀ values, semantics ≠ .ranked values .below) (context : CellContext)
    {left right : SortValue} (hleft : left.terms = []) (hright : right.terms ≠ [])
    (descending : Bool) :
    compareSortValues left right semantics context descending = fixedBucket .gt descending := by
  obtain ⟨t, ht⟩ := List.exists_mem_of_ne_nil _ hright
  unfold compareSortValues
  rw [if_pos (.inl hleft), hleft]
  cases hterms : right.terms with
  | nil => exact absurd hterms hright
  | cons first rest =>
    cases semantics with
    | ranked values missing =>
      cases missing with
      | below => exact absurd rfl (h values)
      | last => rfl
    | number | boolean | date | text | entityLabel => rfl

/-- Where they have one they come before every value, but in descending order behind the
values that begin with a fallback. -/
theorem compareSortValues_below (values : List String) (context : CellContext)
    {left right : SortValue} (hleft : left.terms = []) (hright : right.terms ≠ [])
    (descending : Bool) :
    compareSortValues left right (.ranked values .below) context descending =
      if FirstFallback values right then fixedBucket .lt descending else .lt := by
  unfold compareSortValues
  rw [if_pos (.inl hleft), hleft]
  cases hterms : right.terms with
  | nil => exact absurd hterms hright
  | cons first rest =>
    have hfirst : FirstFallback values right ↔ values.idxOf? first.value = none := by
      unfold FirstFallback
      rw [hterms, List.head?_cons]
      exact ⟨fun ⟨t, ht, hnone⟩ => Option.some.inj ht ▸ hnone, fun hnone => ⟨first, rfl, hnone⟩⟩
    by_cases hfallback : values.idxOf? first.value = none
    · rw [if_pos (hfirst.mpr hfallback)]
      simp [compareResultTerms, hfallback]
    · rw [if_neg fun h => hfallback (hfirst.mp h)]
      simp [compareResultTerms, hfallback]

/-! ## Sort keys -/

/-- Where the values of a kind stand as to what is missing among them. -/
def standing (semantics : OrderSemantics) (descending : Bool) (v : SortValue) : Nat :=
  match semantics with
  | .ranked values .below =>
    if v.terms = [] then 1 else if descending ∧ FirstFallback values v then 0 else 2
  | _ => if (v.terms = []) = descending then 0 else 1

theorem missing_iff_of_standing_eq {semantics : OrderSemantics} {descending : Bool}
    {a b : SortValue} (h : standing semantics descending a = standing semantics descending b) :
    a.terms = [] ↔ b.terms = [] := by
  unfold standing at h
  by_cases ha : a.terms = [] <;> by_cases hb : b.terms = []
  · exact iff_of_true ha hb
  · split at h <;> cases descending <;> simp [ha, hb] at h
    split at h <;> omega
  · split at h <;> cases descending <;> simp [ha, hb] at h
    split at h <;> omega
  · exact iff_of_false ha hb

theorem lt_of_standing_lt_below {values : List String} {context : CellContext}
    {descending : Bool} {R : SortValue → Prop}
    (h : Sound (.ranked values .below) context descending R)
    (hmissing : ∃ v, R v ∧ v.terms = []) {a b : SortValue} (ha : R a)
    (hlt : standing (.ranked values .below) descending a <
      standing (.ranked values .below) descending b) :
    compareSortValues a b (.ranked values .below) context descending = .lt := by
  unfold standing at hlt
  dsimp only at hlt
  by_cases hnil : a.terms = []
  · by_cases hnil' : b.terms = []
    · rw [if_pos hnil, if_pos hnil'] at hlt
      omega
    · rw [compareSortValues_below values context hnil hnil']
      rw [if_pos hnil, if_neg hnil'] at hlt
      by_cases hfallback : FirstFallback values b
      · rw [if_pos hfallback]
        cases descending with
        | false => rfl
        | true =>
          rw [if_pos ⟨rfl, hfallback⟩] at hlt
          omega
      · rw [if_neg hfallback]
  · rw [if_neg hnil] at hlt
    have hfallback : descending = true ∧ FirstFallback values a := by
      by_contra hcon
      rw [if_neg hcon] at hlt
      split_ifs at hlt <;> omega
    obtain ⟨rfl, hfirst⟩ := hfallback
    by_cases hnil' : b.terms = []
    · rw [compareSortValues_swap, compareSortValues_below values context hnil' hnil, if_pos hfirst]
      rfl
    · rw [if_pos ⟨rfl, hfirst⟩, if_neg hnil'] at hlt
      have hrank : ¬FirstFallback values b := by
        intro hcon
        rw [if_pos ⟨rfl, hcon⟩] at hlt
        omega
      have hfallbacks := h.ranks values rfl rfl hmissing a ha hfirst
      cases hterms : b.terms with
      | nil => exact absurd hterms hnil'
      | cons first rest =>
        refine compareSortValues_fallbacks hnil hfallbacks
          (hterms ▸ List.mem_cons_self : first ∈ b.terms) (fun hnone => ?_) true
        exact hrank ⟨first, by rw [hterms]; rfl, hnone⟩

theorem lt_of_standing_lt {semantics : OrderSemantics} {context : CellContext}
    {descending : Bool} {R : SortValue → Prop} (h : Sound semantics context descending R)
    (hmissing : ∃ v, R v ∧ v.terms = []) {a b : SortValue} (ha : R a)
    (hlt : standing semantics descending a < standing semantics descending b) :
    compareSortValues a b semantics context descending = .lt := by
  by_cases hbelow : ∃ values, semantics = .ranked values .below
  · obtain ⟨values, rfl⟩ := hbelow
    exact lt_of_standing_lt_below h hmissing ha hlt
  · have hunranked (values : List String) : semantics ≠ .ranked values .below :=
      fun heq => hbelow ⟨values, heq⟩
    have hstanding (v : SortValue) : standing semantics descending v =
        if (v.terms = []) = descending then 0 else 1 := by
      unfold standing
      split
      · exact absurd rfl (hunranked _)
      · rfl
    rw [hstanding, hstanding] at hlt
    by_cases hnil : a.terms = [] <;> by_cases hnil' : b.terms = []
    · simp [hnil, hnil'] at hlt
    · rw [compareSortValues_missing hunranked context hnil hnil']
      cases descending <;> simp [hnil, hnil'] at hlt ⊢
      rfl
    · rw [compareSortValues_swap, compareSortValues_missing hunranked context hnil' hnil]
      cases descending <;> simp [hnil, hnil'] at hlt ⊢
      rfl
    · simp [hnil, hnil'] at hlt

theorem weak_compareSortValues {semantics : OrderSemantics} {context : CellContext}
    {descending : Bool} {R : SortValue → Prop} (h : Sound semantics context descending R) :
    StrictWeakOn R fun a b => compareSortValues a b semantics context descending := by
  by_cases hmissing : ∃ v, R v ∧ v.terms = []
  · refine .of_classes (standing semantics descending) (fun i => ?_)
      (fun a b _ _ => compareSortValues_swap a b semantics context descending)
      fun a b ha _ hlt => lt_of_standing_lt h hmissing ha hlt
    by_cases hclass : ∃ v, (R v ∧ standing semantics descending v = i) ∧ v.terms = []
    · obtain ⟨v, hv, hnil⟩ := hclass
      refine StrictWeakOn.const.congr fun a b ha hb => ?_
      have ha' := (missing_iff_of_standing_eq (ha.2.trans hv.2.symm)).mpr hnil
      have hb' := (missing_iff_of_standing_eq (hb.2.trans hv.2.symm)).mpr hnil
      unfold compareSortValues
      rw [if_pos (.inl ha'), ha', hb']
      cases semantics <;> rfl
    · refine weak_bound (fun hnumber => ?_) (fun v hv hnil => hclass ⟨v, hv, hnil⟩) descending
      exact (h.numbers hnumber).mono fun t ⟨v, hv, ht⟩ => ⟨v, hv.1, ht⟩
  · exact weak_bound h.numbers (fun v hv hnil => hmissing ⟨v, hv, hnil⟩) descending

theorem weak_compareKeys {semantics : OrderSemantics} {context : CellContext}
    {descending : Bool} {R : SortValue → Prop} (h : Sound semantics context descending R) :
    StrictWeakOn R (compareKeys semantics context descending) := by
  have hweak := weak_compareSortValues h
  cases descending with
  | false => exact hweak
  | true => exact hweak.swap

/-! ## Exactness -/

/-- All values with terms of a kind. -/
def Over (T : RdfTerm → Prop) (v : SortValue) : Prop := ∀ t ∈ v.terms, T t

/-- Those of them without a clock. -/
def Plain (T : RdfTerm → Prop) (v : SortValue) : Prop := Over T v ∧ v.time = none

theorem weak_compareSortValues_of_keys {semantics : OrderSemantics} {context : CellContext}
    {descending : Bool} {R : SortValue → Prop}
    (h : StrictWeakOn R (compareKeys semantics context descending)) :
    StrictWeakOn R fun a b => compareSortValues a b semantics context descending := by
  cases descending with
  | false => exact h
  | true =>
    refine h.swap.congr fun a b _ _ => ?_
    unfold compareKeys
    dsimp only
    rw [if_pos rfl, Ordering.swap_swap]

theorem compareSortValues_single (a b : RdfTerm) (semantics : OrderSemantics)
    (context : CellContext) (descending : Bool) :
    compareSortValues ⟨[a], none⟩ ⟨[b], none⟩ semantics context descending =
      compareResultTerms (some a) (some b) semantics context descending := by
  unfold compareSortValues sortedTerms sortBy
  rw [if_neg (by simp), List.mergeSort_singleton, List.mergeSort_singleton, compareVectors]
  cases compareResultTerms (some a) (some b) semantics context descending <;> rfl

theorem interleaved_of_weak {context : CellContext} {descending : Bool} {T : RdfTerm → Prop}
    (h : StrictWeakOn (Plain T) fun a b => compareSortValues a b .number context descending) :
    Interleaved context T := by
  have hover {t} (ht : T t) : Plain T ⟨[t], none⟩ :=
    ⟨fun t' ht' => List.mem_singleton.mp ht' ▸ ht, rfl⟩
  have hle {p q : Rat} : (Ord.compare p q).isLE = true ↔ p ≤ q := by
    rw [← compare_le_iff_le, Ordering.isLE_iff_ne_gt]
  have htrans {a b c} (ha : T a) (hb : T b) (hc : T c) :
      (compareBoundTerms a b .number context).isLE = true →
      (compareBoundTerms b c .number context).isLE = true →
      (compareBoundTerms a c .number context).isLE = true := by
    have hsingle := h.trans _ _ _ (hover ha) (hover hb) (hover hc)
    rw [compareSortValues_single, compareSortValues_single, compareSortValues_single] at hsingle
    exact hsingle
  have hnumbers {a b p q} (hp : context.finiteNumber a.value = some p)
      (hq : context.finiteNumber b.value = some q) :
      (compareBoundTerms a b .number context).isLE = true ↔ p ≤ q := by
    unfold compareBoundTerms
    rw [hp, hq]
    exact hle
  have hleft {a x p} (hp : context.finiteNumber a.value = some p)
      (hx : context.finiteNumber x.value = none) :
      compareBoundTerms a x .number context = context.compare a.value x.value := by
    unfold compareBoundTerms
    rw [hp, hx]
    rfl
  have hright {a x} (hx : context.finiteNumber x.value = none) :
      compareBoundTerms x a .number context = context.compare x.value a.value := by
    unfold compareBoundTerms
    rw [hx]
    rfl
  refine ⟨fun a b x p q ha hb hx hp hq hnone hpq hbx => ?_,
    fun a b x p q ha hb hx hp hq hnone hpq hxa => ?_,
    fun a b x p q ha hb hx hp hq hnone hax hxb => ?_⟩
  · rw [← hleft hp hnone]
    exact htrans ha hb hx ((hnumbers hp hq).mpr hpq) ((hleft hq hnone).symm ▸ hbx)
  · rw [← hright hnone]
    exact htrans hx ha hb ((hright hnone).symm ▸ hxa) ((hnumbers hp hq).mpr hpq)
  · exact (hnumbers hp hq).mp (htrans ha hx hb ((hleft hp hnone).symm ▸ hax)
      ((hright hnone).symm ▸ hxb))

/-- A fallback before a ranked term, the ranked term alone, and nothing run in a circle. -/
theorem not_weak_of_mixed {values : List String} {context : CellContext} {R : SortValue → Prop}
    {f t : RdfTerm} (hpair : R ⟨[f, t], none⟩) (hone : R ⟨[t], none⟩) (hnone : R ⟨[], none⟩)
    (hfallback : values.idxOf? f.value = none) (hrank : values.idxOf? t.value ≠ none) :
    ¬StrictWeakOn R fun a b => compareSortValues a b (.ranked values .below) context true := by
  intro h
  obtain ⟨i, hi⟩ := Option.ne_none_iff_exists'.mp hrank
  have hbefore : compareSortValues ⟨[f, t], none⟩ ⟨[], none⟩ (.ranked values .below) context
      true = .lt := by
    rw [compareSortValues_swap, compareSortValues_below values context rfl (by simp),
      if_pos ⟨f, rfl, hfallback⟩]
    rfl
  have hbehind : compareSortValues ⟨[], none⟩ ⟨[t], none⟩ (.ranked values .below) context
      true = .lt := by
    rw [compareSortValues_below values context rfl (by simp), if_neg]
    rintro ⟨t', ht', hnil⟩
    obtain rfl := Option.some.inj ht'
    exact hrank hnil
  have hlt := h.lt_trans hpair hnone hone hbefore hbehind
  obtain ⟨first, rest, hsorted, hfirst, hfirstRank⟩ := sortedTerms_of_ranked .below context
    (by simp : t ∈ [f, t]) hrank
  obtain rfl : first = t := by
    rcases List.mem_pair.mp hfirst with rfl | rfl
    · exact absurd hfallback hfirstRank
    · rfl
  have hlength := (Collections.sortBy_perm (fun a b => compareResultTerms (some a) (some b)
    (.ranked values .below) context false) [f, first]).length_eq
  have hsorted' : sortBy (fun a b =>
    compareResultTerms (some a) (some b) (.ranked values .below) context false) [f, first] =
      first :: rest := hsorted
  rw [hsorted'] at hlength
  obtain ⟨last, rfl⟩ := List.length_eq_one_iff.mp (Nat.succ.inj hlength)
  have hrefl : compareResultTerms (some first) (some first) (.ranked values .below) context true =
      .eq := (weak_compareRanks values context true).refl trivial
  have hsingle : sortedTerms [first] (.ranked values .below) context = [first] :=
    List.mergeSort_singleton first
  unfold compareSortValues at hlt
  rw [if_neg (by simp), hsorted, hsingle, compareVectors, hrefl] at hlt
  cases hlt

theorem sound_of_weak {semantics : OrderSemantics} {context : CellContext} {descending : Bool}
    {T : RdfTerm → Prop} (h : StrictWeakOn (Plain T) (compareKeys semantics context descending)) :
    Sound semantics context descending (Over T) := by
  have hweak := weak_compareSortValues_of_keys h
  constructor
  · rintro rfl
    exact (interleaved_of_weak hweak).mono fun t ⟨v, hv, ht⟩ => hv t ht
  · rintro values rfl rfl - v hv ⟨f, hf, hfallback⟩ t ht
    by_contra hrank
    have hpair : Plain T ⟨[f, t], none⟩ := by
      refine ⟨fun t' ht' => ?_, rfl⟩
      rcases List.mem_pair.mp ht' with rfl | rfl
      · exact hv t' (List.mem_of_mem_head? hf)
      · exact hv t' ht
    have hone : Plain T ⟨[t], none⟩ := ⟨fun t' ht' => List.mem_singleton.mp ht' ▸ hv t ht, rfl⟩
    exact not_weak_of_mixed hpair hone ⟨nofun, rfl⟩ hfallback hrank hweak

/-- Over all values with terms of a kind, a sort key orders exactly where it is sound. -/
theorem weak_iff_sound (semantics : OrderSemantics) (context : CellContext) (descending : Bool)
    (T : RdfTerm → Prop) :
    StrictWeakOn (Over T) (compareKeys semantics context descending) ↔
      Sound semantics context descending (Over T) :=
  ⟨fun h => sound_of_weak (h.mono fun _ hv => hv.1), weak_compareKeys⟩

/-! ## Rows -/

/-- A comparator that can throw answers for all rows of a kind, and orders them. -/
structure Orders (S : ResultViewRow → Prop)
    (cmp : ResultViewRow → ResultViewRow → Option Ordering) : Prop where
  answers : ∀ left right, S left → S right → (cmp left right).isSome = true
  weak : StrictWeakOn S fun left right => (cmp left right).getD .eq

theorem Orders.congr {S : ResultViewRow → Prop}
    {cmp cmp' : ResultViewRow → ResultViewRow → Option Ordering} (h : Orders S cmp)
    (heq : ∀ left right, S left → S right → cmp' left right = cmp left right) : Orders S cmp' where
  answers left right hleft hright := by
    rw [heq left right hleft hright]
    exact h.answers left right hleft hright
  weak := h.weak.congr fun left right hleft hright => by rw [heq left right hleft hright]

theorem orders_of_weak {S : ResultViewRow → Prop}
    {cmp : ResultViewRow → ResultViewRow → Ordering} (h : StrictWeakOn S cmp) :
    Orders S fun left right => some (cmp left right) := ⟨fun _ _ _ _ => rfl, h⟩

/-- The sort keys that their columns let sort rows find terms in all rows of a kind, and are sound
for the values they find. -/
def SoundRows (S : ResultViewRow → Prop) (sorts : List QueryViewSort)
    (columns : List ResultColumn) (context : CellContext) : Prop :=
  ∀ sort ∈ sorts, ∀ column,
    (columnOf columns sort.variableName).filter ResultColumn.sortable = some column →
    (∀ row, S row → row.lookup sort.variableName ≠ none) ∧
      Sound column.ordering context sort.descending fun v => ∃ row, S row ∧
        resultValue column sort row = some v

/-- The comparison by a sort key that finds terms, and by the others. -/
theorem compareResultRows_cons {sort : QueryViewSort} {sorts : List QueryViewSort}
    {columns : List ResultColumn} {column : ResultColumn} {context : CellContext}
    {left right : ResultViewRow} {v w : SortValue} {rest : Ordering}
    (hcolumn : (columnOf columns sort.variableName).filter ResultColumn.sortable = some column)
    (hleft : resultValue column sort left = some v) (hright : resultValue column sort right = some w)
    (hrest : compareResultRows sorts columns context left right = some rest) :
    compareResultRows (sort :: sorts) columns context left right =
      some ((compareKeys column.ordering context sort.descending v w).then rest) := by
  rw [compareResultRows, hcolumn]
  dsimp only
  rw [hleft, hright]
  show (match some (compareKeys column.ordering context sort.descending v w) with
    | some .eq => _
    | comparison => comparison) = _
  cases compareKeys column.ordering context sort.descending v w with
  | eq => exact hrest
  | lt => rfl
  | gt => rfl

theorem orders_compareResultRows {S : ResultViewRow → Prop} {sorts : List QueryViewSort}
    {columns : List ResultColumn} {context : CellContext}
    (h : SoundRows S sorts columns context) :
    Orders S (compareResultRows sorts columns context) := by
  induction sorts with
  | nil => exact orders_of_weak StrictWeakOn.const
  | cons sort sorts ih =>
    have hrest := ih fun sort' hsort' => h sort' (List.mem_cons_of_mem _ hsort')
    cases hcolumn : (columnOf columns sort.variableName).filter ResultColumn.sortable with
    | none =>
      refine hrest.congr fun left right _ _ => ?_
      rw [compareResultRows, hcolumn]
    | some column =>
      obtain ⟨hfound, hsound⟩ := h sort List.mem_cons_self column hcolumn
      have hvalue {row : ResultViewRow} (hrow : S row) : resultValue column sort row =
          some ((resultValue column sort row).getD ⟨[], none⟩) := by
        obtain ⟨terms, hterms⟩ := Option.ne_none_iff_exists'.mp (hfound row hrow)
        unfold resultValue
        rw [hterms]
        rfl
      have hkey := ((weak_compareKeys hsound).comap fun row =>
        (resultValue column sort row).getD ⟨[], none⟩).mono fun row hrow => ⟨row, hrow, hvalue hrow⟩
      refine (orders_of_weak (hkey.andThen hrest.weak)).congr fun left right hleft hright => ?_
      obtain ⟨rest, hsome⟩ := Option.isSome_iff_exists.mp (hrest.answers left right hleft hright)
      rw [compareResultRows_cons hcolumn (hvalue hleft) (hvalue hright) hsome, hsome]
      rfl

/-- A row that has only these terms. -/
def onlyRow (variableName : String) (terms : List RdfTerm) : ResultViewRow where
  key := String.join (terms.map RdfTerm.value)
  values name := if name = variableName then some terms else none
  subject := none

/-- A row without terms. -/
def unboundRow : ResultViewRow where
  key := ""
  values _ := none
  subject := none

section
variable {sort : QueryViewSort} {column : ResultColumn} {context : CellContext}
  (hcolumn : column.variableName = sort.variableName) (hsortable : column.sortable = true)
include hcolumn hsortable

theorem compareResultRows_single (left right : ResultViewRow) :
    compareResultRows [sort] [column] context left right =
      compareResultValues column.ordering context sort.descending (resultValue column sort left)
        (resultValue column sort right) := by
  have hfind : (columnOf [column] sort.variableName).filter ResultColumn.sortable =
      some column := by
    simp [columnOf, hcolumn, hsortable]
  rw [compareResultRows, hfind]
  dsimp only
  cases compareResultValues column.ordering context sort.descending (resultValue column sort left)
      (resultValue column sort right) with
  | none => rfl
  | some comparison => cases comparison <;> rfl

/-- What rows that are ordered say of the values they can have. -/
theorem weak_compareKeys_of_rows (htime : column.timeColumn ≠ some sort.variableName)
    {S : ResultViewRow → Prop}
    (h : Orders S (compareResultRows [sort] [column] context)) :
    StrictWeakOn (fun v => S (onlyRow sort.variableName v.terms) ∧ v.time = none)
      (compareKeys column.ordering context sort.descending) := by
  have hvalue {v : SortValue} (hv : v.time = none) :
      resultValue column sort (onlyRow sort.variableName v.terms) = some v := by
    obtain ⟨terms, time⟩ := v
    obtain rfl : time = none := hv
    have hlookup : (onlyRow sort.variableName terms).lookup sort.variableName = some terms := by
      simp [ResultViewRow.lookup, onlyRow]
    unfold resultValue
    rw [hlookup]
    simp only [onlyRow, Option.map_some, Option.some.injEq, SortValue.mk.injEq, true_and]
    cases hcase : column.timeColumn with
    | none => rfl
    | some name =>
      have hne : name ≠ sort.variableName := fun heq => htime (heq ▸ hcase)
      by_cases hempty : name = "" <;> simp [hempty, hne]
  refine ((h.weak.comap fun v : SortValue => onlyRow sort.variableName v.terms).mono
    fun v hv => hv.1).congr fun a b ha hb => ?_
  rw [compareResultRows_single hcolumn hsortable, hvalue ha.2, hvalue hb.2]
  rfl

/-- For one sort key, over all rows with terms of a kind, there is nothing else that orders. -/
theorem orders_compareResultRows_iff (htime : column.timeColumn ≠ some sort.variableName)
    (T : RdfTerm → Prop) :
    Orders (fun row : ResultViewRow => ∀ t ∈ (row.values sort.variableName).getD [], T t)
        (compareResultRows [sort] [column] context) ↔
      Sound column.ordering context sort.descending (Over T) ∧
        sort.variableName ∉ objectMembers := by
  constructor
  · intro h
    refine ⟨sound_of_weak ((weak_compareKeys_of_rows hcolumn hsortable htime h).mono
      fun v hv => ⟨fun t ht => hv.1 t ?_, hv.2⟩), fun hmember => ?_⟩
    · simpa [onlyRow] using ht
    · have hanswer := h.answers unboundRow unboundRow nofun nofun
      have hlookup : unboundRow.lookup sort.variableName = none := by
        simp [ResultViewRow.lookup, unboundRow, hmember]
      rw [compareResultRows_single hcolumn hsortable] at hanswer
      unfold resultValue at hanswer
      rw [hlookup] at hanswer
      cases hanswer
  · rintro ⟨hsound, hmember⟩
    have hlookup (row : ResultViewRow) : row.lookup sort.variableName =
        some ((row.values sort.variableName).getD []) := by
      unfold ResultViewRow.lookup
      cases row.values sort.variableName with
      | none => exact if_neg hmember
      | some terms => rfl
    have hvalue (row : ResultViewRow) : resultValue column sort row =
        some ((resultValue column sort row).getD ⟨[], none⟩) := by
      unfold resultValue
      rw [hlookup]
      rfl
    refine (orders_of_weak (((weak_compareKeys hsound).comap fun row : ResultViewRow =>
      (resultValue column sort row).getD ⟨[], none⟩).mono fun row hrow => ?_)).congr
        fun left right _ _ => ?_
    · unfold resultValue
      rw [hlookup]
      exact hrow
    · rw [compareResultRows_single hcolumn hsortable, hvalue left, hvalue right]
      rfl

end

/-- Sorting by a comparator that orders the rows keeps the rows, puts them in its order, and leaves
what is in order as it stands. -/
def Ordered (cmp : ResultViewRow → ResultViewRow → Option Ordering)
    (rows ordered : List ResultViewRow) : Prop :=
  Orders (· ∈ rows) cmp ∧ ordered.Perm rows ∧
    (ordered.Pairwise fun a b => ((cmp a b).getD .eq).isLE) ∧
    ∀ kept : List ResultViewRow, kept.Sublist rows →
      (kept.Pairwise fun a b => ((cmp a b).getD .eq).isLE) → kept.Sublist ordered

theorem ordered_sortBy {cmp : ResultViewRow → ResultViewRow → Option Ordering}
    {rows : List ResultViewRow} (h : Orders (· ∈ rows) cmp) :
    Ordered cmp rows (sortBy (fun a b => (cmp a b).getD .eq) rows) :=
  ⟨h, Collections.sortBy_perm _ rows, h.weak.pairwise_sortBy, fun _ => h.weak.sublist_sortBy⟩

theorem pairwise_of_length_lt_two {R : ResultViewRow → ResultViewRow → Prop}
    {rows : List ResultViewRow} (h : rows.length < 2) : rows.Pairwise R := by
  cases rows with
  | nil => exact .nil
  | cons row rest =>
    cases rest with
    | nil => exact List.pairwise_singleton R row
    | cons row' rest =>
      simp only [List.length_cons] at h
      omega

theorem ordered_orderResultRows {rows : List ResultViewRow} {sorts : List QueryViewSort}
    {columns : List ResultColumn} {context : CellContext}
    (h : SoundRows (· ∈ rows) sorts columns context) :
    ∃ ordered, orderResultRows rows sorts columns context = some ordered ∧
      Ordered (compareResultRows sorts columns context) rows ordered := by
  have horders := orders_compareResultRows h
  unfold orderResultRows
  by_cases hskip : sorts = [] ∨ rows.length < 2
  · rw [if_pos hskip]
    refine ⟨rows, rfl, horders, .refl rows, ?_, fun _ hkept _ => hkept⟩
    rcases hskip with rfl | hlength
    · exact List.pairwise_of_forall fun _ _ => rfl
    · exact pairwise_of_length_lt_two hlength
  · rw [if_neg hskip, if_pos]
    · exact ⟨_, rfl, ordered_sortBy horders⟩
    · exact List.pairwise_of_forall_mem_list fun left hleft right hright =>
        horders.answers left right hleft hright

/-- A sort key whose field is known, sound for the values it finds in the rows. -/
def SoundBlocks (context : ListContext) (rows : List ResultViewRow)
    (sorts : List QueryViewFieldSort) (fields : List ListSortField) : Prop :=
  ∀ sort ∈ sorts, ∀ descriptor, descriptorOf fields sort.field = some descriptor →
    Sound descriptor.ordering context.toCellContext sort.descending fun v => ∃ row ∈ rows,
      valueOfKey context rows descriptor row.key = v

theorem weak_compareBlockRows {context : ListContext} {rows : List ResultViewRow}
    {sorts : List QueryViewFieldSort} {fields : List ListSortField}
    (h : SoundBlocks context rows sorts fields) :
    StrictWeakOn (· ∈ rows) (compareBlockRows context rows sorts fields) := by
  induction sorts with
  | nil => exact (weak_compareUnits ResultViewRow.key).mono fun _ _ => trivial
  | cons sort sorts ih =>
    have hrest := ih fun sort' hsort' => h sort' (List.mem_cons_of_mem _ hsort')
    cases hfield : descriptorOf fields sort.field with
    | none =>
      refine hrest.congr fun left right _ _ => ?_
      rw [compareBlockRows, hfield]
    | some descriptor =>
      have hkey := (weak_compareKeys (h sort List.mem_cons_self descriptor hfield)).comap
        fun row : ResultViewRow => valueOfKey context rows descriptor row.key
      refine ((hkey.mono fun row hrow => ⟨row, hrow, rfl⟩).andThen hrest).congr
        fun left right _ _ => ?_
      rw [compareBlockRows, hfield]

/-- Rows that tie by every sort key stand by their keys. -/
theorem compareBlockRows_of_ties {context : ListContext} {rows : List ResultViewRow}
    {sorts : List QueryViewFieldSort} {fields : List ListSortField} {left right : ResultViewRow}
    (h : ∀ sort ∈ sorts, ∀ descriptor, descriptorOf fields sort.field = some descriptor →
      compareKeys descriptor.ordering context.toCellContext sort.descending
        (valueOfKey context rows descriptor left.key)
        (valueOfKey context rows descriptor right.key) = .eq) :
    compareBlockRows context rows sorts fields left right = compareUnits left.key right.key := by
  induction sorts with
  | nil => rfl
  | cons sort sorts ih =>
    have hrest := ih fun sort' hsort' => h sort' (List.mem_cons_of_mem _ hsort')
    cases hfield : descriptorOf fields sort.field with
    | none => rw [compareBlockRows, hfield, hrest]
    | some descriptor =>
      rw [compareBlockRows, hfield]
      dsimp only
      rw [h sort List.mem_cons_self descriptor hfield, hrest, Ordering.eq_then]

/-- With no sort key at all the rows keep the query's order. -/
theorem ordered_orderBlockRows {context : ListContext} {rows : List ResultViewRow}
    {sorts : List QueryViewFieldSort} {fields : List ListSortField}
    (h : SoundBlocks context rows sorts fields) (hsorts : sorts ≠ []) :
    Ordered (fun left right => some (compareBlockRows context rows sorts fields left right)) rows
      (orderBlockRows context rows sorts fields) := by
  have horders := orders_of_weak (weak_compareBlockRows h)
  unfold orderBlockRows
  split_ifs with hskip
  · exact ⟨horders, .refl rows, pairwise_of_length_lt_two (hskip.resolve_left hsorts),
      fun _ hkept _ => hkept⟩
  · exact ordered_sortBy horders

/-! ## Directions -/

theorem compareResultTerms_eq_iff (semantics : OrderSemantics) (context : CellContext)
    (descending : Bool) (left right : RdfTerm) :
    compareResultTerms (some left) (some right) semantics context descending = .eq ↔
      compareResultTerms (some left) (some right) semantics context false = .eq := by
  cases semantics with
  | ranked values missing =>
    show compareRanks left right values context descending = .eq ↔
      compareRanks left right values context false = .eq
    unfold compareRanks
    cases values.idxOf? left.value with
    | none => cases values.idxOf? right.value <;> cases descending <;> simp [fixedBucket]
    | some i => cases values.idxOf? right.value <;> cases descending <;> simp [fixedBucket]
  | number | boolean | date | text | entityLabel => exact Iff.rfl

/-- Terms that the directions do not just turn round are a rank and a fallback. -/
theorem mixed_of_compareResultTerms_ne {semantics : OrderSemantics} {context : CellContext}
    {left right : RdfTerm}
    (h : compareResultTerms (some left) (some right) semantics context true ≠
      compareResultTerms (some left) (some right) semantics context false) :
    ∃ values missing, semantics = .ranked values missing ∧
      (values.idxOf? left.value = none ↔ values.idxOf? right.value ≠ none) := by
  cases semantics with
  | ranked values missing =>
    refine ⟨values, missing, rfl, ?_⟩
    have hranks : compareRanks left right values context true ≠
        compareRanks left right values context false := h
    unfold compareRanks at hranks
    cases hleft : values.idxOf? left.value <;> cases hright : values.idxOf? right.value <;>
      simp [hleft, hright] at hranks ⊢
  | number | boolean | date | text | entityLabel => exact absurd rfl h

theorem compareClocks_descending {left right : Option RdfTerm}
    (h : left.isNone ↔ right.isNone) (context : CellContext) :
    compareResultTerms left right .text context true =
      compareResultTerms left right .text context false := by
  cases left with
  | none =>
    cases right with
    | none => rfl
    | some right => simp at h
  | some left =>
    cases right with
    | none => simp at h
    | some right => rfl

def compareSortedTerms (left right : SortValue) (semantics : OrderSemantics)
    (context : CellContext) (descending : Bool) : Ordering :=
  compareVectors (fun a b => compareResultTerms (some a) (some b) semantics context descending)
    (sortedTerms left.terms semantics context) (sortedTerms right.terms semantics context)

/-- The first terms that tell the values apart are a fallback on the left and a rank on the
right. -/
def FallbackFirst (semantics : OrderSemantics) (context : CellContext) (left right : SortValue) :
    Prop :=
  ∃ values missing pre a post pre' b post', semantics = .ranked values missing ∧
    sortedTerms left.terms semantics context = pre ++ a :: post ∧
    sortedTerms right.terms semantics context = pre' ++ b :: post' ∧
    List.Forall₂ (fun x y => compareResultTerms (some x) (some y) semantics context false = .eq)
      pre pre' ∧
    values.idxOf? a.value = none ∧ values.idxOf? b.value ≠ none

/-- The terms do not tell the values apart, and only the right one has a valid clock. -/
def ClockMissing (semantics : OrderSemantics) (context : CellContext) (left right : SortValue) :
    Prop :=
  compareSortedTerms left right semantics context false = .eq ∧
    validTime left.time = none ∧ validTime right.time ≠ none

/-- What tells two bound values apart is a fallback or a missing clock on the left. -/
def Behind (semantics : OrderSemantics) (context : CellContext) (left right : SortValue) : Prop :=
  FallbackFirst semantics context left right ∨ ClockMissing semantics context left right

theorem compareSortValues_bound {left right : SortValue} (hleft : left.terms ≠ [])
    (hright : right.terms ≠ []) (semantics : OrderSemantics) (context : CellContext)
    (descending : Bool) :
    compareSortValues left right semantics context descending =
      (compareSortedTerms left right semantics context descending).then
        (compareResultTerms (validTime left.time) (validTime right.time) .text context
          descending) := by
  unfold compareSortValues
  rw [if_neg (not_or.mpr ⟨hleft, hright⟩)]
  rfl

/-- The directions compare sorted terms alike, but for a fallback and a rank. -/
theorem compareSortedTerms_descending {semantics : OrderSemantics} {context : CellContext}
    {left right : SortValue} (h : ¬FallbackFirst semantics context left right)
    (h' : ¬FallbackFirst semantics context right left) :
    compareSortedTerms left right semantics context true =
      compareSortedTerms left right semantics context false := by
  rcases Collections.compareVectors_eq_or
    (fun a b => compareResultTerms (some a) (some b) semantics context false)
    (fun a b => compareResultTerms (some a) (some b) semantics context true)
    (sortedTerms left.terms semantics context) (sortedTerms right.terms semantics context) with
    hsame | ⟨pre, a, post, pre', b, post', hl, hr, hpre, hne⟩
  · exact hsame
  · exfalso
    obtain ⟨values, missing, hranked, hmixed⟩ := mixed_of_compareResultTerms_ne hne
    by_cases hfallback : values.idxOf? a.value = none
    · exact h ⟨values, missing, pre, a, post, pre', b, post', hranked, hl, hr, hpre, hfallback,
        hmixed.mp hfallback⟩
    · refine h' ⟨values, missing, pre', b, post', pre, a, post, hranked, hr, hl, hpre.flip.imp ?_,
        not_not.mp fun hb => hfallback (hmixed.mpr hb), hfallback⟩
      intro x y hxy
      rw [compareResultTerms_swap, hxy]
      rfl

/-- Bound values run the other way round in descending order. -/
theorem compareKeys_descending {semantics : OrderSemantics} {context : CellContext}
    {left right : SortValue} (hleft : left.terms ≠ []) (hright : right.terms ≠ [])
    (h : ¬Behind semantics context left right) (h' : ¬Behind semantics context right left) :
    compareKeys semantics context true left right =
      (compareKeys semantics context false left right).swap := by
  have hterms := compareSortedTerms_descending (fun hfirst => h (.inl hfirst))
    fun hfirst => h' (.inl hfirst)
  have hvalues : compareSortValues left right semantics context true =
      compareSortValues left right semantics context false := by
    rw [compareSortValues_bound hleft hright, compareSortValues_bound hleft hright, hterms]
    cases hcmp : compareSortedTerms left right semantics context false with
    | eq =>
      rw [compareClocks_descending]
      rw [Option.isNone_iff_eq_none, Option.isNone_iff_eq_none]
      have hcmp' : compareSortedTerms right left semantics context false = .eq := by
        unfold compareSortedTerms at hcmp ⊢
        rw [Collections.compareVectors_swap fun a _ b _ => compareResultTerms_swap _ _ _ _ _, hcmp]
        rfl
      constructor
      · intro hnone
        by_contra hsome
        exact h (.inr ⟨hcmp, hnone, hsome⟩)
      · intro hnone
        by_contra hsome
        exact h' (.inr ⟨hcmp', hnone, hsome⟩)
    | lt => rfl
    | gt => rfl
  unfold compareKeys
  rw [hvalues]
  rfl

theorem swap_fixedBucket (comparison : Ordering) (descending : Bool) :
    (if descending then (fixedBucket comparison descending).swap
      else fixedBucket comparison descending) = comparison := by
  cases descending with
  | false => rfl
  | true => exact Ordering.swap_swap

/-- What is missing comes last in both directions. -/
theorem compareKeys_missing {semantics : OrderSemantics}
    (h : ∀ values, semantics ≠ .ranked values .below) (context : CellContext) (descending : Bool)
    {left right : SortValue} (hleft : left.terms = []) (hright : right.terms ≠ []) :
    compareKeys semantics context descending left right = .gt := by
  unfold compareKeys
  dsimp only
  rw [compareSortValues_missing h context hleft hright, swap_fixedBucket]

/-- Where it has a rank, it is the lowest one; fallbacks stay behind it in both directions. -/
theorem compareKeys_below (values : List String) (context : CellContext) (descending : Bool)
    {left right : SortValue} (hleft : left.terms = []) (hright : right.terms ≠ []) :
    compareKeys (.ranked values .below) context descending left right =
      if FirstFallback values right then .lt else if descending then .gt else .lt := by
  unfold compareKeys
  dsimp only
  rw [compareSortValues_below values context hleft hright]
  split_ifs with hdescending hfirst
  · rw [hdescending]
    rfl
  · rfl
  · rw [Bool.not_eq_true] at hdescending
    rw [hdescending]
    rfl
  · rfl

/-- Fallbacks alone come behind every value with a rank, in both directions. -/
theorem compareKeys_fallbacks {values : List String} (missing : Missing) (context : CellContext)
    (descending : Bool) {left right : SortValue} {t : RdfTerm} (hleft : left.terms ≠ [])
    (hfallback : ∀ t ∈ left.terms, values.idxOf? t.value = none) (ht : t ∈ right.terms)
    (hrank : values.idxOf? t.value ≠ none) :
    compareKeys (.ranked values missing) context descending left right = .gt := by
  unfold compareKeys
  dsimp only
  rw [compareSortValues_fallbacks hleft hfallback ht hrank, swap_fixedBucket]

/-- A fallback or a missing clock puts a value behind the other one in both directions. -/
theorem compareKeys_behind {semantics : OrderSemantics} {context : CellContext}
    {left right : SortValue} (hleft : left.terms ≠ []) (hright : right.terms ≠ [])
    (h : Behind semantics context left right) (descending : Bool) :
    compareKeys semantics context descending left right = .gt := by
  have hvalues : compareSortValues left right semantics context descending =
      fixedBucket .gt descending := by
    rw [compareSortValues_bound hleft hright]
    rcases h with ⟨values, missing, pre, a, post, pre', b, post', rfl, hl, hr, hpre, ha, hb⟩ |
      ⟨hterms, hclock, hclock'⟩
    · obtain ⟨rank, hrank⟩ := Option.ne_none_iff_exists'.mp hb
      have hcompare : compareResultTerms (some a) (some b) (.ranked values missing) context
          descending = fixedBucket .gt descending := by
        show compareRanks a b values context descending = _
        unfold compareRanks
        rw [ha, hrank]
      unfold compareSortedTerms
      rw [hl, hr, Collections.compareVectors_append
        (hpre.imp fun x y hxy => (compareResultTerms_eq_iff _ _ _ x y).mpr hxy), hcompare]
      · cases descending <;> rfl
      · rw [hcompare]
        cases descending <;> simp [fixedBucket]
    · obtain ⟨clock, hsome⟩ := Option.ne_none_iff_exists'.mp hclock'
      have hflag : compareSortedTerms left right semantics context descending = .eq := by
        unfold compareSortedTerms at hterms ⊢
        rcases Collections.compareVectors_eq_or
          (fun x y => compareResultTerms (some x) (some y) semantics context false)
          (fun x y => compareResultTerms (some x) (some y) semantics context descending)
          (sortedTerms left.terms semantics context)
          (sortedTerms right.terms semantics context) with
          hsame | ⟨pre, a, post, pre', b, post', hl, hr, hpre, hne⟩
        · rw [hsame, hterms]
        · have hcut : compareResultTerms (some a) (some b) semantics context false ≠ .eq := by
            intro heq
            exact hne (((compareResultTerms_eq_iff _ _ descending a b).mpr heq).trans heq.symm)
          rw [hl, hr, Collections.compareVectors_append hpre hcut] at hterms
          exact absurd hterms hcut
      rw [hflag, Ordering.eq_then, hclock, hsome]
      rfl
  unfold compareKeys
  dsimp only
  rw [hvalues, swap_fixedBucket]

/-- How one sort key runs in its direction: bound values the other way round when it descends,
missing and fallback values in their place, and dates without a clock at the end of their day. -/
structure Directed (semantics : OrderSemantics) (context : CellContext) : Prop where
  bound : ∀ left right : SortValue, left.terms ≠ [] → right.terms ≠ [] →
    ¬Behind semantics context left right → ¬Behind semantics context right left →
    compareKeys semantics context true left right =
      (compareKeys semantics context false left right).swap
  behind : ∀ descending (left right : SortValue), left.terms ≠ [] → right.terms ≠ [] →
    Behind semantics context left right →
    compareKeys semantics context descending left right = .gt
  missing : (∀ values, semantics ≠ .ranked values .below) → ∀ descending (left right : SortValue),
    left.terms = [] → right.terms ≠ [] →
    compareKeys semantics context descending left right = .gt
  below : ∀ values, semantics = .ranked values .below → ∀ descending (left right : SortValue),
    left.terms = [] → right.terms ≠ [] →
    compareKeys semantics context descending left right =
      if FirstFallback values right then .lt else if descending then .gt else .lt
  fallbacks : ∀ values missing, semantics = .ranked values missing →
    ∀ descending (left right : SortValue), left.terms ≠ [] →
    (∀ t ∈ left.terms, values.idxOf? t.value = none) →
    (∃ t ∈ right.terms, values.idxOf? t.value ≠ none) →
    compareKeys semantics context descending left right = .gt

theorem directed (semantics : OrderSemantics) (context : CellContext) :
    Directed semantics context where
  bound _ _ := compareKeys_descending
  behind descending _ _ hleft hright h := compareKeys_behind hleft hright h descending
  missing h descending _ _ hleft hright := compareKeys_missing h context descending hleft hright
  below values heq descending _ _ hleft hright :=
    heq ▸ compareKeys_below values context descending hleft hright
  fallbacks _ missing heq descending _ _ hleft hfallback := fun ⟨_, ht, hrank⟩ =>
    heq ▸ compareKeys_fallbacks missing context descending hleft hfallback ht hrank

/-- A sort key orders its values exactly where it is sound, and rows are ordered by sound ones:
tied rows stay as the query gave them, and blocks by their keys. -/
theorem orders_iff_sound (context : ListContext) :
    (∀ (semantics : OrderSemantics) (descending : Bool) (T : RdfTerm → Prop),
      (StrictWeakOn (Over T) (compareKeys semantics context.toCellContext descending) ↔
        Sound semantics context.toCellContext descending (Over T)) ∧
      Directed semantics context.toCellContext) ∧
    (∀ (sort : QueryViewSort) (column : ResultColumn) (T : RdfTerm → Prop),
      column.variableName = sort.variableName → column.sortable = true →
      column.timeColumn ≠ some sort.variableName →
      (Orders (fun row : ResultViewRow => ∀ t ∈ (row.values sort.variableName).getD [], T t)
          (compareResultRows [sort] [column] context.toCellContext) ↔
        Sound column.ordering context.toCellContext sort.descending (Over T) ∧
          sort.variableName ∉ objectMembers)) ∧
    (∀ (rows : List ResultViewRow) (sorts : List QueryViewSort) (columns : List ResultColumn),
      SoundRows (· ∈ rows) sorts columns context.toCellContext →
      ∃ ordered, orderResultRows rows sorts columns context.toCellContext = some ordered ∧
        Ordered (compareResultRows sorts columns context.toCellContext) rows ordered) ∧
    ∀ (rows : List ResultViewRow) (sorts : List QueryViewFieldSort) (fields : List ListSortField),
      SoundBlocks context rows sorts fields →
      (sorts ≠ [] →
        Ordered (fun left right => some (compareBlockRows context rows sorts fields left right)) rows
          (orderBlockRows context rows sorts fields)) ∧
      (sorts = [] → orderBlockRows context rows sorts fields = rows) ∧
      ∀ left right : ResultViewRow,
        (∀ sort ∈ sorts, ∀ descriptor, descriptorOf fields sort.field = some descriptor →
          compareKeys descriptor.ordering context.toCellContext sort.descending
            (valueOfKey context rows descriptor left.key)
            (valueOfKey context rows descriptor right.key) = .eq) →
        compareBlockRows context rows sorts fields left right =
          compareUnits left.key right.key := by
  refine ⟨fun semantics descending T => ?_, fun sort column T => ?_, fun rows sorts columns h => ?_,
    fun rows sorts fields h => ⟨fun hsorts => ?_, fun hsorts => ?_, fun left right hties => ?_⟩⟩
  · exact ⟨weak_iff_sound semantics context.toCellContext descending T, directed semantics _⟩
  · exact fun hcolumn hsortable htime => orders_compareResultRows_iff hcolumn hsortable htime T
  · exact ordered_orderResultRows h
  · exact ordered_orderBlockRows h hsorts
  · rw [orderBlockRows, if_pos (.inl hsorts)]
  · exact compareBlockRows_of_ties hties

/-! ## Circles -/

/-- Texts by their units, and two that stand for numbers. -/
def plainContext : CellContext where
  collator := ⟨compareUnits, weak_compareUnits id⟩
  entityName _ := ""
  finiteNumber value :=
    if value = "20" then some 20 else if value = "1e3" then some 1000 else none

def plainTerm (value : String) : RdfTerm := .literal value (xsd ++ "string") none

def numberRows : List ResultViewRow :=
  ["20", "1e3", "1f"].map fun value => onlyRow "x" [plainTerm value]

def priorityRows : List ResultViewRow :=
  [["soon", "High"], [], ["High"]].map fun values => onlyRow "x" (values.map plainTerm)

/-- A row that leaves a variable unbound, and one that binds it. -/
def memberRows : List ResultViewRow :=
  [unboundRow, onlyRow "constructor" [plainTerm "a"]]

/-- By number and by text in turn `20`, `1e3` and `1f` run in a circle; so do, in descending order,
a block whose priority is read as a fallback and as High, one without any, and one with High. A
variable with the name of a member of `Object.prototype` makes the comparison throw. -/
theorem not_weak_rows :
    ¬Orders (· ∈ numberRows)
        (compareResultRows [⟨"x", false⟩] [⟨"x", none, .number, true⟩] plainContext) ∧
      ¬Orders (· ∈ priorityRows) (compareResultRows [⟨"x", true⟩]
        [⟨"x", none, .ranked ["Low", "Medium", "High"] .below, true⟩] plainContext) ∧
      ¬Orders (· ∈ memberRows) (compareResultRows [⟨"constructor", false⟩]
        [⟨"constructor", none, .text, true⟩] plainContext) := by
  refine ⟨fun h => ?_, fun h => ?_, fun h => ?_⟩
  · have hkeys := weak_compareSortValues_of_keys (weak_compareKeys_of_rows rfl rfl (by simp) h)
    have hmem {value : String} (hvalue : value ∈ ["20", "1e3", "1f"]) :
        onlyRow "x" [plainTerm value] ∈ numberRows := List.mem_map.mpr ⟨value, hvalue, rfl⟩
    have htrans := hkeys.trans ⟨[plainTerm "20"], none⟩ ⟨[plainTerm "1e3"], none⟩
      ⟨[plainTerm "1f"], none⟩ ⟨hmem (by simp), rfl⟩ ⟨hmem (by simp), rfl⟩ ⟨hmem (by simp), rfl⟩
    rw [compareSortValues_single, compareSortValues_single, compareSortValues_single] at htrans
    exact absurd (htrans (by decide) (by decide)) (by decide)
  · have hkeys := weak_compareSortValues_of_keys (weak_compareKeys_of_rows rfl rfl (by simp) h)
    have hmem {values : List String} (hvalues : values ∈ [["soon", "High"], [], ["High"]]) :
        onlyRow "x" (values.map plainTerm) ∈ priorityRows := List.mem_map.mpr ⟨values, hvalues, rfl⟩
    refine not_weak_of_mixed (f := plainTerm "soon") (t := plainTerm "High") ⟨?_, rfl⟩ ⟨?_, rfl⟩
      ⟨?_, rfl⟩ (by decide) (by decide) hkeys
    · exact hmem (by simp : ["soon", "High"] ∈ _)
    · exact hmem (by simp : ["High"] ∈ _)
    · exact hmem (by simp : [] ∈ _)
  · have hanswer := h.answers _ _ (List.mem_cons_self : unboundRow ∈ memberRows)
      (List.mem_cons_of_mem _ (List.mem_singleton_self _))
    exact absurd hanswer (by decide)

end Neoseq.Answers
