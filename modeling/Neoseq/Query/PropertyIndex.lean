import Neoseq.Collections.Keyed
import Neoseq.Query.Rdf

/-! The property side of the index: which ids have a predicate, which have it with
a value, and which with a value that has an order. -/

namespace Neoseq.Query
open Collections Domain

/-- How doubles are written and read. -/
structure Numerals where
  showF64 : F64 → String
  parseF64 : String → Option F64

variable (numerals : Numerals)

def Term.ofF64 (value : F64) : Term := .literal (numerals.showF64 value) Xsd.double none

def indexedPredicate (predicate : String) : Bool :=
  predicate != neoContent && predicate != neoName

inductive OrderedValue where
  | number (value : F64)
  | integer (value : Int)
  | date (value : String)
  deriving DecidableEq

/-- `str::parse::<i64>`. -/
def parseI64 (value : String) : Option Int :=
  let (sign, digits) : Int × List Char := match value.toList with
    | '-' :: rest => (-1, rest)
    | '+' :: rest => (1, rest)
    | cs => (1, cs)
  if digits.isEmpty || !digits.all Char.isDigit then none
  else
    let n := sign * digits.foldl (fun n c => n * 10 + ((c.toNat - '0'.toNat : Nat) : Int)) 0
    if -9223372036854775808 ≤ n ∧ n < 9223372036854775808 then some n else none

def orderedValue : Term → Option OrderedValue
  | .namedNode _ => none
  | .literal value datatype _ =>
    if datatype = Xsd.double then
      ((numerals.parseF64 value).filter F64.isFinite).map .number
    else if datatype = Xsd.integer then (parseI64 value).map .integer
    else if datatype = Xsd.date then some (.date value)
    else none

structure PropertyIndex where
  presence : Keyed String (Finset Nat)
  exact : Keyed (String × Term) (Finset Nat)
  ordered : Keyed String (Keyed OrderedValue (Finset Nat))

namespace PropertyIndex

def empty : PropertyIndex := ⟨Keyed.empty, Keyed.empty, Keyed.empty⟩

/-- The postings of one triple of a subject. -/
def insertTriple (id : Nat) (ix : PropertyIndex) (t : Triple) : PropertyIndex :=
  if indexedPredicate t.predicate then
    { presence := ix.presence.insert t.predicate id
      exact := ix.exact.insert (t.predicate, t.object) id
      ordered :=
        match orderedValue numerals t.object with
        | some value => ix.ordered.insert t.predicate (value, id)
        | none => ix.ordered }
  else ix

def removeTriple (id : Nat) (ix : PropertyIndex) (t : Triple) : PropertyIndex :=
  if indexedPredicate t.predicate then
    { presence := ix.presence.remove t.predicate id
      exact := ix.exact.remove (t.predicate, t.object) id
      ordered :=
        match orderedValue numerals t.object with
        | some value => ix.ordered.remove t.predicate (value, id)
        | none => ix.ordered }
  else ix

/-- A place that an id can be posted at. -/
inductive Place where
  | presence (predicate : String)
  | exact (predicate : String) (value : Term)
  | ordered (predicate : String) (value : OrderedValue)

def Posts (ix : PropertyIndex) : Place → Nat → Prop
  | .presence p, id => ix.presence.Mem p id
  | .exact p v, id => ix.exact.Mem (p, v) id
  | .ordered p v, id => ix.ordered.Mem p (v, id)

/-- The places a triple posts its subject at. -/
def PlaceOf (t : Triple) : Place → Prop
  | .presence p => indexedPredicate t.predicate = true ∧ p = t.predicate
  | .exact p v => indexedPredicate t.predicate = true ∧ p = t.predicate ∧ v = t.object
  | .ordered p v =>
    indexedPredicate t.predicate = true ∧ p = t.predicate ∧
      orderedValue numerals t.object = some v

theorem ext {ix jx : PropertyIndex} (h : ∀ k id, ix.Posts k id ↔ jx.Posts k id) : ix = jx := by
  obtain ⟨p, e, o⟩ := ix
  obtain ⟨p', e', o'⟩ := jx
  obtain rfl : p = p' := Keyed.ext fun k id => h (.presence k) id
  obtain rfl : e = e' := Keyed.ext fun k id => h (.exact k.1 k.2) id
  obtain rfl : o = o' := Keyed.ext fun k x => h (.ordered k x.1) x.2
  rfl

variable {numerals}

@[simp] theorem not_posts_empty (k : Place) (id : Nat) : ¬empty.Posts k id := by
  cases k <;> simp [empty, Posts]

theorem posts_insertTriple {ix : PropertyIndex} {id i : Nat} {t : Triple} {k : Place} :
    (insertTriple numerals id ix t).Posts k i ↔
      (PlaceOf numerals t k ∧ i = id) ∨ ix.Posts k i := by
  unfold insertTriple
  split
  · next hp =>
    cases k with
    | presence p => simp [Posts, PlaceOf, hp]
    | exact p v => simp [Posts, PlaceOf, hp]
    | ordered p v =>
      cases ho : orderedValue numerals t.object with
      | none => simp [Posts, PlaceOf, ho]
      | some value =>
        simp only [Posts, PlaceOf, hp, ho, Keyed.mem_insert, Prod.mk.injEq, Option.some.injEq]
        tauto
  · next hp => cases k <;> simp [PlaceOf, hp]

theorem posts_removeTriple {ix : PropertyIndex} {id i : Nat} {t : Triple} {k : Place} :
    (removeTriple numerals id ix t).Posts k i ↔
      ¬(PlaceOf numerals t k ∧ i = id) ∧ ix.Posts k i := by
  unfold removeTriple
  split
  · next hp =>
    cases k with
    | presence p => simp [Posts, PlaceOf, hp]
    | exact p v => simp [Posts, PlaceOf, hp]
    | ordered p v =>
      cases ho : orderedValue numerals t.object with
      | none => simp [Posts, PlaceOf, ho]
      | some value =>
        simp only [Posts, PlaceOf, hp, ho, Keyed.mem_remove, Prod.mk.injEq, Option.some.injEq]
        tauto
  · next hp => cases k <;> simp [PlaceOf, hp]

instance (id : Nat) : RightCommutative (insertTriple numerals id) := ⟨fun ix s t => ext fun k i => by
  simp only [posts_insertTriple]
  tauto⟩

instance (id : Nat) : RightCommutative (removeTriple numerals id) := ⟨fun ix s t => ext fun k i => by
  simp only [posts_removeTriple]
  tauto⟩

variable (numerals)

/-- The triples of a subject, in whatever order. -/
def insertSubject (ix : PropertyIndex) (id : Nat) (triples : Finset Triple) : PropertyIndex :=
  triples.val.foldl (insertTriple numerals id) ix

def removeSubject (ix : PropertyIndex) (id : Nat) (triples : Finset Triple) : PropertyIndex :=
  triples.val.foldl (removeTriple numerals id) ix

variable {numerals}

theorem posts_insertSubject {ix : PropertyIndex} {id i : Nat} {triples : Finset Triple}
    {k : Place} : (ix.insertSubject numerals id triples).Posts k i ↔
      (i = id ∧ ∃ t ∈ triples, PlaceOf numerals t k) ∨ ix.Posts k i := by
  obtain ⟨triples, hn⟩ := triples
  show (triples.foldl (insertTriple numerals id) ix).Posts k i ↔
    (i = id ∧ ∃ t ∈ triples, PlaceOf numerals t k) ∨ ix.Posts k i
  clear hn
  induction triples using Multiset.induction generalizing ix with
  | empty => simp
  | cons t rest ih =>
    rw [Multiset.foldl_cons, ih, posts_insertTriple]
    simp only [Multiset.mem_cons, exists_eq_or_imp]
    generalize (∃ t ∈ rest, PlaceOf numerals t k) = posted
    tauto

theorem posts_removeSubject {ix : PropertyIndex} {id i : Nat} {triples : Finset Triple}
    {k : Place} : (ix.removeSubject numerals id triples).Posts k i ↔
      ¬(i = id ∧ ∃ t ∈ triples, PlaceOf numerals t k) ∧ ix.Posts k i := by
  obtain ⟨triples, hn⟩ := triples
  show (triples.foldl (removeTriple numerals id) ix).Posts k i ↔
    ¬(i = id ∧ ∃ t ∈ triples, PlaceOf numerals t k) ∧ ix.Posts k i
  clear hn
  induction triples using Multiset.induction generalizing ix with
  | empty => simp
  | cons t rest ih =>
    rw [Multiset.foldl_cons, ih, posts_removeTriple]
    simp only [Multiset.mem_cons, exists_eq_or_imp]
    generalize (∃ t ∈ rest, PlaceOf numerals t k) = posted
    tauto

variable (numerals)

/-- The index posts exactly what the facts about the ids say. -/
def Holds (ix : PropertyIndex) (facts : Nat → Triple → Prop) : Prop :=
  ∀ k id, ix.Posts k id ↔ ∃ t, facts id t ∧ PlaceOf numerals t k

variable {numerals}

theorem holds_empty : Holds numerals empty fun _ _ => False := fun k id => by simp

theorem Holds.insertSubject {ix : PropertyIndex} {facts : Nat → Triple → Prop}
    (h : Holds numerals ix facts) (id : Nat) (triples : Finset Triple) :
    Holds numerals (ix.insertSubject numerals id triples)
      fun i t => (i = id ∧ t ∈ triples) ∨ facts i t := fun k i => by
  rw [posts_insertSubject, h k i]
  constructor
  · rintro (⟨hi, t, ht, hk⟩ | ⟨t, ht, hk⟩)
    · exact ⟨t, .inl ⟨hi, ht⟩, hk⟩
    · exact ⟨t, .inr ht, hk⟩
  · rintro ⟨t, ⟨hi, ht⟩ | ht, hk⟩
    · exact .inl ⟨hi, t, ht, hk⟩
    · exact .inr ⟨t, ht, hk⟩

/-- Taking out all the facts about an id leaves the other ids' facts. -/
theorem Holds.removeSubject {ix : PropertyIndex} {facts : Nat → Triple → Prop}
    (h : Holds numerals ix facts) {id : Nat} {triples : Finset Triple}
    (hid : ∀ t, facts id t → t ∈ triples) :
    Holds numerals (ix.removeSubject numerals id triples)
      fun i t => i ≠ id ∧ facts i t := fun k i => by
  rw [posts_removeSubject, h k i]
  constructor
  · rintro ⟨hn, t, ht, hk⟩
    refine ⟨t, ⟨?_, ht⟩, hk⟩
    rintro rfl
    exact hn ⟨rfl, t, hid t ht, hk⟩
  · rintro ⟨t, ⟨hi, ht⟩, hk⟩
    exact ⟨fun hn => hi hn.1, t, ht, hk⟩

theorem Holds.congr {ix : PropertyIndex} {facts facts' : Nat → Triple → Prop}
    (h : Holds numerals ix facts) (he : ∀ i t, facts i t ↔ facts' i t) :
    Holds numerals ix facts' := fun k i => by
  simp only [h k i, he]

end PropertyIndex

end Neoseq.Query
