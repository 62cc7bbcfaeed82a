import Neoseq.Domain.Snapshot

/-! The RDF terms of the projection. Every IRI is a fixed prefix followed by
percent-encoded parts, so an IRI here is its text. -/

namespace Neoseq.Query
open Domain

def neoNs : String := "urn:neoseq:vocab:v1:"
def propertyNs : String := "urn:neoseq:property:"
def defaultPropertyNs : String := "urn:neoseq:default-property:"
def propertyKeyNs : String := "urn:neoseq:property-key:"
def entityNs : String := "urn:neoseq:entity:"
def neoContent : String := neoNs ++ "content"
def neoName : String := neoNs ++ "name"

namespace Xsd

def string : String := "http://www.w3.org/2001/XMLSchema#string"
def boolean : String := "http://www.w3.org/2001/XMLSchema#boolean"
def integer : String := "http://www.w3.org/2001/XMLSchema#integer"
def double : String := "http://www.w3.org/2001/XMLSchema#double"
def date : String := "http://www.w3.org/2001/XMLSchema#date"

end Xsd

def rdfType : String := "http://www.w3.org/1999/02/22-rdf-syntax-ns#type"

inductive Term where
  | namedNode (iri : String)
  | literal (value datatype : String) (language : Option String)
  deriving Repr, DecidableEq

def Term.simple (value : String) : Term := .literal value Xsd.string none

def Term.ofBool (value : Bool) : Term := .literal (toString value) Xsd.boolean none

def Term.ofInt (value : Int) : Term := .literal (toString value) Xsd.integer none

structure Triple where
  subject : String
  predicate : String
  object : Term
  deriving Repr, DecidableEq

/-! ## Percent encoding -/

def isUnreserved (b : UInt8) : Bool :=
  (0x30 ≤ b && b ≤ 0x39) || (0x41 ≤ b && b ≤ 0x5a) || (0x61 ≤ b && b ≤ 0x7a) ||
    b == 0x2d || b == 0x2e || b == 0x5f || b == 0x7e

def hexDigit (n : Nat) : Char :=
  if n < 10 then Char.ofNat (0x30 + n) else Char.ofNat (0x37 + n)

def encodeByte (b : UInt8) : List Char :=
  if isUnreserved b then [Char.ofNat b.toNat]
  else ['%', hexDigit (b.toNat / 16), hexDigit (b.toNat % 16)]

def encodeComponent (value : String) : String :=
  String.ofList (value.toUTF8.data.toList.flatMap encodeByte)

/-- Tags share the namespace of pages. -/
def entityIri (graph : GraphId) (kind id : String) : String :=
  let kind := if kind = "tag" then "page" else kind
  entityNs ++ encodeComponent graph.asStr ++ ":" ++ kind ++ ":" ++ encodeComponent id

theorem toNat_ofNat_of_lt {n : Nat} (h : n < 256) : (Char.ofNat n).toNat = n := by
  have hv : n.isValidChar := Or.inl (by omega)
  unfold Char.ofNat
  rw [dif_pos hv]
  rfl

theorem hexDigit_injective :
    ∀ m < 16, ∀ n < 16, hexDigit m = hexDigit n → m = n := by
  decide

theorem ofNat_ne_percent {b : UInt8} (h : isUnreserved b = true) :
    Char.ofNat b.toNat ≠ '%' := by
  intro he
  have hn : b.toNat = 0x25 := by
    rw [← toNat_ofNat_of_lt b.toNat_lt, he]
    rfl
  obtain rfl : b = 0x25 := UInt8.toNat_inj.mp hn
  exact absurd h (by decide)

/-- The encoding of a byte can be told from what follows it. -/
theorem encodeByte_cancel {a b : UInt8} {x y : List Char}
    (h : encodeByte a ++ x = encodeByte b ++ y) : a = b ∧ x = y := by
  unfold encodeByte at h
  split at h
  · next ha =>
    split at h
    · obtain ⟨hc, hx⟩ := List.cons.inj h
      have hn := congrArg Char.toNat hc
      rw [toNat_ofNat_of_lt a.toNat_lt, toNat_ofNat_of_lt b.toNat_lt] at hn
      exact ⟨UInt8.toNat_inj.mp hn, hx⟩
    · exact absurd (List.cons.inj h).1 (ofNat_ne_percent ha)
  · split at h
    · next hb => exact absurd (List.cons.inj h).1.symm (ofNat_ne_percent hb)
    · obtain ⟨_, h⟩ := List.cons.inj h
      obtain ⟨hhi, h⟩ := List.cons.inj h
      obtain ⟨hlo, hx⟩ := List.cons.inj h
      have hdiv := hexDigit_injective _ (by have := a.toNat_lt; omega) _
        (by have := b.toNat_lt; omega) hhi
      have hmod := hexDigit_injective _ (by omega) _ (by omega) hlo
      exact ⟨UInt8.toNat_inj.mp (by omega), hx⟩

theorem encodeByte_append_ne_nil (b : UInt8) (x : List Char) : encodeByte b ++ x ≠ [] := by
  unfold encodeByte
  split <;> exact List.cons_ne_nil _ _

theorem flatMap_encodeByte_injective :
    ∀ {l m : List UInt8}, l.flatMap encodeByte = m.flatMap encodeByte → l = m
  | [], [], _ => rfl
  | [], b :: _, h => absurd h.symm (encodeByte_append_ne_nil b _)
  | a :: _, [], h => absurd h (encodeByte_append_ne_nil a _)
  | a :: l, b :: m, h => by
    rw [List.flatMap_cons, List.flatMap_cons] at h
    obtain ⟨rfl, hrest⟩ := encodeByte_cancel h
    rw [flatMap_encodeByte_injective hrest]

theorem encodeComponent_injective : Function.Injective encodeComponent := by
  intro a b h
  have hb := flatMap_encodeByte_injective (String.ofList_injective h)
  exact String.toByteArray_inj.mp (ByteArray.ext (Array.toList_inj.mp hb))

/-- Entities of one kind have one IRI each. -/
theorem entityIri_injective {graph : GraphId} {kind a b : String}
    (h : entityIri graph kind a = entityIri graph kind b) : a = b := by
  unfold entityIri at h
  exact encodeComponent_injective (String.append_right_inj _ |>.mp h)

end Neoseq.Query
