import Neoseq.Content.Inline

/-! What a document holds under a key: a plain value or a child container. Maps
are lists of entries in iteration order. -/

namespace Neoseq.Document
open Content

/-- `TreeID`. -/
structure TreeId where
  counter : Int
  peer : Nat
  deriving Repr, DecidableEq

def TreeId.asStr (id : TreeId) : String := toString id.counter ++ "@" ++ toString id.peer

/-- A node of a tree container, which stays listed once it is deleted. -/
structure TreeNode (α : Type) where
  id : TreeId
  deleted : Bool
  data : α

/-- A stored value or container, as the readers tell them apart: `text` is a text
without marks. -/
inductive Stored where
  | bool (value : Bool)
  | i64 (value : Int)
  | string (value : String)
  | text (value : String)
  | markedText (segments : List TextDelta)
  | map (entries : List (String × Stored))
  | tree (nodes : List (TreeNode (List (String × Stored))))
  | other

/-- A map container in the order in which it is iterated. -/
abbrev LoroMap := List (String × Stored)

namespace LoroMap

def get (m : LoroMap) (key : String) : Option Stored := List.lookup key m

/-- A new entry comes last, a known key keeps its place. -/
def insert : LoroMap → String → Stored → LoroMap
  | [], key, value => [(key, value)]
  | e :: rest, key, value =>
    if e.1 = key then (key, value) :: rest else e :: LoroMap.insert rest key value

def remove (m : LoroMap) (key : String) : LoroMap := m.filter fun e => decide (e.1 ≠ key)

theorem get_insert (m : LoroMap) (key key' : String) (value : Stored) :
    (m.insert key value).get key' = if key' = key then some value else m.get key' := by
  unfold get
  induction m with
  | nil =>
    by_cases h : key' = key
    · simp [insert, h]
    · simp [insert, List.lookup_cons, beq_false_of_ne h, h]
  | cons e rest ih =>
    unfold insert
    by_cases he : e.1 = key
    · rw [if_pos he]
      by_cases h : key' = key
      · simp [h]
      · rw [List.lookup_cons, List.lookup_cons, he, beq_false_of_ne h, if_neg h]
    · rw [if_neg he, List.lookup_cons, ih, List.lookup_cons]
      by_cases h : key' = key
      · simp [h, beq_false_of_ne (Ne.symm he)]
      · simp [h]

end LoroMap

def Stored.intoMap : Stored → Option LoroMap
  | .map entries => some entries
  | _ => none

/-- The letters that a segment of a text inserts. -/
def inserted : TextDelta → Text
  | .insert insert _ => insert
  | .retain | .delete => []

def Stored.intoText : Stored → Option String
  | .text value => some value
  | .markedText segments => some (String.ofList (segments.flatMap inserted))
  | _ => none

/-- `to_delta` of a text container. -/
def Stored.intoDelta : Stored → Option (List TextDelta)
  | .text value => some (if value = "" then [] else [.insert value.toList none])
  | .markedText segments => some segments
  | _ => none

def Stored.intoTree : Stored → Option (List (TreeNode LoroMap))
  | .tree nodes => some nodes
  | _ => none

def Stored.intoString : Stored → Option String
  | .string value => some value
  | _ => none

def mapString (m : LoroMap) (key : String) : Option String := (m.get key).bind Stored.intoString

def mapI64 (m : LoroMap) (key : String) : Option Int :=
  match m.get key with
  | some (.i64 value) => some value
  | _ => none

def mapBool (m : LoroMap) (key : String) : Option Bool :=
  match m.get key with
  | some (.bool value) => some value
  | _ => none

/-- `u32::try_from` on a stored integer. -/
def u32FromI64 (value : Int) : Option Nat :=
  if 0 ≤ value ∧ value < 4294967296 then some value.toNat else none

def mapU32 (m : LoroMap) (key : String) : Option Nat := (mapI64 m key).bind u32FromI64

end Neoseq.Document
