import Mathlib

/-! Opaque identifiers. Every kind of id is a string that passed the same check,
so an id that fails it cannot be written down. -/

namespace Neoseq.Domain

def maxIdLen : Nat := 160

inductive IdError where
  | empty (kind : String)
  | tooLong (kind : String) (max : Nat)
  | control (kind : String)
  | invalidDate (value : String)
  | invalidPropertyKey (value : String)
  deriving Repr, DecidableEq

def IdError.message : IdError → String
  | .empty kind => kind ++ " cannot be empty"
  | .tooLong kind max => kind ++ " exceeds " ++ toString max ++ " bytes"
  | .control kind => kind ++ " contains a control character"
  | .invalidDate value => "invalid local date: " ++ value
  | .invalidPropertyKey value =>
    "property key must match `(builtin|user).<lowercase-kebab-name>`: " ++ value

/-- `char::is_control`: the general category Cc. -/
def isControl (c : Char) : Bool :=
  c.val < 0x20 || (0x7f ≤ c.val && c.val ≤ 0x9f)

def validate (value kind : String) (max : Nat) : Except IdError Unit :=
  if value.isEmpty then .error (.empty kind)
  else if value.utf8ByteSize > max then .error (.tooLong kind max)
  else if value.toList.any isControl then .error (.control kind)
  else .ok ()

/-- The ids of one kind. -/
structure OpaqueString (kind : String) where
  asStr : String
  valid : validate asStr kind maxIdLen = .ok ()
  deriving DecidableEq

instance (kind : String) : LawfulBEq (OpaqueString kind) := inferInstance

def OpaqueString.new {kind : String} (value : String) : Except IdError (OpaqueString kind) :=
  match h : validate value kind maxIdLen with
  | .ok () => .ok ⟨value, h⟩
  | .error e => .error e

theorem OpaqueString.ext {kind : String} {a b : OpaqueString kind} (h : a.asStr = b.asStr) :
    a = b := by
  cases a
  cases b
  subst h
  rfl

/-- Reading back the text of an id gives the id. -/
theorem OpaqueString.new_asStr {kind : String} (id : OpaqueString kind) :
    OpaqueString.new id.asStr = .ok id := by
  unfold OpaqueString.new
  split
  · exact congrArg Except.ok (OpaqueString.ext rfl)
  · next e h =>
    rw [id.valid] at h
    cases h

theorem validate_kind {value kind : String} {max : Nat} (kind' : String)
    (h : validate value kind max = .ok ()) : validate value kind' max = .ok () := by
  unfold validate at h ⊢
  split_ifs at h ⊢
  rfl

/-- `new(id.as_str()).expect("valid entity ID")`: an id of one kind as one of another. -/
def OpaqueString.cast {kind kind' : String} (id : OpaqueString kind) : OpaqueString kind' :=
  ⟨id.asStr, validate_kind kind' id.valid⟩

@[simp] theorem OpaqueString.asStr_cast {kind kind' : String} (id : OpaqueString kind) :
    (id.cast : OpaqueString kind').asStr = id.asStr := rfl

@[simp] theorem OpaqueString.cast_cast {kind kind' : String} (id : OpaqueString kind) :
    ((id.cast : OpaqueString kind').cast : OpaqueString kind) = id := rfl

abbrev GraphId := OpaqueString "graph id"
abbrev PageId := OpaqueString "page id"
abbrev BlockId := OpaqueString "block id"
abbrev TagId := OpaqueString "tag id"
abbrev QueryViewId := OpaqueString "query view id"
abbrev DefaultQueryId := OpaqueString "default query id"

end Neoseq.Domain
