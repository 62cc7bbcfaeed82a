import Neoseq.Query.Compile
import Neoseq.Sparql.Substitution

/-! Algebra with numbered parameters in place of terms. A template holds one run of
parameters, each once and in reading order; filling them in gives the form it stands
for. Templates compose when their runs follow each other. -/

namespace Neoseq.Query
open Sparql

/-- The variables whose name marks them as a parameter. -/
def isParameter (v : Variable) : Bool := "q_p".toList.isPrefixOf v.toList

/-- The variables a compilation makes up itself. -/
def IsLocal (v : Variable) : Prop := v = subjectVariable ∨ ∃ n, v = localName "v" n

/-- The terms for parameters from a number on. -/
def bindFrom (n : Nat) : List Term → Variable → Option Term
  | [], _ => none
  | t :: rest, v => if v = parameter n then some t else bindFrom (n + 1) rest v

def bindOperands (terms : List Term) : Variable → Option Term := bindFrom 0 terms

theorem toList_parameter (n : Nat) : (parameter n).toList = ['q', '_', 'p'] ++ (toString n).toList := by
  rw [parameter, String.toList_append]; rfl

theorem toList_localName (n : Nat) :
    (localName "v" n).toList = ['q', '_', 'v'] ++ (toString n).toList := by
  rw [localName, String.toList_append, String.toList_append]; rfl

theorem parameter_inj {i j : Nat} : parameter i = parameter j ↔ i = j := by
  refine ⟨fun h => ?_, congrArg parameter⟩
  have hdigits : (toString i).toList = (toString j).toList := by
    simpa only [toList_parameter, List.append_cancel_left_eq] using congrArg String.toList h
  rw [← Nat.ofDigitChars_ten_toDigits (n := i), ← Nat.ofDigitChars_ten_toDigits (n := j)]
  simpa [Nat.toString_eq_ofList_toDigits] using congrArg (Nat.ofDigitChars 10 · 0) hdigits

@[simp] theorem isParameter_parameter (n : Nat) : isParameter (parameter n) = true := by
  rw [isParameter, toList_parameter]; rfl

theorem IsLocal.isParameter {v : Variable} (h : IsLocal v) : isParameter v = false := by
  obtain rfl | ⟨n, rfl⟩ := h
  · decide
  · rw [Query.isParameter, toList_localName]; rfl

theorem isLocal_subject : IsLocal subjectVariable := .inl rfl

theorem isLocal_localName (n : Nat) : IsLocal (localName "v" n) := .inr ⟨n, rfl⟩

theorem bindFrom_parameter (terms : List Term) (n i : Nat) :
    bindFrom n terms (parameter (n + i)) = terms[i]? := by
  induction terms generalizing n i with
  | nil => rfl
  | cons t rest ih =>
    cases i with
    | zero => exact if_pos rfl
    | succ i =>
      have hne : parameter (n + (i + 1)) ≠ parameter n := parameter_inj.not.mpr (by omega)
      rw [bindFrom, if_neg hne, show n + (i + 1) = n + 1 + i by omega, ih]
      rfl

theorem bindFrom_of_isLocal {v : Variable} (h : IsLocal v) (terms : List Term) (n : Nat) :
    bindFrom n terms v = none := by
  induction terms generalizing n with
  | nil => rfl
  | cons t rest ih =>
    have hne : v ≠ parameter n := by
      intro hv
      have hparameter := h.isParameter
      rw [hv, isParameter_parameter] at hparameter
      cases hparameter
    rw [bindFrom, if_neg hne, ih]

@[simp] theorem bindOperands_parameter (terms : List Term) (i : Nat) :
    bindOperands terms (parameter i) = terms[i]? := by
  simpa [bindOperands] using bindFrom_parameter terms 0 i

theorem bindOperands_of_isLocal {v : Variable} (terms : List Term) (h : IsLocal v) :
    bindOperands terms v = none := bindFrom_of_isLocal h terms 0

/-! ## Templates -/

/-- The variables of a template: the parameters of the run in order, between locals. -/
structure Numbered (n count : Nat) (vs : List Variable) : Prop where
  parameters : vs.filter isParameter = (List.range' n count).map parameter
  locals : ∀ v ∈ vs, isParameter v = false → IsLocal v

theorem Numbered.append {n a b : Nat} {vs ws : List Variable} (hv : Numbered n a vs)
    (hw : Numbered (n + a) b ws) : Numbered n (a + b) (vs ++ ws) where
  parameters := by
    rw [List.filter_append, hv.parameters, hw.parameters, ← List.map_append, List.range'_append_1]
  locals v h hp := (List.mem_append.mp h).elim (hv.locals v · hp) (hw.locals v · hp)

theorem numbered_of_locals {n : Nat} {vs : List Variable} (h : ∀ v ∈ vs, IsLocal v) :
    Numbered n 0 vs where
  parameters := List.filter_eq_nil_iff.mpr fun v hv => by rw [(h v hv).isParameter]; decide
  locals v hv _ := h v hv

theorem numbered_parameter (n : Nat) : Numbered n 1 [parameter n] where
  parameters := by simp
  locals v hv hp := by
    rw [List.mem_singleton.mp hv, isParameter_parameter] at hp
    cases hp

/-- Forms with variables that terms can be put in for. -/
class Substitutes (α : Type) where
  occurring : α → List Variable
  substitute : (Variable → Option Term) → α → α

instance : Substitutes TermPattern := ⟨TermPattern.variables, TermPattern.substitute⟩
instance : Substitutes Expression := ⟨Expression.variables, Expression.substitute⟩
instance : Substitutes (List Expression) := ⟨variablesOf, substituteAll⟩
instance : Substitutes GraphPattern := ⟨GraphPattern.variables, GraphPattern.substitute⟩
instance : Substitutes Sparql.Query := ⟨Sparql.Query.variables, Sparql.Query.substitute⟩

variable {α β γ : Type} [Substitutes α] [Substitutes β] [Substitutes γ]

/-- `template` has a parameter for each of `terms`, from number `n` on, and is `filled`
once the parameters from there on stand for them. -/
structure Template (n : Nat) (terms : List Term) (filled template : α) : Prop where
  numbered : Numbered n terms.length (Substitutes.occurring template)
  fills : ∀ all : List Term, terms <+: all.drop n →
    Substitutes.substitute (bindOperands all) template = filled

theorem Template.fill {n : Nat} {ts : List Term} {a b : α} (h : Template n ts a b) :
    ∃ σ, Substitutes.substitute σ b = a := by
  refine ⟨_, h.fills (List.replicate n (Term.simple "") ++ ts) ?_⟩
  rw [List.drop_left' List.length_replicate]

/-- Without parameters it does not matter where their numbers would begin. -/
theorem Template.renumber {n m : Nat} {a b : α} (h : Template n [] a b) : Template m [] a b where
  numbered := ⟨h.numbered.parameters, h.numbered.locals⟩
  fills all _ := h.fills all (List.nil_prefix)

/-- A constructor that keeps the order of its parts composes their templates. -/
theorem Template.map₂ {f : α → β → γ} {n : Nat} {ss ts : List Term} {a a' : α} {b b' : β}
    (hvars : ∀ x y, Substitutes.occurring (f x y) =
      Substitutes.occurring x ++ Substitutes.occurring y)
    (hsubst : ∀ σ x y, Substitutes.substitute σ (f x y) =
      f (Substitutes.substitute σ x) (Substitutes.substitute σ y))
    (ha : Template n ss a a') (hb : Template (n + ss.length) ts b b') :
    Template n (ss ++ ts) (f a b) (f a' b') where
  numbered := by
    rw [hvars, List.length_append]
    exact ha.numbered.append hb.numbered
  fills all h := by
    obtain ⟨rest, hrest⟩ := h
    have hs : ss <+: all.drop n := ⟨ts ++ rest, by rw [← hrest, List.append_assoc]⟩
    have ht : ts <+: all.drop (n + ss.length) := by
      rw [← List.drop_drop, ← hrest, List.append_assoc, List.drop_left]
      exact List.prefix_append ts rest
    rw [hsubst, ha.fills all hs, hb.fills all ht]

theorem Template.map {f : α → β} {n : Nat} {ts : List Term} {a a' : α}
    (hvars : ∀ x, Substitutes.occurring (f x) = Substitutes.occurring x)
    (hsubst : ∀ σ x, Substitutes.substitute σ (f x) = f (Substitutes.substitute σ x))
    (ha : Template n ts a a') : Template n ts (f a) (f a') where
  numbered := by rw [hvars]; exact ha.numbered
  fills all h := by rw [hsubst, ha.fills all h]

/-- A form without parameters is its own template. -/
theorem template_fixed {n : Nat} {a : α} (h : ∀ v ∈ Substitutes.occurring a, IsLocal v)
    (hsubst : ∀ σ : Variable → Option Term, (∀ v ∈ Substitutes.occurring a, σ v = none) →
      Substitutes.substitute σ a = a) : Template n [] a a where
  numbered := numbered_of_locals h
  fills all _ := hsubst _ fun v hv => bindOperands_of_isLocal all (h v hv)

end Neoseq.Query
