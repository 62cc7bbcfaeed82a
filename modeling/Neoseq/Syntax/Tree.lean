import Mathlib

/-! Syntax seen as a tree. A syntax with several mutually recursive sorts is one
type of nodes here, and a node says in one place what its direct parts are. What
occurs in a node, the list of all of it and induction over it follow from that. -/

namespace Neoseq.Syntax

structure Tree (α : Type) where
  children : α → List α
  wellFounded : WellFounded fun b a => b ∈ children a

namespace Tree

variable {α : Type} (t : Tree α)

/-- `b` occurs in `a`, at any depth. -/
def Occurs (a b : α) : Prop := Relation.ReflTransGen (fun x y => y ∈ t.children x) a b

theorem induction {P : α → Prop} (step : ∀ a, (∀ b ∈ t.children a, P b) → P a) (a : α) : P a :=
  t.wellFounded.induction a step

/-- Every occurrence of a node, the node itself first. -/
def nodes (a : α) : List α :=
  a :: (t.children a).attach.flatMap fun b => nodes b.1
termination_by t.wellFounded.wrap a
decreasing_by exact b.2

theorem nodes_eq (a : α) : t.nodes a = a :: (t.children a).flatMap t.nodes := by
  rw [nodes, List.flatMap_subtype (fun _ _ => rfl), List.unattach_attach]

theorem mem_nodes {a b : α} : b ∈ t.nodes a ↔ t.Occurs a b := by
  induction a using t.induction with
  | step a ih =>
    rw [nodes_eq, List.mem_cons, List.mem_flatMap]
    constructor
    · rintro (rfl | ⟨c, hc, hb⟩)
      · exact .refl
      · exact .head hc ((ih c hc).mp hb)
    · intro h
      cases h.cases_head with
      | inl h => exact .inl h.symm
      | inr h =>
        obtain ⟨c, hc, h⟩ := h
        exact .inr ⟨c, hc, (ih c hc).mpr h⟩

/-- What holds of every node holds of a node and of its parts. -/
theorem forall_nodes {P : α → Prop} {a : α} :
    (∀ b ∈ t.nodes a, P b) ↔ P a ∧ ∀ c ∈ t.children a, ∀ b ∈ t.nodes c, P b := by
  rw [nodes_eq, List.forall_mem_cons]
  refine and_congr_right fun _ => ⟨fun h c hc b hb => ?_, fun h b hb => ?_⟩
  · exact h b (List.mem_flatMap.mpr ⟨c, hc, hb⟩)
  · obtain ⟨c, hc, hb⟩ := List.mem_flatMap.mp hb
    exact h c hc b hb

/-- How many nodes there are of a kind. -/
def count (p : α → Bool) (a : α) : Nat := (t.nodes a).countP p

theorem count_eq (p : α → Bool) (a : α) :
    t.count p a = (if p a then 1 else 0) + ((t.children a).map (t.count p)).sum := by
  unfold count
  rw [nodes_eq, List.countP_cons, List.countP_flatMap, Nat.add_comm]
  rfl

end Tree

end Neoseq.Syntax
