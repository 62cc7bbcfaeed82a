import Neoseq.Forest.Basic

/-! The trees of a forest as pairs of a label and what is under it, and relabelling. -/

namespace Neoseq.Forest
variable {α β : Type}

def map (φ : α → β) : Forest α → Forest β
  | nil => nil
  | node a k r => node (φ a) (map φ k) (map φ r)

/-- The trees of the top row. -/
def rowTrees : Forest α → List (α × Forest α)
  | nil => []
  | node a k r => (a, k) :: rowTrees r

/-- All trees, in pre-order. -/
def objects : Forest α → List (α × Forest α)
  | nil => []
  | node a k r => (a, k) :: (objects k ++ objects r)

@[simp] theorem map_nil (φ : α → β) : map φ nil = nil := rfl
@[simp] theorem map_node (φ : α → β) (a : α) (k r : Forest α) :
    map φ (node a k r) = node (φ a) (map φ k) (map φ r) := rfl
@[simp] theorem rowTrees_nil : rowTrees (nil : Forest α) = [] := rfl
@[simp] theorem rowTrees_node (a : α) (k r : Forest α) :
    rowTrees (node a k r) = (a, k) :: rowTrees r := rfl
@[simp] theorem objects_nil : objects (nil : Forest α) = [] := rfl
@[simp] theorem objects_node (a : α) (k r : Forest α) :
    objects (node a k r) = (a, k) :: (objects k ++ objects r) := rfl
@[simp] theorem map_id (f : Forest α) : map id f = f := by
  induction f with
  | nil => rfl
  | node a k r ihk ihr => rw [map_node, ihk, ihr, id]

theorem rowTrees_injective : Function.Injective (rowTrees : Forest α → List (α × Forest α)) := by
  intro f
  induction f with
  | nil =>
    intro g h
    cases g with
    | nil => rfl
    | node => cases h
  | node a k r _ ihr =>
    intro g h
    cases g with
    | nil => cases h
    | node a' k' r' =>
      obtain ⟨hhead, htail⟩ := List.cons.inj h
      obtain ⟨rfl, rfl⟩ := Prod.mk.inj hhead
      rw [ihr htail]

theorem mem_objects_of_mem_rowTrees {f : Forest α} {t : α × Forest α} (h : t ∈ rowTrees f) :
    t ∈ objects f := by
  induction f with
  | nil => cases h
  | node a k r _ ihr =>
    rcases List.mem_cons.mp h with rfl | h
    · exact List.mem_cons_self
    · exact List.mem_cons_of_mem _ (List.mem_append_right _ (ihr h))

/-- What is under a tree of a forest is in the forest. -/
theorem mem_objects_trans {f : Forest α} {t u : α × Forest α} (ht : t ∈ objects f)
    (hu : u ∈ objects t.2) : u ∈ objects f := by
  induction f with
  | nil => cases ht
  | node a k r ihk ihr =>
    rw [objects_node] at ht ⊢
    refine List.mem_cons_of_mem _ (List.mem_append.mpr ?_)
    rcases List.mem_cons.mp ht with rfl | ht
    · exact .inl hu
    · exact (List.mem_append.mp ht).imp ihk ihr

theorem labels_eq_map_objects (f : Forest α) : labels f = f.objects.map Prod.fst := by
  induction f with
  | nil => rfl
  | node a k r ihk ihr =>
    rw [labels_node, objects_node, List.map_cons, List.map_append, ihk, ihr]

theorem roots_eq_map_rowTrees (f : Forest α) : roots f = f.rowTrees.map Prod.fst := by
  induction f with
  | nil => rfl
  | node a k r _ ihr => rw [roots_node, rowTrees_node, List.map_cons, ihr]

end Neoseq.Forest
