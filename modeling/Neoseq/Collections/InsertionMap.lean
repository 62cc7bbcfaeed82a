import Mathlib

/-! Maps that are walked in the order in which their keys were set first. -/

namespace Neoseq.Collections

/-- A key is set at its place where the map has it, and behind all others where it is new. -/
structure InsertionMap (κ υ : Type) where
  pairs : List (κ × υ)
  nodup : (pairs.map Prod.fst).Nodup

namespace InsertionMap

variable {κ υ : Type} [DecidableEq κ]

def empty : InsertionMap κ υ := ⟨[], List.nodup_nil⟩

def size (m : InsertionMap κ υ) : Nat := m.pairs.length

def get? (m : InsertionMap κ υ) (k : κ) : Option υ :=
  (m.pairs.find? fun p => p.1 = k).map Prod.snd

def delete (m : InsertionMap κ υ) (k : κ) : InsertionMap κ υ where
  pairs := m.pairs.filter fun p => p.1 ≠ k
  nodup := m.nodup.sublist (List.filter_sublist.map _)

theorem mem_pairs {m : InsertionMap κ υ} {k : κ} {v : υ} :
    (k, v) ∈ m.pairs ↔ m.get? k = some v := by
  unfold get?
  constructor
  · intro hmem
    cases hfind : m.pairs.find? fun p => p.1 = k with
    | none => simpa using List.find?_eq_none.mp hfind _ hmem
    | some p =>
      have hp : p.1 = k := by simpa using List.find?_some hfind
      have heq := List.inj_on_of_nodup_map m.nodup (List.mem_of_find?_eq_some hfind) hmem hp
      rw [heq]
      rfl
  · intro hget
    obtain ⟨p, hfind, hv⟩ := Option.map_eq_some_iff.mp hget
    have hp : p.1 = k := by simpa using List.find?_some hfind
    subst hp hv
    exact List.mem_of_find?_eq_some hfind

theorem get?_eq_none {m : InsertionMap κ υ} {k : κ} :
    m.get? k = none ↔ k ∉ m.pairs.map Prod.fst := by
  constructor
  · intro hget hmem
    obtain ⟨⟨k', v⟩, hp, rfl⟩ := List.mem_map.mp hmem
    rw [mem_pairs.mp hp] at hget
    cases hget
  · intro hnone
    cases hget : m.get? k with
    | none => rfl
    | some v => exact absurd (List.mem_map_of_mem (mem_pairs.mpr hget)) hnone

/-- Maps that have the same pairs, in whatever order, give the same values. -/
theorem get?_congr {m m' : InsertionMap κ υ} {k : κ}
    (h : ∀ v, (k, v) ∈ m'.pairs ↔ (k, v) ∈ m.pairs) : m'.get? k = m.get? k := by
  refine Option.ext fun v => ?_
  rw [← mem_pairs, ← mem_pairs, h v]
@[simp] theorem get?_empty (k : κ) : (empty : InsertionMap κ υ).get? k = none := rfl

@[simp] theorem get?_delete_self (m : InsertionMap κ υ) (k : κ) : (m.delete k).get? k = none := by
  rw [get?_eq_none]
  intro hmem
  obtain ⟨p, hp, hk⟩ := List.mem_map.mp hmem
  simpa [hk] using (List.mem_filter.mp hp).2

theorem get?_delete_of_ne (m : InsertionMap κ υ) {k k' : κ} (h : k' ≠ k) :
    (m.delete k).get? k' = m.get? k' := by
  refine get?_congr fun v => ?_
  simp [delete, h]

/-- Puts a key that the map does not have behind all others. -/
def push (m : InsertionMap κ υ) (k : κ) (v : υ) (h : m.get? k = none) : InsertionMap κ υ where
  pairs := m.pairs ++ [(k, v)]
  nodup := by
    rw [List.map_append, List.nodup_append]
    refine ⟨m.nodup, List.nodup_singleton _, ?_⟩
    rintro k' hk' _ hk rfl
    rw [List.mem_singleton.mp hk] at hk'
    exact get?_eq_none.mp h hk'

/-- Gives a key of the map another value at its place. -/
def replace (m : InsertionMap κ υ) (k : κ) (v : υ) : InsertionMap κ υ where
  pairs := m.pairs.map fun p => if p.1 = k then (p.1, v) else p
  nodup := by
    have heq : (m.pairs.map fun p => if p.1 = k then (p.1, v) else p).map Prod.fst =
        m.pairs.map Prod.fst := by
      rw [List.map_map]
      refine List.map_congr_left fun p _ => ?_
      dsimp only [Function.comp]
      split <;> rfl
    rw [heq]
    exact m.nodup

def set (m : InsertionMap κ υ) (k : κ) (v : υ) : InsertionMap κ υ :=
  if h : m.get? k = none then m.push k v h else m.replace k v

@[simp] theorem get?_set_self (m : InsertionMap κ υ) (k : κ) (v : υ) :
    (m.set k v).get? k = some v := by
  rw [← mem_pairs]
  unfold set
  split
  · exact List.mem_append_right _ (List.mem_singleton_self _)
  · next h =>
    obtain ⟨v', hv'⟩ := Option.ne_none_iff_exists'.mp h
    exact List.mem_map.mpr ⟨(k, v'), mem_pairs.mpr hv', if_pos rfl⟩

theorem get?_set_of_ne (m : InsertionMap κ υ) {k k' : κ} (v : υ) (h : k' ≠ k) :
    (m.set k v).get? k' = m.get? k' := by
  refine get?_congr fun v' => ?_
  unfold set
  split
  · simp [push, h]
  · unfold replace
    rw [List.mem_map]
    constructor
    · rintro ⟨p, hp, heq⟩
      split at heq
      · next hk => exact absurd ((congrArg Prod.fst heq).symm.trans hk) h
      · exact heq ▸ hp
    · intro hp
      exact ⟨_, hp, if_neg h⟩

theorem get?_set (m : InsertionMap κ υ) (k k' : κ) (v : υ) :
    (m.set k v).get? k' = if k' = k then some v else m.get? k' := by
  split
  · next h => rw [h, get?_set_self]
  · next h => rw [get?_set_of_ne m v h]

theorem get?_delete (m : InsertionMap κ υ) (k k' : κ) :
    (m.delete k).get? k' = if k' = k then none else m.get? k' := by
  split
  · next h => rw [h, get?_delete_self]
  · next h => rw [get?_delete_of_ne m h]

end InsertionMap

end Neoseq.Collections
