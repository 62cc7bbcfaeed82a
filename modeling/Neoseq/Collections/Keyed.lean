import Mathlib

/-! Maps from keys to collections, where a key whose collection has run empty is
dropped. Posting maps have this shape, and nest. -/

namespace Neoseq.Collections

/-- A collection that members are put into and taken out of. -/
class Container (C : Type) (X : outParam Type) where
  Mem : X → C → Prop
  empty : C
  insert : X → C → C
  remove : X → C → C
  isEmpty : C → Bool
  not_mem_empty : ∀ x, ¬Mem x empty
  mem_insert : ∀ x y c, Mem x (insert y c) ↔ x = y ∨ Mem x c
  mem_remove : ∀ x y c, Mem x (remove y c) ↔ x ≠ y ∧ Mem x c
  isEmpty_iff : ∀ c, isEmpty c = true ↔ ∀ x, ¬Mem x c
  ext : ∀ c d, (∀ x, Mem x c ↔ Mem x d) → c = d

instance {α : Type} [DecidableEq α] : Container (Finset α) α where
  Mem x s := x ∈ s
  empty := ∅
  insert x s := Insert.insert x s
  remove x s := s.erase x
  isEmpty s := decide (s = ∅)
  not_mem_empty := Finset.notMem_empty
  mem_insert _ _ _ := Finset.mem_insert
  mem_remove _ _ _ := Finset.mem_erase
  isEmpty_iff s := by rw [decide_eq_true_iff, Finset.eq_empty_iff_forall_notMem]
  ext _ _ h := Finset.ext h

/-- A hash map, which is never walked in a way that its order shows. -/
abbrev HashMap (κ υ : Type) := Finmap fun _ : κ => υ

/-- A map to collections none of which is empty. -/
structure Keyed (κ C : Type) {X : Type} [DecidableEq κ] [Container C X] where
  map : HashMap κ C
  nonempty : ∀ k c, map.lookup k = some c → Container.isEmpty c = false

namespace Keyed

variable {κ C X : Type} [DecidableEq κ] [Container C X]

/-- The collection under a key, empty where there is none. -/
def under (m : Keyed κ C) (k : κ) : C := (m.map.lookup k).getD Container.empty

def Mem (m : Keyed κ C) (k : κ) (x : X) : Prop := Container.Mem x (m.under k)

def empty : Keyed κ C := ⟨∅, fun k c h => by rw [Finmap.lookup_empty] at h; cases h⟩

theorem isEmpty_insert (x : X) (c : C) : Container.isEmpty (Container.insert x c) = false := by
  refine Bool.eq_false_iff.mpr fun h => ?_
  exact (Container.isEmpty_iff _).mp h x ((Container.mem_insert _ _ _).mpr (.inl rfl))

/-- `entry(k).or_default().insert(x)`. -/
def insert (m : Keyed κ C) (k : κ) (x : X) : Keyed κ C where
  map := m.map.insert k (Container.insert x (m.under k))
  nonempty k' c h := by
    by_cases hk : k' = k
    · subst hk
      rw [Finmap.lookup_insert] at h
      exact Option.some.inj h ▸ isEmpty_insert x _
    · rw [Finmap.lookup_insert_of_ne _ hk] at h
      exact m.nonempty k' c h

/-- A member is taken out, and its key with the last one. -/
def without (map : HashMap κ C) (k : κ) (x : X) : HashMap κ C :=
  match map.lookup k with
  | none => map
  | some c =>
    if Container.isEmpty (Container.remove x c) then map.erase k
    else map.insert k (Container.remove x c)

theorem lookup_without_of_ne {map : HashMap κ C} {k k' : κ} (x : X) (h : k' ≠ k) :
    (without map k x).lookup k' = map.lookup k' := by
  unfold without
  split
  · rfl
  · split
    · rw [Finmap.lookup_erase_ne h]
    · rw [Finmap.lookup_insert_of_ne _ h]

theorem lookup_without (map : HashMap κ C) (k : κ) (x : X) :
    (without map k x).lookup k =
      ((map.lookup k).map (Container.remove x)).filter fun c => !Container.isEmpty c := by
  unfold without
  split
  · next hc => rw [hc]; rfl
  · next c hc =>
    rw [hc, Option.map_some]
    split
    · next he => rw [Finmap.lookup_erase, Option.filter_some, he]; rfl
    · next he => rw [Finmap.lookup_insert, Option.filter_some, Bool.eq_false_iff.mpr he]; rfl

def remove (m : Keyed κ C) (k : κ) (x : X) : Keyed κ C where
  map := without m.map k x
  nonempty k' c h := by
    by_cases hk : k' = k
    · subst hk
      rw [lookup_without] at h
      simpa using (Option.mem_filter_iff.mp h).2
    · rw [lookup_without_of_ne x hk] at h
      exact m.nonempty k' c h

theorem under_insert (m : Keyed κ C) (k k' : κ) (x : X) :
    (m.insert k x).under k' = if k' = k then Container.insert x (m.under k) else m.under k' := by
  unfold Keyed.under insert
  split
  · next h =>
    subst h
    rw [Finmap.lookup_insert]
    rfl
  · next h => rw [Finmap.lookup_insert_of_ne _ h]

theorem mem_under_remove (m : Keyed κ C) (k : κ) (x y : X) :
    Container.Mem y ((m.remove k x).under k) ↔ y ≠ x ∧ Container.Mem y (m.under k) := by
  unfold Keyed.under
  rw [show (m.remove k x).map = without m.map k x from rfl, lookup_without]
  cases m.map.lookup k with
  | none => simp [Container.not_mem_empty]
  | some c =>
    rw [Option.map_some, Option.getD_some, ← Container.mem_remove, Option.filter_some]
    split
    · rfl
    · next he =>
      refine iff_of_false (Container.not_mem_empty y) ((Container.isEmpty_iff _).mp ?_ y)
      simpa using he

theorem under_remove_of_ne (m : Keyed κ C) {k k' : κ} (x : X) (h : k' ≠ k) :
    (m.remove k x).under k' = m.under k' := by
  unfold Keyed.under
  rw [show (m.remove k x).map = without m.map k x from rfl, lookup_without_of_ne x h]

@[simp] theorem not_mem_empty (k : κ) (x : X) : ¬(empty : Keyed κ C).Mem k x := by
  unfold Mem Keyed.under empty
  rw [Finmap.lookup_empty]
  exact Container.not_mem_empty x

@[simp] theorem mem_insert {m : Keyed κ C} {k k' : κ} {x y : X} :
    (m.insert k x).Mem k' y ↔ (k' = k ∧ y = x) ∨ m.Mem k' y := by
  unfold Mem
  rw [under_insert]
  by_cases h : k' = k
  · subst h
    simp [Container.mem_insert]
  · simp [h]

@[simp] theorem mem_remove {m : Keyed κ C} {k k' : κ} {x y : X} :
    (m.remove k x).Mem k' y ↔ ¬(k' = k ∧ y = x) ∧ m.Mem k' y := by
  unfold Mem
  by_cases h : k' = k
  · subst h
    rw [mem_under_remove]
    simp
  · rw [under_remove_of_ne _ _ h]
    simp [h]

theorem ext {m m' : Keyed κ C} (h : ∀ k x, m.Mem k x ↔ m'.Mem k x) : m = m' := by
  have hmap : m.map = m'.map := Finmap.ext_lookup fun k => by
    have hk : m.under k = m'.under k := Container.ext _ _ (h k)
    unfold Keyed.under at hk
    cases hc : m.map.lookup k with
    | none =>
      cases hc' : m'.map.lookup k with
      | none => rfl
      | some c' =>
        rw [hc, hc'] at hk
        have := m'.nonempty k c' hc'
        rw [Option.getD_some] at hk
        rw [← hk, Option.getD_none, Bool.eq_false_iff] at this
        exact absurd ((Container.isEmpty_iff _).mpr Container.not_mem_empty) this
    | some c =>
      cases hc' : m'.map.lookup k with
      | none =>
        rw [hc, hc'] at hk
        have := m.nonempty k c hc
        rw [Option.getD_some] at hk
        rw [hk, Option.getD_none, Bool.eq_false_iff] at this
        exact absurd ((Container.isEmpty_iff _).mpr Container.not_mem_empty) this
      | some c' =>
        rw [hc, hc'] at hk
        exact congrArg some hk
  cases m
  cases m'
  subst hmap
  rfl

/-- A map to collections is a collection of pairs. -/
instance : Container (Keyed κ C) (κ × X) where
  Mem p m := m.Mem p.1 p.2
  empty := Keyed.empty
  insert p m := m.insert p.1 p.2
  remove p m := m.remove p.1 p.2
  isEmpty m := decide (m.map.keys = ∅)
  not_mem_empty p := not_mem_empty p.1 p.2
  mem_insert p q m := by rw [mem_insert, Prod.ext_iff]
  mem_remove p q m := by rw [mem_remove, ne_eq, Prod.ext_iff]
  isEmpty_iff m := by
    rw [decide_eq_true_iff, Finset.eq_empty_iff_forall_notMem]
    constructor
    · intro h ⟨k, x⟩ hm
      have hk : m.map.lookup k = none := Finmap.lookup_eq_none.mpr fun hk => h k (Finmap.mem_keys.mpr hk)
      unfold Mem Keyed.under at hm
      rw [hk] at hm
      exact Container.not_mem_empty x hm
    · intro h k hk
      obtain ⟨c, hc⟩ := Finmap.mem_iff.mp (Finmap.mem_keys.mp hk)
      have hne := m.nonempty k c hc
      rw [Bool.eq_false_iff] at hne
      refine hne ((Container.isEmpty_iff c).mpr fun x hx => h (k, x) ?_)
      unfold Mem Keyed.under
      rwa [hc]
  ext m m' h := Keyed.ext fun k x => h (k, x)

end Keyed

end Neoseq.Collections
