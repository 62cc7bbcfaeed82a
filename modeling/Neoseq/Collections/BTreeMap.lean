import Mathlib

/-! Ordered maps. A map is the list of its entries in key order, so two maps with
the same contents are equal and iteration follows the keys. A set is a map to
nothing. -/

namespace Neoseq.Collections

variable {κ υ : Type} [LinearOrder κ]

structure BTreeMap (κ υ : Type) [LinearOrder κ] where
  entries : List (κ × υ)
  sorted : (entries.map Prod.fst).Pairwise (· < ·)

namespace BTreeMap

instance [DecidableEq υ] : DecidableEq (BTreeMap κ υ) := fun a b =>
  decidable_of_iff (a.entries = b.entries) <| by
    cases a
    cases b
    simp

def empty : BTreeMap κ υ := ⟨[], List.Pairwise.nil⟩

instance : EmptyCollection (BTreeMap κ υ) := ⟨empty⟩

def get (m : BTreeMap κ υ) (k : κ) : Option υ := List.lookup k m.entries

/-- An entry before the first one that has a greater key, in the place of one
that has the same. -/
def insertEntry (k : κ) (v : υ) : List (κ × υ) → List (κ × υ)
  | [] => [(k, v)]
  | e :: rest =>
    if k < e.1 then (k, v) :: e :: rest
    else if k = e.1 then (k, v) :: rest
    else e :: insertEntry k v rest

theorem mem_insertEntry {k : κ} {v : υ} {l : List (κ × υ)} {e : κ × υ}
    (h : e ∈ insertEntry k v l) : e = (k, v) ∨ e ∈ l := by
  induction l with
  | nil => simpa [insertEntry] using h
  | cons x rest ih =>
    unfold insertEntry at h
    split at h
    · simpa using h
    · split at h
      · rcases List.mem_cons.mp h with h | h
        · exact .inl h
        · exact .inr (List.mem_cons_of_mem _ h)
      · rcases List.mem_cons.mp h with rfl | h
        · exact .inr (List.mem_cons_self ..)
        · exact (ih h).imp_right (List.mem_cons_of_mem _)

theorem sorted_insertEntry {k : κ} {v : υ} {l : List (κ × υ)}
    (h : (l.map Prod.fst).Pairwise (· < ·)) :
    ((insertEntry k v l).map Prod.fst).Pairwise (· < ·) := by
  induction l with
  | nil => simp [insertEntry]
  | cons x rest ih =>
    rw [List.map_cons, List.pairwise_cons] at h
    unfold insertEntry
    split
    · next hk =>
      rw [List.map_cons, List.pairwise_cons]
      refine ⟨?_, by rw [List.map_cons]; exact List.pairwise_cons.mpr h⟩
      intro y hy
      rcases List.mem_cons.mp hy with rfl | hy
      · exact hk
      · exact hk.trans (h.1 y hy)
    · next hk =>
      split
      · next he =>
        rw [List.map_cons, List.pairwise_cons]
        exact ⟨fun y hy => he ▸ h.1 y hy, h.2⟩
      · next he =>
        rw [List.map_cons, List.pairwise_cons]
        refine ⟨?_, ih h.2⟩
        intro y hy
        obtain ⟨e, hm, rfl⟩ := List.mem_map.mp hy
        rcases mem_insertEntry hm with rfl | hm
        · exact lt_of_le_of_ne (not_lt.mp hk) (Ne.symm he)
        · exact h.1 _ (List.mem_map_of_mem hm)

def insert (m : BTreeMap κ υ) (k : κ) (v : υ) : BTreeMap κ υ :=
  ⟨insertEntry k v m.entries, sorted_insertEntry m.sorted⟩

def remove (m : BTreeMap κ υ) (k : κ) : BTreeMap κ υ :=
  ⟨m.entries.filter fun e => decide (e.1 ≠ k), m.sorted.sublist (List.filter_sublist.map _)⟩

/-- Every value changed in place. -/
def mapValues (m : BTreeMap κ υ) (f : υ → υ) : BTreeMap κ υ :=
  ⟨m.entries.map fun e => (e.1, f e.2), by
    rw [List.map_map]
    exact m.sorted⟩

/-- Every value changed in place or dropped. -/
def filterMapValues (m : BTreeMap κ υ) (f : κ → υ → Option υ) : BTreeMap κ υ :=
  ⟨m.entries.filterMap fun e => (f e.1 e.2).map fun v => (e.1, v), by
    refine m.sorted.sublist ?_
    induction m.entries with
    | nil => exact List.Sublist.refl _
    | cons e l ih =>
      rw [List.filterMap_cons, List.map_cons]
      cases f e.1 e.2 with
      | none => exact ih.cons _
      | some v => exact ih.cons_cons _⟩

/-- The map that a list of entries collects into: a later one replaces. -/
def ofEntries (l : List (κ × υ)) : BTreeMap κ υ :=
  l.foldl (fun m e => m.insert e.1 e.2) ∅

@[simp] theorem get_empty (k : κ) : (∅ : BTreeMap κ υ).get k = none := rfl
@[simp] theorem entries_empty : (∅ : BTreeMap κ υ).entries = [] := rfl

theorem get_insert (m : BTreeMap κ υ) (k k' : κ) (v : υ) :
    (m.insert k v).get k' = if k' = k then some v else m.get k' := by
  show List.lookup k' (insertEntry k v m.entries) = _
  unfold get
  induction m.entries with
  | nil =>
    by_cases h : k' = k
    · simp [insertEntry, h]
    · simp [insertEntry, List.lookup_cons, beq_false_of_ne h, h]
  | cons e rest ih =>
    unfold insertEntry
    split
    · by_cases h : k' = k
      · simp [h]
      · rw [List.lookup_cons, beq_false_of_ne h, if_neg h]
    · split
      · next he =>
        subst he
        by_cases h : k' = e.1
        · simp [h]
        · rw [List.lookup_cons, List.lookup_cons, beq_false_of_ne h, if_neg h]
      · next he =>
        rw [List.lookup_cons, ih, List.lookup_cons]
        by_cases h : k' = e.1
        · simp [h, Ne.symm he]
        · simp [beq_false_of_ne h]

theorem mem_entries {m : BTreeMap κ υ} {k : κ} {v : υ} :
    (k, v) ∈ m.entries ↔ m.get k = some v := by
  obtain ⟨entries, sorted⟩ := m
  show _ ↔ List.lookup k entries = some v
  induction entries with
  | nil => simp
  | cons e rest ih =>
    rw [List.map_cons, List.pairwise_cons] at sorted
    rw [List.mem_cons, List.lookup_cons]
    by_cases h : k = e.1
    · have hrest : (k, v) ∉ rest := fun hm =>
        absurd (sorted.1 k (List.mem_map_of_mem hm)) (h ▸ lt_irrefl _)
      subst h
      simp only [hrest, or_false, beq_self_eq_true, Option.some.injEq]
      exact ⟨fun he => (congrArg Prod.snd he).symm, fun he => Prod.ext rfl he.symm⟩
    · rw [beq_false_of_ne h]
      exact ⟨fun hm => (ih sorted.2).mp (hm.resolve_left fun he => h (congrArg Prod.fst he)),
        fun hl => .inr ((ih sorted.2).mpr hl)⟩

/-- A new value takes the place of the old one. -/
theorem entries_insert_of_get {m : BTreeMap κ υ} {k : κ} {v : υ} (v' : υ)
    (h : m.get k = some v) :
    ∃ l r, m.entries = l ++ (k, v) :: r ∧ (m.insert k v').entries = l ++ (k, v') :: r := by
  have hmem := mem_entries.mpr h
  obtain ⟨entries, sorted⟩ := m
  show ∃ l r, entries = l ++ (k, v) :: r ∧ insertEntry k v' entries = l ++ (k, v') :: r
  induction entries with
  | nil => cases hmem
  | cons e rest ih =>
    rw [List.map_cons, List.pairwise_cons] at sorted
    unfold insertEntry
    rcases List.mem_cons.mp hmem with rfl | hrest
    · rw [if_neg (lt_irrefl _), if_pos rfl]
      exact ⟨[], rest, rfl, rfl⟩
    · have hlt := sorted.1 k (List.mem_map_of_mem hrest)
      rw [if_neg (not_lt_of_gt hlt), if_neg (ne_of_gt hlt)]
      obtain ⟨l, r, hl, hins⟩ := ih sorted.2 (mem_entries (m := ⟨rest, sorted.2⟩).mp hrest) hrest
      exact ⟨e :: l, r, congrArg _ hl, congrArg _ hins⟩

theorem get_filterMapValues (m : BTreeMap κ υ) (f : κ → υ → Option υ) (k : κ) :
    (m.filterMapValues f).get k = (m.get k).bind (f k) := by
  refine Option.ext fun v => ?_
  rw [← mem_entries, Option.bind_eq_some_iff]
  constructor
  · intro h
    obtain ⟨e, he, h⟩ := List.mem_filterMap.mp h
    obtain ⟨w, hw, h⟩ := Option.map_eq_some_iff.mp h
    obtain ⟨rfl, rfl⟩ := Prod.mk.inj h
    exact ⟨e.2, mem_entries.mp he, hw⟩
  · rintro ⟨w, hw, hv⟩
    exact List.mem_filterMap.mpr ⟨(k, w), mem_entries.mpr hw, by rw [hv]; rfl⟩

theorem nodup_keys (m : BTreeMap κ υ) : (m.entries.map Prod.fst).Nodup :=
  m.sorted.imp ne_of_lt

theorem ext {m m' : BTreeMap κ υ} (h : ∀ k, m.get k = m'.get k) : m = m' := by
  have hm : ∀ e, e ∈ m.entries ↔ e ∈ m'.entries := fun ⟨k, v⟩ => by
    rw [mem_entries, mem_entries, h]
  have hp : m.entries.Perm m'.entries :=
    (List.perm_ext_iff_of_nodup m.nodup_keys.of_map m'.nodup_keys.of_map).mpr hm
  have he : m.entries = m'.entries :=
    List.Perm.eq_of_pairwise (fun a b _ _ hab hba => absurd (lt_trans hab hba) (lt_irrefl a.1))
      (List.pairwise_map.mp m.sorted) (List.pairwise_map.mp m'.sorted) hp
  cases m
  cases m'
  subst he
  rfl

theorem get_remove (m : BTreeMap κ υ) (k k' : κ) :
    (m.remove k).get k' = if k' = k then none else m.get k' := by
  by_cases h : k' = k
  · rw [if_pos h]
    refine Option.eq_none_iff_forall_ne_some.mpr fun v hv => ?_
    exact absurd h (by simpa using (List.mem_filter.mp (mem_entries.mpr hv)).2)
  · rw [if_neg h]
    refine Option.ext fun v => ?_
    rw [← mem_entries, ← mem_entries]
    exact ⟨fun hm => (List.mem_filter.mp hm).1, fun hm => List.mem_filter.mpr ⟨hm, by simpa⟩⟩

end BTreeMap

/-- A set in order. -/
abbrev BTreeSet (κ : Type) [LinearOrder κ] := BTreeMap κ Unit

namespace BTreeSet

def toList (s : BTreeSet κ) : List κ := s.entries.map Prod.fst

def add (s : BTreeSet κ) (k : κ) : BTreeSet κ := BTreeMap.insert s k ()

def extend (s : BTreeSet κ) (l : List κ) : BTreeSet κ := l.foldl add s

instance : Membership κ (BTreeSet κ) := ⟨fun s k => k ∈ s.toList⟩

theorem lawfulBEq : LawfulBEq κ := inferInstance

instance (k : κ) (s : BTreeSet κ) : Decidable (k ∈ s) :=
  @List.instDecidableMemOfLawfulBEq κ _ lawfulBEq k s.toList

theorem mem_iff_get {s : BTreeSet κ} {k : κ} : k ∈ s ↔ BTreeMap.get s k = some () := by
  rw [← BTreeMap.mem_entries]
  show k ∈ s.entries.map Prod.fst ↔ _
  rw [List.mem_map]
  exact ⟨fun ⟨_, hm, hk⟩ => hk ▸ hm, fun hm => ⟨_, hm, rfl⟩⟩

theorem mem_toList {s : BTreeSet κ} {k : κ} : k ∈ s.toList ↔ k ∈ s := Iff.rfl

@[simp] theorem not_mem_empty (k : κ) : k ∉ (∅ : BTreeSet κ) := by
  simp [mem_iff_get]

@[simp] theorem mem_add {s : BTreeSet κ} {k k' : κ} : k' ∈ s.add k ↔ k' = k ∨ k' ∈ s := by
  rw [mem_iff_get, mem_iff_get]
  show BTreeMap.get (BTreeMap.insert s k ()) k' = _ ↔ _
  rw [BTreeMap.get_insert]
  split <;> simp [*]

@[simp] theorem mem_extend {s : BTreeSet κ} {l : List κ} {k : κ} :
    k ∈ s.extend l ↔ k ∈ l ∨ k ∈ s := by
  unfold extend
  induction l generalizing s with
  | nil => simp
  | cons x l ih =>
    rw [List.foldl_cons, ih, mem_add, List.mem_cons, or_left_comm, or_assoc]

theorem ext {s t : BTreeSet κ} (h : ∀ k, k ∈ s ↔ k ∈ t) : s = t := by
  refine BTreeMap.ext fun k => ?_
  have := h k
  rw [mem_iff_get, mem_iff_get] at this
  cases hs : BTreeMap.get s k <;> cases ht : BTreeMap.get t k <;> simp_all

end BTreeSet

end Neoseq.Collections
