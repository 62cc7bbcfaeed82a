import Neoseq.Outline.State

/-! The planner's two maps represent an ordered forest. Reading a tree gives a
representing state, the ancestor walks decide membership in subtrees, and one
planned move is one move of the forest. -/

namespace Neoseq.Outline
open Forest OutlineState
variable {β : Type} [LinearOrder β]

/-- The maps hold exactly the parents and rows of `f`, and the walk that the
ancestor checks use as fuel is long enough. -/
structure Represents (s : OutlineState β) (f : Forest β) : Prop where
  nodup : f.labels.Nodup
  parents : ∀ b, s.parents b = f.parentIn none b
  children : ∀ p, s.children p = f.row p
  order : s.documentOrder.length = f.labels.length

/-! ## Reading a tree -/

theorem addNodes_order (f : Forest β) (p : Option β) (s : OutlineState β) :
    (addNodes f p s).documentOrder = s.documentOrder ++ f.labels := by
  induction f generalizing p s with
  | nil => simp [addNodes]
  | node a k r ihk ihr => simp [addNodes, ihk, ihr, setRow, setParent, push]

theorem addNodes_parents {f : Forest β} (p : Option β) (s : OutlineState β)
    (hn : f.labels.Nodup) (x : β) :
    (addNodes f p s).parents x = (f.parentIn p x).or (s.parents x) := by
  induction f generalizing p s with
  | nil => rfl
  | node a k r ihk ihr =>
    rw [labels_node, List.nodup_cons, List.nodup_append, List.mem_append, not_or] at hn
    obtain ⟨⟨hak, har⟩, hk, hr, hd⟩ := hn
    rw [addNodes, ihr _ _ hr, ihk _ _ hk, parentIn]
    by_cases hax : a = x
    · subst hax
      simp [parentIn_of_not_mem hak, parentIn_of_not_mem har, setRow, setParent, push]
    · rw [if_neg hax]
      simp only [setRow, setParent, push, if_neg (Ne.symm hax)]
      by_cases hxk : x ∈ k.labels
      · rw [parentIn_of_not_mem fun h => hd x hxk x h rfl]; simp
      · rw [parentIn_of_not_mem hxk]; simp

theorem addNodes_children {f : Forest β} (p : Option β) (s : OutlineState β)
    (hn : f.labels.Nodup) (q : Option β) :
    (addNodes f p s).children q =
      match q with
      | none => s.children none
      | some x => if x ∈ f.labels then some (under x f).roots else s.children (some x) := by
  induction f generalizing p s with
  | nil => cases q <;> rfl
  | node a k r ihk ihr =>
    rw [labels_node, List.nodup_cons, List.nodup_append, List.mem_append, not_or] at hn
    obtain ⟨⟨hak, har⟩, hk, hr, hd⟩ := hn
    rw [addNodes, ihr _ _ hr]
    cases q with
    | none => exact ihk _ _ hk
    | some x =>
      simp only [labels_node, List.mem_cons, List.mem_append, under, ihk _ _ hk]
      by_cases hax : a = x
      · subst hax
        simp [hak, har, setRow]
      · by_cases hxk : x ∈ k.labels
        · have hxr : x ∉ r.labels := fun h => hd x hxk x h rfl
          simp [hax, hxk, hxr, under_of_not_mem hxr]
        · simp [hax, Ne.symm hax, hxk, under_of_not_mem hxk, setRow, setParent, push]

theorem fromTree_order (f : Forest β) : (fromTree f).documentOrder = f.labels := by
  simp [fromTree, addNodes_order, setRow, OutlineState.empty]

theorem represents_fromTree {f : Forest β} (hn : f.labels.Nodup) : Represents (fromTree f) f where
  nodup := hn
  parents b := by
    rw [fromTree, addNodes_parents _ _ hn]
    simp [setRow, OutlineState.empty]
  children q := by
    rw [fromTree, addNodes_children _ _ hn]
    cases q with
    | none => simp [setRow, row]
    | some x => simp [setRow, OutlineState.empty, row]
  order := congrArg List.length (fromTree_order f)

/-! ## Ancestor walks -/

theorem Represents.ancestorFrom_path {s : OutlineState β} (hit : β → Bool) (fuel : Nat)
    (z : List (Frame β)) (g : Forest β) (hs : Represents s (plug z g)) (hf : z.length ≤ fuel) :
    s.ancestorFrom hit fuel (ownerOf z) = z.any fun t => hit t.owner := by
  induction z generalizing fuel g with
  | nil => cases fuel <;> rfl
  | cons t z ih =>
    cases fuel with
    | zero => simp at hf
    | succ fuel =>
      have hp : s.parents t.owner = some (ownerOf z) := by
        rw [hs.parents, plug_cons, parentIn_split (by rw [← plug_cons]; exact hs.nodup)]
      rw [ownerOf_cons, ancestorFrom, hp, Option.join_some,
        ih fuel (t.left ++ node t.owner g t.right) hs (by simpa using hf), List.any_cons]

theorem Represents.path_le {s : OutlineState β} {z : List (Frame β)} {g : Forest β}
    (hs : Represents s (plug z g)) : z.length ≤ s.documentOrder.length := by
  have := length_le_before z
  rw [hs.order, labels_plug, List.length_append]
  omega

theorem Represents.hasRequestedAncestor {s : OutlineState β} {f : Forest β} (hs : Represents s f)
    {b : β} (hb : b ∈ f.labels) (requested : List β) :
    s.hasRequestedAncestor b requested = true ↔ ∃ c ∈ requested, b ∈ labels (under c f) := by
  obtain ⟨z, l, k, r, rfl⟩ := exists_plug hb
  have hpath := hs.ancestorFrom_path (fun c => requested.contains c)
    (s.documentOrder.length + 1) z _ (Nat.le_succ_of_le hs.path_le)
  rw [OutlineState.hasRequestedAncestor, hs.parents, parentIn_split hs.nodup, Option.join_some,
    hpath, List.any_eq_true]
  simp only [mem_under_split_iff hs.nodup, List.contains_eq_mem, decide_eq_true_eq]
  exact ⟨fun ⟨t, ht, hc⟩ => ⟨_, hc, t, ht, rfl⟩, fun ⟨_, hc, t, ht, he⟩ => ⟨t, ht, he ▸ hc⟩⟩

theorem Represents.isDescendant {s : OutlineState β} {f : Forest β} (hs : Represents s f)
    {c : β} (hc : c ∈ f.labels) (a : β) : s.isDescendant c a = true ↔ c ∈ subtree a f := by
  obtain ⟨z, l, k, r, rfl⟩ := exists_plug hc
  rw [OutlineState.isDescendant, ancestorFrom, hs.parents, parentIn_split hs.nodup,
    Option.join_some, hs.ancestorFrom_path _ _ z _ hs.path_le, mem_subtree_split_iff hs.nodup]
  simp

/-! ## One planned move -/

theorem idxOf?_of_mem {b : β} {l : List β} (h : b ∈ l) :
    ∃ i, l.idxOf? b = some i ∧ l.eraseIdx i = l.erase b := by
  obtain ⟨i, hi⟩ := Option.isSome_iff_exists.mp (List.isSome_idxOf?.mpr h)
  exact ⟨i, hi, by rw [List.erase_eq_eraseIdx, hi]⟩

/-- A listed block is in the row of its recorded parent. -/
theorem Represents.row_of_mem {s : OutlineState β} {f : Forest β} (hs : Represents s f)
    {b : β} (hb : b ∈ f.labels) :
    ∃ p l, s.parents b = some p ∧ s.children p = some l ∧ b ∈ l ∧
      f.parentIn none b = some p := by
  obtain ⟨p, hp⟩ := Option.isSome_iff_exists.mp (parentIn_isSome (p := none).mpr hb)
  obtain ⟨l, hl, hm⟩ := (mem_row_iff hs.nodup).mpr hp
  exact ⟨p, l, by rw [hs.parents, hp], by rw [hs.children, hl], hm, hp⟩

theorem Represents.not_cycle {s : OutlineState β} {f : Forest β} (hs : Represents s f)
    {b : β} {p : Option β} (hm : Movable b p f) :
    (p == some b || p.any fun candidate => s.isDescendant candidate b) = false := by
  cases p with
  | none => rfl
  | some x =>
    obtain ⟨hx, hxb⟩ := hm.parent x rfl
    have hne : x ≠ b := fun h => hxb (by rw [h]; exact List.mem_cons_self ..)
    have hd : s.isDescendant x b = false := by
      rw [← Bool.not_eq_true, hs.isDescendant hx]; exact hxb
    simp [hne, hd]

/-- Removing a block from its own row removes it from every row. -/
theorem Represents.children_erase {s : OutlineState β} {f : Forest β} (hs : Represents s f)
    {b : β} {o : Option β} {l : List β} (hl : s.children o = some l)
    (ho : f.parentIn none b = some o) (q : Option β) :
    (s.setRow o (l.erase b)).children q = (s.children q).map (·.erase b) := by
  by_cases hq : q = o
  · subst hq; simp [setRow, hl]
  · simp only [setRow, if_neg hq]
    cases hc : s.children q with
    | none => rfl
    | some m =>
      have hm : b ∉ m := fun hm => by
        have := (mem_row_iff hs.nodup).mp ⟨m, by rw [← hs.children, hc], hm⟩
        exact hq (Option.some.inj (this.symm.trans ho))
      rw [Option.map_some, List.erase_of_not_mem hm]

theorem Represents.length_children {s : OutlineState β} {f : Forest β} (hs : Represents s f)
    {q : Option β} {l : List β} (h : s.children q = some l) : l.length ≤ f.labels.length :=
  length_row_le hs.nodup (by rw [← hs.children, h])

/-- The parent of a legal move has a row. -/
theorem Represents.row_of_movable {s : OutlineState β} {f : Forest β} (hs : Represents s f)
    {b : β} {p : Option β} (hm : Movable b p f) : ∃ m, s.children p = some m := by
  cases p with
  | none => exact ⟨f.roots, hs.children none⟩
  | some x =>
    refine ⟨(under x f).roots, ?_⟩
    rw [hs.children, row, if_pos (hm.parent x rfl).1]

/-- The position a planned move inserts at, past the end for `none`. -/
def slot (f : Forest β) : Option Nat → Nat
  | some i => i
  | none => f.labels.length

omit [LinearOrder β] in
theorem min_slot {f : Forest β} {l : List β} (hl : l.length ≤ f.labels.length) (i : Option Nat) :
    (match i with
      | some i => min i l.length
      | none => l.length) = min (slot f i) l.length := by
  cases i with
  | none => exact (Nat.min_eq_right hl).symm
  | some i => rfl

theorem Represents.moveOne {s : OutlineState β} {f : Forest β} (hs : Represents s f)
    {b : β} {p : Option β} (hm : Movable b p f) (i : Option Nat) :
    ∃ s', s.moveOne b p i = .ok s' ∧ Represents s' (moveAt b p (slot f i) f) := by
  obtain ⟨o, l, ho, hl, hbl, hpo⟩ := hs.row_of_mem hm.mem
  obtain ⟨j, hj, he⟩ := idxOf?_of_mem hbl
  obtain ⟨m, hpm⟩ := hs.row_of_movable hm
  have hrow := hs.children_erase hl hpo
  have hlen : (m.erase b).length ≤ f.labels.length :=
    (List.erase_sublist.length_le).trans (hs.length_children hpm)
  simp only [OutlineState.moveOne, hs.not_cycle hm, ho, hl, hj, he, orElse, bind, Except.bind,
    Bool.false_eq_true, ↓reduceIte, pure, Except.pure, hrow p, hpm, Option.map_some,
    Option.getD_some]
  refine ⟨_, rfl, ⟨?_, ?_, ?_, ?_⟩⟩
  · exact (labels_perm_moveAt hm hs.nodup).nodup_iff.mpr hs.nodup
  · intro x
    rw [parentIn_moveAt hm hs.nodup, ← hs.parents]
    simp only [setParent, setRow]
  · intro q
    rw [row_moveAt hm hs.nodup, ← hs.children]
    by_cases hq : q = p
    · subst hq
      rw [hpm, Option.map_some, if_pos rfl, ← min_slot hlen i]
      cases i <;> simp [setParent, setRow]
    · simp only [if_neg hq, ← hrow q]
      simp only [setParent, setRow, if_neg hq]
  · rw [(labels_perm_moveAt hm hs.nodup).length_eq, ← hs.order]
    simp [setRow, setParent]

end Neoseq.Outline
