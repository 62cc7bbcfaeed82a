import Neoseq.Forest.Edit
import Neoseq.Forest.Objects

/-! The rows of an outline. The walk over the blocks gives one row for each, and the rows below
a collapsed one are left out. What is shown of the forest around a place depends on the place
only through its depth, its parent and whether anything above it is collapsed. -/

namespace Neoseq.Outline
open Forest

variable {κ τ : Type}

/-- A block of a snapshot without its children, which are where the block stands in a forest. -/
structure BlockView (κ τ : Type) where
  id : κ
  content : τ
  deriving Repr, DecidableEq

structure OutlineRow (κ τ : Type) where
  block : BlockView κ τ
  depth : Nat
  parentId : Option κ
  index : Nat
  siblingCount : Nat
  hasChildren : Bool
  collapsed : Bool
  deriving Repr, DecidableEq

/-- The blocks of an outline with what they hold. -/
def snapshot (content : κ → τ) (f : Forest κ) : Forest (BlockView κ τ) :=
  f.map fun id => ⟨id, content id⟩

/-- The walk of `outlineIndex` over the siblings from `index` on. -/
def visit : Forest (BlockView κ τ) → (depth : Nat) → (parentId : Option κ) → (index : Nat) →
    (siblingCount : Nat) → List (OutlineRow κ τ)
  | .nil, _, _, _, _ => []
  | .node block children siblings, depth, parentId, index, siblingCount =>
    ⟨block, depth, parentId, index, siblingCount, !children.roots.isEmpty, false⟩ ::
      (visit children (depth + 1) (some block.id) 0 children.roots.length ++
        visit siblings depth parentId (index + 1) siblingCount)

/-- The rows in document order. The map that the source fills has them in this order, since no
id is set twice. -/
def outlineIndex (blocks : Forest (BlockView κ τ)) : List (OutlineRow κ τ) :=
  visit blocks 0 none 0 blocks.roots.length

/-- The loop of `flattenOutline`; `hiddenBelow` is the depth of the collapsed row whose
descendants it passes over. -/
def flattenRows (collapsedIds : κ → Bool) :
    (hiddenBelow : Option Nat) → List (OutlineRow κ τ) → List (OutlineRow κ τ)
  | _, [] => []
  | hiddenBelow, row :: rest =>
    if hiddenBelow.any (row.depth > ·) then flattenRows collapsedIds hiddenBelow rest
    else if collapsedIds row.block.id then
      { row with collapsed := true } :: flattenRows collapsedIds (some row.depth) rest
    else row :: flattenRows collapsedIds none rest

def flattenOutline (outline : Forest (BlockView κ τ)) (collapsedIds : κ → Bool) :
    List (OutlineRow κ τ) :=
  flattenRows collapsedIds none (outlineIndex outline)

/-! ## What rows show -/

/-- A row as far as it is seen: its block, where it stands, and its text. -/
structure ShownRow (κ τ : Type) where
  id : κ
  depth : Nat
  parentId : Option κ
  collapsed : Bool
  content : τ
  deriving Repr, DecidableEq

def OutlineRow.shown (row : OutlineRow κ τ) : ShownRow κ τ :=
  ⟨row.block.id, row.depth, row.parentId, row.collapsed, row.block.content⟩

variable {hides : κ → Bool} {content : κ → τ} {d : Nat} {p : Option κ}

/-- What is shown of a row of trees at a depth and below a parent. -/
def visible (hides : κ → Bool) (content : κ → τ) :
    (depth : Nat) → (parentId : Option κ) → Forest κ → List (ShownRow κ τ)
  | _, _, .nil => []
  | depth, parentId, .node a k r =>
    ⟨a, depth, parentId, hides a, content a⟩ ::
      ((if hides a then [] else visible hides content (depth + 1) (some a) k) ++
        visible hides content depth parentId r)

@[simp] theorem visible_nil (d : Nat) (p : Option κ) : visible hides content d p .nil = [] := rfl

@[simp] theorem visible_node (d : Nat) (p : Option κ) (a : κ) (k r : Forest κ) :
    visible hides content d p (.node a k r) = ⟨a, d, p, hides a, content a⟩ ::
      ((if hides a then [] else visible hides content (d + 1) (some a) k) ++
        visible hides content d p r) := rfl

@[simp] theorem visible_append (d : Nat) (p : Option κ) (f g : Forest κ) :
    visible hides content d p (f ++ g) =
      visible hides content d p f ++ visible hides content d p g := by
  induction f with
  | nil => rfl
  | node a k r _ ih => simp only [node_append, visible_node, ih, List.cons_append,
      List.append_assoc]

theorem le_depth_of_visible {f : Forest κ} {row : ShownRow κ τ}
    (h : row ∈ visible hides content d p f) : d ≤ row.depth := by
  induction f generalizing d p with
  | nil => cases h
  | node a k r ihk ihr =>
    simp only [visible_node, List.mem_cons, List.mem_append] at h
    rcases h with rfl | h | h
    · exact Nat.le_refl d
    · split at h
      · cases h
      · exact Nat.le_of_succ_le (ihk h)
    · exact ihr h

/-! ## The loop -/

theorem depth_of_visit {f : Forest (BlockView κ τ)} {d i n : Nat} {p : Option κ}
    {row : OutlineRow κ τ} (h : row ∈ visit f d p i n) : d ≤ row.depth := by
  induction f generalizing d p i n with
  | nil => cases h
  | node a k r ihk ihr =>
    rw [visit, List.mem_cons, List.mem_append] at h
    rcases h with rfl | h | h
    · exact Nat.le_refl d
    · exact Nat.le_of_succ_le (ihk h)
    · exact ihr h

theorem flattenRows_hidden {rows rest : List (OutlineRow κ τ)} (h : ∀ row ∈ rows, d < row.depth) :
    flattenRows hides (some d) (rows ++ rest) = flattenRows hides (some d) rest := by
  induction rows with
  | nil => rfl
  | cons row rows ih =>
    have hd : (some d).any (row.depth > ·) = true := by
      simpa using h row (List.mem_cons_self ..)
    rw [List.cons_append, flattenRows, if_pos hd, ih fun x hx => h x (List.mem_cons_of_mem _ hx)]

/-- What was hidden does not reach up to a row that is not deeper. -/
theorem flattenRows_shown {rest : List (OutlineRow κ τ)} {hidden : Option Nat}
    (hd : ∀ e ∈ hidden, d ≤ e) (hrest : ∀ row ∈ rest.head?, row.depth ≤ d) :
    flattenRows hides hidden rest = flattenRows hides none rest := by
  cases rest with
  | nil => cases hidden <;> rfl
  | cons row rest =>
    have hrow : row.depth ≤ d := hrest row rfl
    have hshown : hidden.any (row.depth > ·) = false := by
      cases hidden with
      | none => rfl
      | some e => simpa using Nat.le_trans hrow (hd e rfl)
    rw [flattenRows, flattenRows, hshown]
    rfl

theorem head_visit_append (f : Forest (BlockView κ τ)) (i n : Nat)
    {rest : List (OutlineRow κ τ)} (hrest : ∀ row ∈ rest.head?, row.depth ≤ d) :
    ∀ row ∈ (visit f d p i n ++ rest).head?, row.depth ≤ d := by
  intro row h
  cases f with
  | nil => exact hrest row h
  | node a k r =>
    rw [visit, List.cons_append, List.head?_cons, Option.mem_some_iff] at h
    exact h ▸ Nat.le_refl d

theorem map_shown_flattenRows (f : Forest κ) {hidden : Option Nat} {i n : Nat}
    {rest : List (OutlineRow κ τ)} (hd : ∀ e ∈ hidden, d ≤ e)
    (hrest : ∀ row ∈ rest.head?, row.depth ≤ d) :
    (flattenRows hides hidden (visit (snapshot content f) d p i n ++ rest)).map
        OutlineRow.shown =
      visible hides content d p f ++ (flattenRows hides none rest).map OutlineRow.shown := by
  induction f generalizing d p hidden i n rest with
  | nil =>
    rw [visible_nil, List.nil_append]
    show (flattenRows hides hidden rest).map _ = _
    rw [flattenRows_shown hd hrest]
  | node a k r ihk ihr =>
    have hfirst : hidden.any (d > ·) = false := by
      cases hidden with
      | none => rfl
      | some e => simpa using hd e rfl
    have hr : ∀ row ∈ (visit (snapshot content r) d p (i + 1) n ++ rest).head?, row.depth ≤ d :=
      head_visit_append (snapshot content r) (i + 1) n hrest
    show (flattenRows hides hidden (_ :: ((visit (snapshot content k) (d + 1) (some a) 0 _ ++
      visit (snapshot content r) d p (i + 1) n) ++ rest))).map _ = _
    rw [flattenRows, visible_node, List.append_assoc]
    simp only [hfirst, Bool.false_eq_true, if_false]
    cases ha : hides a with
    | true =>
      rw [if_pos rfl, if_pos rfl, List.map_cons, flattenRows_hidden fun row hrow =>
        depth_of_visit hrow, ihr (fun e he => Nat.le_of_eq (Option.mem_some_iff.mp he)) hrest]
      rfl
    | false =>
      rw [if_neg Bool.false_ne_true, if_neg Bool.false_ne_true, List.map_cons,
        ihk (by simp) fun row hrow => Nat.le_succ_of_le (hr row hrow),
        ihr (by simp) hrest, List.cons_append, List.append_assoc]
      rfl

/-- The rows of an outline show what is visible of it. -/
theorem map_shown_flattenOutline (f : Forest κ) :
    (flattenOutline (snapshot content f) hides).map OutlineRow.shown =
      visible hides content 0 none f := by
  have h : (flattenRows hides none (outlineIndex (snapshot content f) ++ [])).map
      OutlineRow.shown = visible hides content 0 none f ++ [] :=
    map_shown_flattenRows f (by simp) (by simp)
  rw [List.append_nil, List.append_nil] at h
  exact h

/-! ## Places -/

/-- Nothing above the place is collapsed. -/
def Open (hides : κ → Bool) (z : List (Frame κ)) : Prop := ∀ t ∈ z, hides t.owner = false

/-- The rows above a place. -/
def rowsBefore (hides : κ → Bool) (content : κ → τ) : List (Frame κ) → List (ShownRow κ τ)
  | [] => []
  | t :: z => rowsBefore hides content z ++ (visible hides content z.length (ownerOf z) t.left ++
      [⟨t.owner, z.length, ownerOf z, hides t.owner, content t.owner⟩])

/-- The rows below a place. -/
def rowsAfter (hides : κ → Bool) (content : κ → τ) : List (Frame κ) → List (ShownRow κ τ)
  | [] => []
  | t :: z => visible hides content z.length (ownerOf z) t.right ++ rowsAfter hides content z

theorem visible_plug {z : List (Frame κ)} (hz : Open hides z) (g : Forest κ) :
    visible hides content 0 none (plug z g) = rowsBefore hides content z ++
      (visible hides content z.length (ownerOf z) g ++ rowsAfter hides content z) := by
  induction z generalizing g with
  | nil => exact (List.append_nil _).symm
  | cons t z ih =>
    have ht : hides t.owner = false := hz t (List.mem_cons_self ..)
    rw [plug_cons, ih fun s hs => hz s (List.mem_cons_of_mem _ hs), visible_append, visible_node,
      ht, rowsBefore, rowsAfter, ht]
    simp

/-! ## The rows around a block -/

/-- The rows above the block at a place. -/
def rowsAbove (hides : κ → Bool) (content : κ → τ) (z : List (Frame κ)) (l : Forest κ) :
    List (ShownRow κ τ) :=
  rowsBefore hides content z ++ visible hides content z.length (ownerOf z) l

/-- The row of the block at a place. -/
def rowAt (hides : κ → Bool) (content : κ → τ) (z : List (Frame κ)) (a : κ) :
    ShownRow κ τ := ⟨a, z.length, ownerOf z, hides a, content a⟩

/-- The rows below the block at a place and its subtree. -/
def rowsBelow (hides : κ → Bool) (content : κ → τ) (z : List (Frame κ)) (r : Forest κ) :
    List (ShownRow κ τ) :=
  visible hides content z.length (ownerOf z) r ++ rowsAfter hides content z

theorem ownerOf_mem_before {z : List (Frame κ)} {c : κ} (h : ownerOf z = some c) :
    c ∈ before z := by
  cases z with
  | nil => cases h
  | cons t z =>
    rw [before_cons, ← Option.some.inj h]
    simp

end Neoseq.Outline
