import Neoseq.Outline.MoveBlocks
import Neoseq.Outline.Rows

/-! Dragging rows of an outline. The rows a selection covers and the roots that travel are
read off the depths of the rows alone; a drop finds its parent and its anchor by walking up from
the gap. The walk passes the rows that travel, so it is carried out as if they were gone already,
and what it finds is the place of the gap in the forest without them. -/

namespace Neoseq.Outline
open Forest OutlineState

variable {κ τ : Type}

/-! ## Selections -/

/-- The loop of `coveredMask`; `inside` is the depth of the root it is in. -/
def maskFrom (ids : κ → Bool) : (inside : Option Nat) → List (ShownRow κ τ) → List Bool
  | _, [] => []
  | inside, x :: rest =>
    if inside.any (· < x.depth) then true :: maskFrom ids inside rest
    else if ids x.id then true :: maskFrom ids (some x.depth) rest
    else false :: maskFrom ids none rest

/-- `true` at every row that is a selected root or lives inside one. -/
def coveredMask (ids : κ → Bool) (rows : List (ShownRow κ τ)) : List Bool := maskFrom ids none rows

/-- The loop of `selectionRoots`. -/
def rootsFrom (selected : κ → Bool) :
    (inside : Option Nat) → List (ShownRow κ τ) → List (ShownRow κ τ)
  | _, [] => []
  | inside, x :: rest =>
    if inside.any (· < x.depth) then rootsFrom selected inside rest
    else if selected x.id then x :: rootsFrom selected (some x.depth) rest
    else rootsFrom selected none rest

/-- The rows whose subtrees move. -/
def selectionRoots (selected : κ → Bool) (rows : List (ShownRow κ τ)) : List (ShownRow κ τ) :=
  rootsFrom selected none rows

/-! ## The target of a drop -/

structure DropTarget (κ : Type) where
  parentId : Option κ
  afterId : Option κ
  depth : Nat
  gap : Nat
  deriving Repr, DecidableEq

/-- The last row of a window at a depth that is not travelling; the window lists the rows from the
lowest up. -/
def lastSibling (window : List (ShownRow κ τ × Bool)) (depth : Nat) : Option κ :=
  (window.find? fun x => x.1.depth == depth && !x.2).map (·.1.id)

/-- How deep a row may stand right below another: a collapsed one would hide it. -/
def ShownRow.room (before : ShownRow κ τ) : Nat :=
  if before.collapsed then before.depth else before.depth + 1

/-- The rows with their places in the mask. -/
def withMask (moving : κ → Bool) (rows : List (ShownRow κ τ)) : List (ShownRow κ τ × Bool) :=
  rows.zip (coveredMask moving rows)

def clampGap (rows : List (ShownRow κ τ)) (gap : Int) : Nat :=
  (max 0 (min (rows.length : Int) gap)).toNat

/-- The rows from `beforeIndex` up. -/
def upwards (moving : κ → Bool) (rows : List (ShownRow κ τ)) (gap : Nat) :
    List (ShownRow κ τ × Bool) :=
  ((withMask moving rows).take gap).reverse.dropWhile (·.2)

/-- The rows from `afterIndex` down. -/
def downwards (moving : κ → Bool) (rows : List (ShownRow κ τ)) (gap : Nat) :
    List (ShownRow κ τ × Bool) :=
  ((withMask moving rows).drop gap).dropWhile (·.2)

def maxDepth (moving : κ → Bool) (rows : List (ShownRow κ τ)) (gap : Nat) : Nat :=
  (upwards moving rows gap).head?.elim 0 (·.1.room)

def minDepth (moving : κ → Bool) (rows : List (ShownRow κ τ)) (gap : Nat) : Nat :=
  (downwards moving rows gap).head?.elim 0 (·.1.depth)

/-- Where a drop at `gap`, nudged towards `desiredDepth`, lands. -/
def dropTarget (rows : List (ShownRow κ τ)) (moving : κ → Bool) (gap desiredDepth : Int) :
    Option (DropTarget κ) :=
  let clampedGap := clampGap rows gap
  let above := upwards moving rows clampedGap
  let max' := maxDepth moving rows clampedGap
  let min' := minDepth moving rows clampedGap
  if max' < min' then none
  else
    let depth := (max (min' : Int) (min max' desiredDepth)).toNat
    if depth = 0 then some ⟨none, lastSibling above 0, depth, clampedGap⟩
    else
      -- The parent is the nearest row above the gap that sits one level shallower.
      match above.find? (·.1.depth == depth - 1) with
      | none => none
      | some parent =>
        some ⟨parent.1.id, lastSibling (above.takeWhile (·.1.depth != depth - 1)) depth, depth,
          clampedGap⟩

/-! ## The mask on the forest -/

variable {ids hides : κ → Bool} {content : κ → τ} {d : Nat} {p : Option κ}

/-- The visible rows of a forest, marked where a selection covers them. -/
def markedRows (ids hides : κ → Bool) (content : κ → τ) :
    (depth : Nat) → (parentId : Option κ) → Forest κ → List (ShownRow κ τ × Bool)
  | _, _, .nil => []
  | depth, parentId, .node a k r =>
    if ids a then
      (visible hides content depth parentId (single a k)).map (·, true) ++
        markedRows ids hides content depth parentId r
    else
      (⟨a, depth, parentId, hides a, content a⟩, false) ::
        ((if hides a then [] else markedRows ids hides content (depth + 1) (some a) k) ++
          markedRows ids hides content depth parentId r)

/-- The forest without the trees of the roots. -/
def stationary (ids hides : κ → Bool) : Forest κ → Forest κ
  | .nil => .nil
  | .node a k r =>
    if ids a then stationary ids hides r
    else .node a (if hides a then k else stationary ids hides k) (stationary ids hides r)

/-- The selected blocks that are shown and not below another one. -/
def travelling (ids hides : κ → Bool) : Forest κ → List κ
  | .nil => []
  | .node a k r =>
    (if ids a then [a] else if hides a then [] else travelling ids hides k) ++
      travelling ids hides r

/-- The rows that stay. -/
def uncovered (rows : List (ShownRow κ τ × Bool)) : List (ShownRow κ τ) :=
  (rows.filter fun x => !x.2).map Prod.fst

@[simp] theorem uncovered_nil : uncovered ([] : List (ShownRow κ τ × Bool)) = [] := rfl

@[simp] theorem uncovered_append (a b : List (ShownRow κ τ × Bool)) :
    uncovered (a ++ b) = uncovered a ++ uncovered b := by
  simp [uncovered]

@[simp] theorem uncovered_cons_false (x : ShownRow κ τ) (b : List (ShownRow κ τ × Bool)) :
    uncovered ((x, false) :: b) = x :: uncovered b := rfl

@[simp] theorem uncovered_map_true (a : List (ShownRow κ τ)) :
    uncovered (a.map (·, true)) = [] := by
  simp [uncovered, List.filter_map, Function.comp_def]

theorem uncovered_eq_nil {a : List (ShownRow κ τ × Bool)} :
    uncovered a = [] ↔ ∀ x ∈ a, x.2 = true := by
  simp [uncovered]

theorem uncovered_markedRows (ids hides : κ → Bool) (content : κ → τ) (d : Nat) (p : Option κ)
    (f : Forest κ) :
    uncovered (markedRows ids hides content d p f) =
      visible hides content d p (stationary ids hides f) := by
  induction f generalizing d p with
  | nil => rfl
  | node a k r ihk ihr =>
    rw [markedRows, stationary]
    split
    · rw [uncovered_append, uncovered_map_true, List.nil_append, ihr]
    · rw [uncovered_cons_false, uncovered_append, ihr, visible_node]
      by_cases hh : hides a = true
      · simp [hh]
      · simp [hh, ihk]

theorem le_depth_of_marked {f : Forest κ} {x : ShownRow κ τ × Bool}
    (h : x ∈ markedRows ids hides content d p f) : d ≤ x.1.depth := by
  induction f generalizing d p with
  | nil => cases h
  | node a k r ihk ihr =>
    rw [markedRows] at h
    split at h
    · rcases List.mem_append.mp h with h | h
      · obtain ⟨y, hy, rfl⟩ := List.mem_map.mp h
        exact le_depth_of_visible hy
      · exact ihr h
    · rcases List.mem_cons.mp h with rfl | h
      · exact Nat.le_refl d
      rcases List.mem_append.mp h with h | h
      · split at h
        · cases h
        · exact Nat.le_of_succ_le (ihk h)
      · exact ihr h

/-- Inside a root every row is covered and none is a root. -/
theorem maskFrom_inside (ids : κ → Bool) {rows : List (ShownRow κ τ)} (rest : List (ShownRow κ τ))
    (h : ∀ x ∈ rows, d < x.depth) :
    (rows ++ rest).zip (maskFrom ids (some d) (rows ++ rest)) =
        rows.map (·, true) ++ rest.zip (maskFrom ids (some d) rest) ∧
      rootsFrom ids (some d) (rows ++ rest) = rootsFrom ids (some d) rest := by
  induction rows with
  | nil => exact ⟨rfl, rfl⟩
  | cons x rows ih =>
    obtain ⟨hm, hr⟩ := ih fun y hy => h y (List.mem_cons_of_mem _ hy)
    have hx : (some d).any (· < x.depth) = true := by simpa using h x (List.mem_cons_self ..)
    rw [List.cons_append, maskFrom, rootsFrom, if_pos hx, if_pos hx, List.zip_cons_cons, hm, hr]
    exact ⟨rfl, rfl⟩

/-- Over the rows of a forest the loops mark what the roots of the forest cover. -/
theorem maskFrom_visible (ids hides : κ → Bool) (content : κ → τ) (f : Forest κ)
    (inside : Option Nat) (rest : List (ShownRow κ τ)) (h : ∀ i ∈ inside, d ≤ i) :
    ∃ inside' : Option Nat, (∀ i ∈ inside', d ≤ i) ∧
      (visible hides content d p f ++ rest).zip
          (maskFrom ids inside (visible hides content d p f ++ rest)) =
        markedRows ids hides content d p f ++ rest.zip (maskFrom ids inside' rest) ∧
      (rootsFrom ids inside (visible hides content d p f ++ rest)).map ShownRow.id =
        travelling ids hides f ++ (rootsFrom ids inside' rest).map ShownRow.id := by
  induction f generalizing d p inside rest with
  | nil => exact ⟨inside, h, rfl, rfl⟩
  | node a k r ihk ihr =>
    have hin : ¬inside.any (· < d) = true := by
      cases inside with
      | none => simp
      | some i => simpa using h i rfl
    rw [visible_node, List.cons_append, List.append_assoc, maskFrom, rootsFrom, if_neg hin,
      if_neg hin, markedRows, travelling]
    by_cases ha : ids a = true
    · -- The subtree of a root is passed over as one.
      obtain ⟨inside', hin', hm, hr⟩ := ihr (p := p) (some d) rest
        fun i hi => Nat.le_of_eq (Option.some.inj hi)
      obtain ⟨hmask, hroots⟩ := maskFrom_inside ids (visible hides content d p r ++ rest)
        (show ∀ x ∈ if hides a then [] else visible hides content (d + 1) (some a) k,
            d < x.depth by
          intro x hx
          split at hx
          · cases hx
          · exact le_depth_of_visible hx)
      refine ⟨inside', hin', ?_, ?_⟩
      · rw [if_pos ha, if_pos ha, List.zip_cons_cons, hmask, hm]
        simp [single]
      · rw [if_pos ha, if_pos ha, hroots, List.map_cons, hr]
        rfl
    · have hk : ∃ inside₁ : Option Nat, (∀ i ∈ inside₁, d ≤ i) ∧
          ((if hides a then [] else visible hides content (d + 1) (some a) k) ++
            (visible hides content d p r ++ rest)).zip (maskFrom ids none
              ((if hides a then [] else visible hides content (d + 1) (some a) k) ++
                (visible hides content d p r ++ rest))) =
            (if hides a then [] else markedRows ids hides content (d + 1) (some a) k) ++
              (visible hides content d p r ++ rest).zip
                (maskFrom ids inside₁ (visible hides content d p r ++ rest)) ∧
          (rootsFrom ids none ((if hides a then [] else visible hides content (d + 1) (some a) k) ++
            (visible hides content d p r ++ rest))).map ShownRow.id =
            (if hides a then [] else travelling ids hides k) ++
              (rootsFrom ids inside₁ (visible hides content d p r ++ rest)).map ShownRow.id := by
        split
        · exact ⟨none, by simp, rfl, rfl⟩
        · obtain ⟨inside₁, h₁, hm, hr⟩ := ihk (d := d + 1) (p := some a) none
            (visible hides content d p r ++ rest) (by simp)
          exact ⟨inside₁, fun i hi => Nat.le_of_succ_le (h₁ i hi), hm, hr⟩
      obtain ⟨inside₁, h₁, hmk, hrk⟩ := hk
      obtain ⟨inside', hin', hm, hr⟩ := ihr (p := p) inside₁ rest h₁
      refine ⟨inside', hin', ?_, ?_⟩
      · rw [if_neg ha, if_neg ha, List.zip_cons_cons, hmk, hm]
        simp
      · rw [if_neg ha, if_neg ha, hrk, hr, List.append_assoc]

theorem withMask_visible (ids hides : κ → Bool) (content : κ → τ) (f : Forest κ) :
    withMask ids (visible hides content 0 none f) = markedRows ids hides content 0 none f := by
  obtain ⟨inside', -, hm, -⟩ := maskFrom_visible ids hides content (d := 0) (p := none) f none []
    (by simp)
  simpa [withMask, coveredMask, maskFrom] using hm

theorem selectionRoots_visible (ids hides : κ → Bool) (content : κ → τ) (f : Forest κ) :
    (selectionRoots ids (visible hides content 0 none f)).map ShownRow.id =
      travelling ids hides f := by
  obtain ⟨inside', -, -, hr⟩ := maskFrom_visible ids hides content (d := 0) (p := none) f none []
    (by simp)
  simpa [selectionRoots, rootsFrom] using hr

/-! ## Walking up from the gap -/

/-- What a walk up the rows finds for the place after the trees `l` of a row: the owner of the
row, and the last of the trees. -/
structure Above (rows : List (ShownRow κ τ × Bool)) (z : List (Frame κ)) (l : Forest κ) :
    Prop where
  parent : (rows.find? (·.1.depth + 1 == z.length)).map (·.1.id) = ownerOf z
  anchor : lastSibling (rows.takeWhile (·.1.depth + 1 != z.length)) z.length = l.roots.getLast?

/-- Moreover the covered rows met first are not above the place's depth. -/
structure Standing (rows : List (ShownRow κ τ × Bool)) (z : List (Frame κ)) (l : Forest κ) :
    Prop extends Above rows z l where
  skirt : ∀ x ∈ rows.takeWhile (·.2), z.length ≤ x.1.depth

variable {z : List (Frame κ)} {l r : Forest κ} {rows : List (ShownRow κ τ × Bool)}

/-- Rows that are deeper, or travel at the depth, are passed. -/
theorem above_append {m : List (ShownRow κ τ × Bool)}
    (h : ∀ x ∈ m, z.length ≤ x.1.depth ∧ (x.2 = true ∨ x.1.depth ≠ z.length)) :
    Above (m ++ rows) z l ↔ Above rows z l := by
  induction m with
  | nil => exact Iff.rfl
  | cons x m ih =>
    have hx := h x (List.mem_cons_self ..)
    rw [← ih fun y hy => h y (List.mem_cons_of_mem _ hy)]
    have hne : ¬x.1.depth + 1 = z.length := by omega
    have hpass : ¬(x.1.depth = z.length ∧ x.2 = false) := by
      rintro ⟨hd, hc⟩
      rcases hx.2 with ht | ht
      · rw [hc] at ht
        cases ht
      · exact ht hd
    have hfind : (m ++ rows).find? (·.1.depth + 1 == z.length) =
        (x :: (m ++ rows)).find? (·.1.depth + 1 == z.length) := by
      simp [hne]
    have hlast : lastSibling ((m ++ rows).takeWhile (·.1.depth + 1 != z.length)) z.length =
        lastSibling ((x :: (m ++ rows)).takeWhile (·.1.depth + 1 != z.length)) z.length := by
      rw [List.takeWhile_cons_of_pos (by simpa using hne), lastSibling, lastSibling,
        List.find?_cons_of_neg (by simpa using hpass)]
    rw [List.cons_append]
    constructor
    · rintro ⟨hp, ha⟩
      exact ⟨hfind ▸ hp, hlast ▸ ha⟩
    · rintro ⟨hp, ha⟩
      exact ⟨hfind ▸ hp, hlast ▸ ha⟩

theorem Standing.above_dropWhile (h : Standing rows z l) :
    Above (rows.dropWhile (·.2)) z l := by
  have hall := h.toAbove
  rw [← List.takeWhile_append_dropWhile (p := fun x => x.2) (l := rows)] at hall
  exact (above_append fun x hx =>
    ⟨h.skirt x hx, .inl (List.mem_takeWhile_imp hx)⟩).mp hall

/-- Past rows that travel. -/
theorem Standing.covered (h : Standing rows z l) {m : List (ShownRow κ τ × Bool)}
    (hm : ∀ x ∈ m, z.length ≤ x.1.depth ∧ x.2 = true) : Standing (m ++ rows) z l where
  toAbove := (above_append fun x hx => ⟨(hm x hx).1, .inl (hm x hx).2⟩).mpr h.toAbove
  skirt x hx := by
    rw [List.takeWhile_append_of_pos fun y hy => (hm y hy).2] at hx
    exact (List.mem_append.mp hx).elim (fun hx => (hm x hx).1) (h.skirt x)

/-- Past a block that stays and what is below it. -/
theorem Standing.sibling (h : Standing rows z l) {x : ShownRow κ τ} (k : Forest κ)
    {m : List (ShownRow κ τ × Bool)} (hx : x.depth = z.length)
    (hm : ∀ y ∈ m, z.length < y.1.depth) :
    Standing (m ++ (x, false) :: rows) z (l ++ single x.id k) where
  toAbove := by
    refine (above_append fun y hy => ⟨Nat.le_of_lt (hm y hy), .inr (Nat.ne_of_gt (hm y hy))⟩).mpr
      ⟨?_, ?_⟩
    · rw [List.find?_cons_of_neg (by simp [hx])]
      exact h.parent
    · rw [List.takeWhile_cons_of_pos (by simp [hx]), lastSibling,
        List.find?_cons_of_pos (by simp [hx])]
      simp
  skirt y hy := by
    rw [List.takeWhile_append] at hy
    split at hy
    · rw [List.takeWhile_cons_of_neg (by simp), List.append_nil] at hy
      exact Nat.le_of_lt (hm y hy)
    · exact Nat.le_of_lt (hm y ((List.takeWhile_sublist _).subset hy))

/-- Into the row of a block. -/
theorem standing_child (rows : List (ShownRow κ τ × Bool)) {x : ShownRow κ τ}
    (hx : x.depth = z.length) :
    Standing ((x, false) :: rows) (⟨l, x.id, r⟩ :: z) nil where
  parent := by
    rw [List.find?_cons_of_pos (by simp [hx])]
    rfl
  anchor := by
    rw [List.takeWhile_cons_of_neg (by simp [hx])]
    rfl
  skirt y hy := by
    rw [List.takeWhile_cons_of_neg (by simp)] at hy
    cases hy

/-! ## The place of a gap -/

/-- The place at a depth in a forest that parts its rows in two. -/
structure Lands (hides : κ → Bool) (content : κ → τ) (g : Forest κ)
    (upper lower : List (ShownRow κ τ)) (depth : Nat) (z : List (Frame κ)) (l r : Forest κ) :
    Prop where
  forest : plug z (l ++ r) = g
  depth_eq : z.length = depth
  opened : Open hides z
  above : rowsAbove hides content z l = upper
  below : rowsBelow hides content z r = lower

theorem rowsAbove_append (z : List (Frame κ)) (l m : Forest κ) :
    rowsAbove hides content z (l ++ m) =
      rowsAbove hides content z l ++ visible hides content z.length (ownerOf z) m := by
  simp [rowsAbove]

theorem rowsBelow_append (z : List (Frame κ)) (m r : Forest κ) :
    rowsBelow hides content z (m ++ r) =
      visible hides content z.length (ownerOf z) m ++ rowsBelow hides content z r := by
  simp [rowsBelow]

theorem rowsAbove_child {a : κ} :
    rowsAbove hides content (⟨l, a, r⟩ :: z) nil =
      rowsAbove hides content z l ++ [rowAt hides content z a] := by
  simp [rowsAbove, rowsBefore, rowAt]

theorem rowsBelow_child {a : κ} :
    rowsBelow hides content (⟨l, a, r⟩ :: z) nil = rowsBelow hides content z r := rfl

theorem getLast?_cons_elim {n : Nat} (x : ShownRow κ τ) (u : List (ShownRow κ τ)) :
    (x :: u).getLast?.elim n ShownRow.room = u.getLast?.elim x.room ShownRow.room := by
  cases u with
  | nil => rfl
  | cons y u => rw [List.getLast?_cons_cons, List.getLast?_cons, Option.elim, Option.elim]

/-- A gap in the rows of the trees `f`, which stand in a row after the trees `l` and before the
trees `r`, is a place of the forest without the roots, and the walk up the rows finds it. -/
def LandsIn (ids hides : κ → Bool) (content : κ → τ) (f : Forest κ) (z : List (Frame κ))
    (l r : Forest κ) (rows upper lower : List (ShownRow κ τ × Bool)) (e : Nat) : Prop :=
  ∃ z' l' r', Lands hides content (plug z (l ++ (stationary ids hides f ++ r)))
      (rowsAbove hides content z l ++ uncovered upper)
      (uncovered lower ++ rowsBelow hides content z r) e z' l' r' ∧
    Above ((upper.reverse ++ rows).dropWhile (·.2)) z' l'

/-- Every gap in the rows of the trees is such a place, at every depth that the row above the gap
has room for and the row below it permits. -/
def Gaps (ids hides : κ → Bool) (content : κ → τ) (f : Forest κ) : Prop :=
  ∀ {z : List (Frame κ)} {l r : Forest κ} {rows upper lower : List (ShownRow κ τ × Bool)}
    {e : Nat}, Open hides z → Standing rows z l →
    markedRows ids hides content z.length (ownerOf z) f = upper ++ lower →
    z.length ≤ e → e ≤ (uncovered upper).getLast?.elim z.length ShownRow.room →
    (∀ x ∈ (uncovered lower).head?, x.depth ≤ e) →
    LandsIn ids hides content f z l r rows upper lower e

section
variable {e : Nat} {upper lower : List (ShownRow κ τ × Bool)} {a : κ} {k s : Forest κ}

/-- The gap above the first row. -/
theorem landsIn_front (f : Forest κ) (hz : Open hides z) (hs : Standing rows z l) :
    LandsIn ids hides content f z l r rows []
      (markedRows ids hides content z.length (ownerOf z) f) z.length := by
  refine ⟨z, l, stationary ids hides f ++ r, ⟨rfl, rfl, hz, by simp, ?_⟩, hs.above_dropWhile⟩
  rw [rowsBelow_append, uncovered_markedRows]

/-- The rows of a root travel: a gap among them is the gap behind them. -/
theorem Gaps.travelling (ihs : Gaps ids hides content s) (ha : ids a = true) :
    Gaps ids hides content (node a k s) := by
  intro z l r rows upper lower e hz hs hm hle hmax hmin
  rw [markedRows, if_pos ha] at hm
  unfold LandsIn
  rw [stationary, if_pos ha]
  have htree : ∀ x ∈ (visible hides content z.length (ownerOf z) (single a k)).map (·, true),
      z.length ≤ x.1.depth ∧ x.2 = true := by
    intro x hx
    obtain ⟨y, hy, rfl⟩ := List.mem_map.mp hx
    exact ⟨le_depth_of_visible hy, rfl⟩
  rcases List.append_eq_append_iff.mp hm with ⟨upper', rfl, hm'⟩ | ⟨inner, hin, rfl⟩
  · have h := ihs (r := r) hz (hs.covered fun x hx => htree x (List.mem_reverse.mp hx)) hm' hle
      (by simpa using hmax) hmin
    simpa [LandsIn] using h
  · have hup : ∀ x ∈ upper, z.length ≤ x.1.depth ∧ x.2 = true := fun x hx =>
      htree x (hin ▸ List.mem_append_left _ hx)
    have hun : uncovered upper = [] := uncovered_eq_nil.mpr fun x hx => (hup x hx).2
    have hinner : uncovered inner = [] := uncovered_eq_nil.mpr fun x hx =>
      (htree x (hin ▸ List.mem_append_right _ hx)).2
    have h := ihs (r := r) hz
      (hs.covered fun x hx => hup x (List.mem_reverse.mp hx)) (List.nil_append _).symm hle
      (by simpa [hun] using hmax) (by simpa [hinner] using hmin)
    simpa [LandsIn, hun, hinner] using h

/-- A gap among the rows below a block that stays. -/
theorem Gaps.child (ihk : Gaps ids hides content k) (hh : ¬hides a = true) (hz : Open hides z)
    (hk : markedRows ids hides content (z.length + 1) (some a) k = upper ++ lower)
    (hlt : z.length < e) (hmax : e ≤ (uncovered upper).getLast?.elim (z.length + 1) ShownRow.room)
    (hmin : ∀ x ∈ (uncovered lower).head?, x.depth ≤ e) :
    ∃ z' l' r', Lands hides content
        (plug z (l ++ (node a (stationary ids hides k) (stationary ids hides s) ++ r)))
        (rowsAbove hides content z l ++ rowAt hides content z a :: uncovered upper)
        (uncovered lower ++ rowsBelow hides content z (stationary ids hides s ++ r)) e z' l' r' ∧
      Above ((upper.reverse ++ (rowAt hides content z a, false) :: rows).dropWhile (·.2))
        z' l' := by
  have h := ihk (z := ⟨l, a, stationary ids hides s ++ r⟩ :: z) (l := nil) (r := nil)
    (by simpa [Open, hh] using hz)
    (standing_child rows (x := rowAt hides content z a) rfl) hk hlt hmax hmin
  unfold LandsIn at h
  rw [rowsAbove_child, rowsBelow_child] at h
  simpa using h

/-- A gap among the rows behind a block that stays and what is below it. -/
theorem Gaps.behind (ihs : Gaps ids hides content s) (ha : ¬ids a = true) (hz : Open hides z)
    (hs : Standing rows z l)
    (hm : markedRows ids hides content z.length (ownerOf z) s = upper ++ lower)
    (hle : z.length ≤ e) (hmax : e ≤ (uncovered upper).getLast?.elim z.length ShownRow.room)
    (hmin : ∀ x ∈ (uncovered lower).head?, x.depth ≤ e) :
    LandsIn ids hides content (node a k s) z l r rows
      ((rowAt hides content z a, false) ::
        ((if hides a then [] else markedRows ids hides content (z.length + 1) (some a) k) ++
          upper)) lower e := by
  unfold LandsIn
  rw [stationary, if_neg ha]
  by_cases hh : hides a = true
  · have h := ihs (l := l ++ single a k) (r := r) hz
      (hs.sibling (x := rowAt hides content z a) (m := []) k rfl (by simp)) hm hle hmax hmin
    unfold LandsIn at h
    rw [rowsAbove_append] at h
    simpa [hh, single, rowAt] using h
  · have hdeep : ∀ y ∈ (markedRows ids hides content (z.length + 1) (some a) k).reverse,
        z.length < y.1.depth := fun y hy => le_depth_of_marked (List.mem_reverse.mp hy)
    have h := ihs (l := l ++ single a (stationary ids hides k)) (r := r) hz
      (hs.sibling (x := rowAt hides content z a) _ rfl hdeep) hm hle hmax hmin
    unfold LandsIn at h
    rw [rowsAbove_append] at h
    simpa [hh, single, uncovered_markedRows, rowAt] using h

/-- Among the rows below a block that stays, at the block's own depth: the rows that follow
travel. -/
theorem landsIn_beside (ha : ¬ids a = true) (hh : ¬hides a = true) (hz : Open hides z)
    (hs : Standing rows z l)
    (hk : markedRows ids hides content (z.length + 1) (some a) k = upper ++ lower)
    (hmin : ∀ x ∈ (uncovered lower).head?, x.depth ≤ z.length) :
    LandsIn ids hides content (node a k s) z l r rows ((rowAt hides content z a, false) :: upper)
      (lower ++ markedRows ids hides content z.length (ownerOf z) s) z.length := by
  have hdeep : ∀ y ∈ upper ++ lower, z.length < y.1.depth := fun y hy =>
    le_depth_of_marked (hk ▸ hy)
  have hrest : uncovered lower = [] := by
    cases hu : uncovered lower with
    | nil => rfl
    | cons y u =>
      have hy := hmin y (by rw [hu]; rfl)
      have hmem : y ∈ uncovered lower := hu ▸ List.mem_cons_self ..
      obtain ⟨x, hx, rfl⟩ := List.mem_map.mp hmem
      have := hdeep x (List.mem_append_right _ (List.mem_filter.mp hx).1)
      omega
  have hk' := uncovered_markedRows ids hides content (z.length + 1) (some a) k
  rw [hk, uncovered_append, hrest, List.append_nil] at hk'
  refine ⟨z, l ++ single a (stationary ids hides k), stationary ids hides s ++ r,
    ⟨?_, rfl, hz, ?_, ?_⟩, ?_⟩
  · rw [stationary, if_neg ha, if_neg hh]
    simp [single]
  · rw [rowsAbove_append]
    simp [single, hh, hk', rowAt]
  · rw [rowsBelow_append, ← uncovered_markedRows ids hides content]
    simp [hrest]
  · have hst := hs.sibling (x := rowAt hides content z a) (m := upper.reverse)
      (stationary ids hides k) rfl fun y hy => hdeep y
        (List.mem_append_left _ (List.mem_reverse.mp hy))
    simpa [rowAt] using hst.above_dropWhile

/-- Nothing is shown below a block that stays. -/
theorem Gaps.hidden (ihs : Gaps ids hides content s) (ha : ¬ids a = true)
    (hh : hides a = true) : Gaps ids hides content (node a k s) := by
  intro z l r rows upper lower e hz hs hm hle hmax hmin
  cases upper with
  | nil =>
    obtain rfl : z.length = e := Nat.le_antisymm hle hmax
    rw [List.nil_append] at hm
    exact hm ▸ landsIn_front _ hz hs
  | cons x upper =>
    rw [markedRows, if_neg ha, if_pos hh] at hm
    obtain ⟨rfl, hrest⟩ := List.cons.inj hm
    rw [uncovered_cons_false, getLast?_cons_elim] at hmax
    have h := ihs.behind (k := k) (r := r) ha hz hs hrest hle
      (by simpa [ShownRow.room, hh] using hmax) hmin
    rwa [if_pos hh] at h

/-- A block that stays, with rows below it. -/
theorem Gaps.shown (ihk : Gaps ids hides content k) (ihs : Gaps ids hides content s)
    (ha : ¬ids a = true) (hh : ¬hides a = true) : Gaps ids hides content (node a k s) := by
  intro z l r rows upper lower e hz hs hm hle hmax hmin
  cases upper with
  | nil =>
    obtain rfl : z.length = e := Nat.le_antisymm hle hmax
    rw [List.nil_append] at hm
    exact hm ▸ landsIn_front _ hz hs
  | cons x upper =>
    rw [markedRows, if_neg ha, if_neg hh] at hm
    obtain ⟨rfl, hrest⟩ := List.cons.inj hm
    have hroom : ShownRow.room (⟨a, z.length, ownerOf z, hides a, content a⟩ : ShownRow κ τ) =
        z.length + 1 := by simp [ShownRow.room, hh]
    rw [uncovered_cons_false, getLast?_cons_elim, hroom] at hmax
    rcases List.append_eq_append_iff.mp hrest with ⟨upper', rfl, hm'⟩ | ⟨rest, hk, rfl⟩
    · rw [uncovered_append] at hmax
      by_cases hin : uncovered upper' = [] ∧ z.length < e
      · -- Only covered rows follow the last row below the block.
        obtain ⟨hun, hlt⟩ := hin
        rw [hun, List.append_nil] at hmax
        obtain ⟨z', l', r', hl, hw⟩ := ihk.child (l := l) (r := r) (s := s) hh hz
          (List.append_nil _).symm hlt hmax (by simp)
        have hs' := uncovered_markedRows ids hides content z.length (ownerOf z) s
        rw [hm', uncovered_append, hun, List.nil_append] at hs'
        rw [rowsBelow_append, ← hs'] at hl
        refine ⟨z', l', r', ?_, ?_⟩
        · rw [stationary, if_neg ha, if_neg hh]
          simpa [hun, rowAt] using hl
        · rw [List.reverse_cons, List.reverse_append, List.append_assoc, List.append_assoc,
            List.dropWhile_append_of_pos fun x hx =>
              uncovered_eq_nil.mp hun x (List.mem_reverse.mp hx)]
          simpa [rowAt] using hw
      · have hmax' : e ≤ (uncovered upper').getLast?.elim z.length ShownRow.room := by
          cases hu : uncovered upper' with
          | nil =>
            rw [hu] at hin
            simpa using hin
          | cons y u =>
            rw [hu, List.getLast?_append_cons] at hmax
            rw [List.getLast?_cons] at hmax ⊢
            exact hmax
        have h := ihs.behind (k := k) (r := r) ha hz hs hm' hle hmax' hmin
        rwa [if_neg hh] at h
    · have hmin' : ∀ x ∈ (uncovered rest).head?, x.depth ≤ e := fun x hx => hmin x (by
        rw [uncovered_append, List.head?_append]
        rw [Option.mem_def] at hx ⊢
        rw [hx]
        rfl)
      by_cases hlt : z.length < e
      · obtain ⟨z', l', r', hl, hw⟩ := ihk.child (l := l) (r := r) (s := s) hh hz hk hlt hmax hmin'
        rw [rowsBelow_append, ← uncovered_markedRows] at hl
        refine ⟨z', l', r', ?_, by simpa [rowAt] using hw⟩
        rw [stationary, if_neg ha, if_neg hh]
        simpa [rowAt] using hl
      · obtain rfl : z.length = e := Nat.le_antisymm hle (Nat.le_of_not_lt hlt)
        exact landsIn_beside ha hh hz hs hk hmin'

theorem gaps (f : Forest κ) : Gaps ids hides content f := by
  induction f with
  | nil =>
    intro z l r rows upper lower e hz hs hm hle hmax hmin
    obtain ⟨rfl, rfl⟩ := List.append_eq_nil_iff.mp hm.symm
    obtain rfl : z.length = e := Nat.le_antisymm hle hmax
    exact landsIn_front nil hz hs
  | node a k s ihk ihs =>
    by_cases ha : ids a = true
    · exact ihs.travelling ha
    · by_cases hh : hides a = true
      · exact ihs.hidden ha hh
      · exact ihk.shown ihs ha hh

end

/-- A gap in the rows of the trees `f`, which stand in a row after the trees `l` and before the
trees `r`, is a place of the forest without the roots: at every depth that the row above the gap
has room for and the row below it permits. The walk up the rows finds the place. -/
theorem exists_lands (f : Forest κ) {z : List (Frame κ)} {l r : Forest κ}
    {rows upper lower : List (ShownRow κ τ × Bool)} {e : Nat} (hz : Open hides z)
    (hs : Standing rows z l)
    (hm : markedRows ids hides content z.length (ownerOf z) f = upper ++ lower)
    (hle : z.length ≤ e) (hmax : e ≤ (uncovered upper).getLast?.elim z.length ShownRow.room)
    (hmin : ∀ x ∈ (uncovered lower).head?, x.depth ≤ e) :
    ∃ z' l' r', Lands hides content (plug z (l ++ (stationary ids hides f ++ r)))
        (rowsAbove hides content z l ++ uncovered upper)
        (uncovered lower ++ rowsBelow hides content z r) e z' l' r' ∧
      Above ((upper.reverse ++ rows).dropWhile (·.2)) z' l' :=
  gaps f hz hs hm hle hmax hmin

/-- A row is at most one level deeper than the row above it. -/
theorem depth_le_room (f : Forest κ) {u v : List (ShownRow κ τ)}
    (h : visible hides content d p f = u ++ v) :
    ∀ x ∈ v.head?, x.depth ≤ u.getLast?.elim d ShownRow.room := by
  induction f generalizing d p u v with
  | nil =>
    obtain ⟨-, rfl⟩ := List.append_eq_nil_iff.mp h.symm
    simp
  | node a k s ihk ihs =>
    intro x hx
    cases u with
    | nil =>
      rw [← List.nil_append v, ← h] at hx
      exact Nat.le_of_eq (congrArg ShownRow.depth (Option.some.inj hx).symm)
    | cons y u =>
      have hroom : ∀ w ∈ y :: u, d ≤ w.room := fun w hw => by
        have := le_depth_of_visible (h ▸ List.mem_append_left v hw)
        unfold ShownRow.room
        split <;> omega
      obtain ⟨hy, hrest⟩ := List.cons.inj h
      rw [getLast?_cons_elim]
      rcases List.append_eq_append_iff.mp hrest with ⟨u', rfl, hs⟩ | ⟨w, hk, rfl⟩
      · have hx' := ihs hs x hx
        cases hu : u'.getLast? with
        | none =>
          rw [hu] at hx'
          refine Nat.le_trans hx' ?_
          cases hl : (_ ++ u').getLast? with
          | none => exact hroom y (List.mem_cons_self ..)
          | some w => exact hroom w (List.mem_cons_of_mem _ (List.mem_of_getLast? hl))
        | some w =>
          rw [hu] at hx'
          rw [List.getLast?_append, hu]
          exact hx'
      · cases w with
        | nil =>
          rw [List.nil_append] at hx
          have hx' := ihs (u := []) rfl x hx
          refine Nat.le_trans hx' ?_
          cases hl : u.getLast? with
          | none => exact hroom y (List.mem_cons_self ..)
          | some w => exact hroom w (List.mem_cons_of_mem _ (List.mem_of_getLast? hl))
        | cons w ws =>
          split at hk
          · cases u <;> cases hk
          · next hh =>
            have hx' := ihk hk x hx
            rw [← hy]
            simpa [ShownRow.room, hh] using hx'

/-! ## The roots -/

theorem mem_labels_of_travelling {f : Forest κ} {b : κ} (h : b ∈ travelling ids hides f) :
    b ∈ f.labels := by
  induction f with
  | nil => cases h
  | node a k s ihk ihs =>
    rw [travelling, List.mem_append] at h
    rw [labels_node, List.mem_cons, List.mem_append]
    rcases h with h | h
    · split at h
      · exact .inl (List.mem_singleton.mp h)
      · split at h
        · cases h
        · exact .inr (.inl (ihk h))
    · exact .inr (.inr (ihs h))

section Roots
variable [DecidableEq κ]

theorem pruneAll_append (bs cs : List κ) (f : Forest κ) :
    pruneAll (bs ++ cs) f = pruneAll cs (pruneAll bs f) := by
  induction bs generalizing f with
  | nil => rfl
  | cons b bs ih => exact ih (prune b f)

theorem pruneAll_of_not_mem {bs : List κ} {f : Forest κ} (h : ∀ b ∈ bs, b ∉ f.labels) :
    pruneAll bs f = f := by
  induction bs with
  | nil => rfl
  | cons b bs ih =>
    rw [pruneAll, prune_of_not_mem (h b (List.mem_cons_self ..)),
      ih fun c hc => h c (List.mem_cons_of_mem _ hc)]

theorem pruneAll_node {bs : List κ} {a : κ} {k s : Forest κ} (h : a ∉ bs) :
    pruneAll bs (.node a k s) = .node a (pruneAll bs k) (pruneAll bs s) := by
  induction bs generalizing k s with
  | nil => rfl
  | cons b bs ih =>
    obtain ⟨hb, h⟩ := not_or.mp (List.mem_cons.not.mp h)
    rw [pruneAll, prune, if_neg hb, ih h, pruneAll, pruneAll]

/-- What stays is the forest without the trees of the roots. -/
theorem pruneAll_travelling {f : Forest κ} (hn : f.labels.Nodup) :
    pruneAll (travelling ids hides f) f = stationary ids hides f := by
  induction f with
  | nil => rfl
  | node a k s ihk ihs =>
    rw [labels_node, List.nodup_cons, List.mem_append, not_or] at hn
    obtain ⟨⟨hak, has⟩, hn⟩ := hn
    obtain ⟨hnk, hns, hks⟩ := List.nodup_append.mp hn
    rw [travelling, stationary, pruneAll_append]
    split
    · rw [pruneAll, prune, if_pos rfl, pruneAll, ihs hns]
    · split
      · rw [pruneAll, pruneAll_node fun h => has (mem_labels_of_travelling h), ihs hns,
          pruneAll_of_not_mem fun b hb hk => hks b hk b (mem_labels_of_travelling hb) rfl]
      · rw [pruneAll_node fun h => hak (mem_labels_of_travelling h), ihk hnk,
          pruneAll_of_not_mem fun b hb hs => hks b (mem_labels_of_travelling hb) b hs rfl,
          pruneAll_node fun h => has (mem_labels_of_travelling h), ihs hns,
          pruneAll_of_not_mem]
        intro b hb hk
        rw [← ihk hnk] at hk
        exact hks b (mem_labels_pruneAll hk) b (mem_labels_of_travelling hb) rfl

theorem subtree_subset {b y : κ} {f : Forest κ} (hb : b ∈ f.labels) (h : y ∈ subtree b f) :
    y ∈ f.labels := by
  rcases List.mem_cons.mp h with rfl | h
  · exact hb
  · exact mem_labels_of_mem_under h

theorem apart_append {bs cs : List κ} {f g : Forest κ} (hf : Apart bs f) (hg : Apart cs g)
    (hd : ∀ x ∈ f.labels, ∀ y ∈ g.labels, x ≠ y) : Apart (bs ++ cs) (f ++ g) := by
  have hleft : ∀ y ∈ f.labels, subtree y (f ++ g) = subtree y f := fun y hy => by
    rw [subtree, under_append_left fun h => hd y hy y h rfl, subtree]
  have hright : ∀ y ∈ g.labels, subtree y (f ++ g) = subtree y g := fun y hy => by
    rw [subtree, under_append_right fun h => hd y h y hy rfl, subtree]
  refine ⟨?_, ?_, ?_⟩
  · exact List.nodup_append.mpr ⟨hf.nodup, hg.nodup, fun x hx y hy =>
      hd x (hf.mem x hx) y (hg.mem y hy)⟩
  · intro b hb
    rw [labels_append, List.mem_append]
    exact (List.mem_append.mp hb).imp (hf.mem b) (hg.mem b)
  · intro x hx y hy hne
    rcases List.mem_append.mp hy with hy | hy
    · rw [hleft y (hf.mem y hy)]
      rcases List.mem_append.mp hx with hx | hx
      · exact hf.apart x hx y hy hne
      · exact fun h => hd x (subtree_subset (hf.mem y hy) h) x (hg.mem x hx) rfl
    · rw [hright y (hg.mem y hy)]
      rcases List.mem_append.mp hx with hx | hx
      · exact fun h => hd x (hf.mem x hx) x (subtree_subset (hg.mem y hy) h) rfl
      · exact hg.apart x hx y hy hne

theorem apart_single {bs : List κ} {a : κ} {k : Forest κ} (h : Apart bs k) (ha : a ∉ k.labels) :
    Apart bs (single a k) where
  nodup := h.nodup
  mem b hb := by simp [h.mem b hb]
  apart x hx y hy hne := by
    have hya : a ≠ y := fun he => ha (he ▸ h.mem y hy)
    rw [subtree, single, under_node_of_ne k nil hya, under, append_nil]
    exact h.apart x hx y hy hne

/-- No root lies in the tree of another. -/
theorem apart_travelling {f : Forest κ} (hn : f.labels.Nodup) :
    Apart (travelling ids hides f) f := by
  induction f with
  | nil => exact ⟨List.nodup_nil, by simp [travelling], by simp [travelling]⟩
  | node a k s ihk ihs =>
    rw [labels_node, List.nodup_cons, List.mem_append, not_or] at hn
    obtain ⟨⟨hak, has⟩, hn⟩ := hn
    obtain ⟨hnk, hns, hks⟩ := List.nodup_append.mp hn
    refine apart_append (f := single a k) ?_ (ihs hns) ?_
    · split
      · exact ⟨List.nodup_singleton a, by simp, by simp⟩
      · split
        · exact ⟨List.nodup_nil, by simp, by simp⟩
        · exact apart_single (ihk hnk) hak
    · intro x hx y hy he
      rw [labels_single, List.mem_cons] at hx
      rcases hx with rfl | hx
      · exact has (he ▸ hy)
      · exact hks x hx y hy he

/-! ## The drop -/

theorem place_plug {z : List (Frame κ)} {l r : Forest κ} (t : Forest κ)
    (hn : (plug z (l ++ r)).labels.Nodup) :
    place (ownerOf z) l.roots.getLast? t (plug z (l ++ r)) = plug z (l ++ (t ++ r)) := by
  cases hl : l.roots.getLast? with
  | none =>
    obtain rfl : l = nil := by
      cases l with
      | nil => rfl
      | node a k s => simp at hl
    exact mapRow_plug (t ++ ·) hn
  | some b =>
    obtain ⟨l, k, rfl⟩ := exists_last hl
    rw [append_assoc] at hn ⊢
    rw [append_assoc]
    exact (insertAfter_split t hn).trans (by rw [append_assoc]; rfl)

end Roots

theorem head?_uncovered (a : List (ShownRow κ τ × Bool)) :
    (uncovered a).head? = (a.dropWhile (·.2)).head?.map Prod.fst := by
  induction a with
  | nil => rfl
  | cons x a ih =>
    obtain ⟨x, covered⟩ := x
    cases covered with
    | false => rfl
    | true => exact ih

theorem getLast?_uncovered (a : List (ShownRow κ τ × Bool)) :
    (uncovered a).getLast? = (a.reverse.dropWhile (·.2)).head?.map Prod.fst := by
  rw [← head?_uncovered, List.getLast?_eq_head?_reverse]
  simp [uncovered]

/-- The target is the place that the walk up from the gap finds. -/
theorem dropTarget_of_above {shown : List (ShownRow κ τ)} {gap desired : Int}
    (hle : minDepth ids shown (clampGap shown gap) ≤ maxDepth ids shown (clampGap shown gap))
    (hd : (z.length : Int) = max (minDepth ids shown (clampGap shown gap) : Int)
      (min (maxDepth ids shown (clampGap shown gap) : Int) desired))
    (h : Above (upwards ids shown (clampGap shown gap)) z l) :
    dropTarget shown ids gap desired =
      some ⟨ownerOf z, l.roots.getLast?, z.length, clampGap shown gap⟩ := by
  have hdepth : (max (minDepth ids shown (clampGap shown gap) : Int)
      (min (maxDepth ids shown (clampGap shown gap) : Int) desired)).toNat = z.length := by
    rw [← hd]
    rfl
  obtain ⟨hp, ha⟩ := h
  simp only [dropTarget, if_neg (Nat.not_lt.mpr hle), hdepth]
  cases z with
  | nil =>
    have hall : (upwards ids shown (clampGap shown gap)).takeWhile
        (·.1.depth + 1 != ([] : List (Frame κ)).length) =
        upwards ids shown (clampGap shown gap) :=
      List.takeWhile_eq_self_iff.mpr fun x _ => by simp
    rw [hall] at ha
    rw [if_pos List.length_nil, ownerOf_nil, ← ha]
    rfl
  | cons t z =>
    have hbeq : ∀ x : ShownRow κ τ × Bool, (x.1.depth == (t :: z).length - 1) =
        (x.1.depth + 1 == (t :: z).length) := fun x => by simp
    have hbne : ∀ x : ShownRow κ τ × Bool, (x.1.depth != (t :: z).length - 1) =
        (x.1.depth + 1 != (t :: z).length) := fun x => by simp [bne]
    rw [if_neg (by simp)]
    simp only [hbeq, hbne, ha]
    obtain ⟨x, hx, hid⟩ := Option.map_eq_some_iff.mp hp
    rw [hx, ownerOf_cons, ← hid]

section Lands
variable [LinearOrder κ]

/-- The rows an outline shows. -/
def shownRows (hides : κ → Bool) (content : κ → τ) (f : Forest κ) : List (ShownRow κ τ) :=
  (flattenOutline (snapshot content f) hides).map OutlineRow.shown

/-- The blocks that a drag of a selection takes along. -/
def rootIds (moving : κ → Bool) (shown : List (ShownRow κ τ)) : List κ :=
  (selectionRoots moving shown).map ShownRow.id

/-- A block with a child is dropped right below a collapsed one, which has no room for it. -/
def draggedForest : Forest Nat :=
  node 1 (single 2 nil) (node 3 (single 4 nil) (single 5 nil))

end Lands

end Neoseq.Outline
