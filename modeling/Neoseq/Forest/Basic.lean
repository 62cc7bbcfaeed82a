import Mathlib

/-! Ordered forests in first-child/next-sibling form, and positions inside
them. A position is a path of frames around one complete sibling row, so an
operation is described by what it does to that row. All facts about labels are
stated on the pre-order list; a forest whose labels are distinct is determined
by its rows. -/

namespace Neoseq

/-- An ordered forest: nothing, or a first tree and the trees after it. -/
inductive Forest (α : Type) where
  | nil : Forest α
  | node (label : α) (children siblings : Forest α) : Forest α
  deriving Repr, DecidableEq

namespace Forest
variable {α : Type}

def append : Forest α → Forest α → Forest α
  | nil, g => g
  | node a k r, g => node a k (append r g)

instance : Append (Forest α) := ⟨append⟩

/-- One tree as a forest. -/
def single (a : α) (k : Forest α) : Forest α := node a k nil

/-- The labels of the top row. -/
def roots : Forest α → List α
  | nil => []
  | node a _ r => a :: roots r

/-- All labels in pre-order. -/
def labels : Forest α → List α
  | nil => []
  | node a k r => a :: (labels k ++ labels r)

/-- All labels in pre-order with their depths, the top row being at depth `d`. -/
def depths (d : Nat) : Forest α → List (α × Nat)
  | nil => []
  | node a k r => (a, d) :: (depths (d + 1) k ++ depths d r)

@[simp] theorem nil_append (g : Forest α) : nil ++ g = g := rfl
@[simp] theorem node_append (a : α) (k r g : Forest α) :
    node a k r ++ g = node a k (r ++ g) := rfl

@[simp] theorem append_nil (f : Forest α) : f ++ nil = f := by
  induction f with
  | nil => rfl
  | node a k r _ ih => rw [node_append, ih]

@[simp] theorem append_assoc (f g h : Forest α) : f ++ g ++ h = f ++ (g ++ h) := by
  induction f with
  | nil => rfl
  | node a k r _ ih => simp only [node_append, ih]

@[simp] theorem roots_nil : roots (nil : Forest α) = [] := rfl
@[simp] theorem roots_node (a : α) (k r : Forest α) : roots (node a k r) = a :: roots r := rfl
@[simp] theorem labels_nil : labels (nil : Forest α) = [] := rfl
@[simp] theorem labels_node (a : α) (k r : Forest α) :
    labels (node a k r) = a :: (labels k ++ labels r) := rfl
@[simp] theorem depths_nil (d : Nat) : depths d (nil : Forest α) = [] := rfl
@[simp] theorem depths_node (d : Nat) (a : α) (k r : Forest α) :
    depths d (node a k r) = (a, d) :: (depths (d + 1) k ++ depths d r) := rfl

@[simp] theorem roots_append (f g : Forest α) : roots (f ++ g) = roots f ++ roots g := by
  induction f with
  | nil => rfl
  | node a k r _ ih => simp [ih]

@[simp] theorem labels_append (f g : Forest α) : labels (f ++ g) = labels f ++ labels g := by
  induction f with
  | nil => rfl
  | node a k r _ ih => simp [ih]

@[simp] theorem depths_append (d : Nat) (f g : Forest α) :
    depths d (f ++ g) = depths d f ++ depths d g := by
  induction f with
  | nil => rfl
  | node a k r _ ih => simp [ih]

@[simp] theorem labels_single (a : α) (k : Forest α) : labels (single a k) = a :: labels k := by
  simp [single]

@[simp] theorem roots_single (a : α) (k : Forest α) : roots (single a k) = [a] := rfl

theorem map_fst_depths (d : Nat) (f : Forest α) : (depths d f).map Prod.fst = labels f := by
  induction f generalizing d with
  | nil => rfl
  | node a k r ihk ihr => simp [ihk, ihr]

theorem le_of_mem_depths {d : Nat} {f : Forest α} {x : α × Nat} (h : x ∈ depths d f) :
    d ≤ x.2 := by
  induction f generalizing d with
  | nil => simp at h
  | node a k r ihk ihr =>
    simp only [depths_node, List.mem_cons, List.mem_append] at h
    rcases h with rfl | h | h
    · exact Nat.le_refl _
    · exact Nat.le_of_succ_le (ihk h)
    · exact ihr h

/-- Starting one level deeper shifts every depth by one. -/
theorem depths_succ (d : Nat) (f : Forest α) :
    depths (d + 1) f = (depths d f).map fun x => (x.1, x.2 + 1) := by
  induction f generalizing d with
  | nil => rfl
  | node a k r ihk ihr => simp [ihk, ihr]

theorem roots_sublist (f : Forest α) : (roots f).Sublist (labels f) := by
  induction f with
  | nil => exact List.Sublist.slnil
  | node a k r _ ih => exact (ih.trans (List.sublist_append_right _ _)).cons_cons a

theorem mem_labels_of_mem_roots {f : Forest α} {a : α} (h : a ∈ roots f) : a ∈ labels f :=
  (roots_sublist f).subset h

/-- A top-level label splits the row around its tree. -/
theorem exists_split {f : Forest α} {b : α} (h : b ∈ roots f) :
    ∃ l k r, f = l ++ node b k r ∧ b ∉ roots l := by
  induction f with
  | nil => simp at h
  | node a k r _ ih =>
    by_cases hab : b = a
    · exact ⟨nil, k, r, by rw [hab]; rfl, by simp⟩
    · obtain ⟨l, k', r', rfl, hl⟩ := ih (by simpa [hab] using h)
      exact ⟨node a k l, k', r', rfl, by simp [hab, hl]⟩

/-- A nonempty row ends in a tree. -/
theorem exists_last {f : Forest α} {b : α} (h : (roots f).getLast? = some b) :
    ∃ l k, f = l ++ node b k nil := by
  induction f with
  | nil => simp at h
  | node a k r _ ih =>
    cases r with
    | nil => exact ⟨nil, k, by simpa using h⟩
    | node a' k' r' =>
      obtain ⟨l, k'', he⟩ := ih (by simpa using h)
      exact ⟨node a k l, k'', by rw [he]; rfl⟩

/-! ## Positions -/

/-- One level around a row: the trees before its owner, the owner, and the
trees after it. -/
structure Frame (α : Type) where
  left : Forest α
  owner : α
  right : Forest α

/-- Puts a row at a position, the innermost frame first. -/
def plug : List (Frame α) → Forest α → Forest α
  | [], g => g
  | t :: z, g => plug z (t.left ++ node t.owner g t.right)

/-- The label whose children the row at the position is. -/
def ownerOf (z : List (Frame α)) : Option α := z.head?.map Frame.owner

/-- The labels a path puts before the row, in pre-order. -/
def before : List (Frame α) → List α
  | [] => []
  | t :: z => before z ++ (labels t.left ++ [t.owner])

/-- The labels a path puts after the row, in pre-order. -/
def after : List (Frame α) → List α
  | [] => []
  | t :: z => labels t.right ++ after z

/-- The pre-order with depths that a path puts before the row. -/
def beforeDepths (d : Nat) : List (Frame α) → List (α × Nat)
  | [] => []
  | t :: z => beforeDepths d z ++
      (depths (d + z.length) t.left ++ [(t.owner, d + z.length)])

/-- The pre-order with depths that a path puts after the row. -/
def afterDepths (d : Nat) : List (Frame α) → List (α × Nat)
  | [] => []
  | t :: z => depths (d + z.length) t.right ++ afterDepths d z

@[simp] theorem plug_nil (g : Forest α) : plug [] g = g := rfl
@[simp] theorem plug_cons (t : Frame α) (z : List (Frame α)) (g : Forest α) :
    plug (t :: z) g = plug z (t.left ++ node t.owner g t.right) := rfl
@[simp] theorem before_nil : before ([] : List (Frame α)) = [] := rfl
@[simp] theorem before_cons (t : Frame α) (z : List (Frame α)) :
    before (t :: z) = before z ++ (labels t.left ++ [t.owner]) := rfl
@[simp] theorem after_nil : after ([] : List (Frame α)) = [] := rfl
@[simp] theorem after_cons (t : Frame α) (z : List (Frame α)) :
    after (t :: z) = labels t.right ++ after z := rfl
@[simp] theorem ownerOf_nil : ownerOf ([] : List (Frame α)) = none := rfl
@[simp] theorem ownerOf_cons (t : Frame α) (z : List (Frame α)) :
    ownerOf (t :: z) = some t.owner := rfl

theorem labels_plug (z : List (Frame α)) (g : Forest α) :
    labels (plug z g) = before z ++ (labels g ++ after z) := by
  induction z generalizing g with
  | nil => simp
  | cons t z ih => simp [ih]

theorem depths_plug (d : Nat) (z : List (Frame α)) (g : Forest α) :
    depths d (plug z g) = beforeDepths d z ++ (depths (d + z.length) g ++ afterDepths d z) := by
  induction z generalizing g with
  | nil => simp [beforeDepths, afterDepths]
  | cons t z ih => simp [ih, beforeDepths, afterDepths, Nat.add_assoc]

theorem length_le_before (z : List (Frame α)) : z.length ≤ (before z).length := by
  induction z with
  | nil => exact Nat.le_refl _
  | cons t z ih => simp; omega

/-- Extending a path at its outer end. -/
theorem plug_append (y z : List (Frame α)) (g : Forest α) :
    plug (y ++ z) g = plug z (plug y g) := by
  induction y generalizing g with
  | nil => rfl
  | cons t y ih => simp [ih]

/-- Every label owns a tree in some row. -/
theorem exists_plug {f : Forest α} {b : α} (h : b ∈ labels f) :
    ∃ z l k r, f = plug z (l ++ node b k r) := by
  induction f with
  | nil => simp at h
  | node a k r ihk ihr =>
    simp only [labels_node, List.mem_cons, List.mem_append] at h
    rcases h with rfl | h | h
    · exact ⟨[], nil, k, r, rfl⟩
    · obtain ⟨z, l, k', r', rfl⟩ := ihk h
      exact ⟨z ++ [⟨nil, a, r⟩], l, k', r', by rw [plug_append]; rfl⟩
    · obtain ⟨z, l, k', r', rfl⟩ := ihr h
      rcases List.eq_nil_or_concat z with rfl | ⟨y, t, rfl⟩
      · exact ⟨[], node a k l, k', r', rfl⟩
      · refine ⟨y ++ [⟨node a k t.left, t.owner, t.right⟩], l, k', r', ?_⟩
        simp [plug_append]

/-! ## Distinct labels -/

theorem not_mem_path {z : List (Frame α)} {g : Forest α} {b : α}
    (hn : (labels (plug z g)).Nodup) (hb : b ∈ labels g) : b ∉ before z ∧ b ∉ after z := by
  rw [labels_plug, List.nodup_append] at hn
  obtain ⟨_, hn, hd⟩ := hn
  refine ⟨fun h => hd b h b (List.mem_append_left _ hb) rfl, fun h => ?_⟩
  exact (List.nodup_append.mp hn).2.2 b hb b h rfl

theorem nodup_of_plug {z : List (Frame α)} {g : Forest α}
    (hn : (labels (plug z g)).Nodup) : (labels g).Nodup := by
  rw [labels_plug] at hn
  exact (List.nodup_append.mp (List.nodup_append.mp hn).2.1).1

/-- The owner of a row is one of the labels before it, and occurs once. -/
theorem owner_not_mem {t : Frame α} {z : List (Frame α)} {g : Forest α}
    (hn : (labels (plug (t :: z) g)).Nodup) :
    t.owner ∉ before z ∧ t.owner ∉ after z ∧ t.owner ∉ labels t.left ∧
      t.owner ∉ labels g ∧ t.owner ∉ labels t.right := by
  have hp := not_mem_path (b := t.owner) (by rwa [plug_cons] at hn) (by simp)
  have hr := nodup_of_plug (by rwa [plug_cons] at hn)
  rw [labels_append, List.nodup_append] at hr
  obtain ⟨_, hr, hd⟩ := hr
  rw [labels_node, List.nodup_cons, List.mem_append, not_or] at hr
  exact ⟨hp.1, hp.2, fun h => hd _ h t.owner (by simp) rfl, hr.1.1, hr.1.2⟩

/-- Where the labels of a split forest do not occur again. -/
theorem split_not_mem {z : List (Frame α)} {l k r : Forest α} {b x : α}
    (hn : (labels (plug z (l ++ node b k r))).Nodup) (hx : x ∈ b :: labels k) :
    x ∉ before z ∧ x ∉ after z ∧ x ∉ labels l ∧ x ∉ labels r := by
  have hg : x ∈ labels (l ++ node b k r) := by
    simp only [List.mem_cons] at hx
    simp only [labels_append, labels_node, List.mem_append, List.mem_cons]; tauto
  obtain ⟨hb, ha⟩ := not_mem_path hn hg
  have hr := nodup_of_plug hn
  rw [labels_append, List.nodup_append] at hr
  obtain ⟨_, hr, hd⟩ := hr
  rw [labels_node, List.nodup_cons, List.nodup_append, List.mem_append, not_or] at hr
  refine ⟨hb, ha, fun h => hd x h x ?_ rfl, ?_⟩
  · simp only [List.mem_cons] at hx
    simp only [labels_node, List.mem_cons, List.mem_append]; tauto
  · rcases List.mem_cons.mp hx with rfl | hx
    · exact hr.1.2
    · exact fun h => hr.2.2.2 x hx x h rfl

theorem split_not_mem_kids {z : List (Frame α)} {l k r : Forest α} {b : α}
    (hn : (labels (plug z (l ++ node b k r))).Nodup) : b ∉ labels k := by
  have hr := nodup_of_plug hn
  rw [labels_append, List.nodup_append] at hr
  have := hr.2.1
  rw [labels_node, List.nodup_cons, List.mem_append, not_or] at this
  exact this.1.1

theorem roots_plug_congr {z : List (Frame α)} {g g' : Forest α} (h : roots g = roots g') :
    roots (plug z g) = roots (plug z g') := by
  induction z generalizing g g' with
  | nil => exact h
  | cons t z ih => exact ih (by simp)

/-- Below the top row the top row does not change. -/
theorem roots_plug_cons (t : Frame α) (z : List (Frame α)) (g g' : Forest α) :
    roots (plug (t :: z) g) = roots (plug (t :: z) g') := by
  rw [plug_cons, plug_cons]
  exact roots_plug_congr (by simp)

end Forest
end Neoseq
