import Neoseq.Collections.StrictWeak

/-! One number for each item of a list that the reader arranges, and the writes that move one. -/

namespace Neoseq.Entities

open Collections (Precedes StrictWeakOn sortBy)

/-- How far apart fresh positions are placed. -/
def orderStep : Rat := 1024

/-- The narrowest gap a midpoint may be taken from. -/
def minGap : Rat := 1 / 1024

/-- An item as an ordering sees it: `none` when it has never been arranged. -/
structure Placed where
  id : String
  order : Option Rat
  deriving DecidableEq

structure Placement where
  id : String
  order : Rat
  deriving DecidableEq

/-- Placed before unplaced, and placed in their order. -/
def place (left right : Option Rat) : Ordering :=
  match left, right with
  | some left, some right => compare left right
  | some _, none => .lt
  | none, some _ => .gt
  | none, none => .eq

/-- Every item gets a fresh, evenly spaced position. -/
def respace (items : List Placed) : List Placement :=
  items.mapIdx fun index item => ⟨item.id, index * orderStep⟩

def moveWrites (ordered : List Placed) (movedId : String) : List Placement :=
  match ordered.findIdx? fun item => item.id = movedId with
  | none => []
  | some index =>
    let previous := if index > 0 then ordered[index - 1]?.bind Placed.order else none
    let next := if index < ordered.length - 1 then ordered[index + 1]?.bind Placed.order else none
    let low := previous.getD (next.getD orderStep - 2 * orderStep)
    let high := next.getD (previous.getD 0 + 2 * orderStep)
    if (index = 0 ∨ previous.isSome) ∧ (index = ordered.length - 1 ∨ next.isSome) ∧
        high - low > minGap then
      [⟨movedId, (low + high) / 2⟩]
    else respace ordered

/-- The positions of a run, where all its items have one. -/
def positions (run : List Placed) : Option (List Rat) := run.mapM Placed.order

/-- The writes that move one whole run between its neighbouring runs. No run is empty. -/
def runWrites (runs : List (List Placed)) (movedIndex : Nat) : List Placement :=
  let moved := (runs[movedIndex]?).getD []
  if moved = [] then []
  else
    let previous := if movedIndex > 0 then
      (runs[movedIndex - 1]?).bind fun run => (positions run).bind List.max? else none
    let next := (runs[movedIndex + 1]?).bind fun run => (positions run).bind List.min?
    let room := (moved.length + 1) * orderStep
    let low := previous.getD (next.getD orderStep - room)
    let high := next.getD (previous.getD 0 + room)
    let stride := (high - low) / (moved.length + 1)
    if (movedIndex = 0 ∨ previous.isSome) ∧ (movedIndex = runs.length - 1 ∨ next.isSome) ∧
        stride > minGap then
      moved.mapIdx fun offset item => ⟨item.id, low + stride * (offset + 1)⟩
    else respace runs.flatten

/-! ## Items -/

/-- What an ordering reads of an item, and writes to it. -/
structure Arranged (α : Type) where
  id : α → String
  name : α → String
  order : α → Option Rat
  setOrder : Rat → α → α
  id_setOrder : ∀ position a, id (setOrder position a) = id a
  name_setOrder : ∀ position a, name (setOrder position a) = name a
  order_setOrder : ∀ position a, order (setOrder position a) = some position

namespace Arranged

variable {α : Type} (A : Arranged α)

def placed (a : α) : Placed := ⟨A.id a, A.order a⟩

/-- By place, then by name. -/
def byPlace (compare : String → String → Ordering) (left right : α) : Ordering :=
  (place (A.order left) (A.order right)).then (compare (A.name left) (A.name right))

/-- An item after the writes, one after the other. -/
def written (writes : List Placement) (a : α) : α :=
  writes.foldl (fun a write => if write.id = A.id a then A.setOrder write.order a else a) a

end Arranged

/-! ## Places -/

theorem weak_place {β : Type} (f : β → Option Rat) :
    StrictWeakOn (fun _ => True) fun a b => place (f a) (f b) := by
  refine ⟨fun a b _ _ => ?_, fun a b c _ _ _ => ?_⟩
  · cases f a with
    | none => cases f b <;> rfl
    | some p =>
      cases f b with
      | none => rfl
      | some q =>
        show compare p q = (compare q p).swap
        rw [← cmp_eq_compare, ← cmp_eq_compare, cmp_swap]
  · have hle (p q : Rat) : (compare p q).isLE = true ↔ p ≤ q := by
      rw [← compare_le_iff_le, Ordering.isLE_iff_ne_gt]
    cases f a with
    | none => cases f b <;> cases f c <;> simp [place]
    | some p =>
      cases f b with
      | none => cases f c <;> simp [place]
      | some q =>
        cases f c with
        | none => simp [place]
        | some r =>
          show (compare p q).isLE = true → (compare q r).isLE = true → (compare p r).isLE = true
          rw [hle, hle, hle]
          exact le_trans

theorem place_lt {p q : Rat} (h : p < q) : place (some p) (some q) = .lt := compare_lt_iff_lt.mpr h

/-- Whatever is not behind a placed item is placed, and not after it. -/
theorem le_of_place_isLE {left : Option Rat} {q : Rat} (h : (place left (some q)).isLE = true) :
    ∃ p, left = some p ∧ p ≤ q := by
  cases left with
  | none => cases h
  | some p =>
    refine ⟨p, rfl, ?_⟩
    rw [place, Ordering.isLE_iff_ne_gt] at h
    exact compare_le_iff_le.mp h

namespace Arranged

variable {α : Type} (A : Arranged α)

theorem weak_byPlace {compare : String → String → Ordering}
    (h : StrictWeakOn (fun _ => True) compare) :
    StrictWeakOn (fun _ => True) (A.byPlace compare) :=
  (weak_place A.order).andThen (h.comap A.name)

theorem place_isLE_of_byPlace {compare : String → String → Ordering} {a b : α}
    (h : (A.byPlace compare a b).isLE = true) : (place (A.order a) (A.order b)).isLE = true := by
  unfold byPlace at h
  rw [StrictWeakOn.isLE_then] at h
  rcases h with h | ⟨h, -⟩ <;> rw [h] <;> rfl

theorem byPlace_lt {compare : String → String → Ordering} {a b : α}
    (h : place (A.order a) (A.order b) = .lt) : A.byPlace compare a b = .lt := by
  unfold byPlace
  rw [h]
  rfl

/-! ## Writes -/

/-- What no position changes, no writes change. -/
theorem written_keeps {β : Type} {read : α → β}
    (h : ∀ position a, read (A.setOrder position a) = read a) (writes : List Placement) (a : α) :
    read (A.written writes a) = read a := by
  unfold written
  induction writes generalizing a with
  | nil => rfl
  | cons write writes ih =>
    rw [List.foldl_cons, ih]
    split
    · exact h _ a
    · rfl

theorem written_of_not_mem {writes : List Placement} {a : α}
    (h : A.id a ∉ writes.map Placement.id) : A.written writes a = a := by
  unfold written
  induction writes with
  | nil => rfl
  | cons write writes ih =>
    rw [List.map_cons, List.mem_cons, not_or] at h
    rw [List.foldl_cons, if_neg (Ne.symm h.1)]
    exact ih h.2

theorem order_written {writes : List Placement} (hn : (writes.map Placement.id).Nodup) {a : α}
    {position : Rat} (h : ⟨A.id a, position⟩ ∈ writes) :
    A.order (A.written writes a) = some position := by
  induction writes generalizing a with
  | nil => cases h
  | cons write writes ih =>
    obtain ⟨hwrite, hn⟩ := List.nodup_cons.mp hn
    rcases List.mem_cons.mp h with rfl | h
    · have hrest : A.written writes (A.setOrder position a) = A.setOrder position a :=
        A.written_of_not_mem (by rwa [A.id_setOrder])
      have hwritten : A.written (⟨A.id a, position⟩ :: writes) a =
          A.written writes (A.setOrder position a) := by
        unfold written
        rw [List.foldl_cons, if_pos rfl]
      rw [hwritten, hrest, A.order_setOrder]
    · have hne : write.id ≠ A.id a := fun heq => hwrite (heq ▸ List.mem_map_of_mem h)
      have hwritten : A.written (write :: writes) a = A.written writes a := by
        unfold written
        rw [List.foldl_cons, if_neg hne]
      rw [hwritten]
      exact ih hn h

end Arranged

/-! ## Moves -/

theorem findIdx?_split {pre post : List Placed} {x : Placed} (hpre : ∀ a ∈ pre, a.id ≠ x.id) :
    (pre ++ x :: post).findIdx? (fun item => item.id = x.id) = some pre.length := by
  have hnone : pre.findIdx? (fun item => item.id = x.id) = none := by
    rw [List.findIdx?_eq_none_iff]
    intro a ha
    simp [hpre a ha]
  rw [List.findIdx?_append, hnone]
  simp [List.findIdx?_cons]

/-- A move gives every item a fresh position, or the moved one a position between its
neighbours. -/
theorem moveWrites_cases {pre post : List Placed} {x : Placed} (hpre : ∀ a ∈ pre, a.id ≠ x.id) :
    moveWrites (pre ++ x :: post) x.id = respace (pre ++ x :: post) ∨
      ∃ position, moveWrites (pre ++ x :: post) x.id = [⟨x.id, position⟩] ∧
        (∀ a, pre.getLast? = some a → ∃ p, a.order = some p ∧ p < position) ∧
        ∀ b, post.head? = some b → ∃ q, b.order = some q ∧ position < q := by
  have hprevious : (if pre.length > 0 then
      (pre ++ x :: post)[pre.length - 1]?.bind Placed.order else none) =
        pre.getLast?.bind Placed.order := by
    cases pre using List.reverseRecOn with
    | nil => rfl
    | append_singleton pre a => simp
  have hnext : (if pre.length < (pre ++ x :: post).length - 1 then
      (pre ++ x :: post)[pre.length + 1]?.bind Placed.order else none) =
        post.head?.bind Placed.order := by
    cases post with
    | nil => simp
    | cons b post => simp
  have hfirst : pre.length = 0 ↔ pre = [] := List.length_eq_zero_iff
  have hlast : pre.length = (pre ++ x :: post).length - 1 ↔ post = [] := by
    rw [← List.length_eq_zero_iff]
    simp
  unfold moveWrites
  rw [findIdx?_split hpre]
  dsimp only
  rw [hprevious, hnext]
  split
  · next hknown =>
    obtain ⟨hprev, hnxt, hgap⟩ := hknown
    have hlow := lt_trans (by norm_num [minGap] : (0 : Rat) < minGap) hgap
    refine .inr ⟨_, rfl, fun a ha => ?_, fun b hb => ?_⟩
    · rw [ha] at hprev hlow ⊢
      obtain ⟨p, hp⟩ := Option.isSome_iff_exists.mp
        (hprev.resolve_left fun hnil => by rw [hfirst.mp hnil] at ha; cases ha)
      rw [Option.bind_some] at hp
      refine ⟨p, hp, ?_⟩
      rw [Option.bind_some, hp, Option.getD_some, Option.getD_some] at hlow ⊢
      linarith
    · rw [hb] at hnxt hlow ⊢
      obtain ⟨q, hq⟩ := Option.isSome_iff_exists.mp
        (hnxt.resolve_left fun hnil => by rw [hlast.mp hnil] at hb; cases hb)
      rw [Option.bind_some] at hq
      refine ⟨q, hq, ?_⟩
      rw [Option.bind_some, hq, Option.getD_some, Option.getD_some] at hlow ⊢
      linarith
  · exact .inl rfl

theorem place_lt_of_le {left : Option Rat} {q r : Rat} (h : (place left (some q)).isLE = true)
    (hlt : q < r) : place left (some r) = .lt := by
  obtain ⟨p, rfl, hle⟩ := le_of_place_isLE h
  exact place_lt (lt_of_le_of_lt hle hlt)

theorem place_lt_of_lt {right : Option Rat} {p q : Rat} (hlt : p < q)
    (h : (place (some q) right).isLE = true) : place (some p) right = .lt := by
  cases right with
  | none => rfl
  | some r =>
    obtain ⟨q', hq, hle⟩ := le_of_place_isLE h
    obtain rfl := Option.some.inj hq
    exact place_lt (lt_of_lt_of_le hlt hle)

theorem mem_id_moveWrites {ordered : List Placed} {movedId : String} {write : Placement}
    (h : write ∈ moveWrites ordered movedId) : write.id ∈ ordered.map Placed.id := by
  have hrespace (hmem : write ∈ respace ordered) : write.id ∈ ordered.map Placed.id := by
    obtain ⟨index, hindex, rfl⟩ := List.mem_mapIdx.mp hmem
    exact List.mem_map_of_mem (List.getElem_mem hindex)
  unfold moveWrites at h
  split at h
  · cases h
  · next index hindex =>
    dsimp only at h
    have hcases {c : Prop} [Decidable c] {l l' : List Placement}
        (hmem : write ∈ if c then l else l') : write ∈ l ∨ write ∈ l' := by
      split at hmem
      · exact .inl hmem
      · exact .inr hmem
    rcases hcases h with h | h
    · obtain ⟨hlt, hid, -⟩ := List.findIdx?_eq_some_iff_getElem.mp hindex
      rw [List.mem_singleton.mp h, ← of_decide_eq_true hid]
      exact List.mem_map_of_mem (List.getElem_mem hlt)
    · exact hrespace h

/-- A moved item stands between the others by its position, where its neighbours let it. -/
theorem place_moved {γ : Type} {key : γ → Option Rat} {S : γ → γ → Prop} {pre post : List γ}
    {position : Rat} (hstand : (pre ++ post).Pairwise S)
    (hplace : ∀ {a b}, S a b → (place (key a) (key b)).isLE = true)
    (hprevious : ∀ a, pre.getLast? = some a → ∃ p, key a = some p ∧ p < position)
    (hnext : ∀ b, post.head? = some b → ∃ q, key b = some q ∧ position < q) :
    (∀ a ∈ pre, place (key a) (some position) = .lt) ∧
      ∀ b ∈ post, place (some position) (key b) = .lt := by
  obtain ⟨hpre, hpost, -⟩ := List.pairwise_append.mp hstand
  constructor
  · intro a ha
    cases pre using List.reverseRecOn with
    | nil => cases ha
    | append_singleton pre last =>
      obtain ⟨p, hp, hlt⟩ := hprevious last List.getLast?_concat
      rcases List.mem_append.mp ha with ha | ha
      · refine place_lt_of_le (hp ▸ hplace ?_) hlt
        exact (List.pairwise_append.mp hpre).2.2 a ha last List.mem_cons_self
      · rw [List.mem_singleton.mp ha, hp]
        exact place_lt hlt
  · intro b hb
    cases post with
    | nil => cases hb
    | cons first post =>
      obtain ⟨q, hq, hlt⟩ := hnext first rfl
      rcases List.mem_cons.mp hb with rfl | hb
      · rw [hq]
        exact place_lt hlt
      · exact place_lt_of_lt hlt (hq ▸ hplace (List.rel_of_pairwise_cons hpost hb))

/-- Another place for one item is another order of the same items. -/
theorem perm_of_split {γ ι : Type} [DecidableEq ι] {key : γ → ι} {l : List γ}
    (hkeys : (l.map key).Nodup) {x : γ} (hx : x ∈ l) {pre post : List γ}
    (hsplit : pre ++ post = l.filter fun a => key a ≠ key x) : (pre ++ x :: post).Perm l := by
  have hn : l.Nodup := hkeys.of_map
  have hrest (a : γ) : a ∈ pre ++ post ↔ a ∈ l ∧ key a ≠ key x := by
    rw [hsplit, List.mem_filter, decide_eq_true_iff]
  have hnrest : (pre ++ post).Nodup := by
    rw [hsplit]
    exact hn.filter _
  refine List.perm_middle.trans ((List.perm_ext_iff_of_nodup ?_ hn).mpr fun a => ?_)
  · exact List.nodup_cons.mpr ⟨fun h => ((hrest x).mp h).2 rfl, hnrest⟩
  · rw [List.mem_cons, hrest]
    constructor
    · rintro (rfl | ⟨ha, -⟩)
      · exact hx
      · exact ha
    · intro ha
      by_cases hkey : key a = key x
      · exact .inl (List.inj_on_of_nodup_map hkeys ha hx hkey)
      · exact .inr ⟨ha, hkey⟩

/-- What holds between the items that stand, and between them and the moved one. -/
theorem pairwise_moved {γ : Type} {S R : γ → γ → Prop} {pre post : List γ} {x : γ}
    (hstand : (pre ++ post).Pairwise S)
    (hothers : ∀ a ∈ pre ++ post, ∀ b ∈ pre ++ post, S a b → R a b)
    (hbefore : ∀ a ∈ pre, R a x) (hbehind : ∀ b ∈ post, R x b) :
    (pre ++ x :: post).Pairwise R := by
  have hR := hstand.imp_of_mem fun ha hb hab => hothers _ ha _ hb hab
  obtain ⟨hpre, hpost, hcross⟩ := List.pairwise_append.mp hR
  refine List.pairwise_append.mpr ⟨hpre, List.pairwise_cons.mpr ⟨hbehind, hpost⟩, ?_⟩
  intro a ha b hb
  rcases List.mem_cons.mp hb with rfl | hb
  · exact hbefore a ha
  · exact hcross a ha b hb

namespace Arranged

variable {α : Type} (A : Arranged α)

theorem mapIdx_map_placed (l : List α) (position : Nat → Rat) :
    (l.map A.placed).mapIdx (fun index item => (⟨item.id, position index⟩ : Placement)) =
      l.mapIdx fun index a => ⟨A.id a, position index⟩ := by
  rw [List.mapIdx_eq_zipIdx_map, List.mapIdx_eq_zipIdx_map, List.zipIdx_map, List.map_map]
  rfl

theorem respace_map_placed (l : List α) :
    respace (l.map A.placed) = l.mapIdx fun index a => ⟨A.id a, index * orderStep⟩ :=
  A.mapIdx_map_placed l fun index => index * orderStep

section
variable {l : List α} (hids : (l.map A.id).Nodup) {position : Nat → Rat}
include hids

/-- The position that a list of writes, one for each item, gives an item. -/
theorem order_written_mapIdx {i : Nat} (hi : i < l.length) :
    A.order (A.written (l.mapIdx fun index a => ⟨A.id a, position index⟩) l[i]) =
      some (position i) := by
  refine A.order_written ?_ (List.mem_mapIdx.mpr ⟨i, hi, rfl⟩)
  rw [List.mapIdx_eq_zipIdx_map, List.map_map]
  rw [← List.zipIdx_map_fst 0 l, List.map_map] at hids
  exact hids

theorem pairwise_written_mapIdx (hposition : StrictMono position) :
    l.Pairwise fun a b =>
      place (A.order (A.written (l.mapIdx fun index a => ⟨A.id a, position index⟩) a))
        (A.order (A.written (l.mapIdx fun index a => ⟨A.id a, position index⟩) b)) = .lt := by
  rw [List.pairwise_iff_getElem]
  intro i j hi hj hij
  rw [A.order_written_mapIdx hids hi, A.order_written_mapIdx hids hj]
  exact place_lt (hposition hij)

theorem pairwise_written_respace :
    l.Pairwise fun a b => place (A.order (A.written (respace (l.map A.placed)) a))
      (A.order (A.written (respace (l.map A.placed)) b)) = .lt := by
  rw [A.respace_map_placed]
  refine A.pairwise_written_mapIdx hids fun i j hij => ?_
  exact mul_lt_mul_of_pos_right (Nat.cast_lt.mpr hij) (by norm_num [orderStep])

end

theorem nodup_map_written {items : List α} (hids : (items.map A.id).Nodup)
    (writes : List Placement) : (items.map (A.written writes)).Nodup := by
  have hsame : (items.map (A.written writes)).map A.id = items.map A.id := by
    rw [List.map_map]
    exact List.map_congr_left fun a _ => A.written_keeps A.id_setOrder writes a
  exact List.Nodup.of_map A.id (hsame ▸ hids)

section
variable {compare : String → String → Ordering} (hcompare : StrictWeakOn (fun _ => True) compare)
  {items : List α} (hids : (items.map A.id).Nodup) {x : α} (hx : x ∈ items) {pre post : List α}
  (hsplit : pre ++ post =
    (sortBy (A.byPlace compare) items).filter fun a => A.id a ≠ A.id x)
include hcompare hids hx hsplit

/-- The items, moved to where they were asked for, sort in this order. -/
theorem sortBy_moveWrites :
    sortBy (A.byPlace compare)
        (items.map (A.written (moveWrites ((pre ++ x :: post).map A.placed) (A.id x)))) =
      (pre ++ x :: post).map
        (A.written (moveWrites ((pre ++ x :: post).map A.placed) (A.id x))) := by
  have hweak := A.weak_byPlace hcompare
  have hsorted := Collections.sortBy_perm (A.byPlace compare) items
  have hperm := (perm_of_split ((hsorted.map A.id).nodup_iff.mpr hids) (hsorted.mem_iff.mpr hx)
    hsplit).trans hsorted
  have hmem : ∀ a ∈ pre ++ post, A.id a ≠ A.id x := by
    intro a ha
    rw [hsplit] at ha
    simpa using (List.mem_filter.mp ha).2
  refine Collections.sortBy_map_eq (hweak.mono fun _ _ => trivial)
    (hweak.mono fun _ _ => trivial) (A.nodup_map_written hids _) hperm ?_
  have hpre : ∀ a ∈ pre.map A.placed, a.id ≠ (A.placed x).id := by
    intro a ha
    obtain ⟨b, hb, rfl⟩ := List.mem_map.mp ha
    exact hmem b (List.mem_append_left _ hb)
  have hcases := @moveWrites_cases _ (post.map A.placed) _ hpre
  rw [← List.map_cons, ← List.map_append] at hcases
  rcases hcases with heq | ⟨position, heq, hprevious, hnext⟩
  · have heq' : moveWrites ((pre ++ x :: post).map A.placed) (A.id x) =
        respace ((pre ++ x :: post).map A.placed) := heq
    rw [heq']
    refine (A.pairwise_written_respace ((hperm.map A.id).nodup_iff.mpr hids)).imp fun hlt => ?_
    exact .inl (A.byPlace_lt hlt)
  · have heq' : moveWrites ((pre ++ x :: post).map A.placed) (A.id x) = [⟨A.id x, position⟩] := heq
    rw [heq']
    have hsame {a : α} (ha : a ∈ pre ++ post) : A.written [⟨A.id x, position⟩] a = a :=
      A.written_of_not_mem (by simpa using hmem a ha)
    have hmoved : A.order (A.written [⟨A.id x, position⟩] x) = some position :=
      A.order_written (by simp) List.mem_cons_self
    have hstand : (pre ++ post).Pairwise (Precedes (sortBy (A.byPlace compare) items)) := by
      rw [hsplit]
      exact (Collections.pairwise_precedes _).imp fun hab => hab.trans List.filter_sublist
    obtain ⟨hbefore, hbehind⟩ := place_moved hstand
      (fun hab => A.place_isLE_of_byPlace (List.pairwise_iff_forall_sublist.mp
        (hweak.mono fun _ _ => trivial).pairwise_sortBy hab))
      (fun a ha => hprevious (A.placed a) (by rw [List.getLast?_map, ha]; rfl))
      fun b hb => hnext (A.placed b) (by rw [List.head?_map, hb]; rfl)
    refine pairwise_moved hstand (fun a ha b hb hab => .inr ?_) (fun a ha => .inl ?_)
      fun b hb => .inl ?_
    · rw [hsame ha, hsame hb]
      exact ⟨rfl, hab⟩
    · refine A.byPlace_lt ?_
      rw [hsame (List.mem_append_left _ ha), hmoved]
      exact hbefore a ha
    · refine A.byPlace_lt ?_
      rw [hsame (List.mem_append_right _ hb), hmoved]
      exact hbehind b hb

end

end Arranged

/-! ## Runs -/

/-- A run that is moved spreads between its neighbours, or every item gets a fresh position. -/
theorem runWrites_cases {pre post : List (List Placed)} {moved : List Placed}
    (hmoved : moved ≠ []) :
    runWrites (pre ++ moved :: post) pre.length = respace (pre ++ moved :: post).flatten ∨
      ∃ low stride, 0 < stride ∧
        runWrites (pre ++ moved :: post) pre.length =
          moved.mapIdx (fun offset item => ⟨item.id, low + stride * (offset + 1)⟩) ∧
        (∀ run, pre.getLast? = some run → (positions run).bind List.max? = some low) ∧
        ∀ run, post.head? = some run →
          (positions run).bind List.min? = some (low + stride * (moved.length + 1)) := by
  have hmid : (pre ++ moved :: post)[pre.length]? = some moved := by simp
  have hprevious : (if pre.length > 0 then ((pre ++ moved :: post)[pre.length - 1]?).bind
      fun run => (positions run).bind List.max? else none) =
        pre.getLast?.bind fun run => (positions run).bind List.max? := by
    cases pre using List.reverseRecOn with
    | nil => rfl
    | append_singleton pre a => simp
  have hnext : ((pre ++ moved :: post)[pre.length + 1]?) = post.head? := by
    cases post with
    | nil => simp
    | cons b post => simp
  have hlast : pre.length = (pre ++ moved :: post).length - 1 ↔ post = [] := by
    rw [← List.length_eq_zero_iff]
    simp
  unfold runWrites
  rw [hmid, hprevious, hnext, Option.getD_some]
  dsimp only
  rw [if_neg hmoved]
  split
  · next hknown =>
    obtain ⟨hprev, hnxt, hgap⟩ := hknown
    have hpos := lt_trans (by norm_num [minGap] : (0 : Rat) < minGap) hgap
    have hlength : ((moved.length : Rat) + 1) ≠ 0 := by positivity
    refine .inr ⟨_, _, hpos, rfl, fun run hrun => ?_, fun run hrun => ?_⟩
    · rw [hrun] at hprev ⊢
      obtain ⟨p, hp⟩ := Option.isSome_iff_exists.mp (hprev.resolve_left fun hnil => by
        rw [List.length_eq_zero_iff.mp hnil] at hrun
        cases hrun)
      rw [Option.bind_some] at hp ⊢
      rw [hp, Option.getD_some]
    · rw [hrun] at hnxt ⊢
      obtain ⟨q, hq⟩ := Option.isSome_iff_exists.mp (hnxt.resolve_left fun hnil => by
        rw [hlast.mp hnil] at hrun
        cases hrun)
      rw [Option.bind_some] at hq ⊢
      rw [hq, Option.getD_some, Option.getD_some, div_mul_cancel₀ _ hlength]
      congr 1
      ring
  · exact .inl rfl

theorem positions_eq {run : List Placed} {values : List Rat} (h : positions run = some values) :
    run.filterMap Placed.order = values := by
  unfold positions at h
  induction run generalizing values with
  | nil =>
    obtain rfl := Option.some.inj h
    rfl
  | cons item run ih =>
    rw [List.mapM_cons] at h
    obtain ⟨p, hp, h⟩ := Option.bind_eq_some_iff.mp h
    obtain ⟨rest, hrest, h⟩ := Option.bind_eq_some_iff.mp h
    obtain rfl := Option.some.inj h
    rw [List.filterMap_cons_some hp, ih hrest]

/-- The lowest position in a run. -/
def lowest {α : Type} (order : α → Option Rat) (run : List α) : Option Rat :=
  (run.filterMap order).min?

theorem lowest_eq_some_iff {α : Type} {order : α → Option Rat} {run : List α} {p : Rat} :
    lowest order run = some p ↔
      (∃ a ∈ run, order a = some p) ∧ ∀ a ∈ run, ∀ q, order a = some q → p ≤ q := by
  unfold lowest
  rw [List.min?_eq_some_iff, List.mem_filterMap]
  refine and_congr_right fun _ => ?_
  constructor
  · intro h a ha q hq
    exact h q (List.mem_filterMap.mpr ⟨a, ha, hq⟩)
  · intro h q hq
    obtain ⟨a, ha, hq⟩ := List.mem_filterMap.mp hq
    exact h a ha q hq

end Neoseq.Entities
