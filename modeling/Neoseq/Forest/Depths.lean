import Neoseq.Forest.Spine

/-! Forests and the lists of depths that encode them. A list encodes one forest at most; the
parent of a label is the last one before it that is one level up. A label can be put behind all
the others at any depth the spine reaches, and the forest so built may carry the old children of
one of its labels behind the new ones. -/

namespace Neoseq.Forest
variable {α : Type}

/-! ## One forest for a list -/

theorem depths_injective {d : Nat} {f g : Forest α} (h : depths d f = depths d g) : f = g := by
  induction f generalizing d g with
  | nil =>
    cases g with
    | nil => rfl
    | node a k r => cases h
  | node a k r ihk ihr =>
    cases g with
    | nil => cases h
    | node b k' r' =>
      rw [depths_node, depths_node] at h
      obtain ⟨hab, hrest⟩ := List.cons.inj h
      have hdeep (k r : Forest α) :
          (depths (d + 1) k ++ depths d r).takeWhile (fun x => decide (d < x.2)) =
            depths (d + 1) k := by
        have hpos : ∀ x ∈ depths (d + 1) k, decide (d < x.2) = true := fun x hx =>
          decide_eq_true (le_of_mem_depths hx)
        rw [List.takeWhile_append_of_pos hpos]
        cases r with
        | nil => simp
        | node a k r => simp
      have hk : depths (d + 1) k = depths (d + 1) k' := by
        rw [← hdeep k r, hrest, hdeep k' r']
      rw [hk] at hrest
      obtain rfl := ihk hk
      obtain rfl := ihr (List.append_cancel_left hrest)
      rw [(Prod.mk.inj hab).1]

theorem last_of_append {u v u' v' : List α} {x y : α} {p : α → Bool} (h : u ++ x :: v = u' ++ y :: v')
    (hx : p x = true) (hy : p y = true) (hv : ∀ z ∈ v, p z = false) (hv' : ∀ z ∈ v', p z = false) :
    x = y := by
  have hfilter := congrArg (List.filter p) h
  have hnil (v : List α) (hv : ∀ z ∈ v, p z = false) : v.filter p = [] :=
    List.filter_eq_nil_iff.mpr fun z hz => by rw [hv z hz]; exact Bool.false_ne_true
  rw [List.filter_append, List.filter_append, List.filter_cons_of_pos hx,
    List.filter_cons_of_pos hy, hnil v hv, hnil v' hv'] at hfilter
  exact (List.append_inj' hfilter rfl).2 |> List.cons.inj |> And.left

/-- A list is cut in one way at a label that it has once. -/
theorem cut_unique {u w u' w' : List (α × Nat)} {x : α} {a b : Nat}
    (h : u ++ (x, a) :: w = u' ++ (x, b) :: w')
    (hn : ((u ++ (x, a) :: w).map Prod.fst).Nodup) : u = u' ∧ a = b := by
  have houtside {u w : List (α × Nat)} {a : Nat} (hn : ((u ++ (x, a) :: w).map Prod.fst).Nodup) :
      x ∉ u.map Prod.fst := by
    rw [List.map_append, List.map_cons] at hn
    exact fun hm => (List.nodup_append.mp hn).2.2 x hm x (List.mem_cons_self ..) rfl
  have hu := houtside hn
  have hu' := houtside (h ▸ hn)
  clear hn houtside
  induction u generalizing u' with
  | nil =>
    cases u' with
    | nil => exact ⟨rfl, (Prod.mk.inj (List.cons.inj h).1).2⟩
    | cons y u' =>
      refine absurd ?_ hu'
      rw [← (List.cons.inj h).1]
      exact List.mem_cons_self ..
  | cons y u ih =>
    cases u' with
    | nil =>
      refine absurd ?_ hu
      rw [(List.cons.inj h).1]
      exact List.mem_cons_self ..
    | cons y' u' =>
      obtain ⟨rfl, hrest⟩ := List.cons.inj h
      rw [List.map_cons, List.mem_cons, not_or] at hu hu'
      obtain ⟨rfl, hab⟩ := ih hrest hu.2 hu'.2
      exact ⟨rfl, hab⟩

section Parents
variable [DecidableEq α]

/-- The parent is the last label before that is one level up. -/
theorem parentIn_of_depths {f : Forest α} (hn : (labels f).Nodup) {u v w : List (α × Nat)}
    {p x : α} {k : Nat} (h : depths 0 f = u ++ (p, k) :: (v ++ (x, k + 1) :: w))
    (hv : ∀ y ∈ v, y.2 ≠ k) : parentIn none x f = some (some p) := by
  have hx : x ∈ labels f := by
    rw [← map_fst_depths 0, h]
    simp
  obtain ⟨z, l, kx, r, rfl⟩ := exists_plug hx
  rw [parentIn_split hn]
  have hcut : (u ++ (p, k) :: v) ++ (x, k + 1) :: w =
      (beforeDepths 0 z ++ depths z.length l) ++ (x, z.length) ::
        (depths (z.length + 1) kx ++ depths z.length r ++ afterDepths 0 z) := by
    calc (u ++ (p, k) :: v) ++ (x, k + 1) :: w
        = depths 0 (plug z (l ++ node x kx r)) := by rw [h]; simp
      _ = _ := by rw [depths_plug]; simp
  have hnodup : (((u ++ (p, k) :: v) ++ (x, k + 1) :: w).map Prod.fst).Nodup := by
    rw [← map_fst_depths 0, h] at hn
    simpa using hn
  obtain ⟨hstart, hdepth⟩ := cut_unique hcut hnodup
  cases z with
  | nil => cases hdepth
  | cons t z =>
    obtain rfl : k = z.length := by simpa using hdepth
    rw [beforeDepths, List.append_assoc, List.append_assoc, List.singleton_append,
      ← List.append_assoc] at hstart
    have hlast := last_of_append (p := fun y => y.2 == z.length) hstart (by simp) (by simp)
      (fun y hy => by simpa using hv y hy) fun y hy => by
        have hle := le_of_mem_depths hy
        simp only [List.length_cons] at hle
        simp
        omega
    rw [ownerOf_cons, (Prod.mk.inj hlast).1]

end Parents

variable [DecidableEq α]

/-! ## Labels put behind all the others -/

/-- A new last label, at a depth that the spine reaches. -/
def snoc (x : α) (depth : Nat) (f : Forest α) : Forest α :=
  match depth with
  | 0 => f ++ single x nil
  | depth + 1 =>
    match (spine f)[depth]? with
    | some p => graft p (single x nil) f
    | none => f

theorem depths_graft {p : α} {k : Nat} {f : Forest α} (g : Forest α) (hp : (spine f)[k]? = some p)
    (hn : (labels f).Nodup) (d : Nat) :
    depths d (graft p g f) = depths d f ++ depths (d + k + 1) g := by
  unfold graft
  induction f using spine.induct generalizing k d with
  | case1 => simp [spine] at hp
  | case2 a kids ih =>
    rw [labels_node, labels_nil, List.append_nil, List.nodup_cons] at hn
    rw [spine] at hp
    rw [mapUnder]
    cases k with
    | zero =>
      obtain rfl : a = p := by simpa using hp
      rw [if_pos rfl]
      simp
    | succ k =>
      rw [List.getElem?_cons_succ] at hp
      have hne : a ≠ p := fun he => hn.1 (he ▸ spine_subset _ (List.mem_of_getElem? hp))
      rw [if_neg hne, depths_node, ih hp hn.2, show d + 1 + k + 1 = d + (k + 1) + 1 by omega]
      simp [mapUnder]
  | case3 a kids b kids' r ih =>
    rw [labels_node, List.nodup_cons, List.nodup_append, List.mem_append, not_or] at hn
    obtain ⟨⟨_, ha⟩, _, hr, hd⟩ := hn
    rw [spine] at hp
    have hpr : p ∈ labels (node b kids' r) := spine_subset _ (List.mem_of_getElem? hp)
    have hne : a ≠ p := fun he => ha (he ▸ hpr)
    have hpk : p ∉ labels kids := fun h => hd p h p hpr rfl
    rw [mapUnder, if_neg hne, mapUnder_of_not_mem hpk, depths_node, ih hp hr, depths_node d a]
    simp

theorem spine_graft {p x : α} {k : Nat} {f : Forest α} (hp : (spine f)[k]? = some p)
    (hn : (labels f).Nodup) :
    spine (graft p (single x nil) f) = (spine f).take (k + 1) ++ [x] := by
  unfold graft
  induction f using spine.induct generalizing k with
  | case1 => simp [spine] at hp
  | case2 a kids ih =>
    rw [labels_node, labels_nil, List.append_nil, List.nodup_cons] at hn
    rw [spine] at hp ⊢
    rw [mapUnder]
    cases k with
    | zero =>
      obtain rfl : a = p := by simpa using hp
      rw [if_pos rfl, spine, single, spine_append_node]
      rfl
    | succ k =>
      rw [List.getElem?_cons_succ] at hp
      have hne : a ≠ p := fun he => hn.1 (he ▸ spine_subset _ (List.mem_of_getElem? hp))
      rw [if_neg hne]
      show spine (node a (mapUnder p (· ++ single x nil) kids) nil) = _
      rw [spine, ih hp hn.2]
      rfl
  | case3 a kids b kids' r ih =>
    rw [labels_node, List.nodup_cons, List.nodup_append, List.mem_append, not_or] at hn
    obtain ⟨⟨_, ha⟩, _, hr, hd⟩ := hn
    rw [spine] at hp ⊢
    have hpr : p ∈ labels (node b kids' r) := spine_subset _ (List.mem_of_getElem? hp)
    have hne : a ≠ p := fun he => ha (he ▸ hpr)
    rw [mapUnder, if_neg hne, ← ih hp hr]
    cases hm : mapUnder p (· ++ single x nil) (node b kids' r) with
    | nil =>
      have hroots := roots_graft p (single x nil) (node b kids' r)
      unfold graft at hroots
      rw [hm] at hroots
      cases hroots
    | node c m n => rfl

variable {x : α} {k : Nat} {f : Forest α}

theorem snoc_succ {p : α} (hp : (spine f)[k]? = some p) :
    snoc x (k + 1) f = graft p (single x nil) f := by
  unfold snoc
  dsimp only
  rw [hp]

theorem depths_snoc (hk : k ≤ (spine f).length) (hn : (labels f).Nodup) :
    depths 0 (snoc x k f) = depths 0 f ++ [(x, k)] := by
  cases k with
  | zero => simp [snoc, single]
  | succ k =>
    have hp := List.getElem?_eq_getElem (show k < (spine f).length from hk)
    rw [snoc_succ hp, depths_graft _ hp hn]
    simp [single]

theorem spine_snoc (hk : k ≤ (spine f).length) (hn : (labels f).Nodup) :
    spine (snoc x k f) = (spine f).take k ++ [x] := by
  cases k with
  | zero =>
    show spine (f ++ single x nil) = _
    rw [single, spine_append_node]
    rfl
  | succ k =>
    have hp := List.getElem?_eq_getElem (show k < (spine f).length from hk)
    rw [snoc_succ hp]
    exact spine_graft hp hn

theorem labels_snoc (hk : k ≤ (spine f).length) (hn : (labels f).Nodup) :
    labels (snoc x k f) = labels f ++ [x] := by
  rw [← map_fst_depths 0, depths_snoc hk hn, List.map_append, map_fst_depths]
  rfl

/-- A graft changes no row but the one of its label. -/
theorem roots_under_graft_of_ne {p q : α} {f : Forest α} (g : Forest α) (hq : q ≠ p)
    (hqg : q ∉ labels g) (hn : (labels f).Nodup) :
    roots (under q (graft p g f)) = roots (under q f) := by
  by_cases hp : p ∈ labels f
  · obtain ⟨z, l, kids, r, rfl⟩ := exists_plug hp
    have hgraft := mapRow_plug (z := ⟨l, p, r⟩ :: z) (g := kids) (· ++ g) hn
    refine (congrArg (fun g => roots (under q g)) hgraft).trans ?_
    have hne : some q ≠ ownerOf (⟨l, p, r⟩ :: z) := fun h => hq (Option.some.inj h)
    have hkids : roots (under q (kids ++ g)) = roots (under q kids) := by
      rw [under_append_left hqg]
    exact roots_under_plug_congr_of_ne hne hkids
  · unfold graft
    rw [mapUnder_of_not_mem hp]

/-- How many children a label has after another one has been put behind. -/
theorem kids_snoc (hk : k ≤ (spine f).length) (hn : (labels f).Nodup) (hx : x ∉ labels f) {q : α}
    (hq : q ∈ labels f) :
    roots (under q (snoc x k f)) =
      roots (under q f) ++ if 0 < k ∧ (spine f)[k - 1]? = some q then [x] else [] := by
  have hqx : q ∉ labels (single x nil) := by
    rw [labels_single, labels_nil, List.mem_singleton]
    exact fun he => hx (he ▸ hq)
  cases k with
  | zero =>
    show roots (under q (f ++ single x nil)) = _
    rw [if_neg (by omega), List.append_nil, under_append_left hqx]
  | succ k =>
    have hp := List.getElem?_eq_getElem (show k < (spine f).length from hk)
    rw [snoc_succ hp, Nat.add_sub_cancel, hp]
    have hmem := spine_subset f (List.mem_of_getElem? hp)
    by_cases he : (spine f)[k] = q
    · rw [if_pos ⟨Nat.succ_pos k, congrArg some he⟩, he, under_graft _ (he ▸ hmem) hn,
        roots_append]
      rfl
    · rw [if_neg fun h => he (Option.some.inj h.2), List.append_nil,
        roots_under_graft_of_ne _ (Ne.symm he) hqx hn]

/-- A label that was just put behind has no children. -/
theorem under_snoc_self (hk : k ≤ (spine f).length) (hn : (labels f).Nodup) (hx : x ∉ labels f) :
    under x (snoc x k f) = nil := by
  have hnodup : (labels (snoc x k f)).Nodup := by
    rw [labels_snoc hk hn]
    exact List.nodup_append.mpr ⟨hn, List.nodup_singleton x, fun a ha b hb he =>
      hx (List.mem_singleton.mp hb ▸ he ▸ ha)⟩
  cases k with
  | zero => exact under_split (z := []) (l := f) (r := nil) hnodup
  | succ k =>
    have hp := List.getElem?_eq_getElem (show k < (spine f).length from hk)
    rw [snoc_succ hp] at hnodup ⊢
    obtain ⟨z, l, s, r, hf⟩ := exists_plug (spine_subset f (List.mem_of_getElem? hp))
    have hgraft : graft (spine f)[k] (single x nil) f =
        plug (⟨l, (spine f)[k], r⟩ :: z) (s ++ node x nil nil) := by
      have h := mapRow_plug (z := ⟨l, (spine f)[k], r⟩ :: z) (g := s) (· ++ single x nil)
        (by rw [plug_cons]; exact hf ▸ hn)
      rw [plug_cons, ← hf] at h
      exact h
    rw [hgraft] at hnodup ⊢
    exact under_split hnodup

/-! ## Old children behind new ones -/

/-- The forest with old children of one of its labels behind the new ones. -/
def hang (old : Option (α × Forest α)) (f : Forest α) : Forest α :=
  match old with
  | none => f
  | some (b, kids) => graft b kids f

/-- What the forest takes the place of. -/
def replaced : Option (α × Forest α) → Forest α
  | none => nil
  | some (b, kids) => single b kids

theorem roots_hang (old : Option (α × Forest α)) (f : Forest α) :
    roots (hang old f) = roots f := by
  cases old with
  | none => rfl
  | some e => exact roots_graft e.1 e.2 f

theorem graft_comm {p b : α} {t kids f : Forest α} (hne : b ≠ p) (hp : p ∉ labels kids)
    (hb : b ∉ labels t) : graft p t (graft b kids f) = graft b kids (graft p t f) := by
  unfold graft
  induction f with
  | nil => rfl
  | node a k r ihk ihr =>
    by_cases hab : a = b
    · subst hab
      rw [mapUnder, if_pos rfl, mapUnder, if_neg hne, mapUnder_append_left hp, mapUnder,
        if_neg hne, mapUnder, if_pos rfl]
    · by_cases hap : a = p
      · subst hap
        rw [mapUnder, if_neg hab, mapUnder, if_pos rfl, mapUnder, if_pos rfl, mapUnder,
          if_neg hab, mapUnder_append_left hb]
      · rw [mapUnder, if_neg hab, mapUnder, if_neg hap, ihk, ihr, mapUnder, if_neg hap, mapUnder,
          if_neg hab]

/-- An insertion between the children of a label and what is grafted behind them. -/
theorem mapUnder_insertAt_graft {b : α} {kids : Forest α} (t : Forest α) (hb : b ∈ labels f)
    (hn : (labels f).Nodup) (hk : (labels (graft b kids f)).Nodup) :
    mapUnder b (insertAt t (roots (under b f)).length) (graft b kids f) =
      graft b kids (graft b t f) := by
  rw [← graft_append]
  obtain ⟨z, l, s, r, rfl⟩ := exists_plug hb
  have hgraft (g : Forest α) : graft b g (plug z (l ++ node b s r)) =
      plug (⟨l, b, r⟩ :: z) (s ++ g) := mapRow_plug (z := ⟨l, b, r⟩ :: z) (g := s) (· ++ g) hn
  rw [hgraft] at hk ⊢
  rw [hgraft, under_split hn, ← insertAt_eq]
  exact mapRow_plug (z := ⟨l, b, r⟩ :: z) (g := s ++ kids) _ hk

variable {old : Option (α × Forest α)}

/-- The old children hang from a label of the forest. -/
def Hung (old : Option (α × Forest α)) (f : Forest α) : Prop :=
  ∀ e ∈ old, e.1 ∈ labels f ∧ ∀ y ∈ labels e.2, y ∉ labels f

theorem mapUnder_hang (h : Hung old f) (hn : (labels f).Nodup)
    (hh : (labels (hang old f)).Nodup) {p : α} (hp : p ∈ labels f) (hx : x ∉ labels f) :
    mapUnder p (insertAt (single x nil) (roots (under p f)).length) (hang old f) =
      hang old (graft p (single x nil) f) := by
  cases old with
  | none => exact mapUnder_insertAt_end _ hn (Nat.le_refl _)
  | some e =>
    obtain ⟨b, kids⟩ := e
    obtain ⟨hb, hkids⟩ := h _ rfl
    by_cases hbp : b = p
    · subst hbp
      exact mapUnder_insertAt_graft _ hb hn hh
    · have hpk : p ∉ labels kids := fun hm => hkids p hm hp
      have hbx : b ∉ labels (single x nil) := by
        rw [labels_single, labels_nil, List.mem_singleton]
        exact fun he => hx (he ▸ hb)
      have hrow := roots_under_graft_of_ne kids (Ne.symm hbp) hpk hn
      exact (mapUnder_insertAt_end _ hh (Nat.le_of_eq (congrArg List.length hrow))).trans (graft_comm hbp hpk hbx)

theorem mem_labels_hang (h : Hung old f) (hn : (labels f).Nodup) {y : α} (hy : y ∈ labels f) :
    y ∈ labels (hang old f) := by
  cases old with
  | none => exact hy
  | some e =>
    exact (labels_perm_graft _ (h e rfl).1 hn).mem_iff.mpr (List.mem_append_right _ hy)

theorem length_kids_hang (h : Hung old f) (hn : (labels f).Nodup) {y : α} (hy : y ∈ labels f) :
    (roots (under y f)).length ≤ (roots (under y (hang old f))).length := by
  cases old with
  | none => exact Nat.le_refl _
  | some e =>
    obtain ⟨hb, hkids⟩ := h e rfl
    by_cases hyb : y = e.1
    · rw [hyb, hang, under_graft _ hb hn, roots_append, List.length_append]
      exact Nat.le_add_right _ _
    · exact Nat.le_of_eq (congrArg List.length
        (roots_under_graft_of_ne e.2 hyb (fun hm => hkids y hm hy) hn)).symm

variable {z : List (Frame α)} {l r : Forest α}

/-- The labels of the forest at its place. -/
theorem place_not_mem (hn : (labels (plug z (l ++ (hang old f ++ r)))).Nodup) {y : α}
    (hy : y ∈ labels (hang old f)) :
    y ∉ before z ∧ y ∉ after z ∧ y ∉ labels l ∧ y ∉ labels r ∧ (labels (hang old f)).Nodup := by
  have hout := not_mem_of_before (l := l ++ hang old f) (t := y) (by rwa [append_assoc])
    (by rw [labels_append]; exact List.mem_append_right _ hy)
  have hl := hout.2.2.2
  rw [labels_append] at hl
  obtain ⟨_, hh, hd⟩ := List.nodup_append.mp hl
  exact ⟨hout.1, hout.2.1, fun hm => hd y hm y hy rfl, hout.2.2.1, hh⟩

theorem row_place (hn : (labels (plug z (l ++ (hang old f ++ r)))).Nodup) {y : α}
    (hy : y ∈ labels (hang old f)) :
    row (some y) (plug z (l ++ (hang old f ++ r))) = some (roots (under y (hang old f))) := by
  obtain ⟨hb, ha, hl, hr, _⟩ := place_not_mem hn hy
  rw [row, if_pos (by simp [labels_plug, hy]), under_plug _ hb ha, under_append_right hl,
    under_append_left hr]

/-- A new root goes behind the others. -/
theorem insert_root (h : Hung old f) (hx : x ∉ labels f)
    (hn : (labels (plug z (l ++ (hang old f ++ r)))).Nodup) :
    mapRow (ownerOf z) (insertAt (single x nil) ((roots l).length + (roots f).length))
      (plug z (l ++ (hang old f ++ r))) = plug z (l ++ (hang old (snoc x 0 f) ++ r)) := by
  have hhang : hang old (snoc x 0 f) = hang old f ++ single x nil := by
    cases old with
    | none => rfl
    | some e =>
      have hbx : e.1 ∉ labels (single x nil) := by
        rw [labels_single, labels_nil, List.mem_singleton]
        exact fun he => hx (he ▸ (h e rfl).1)
      exact mapUnder_append_left hbx
  have hat := insertAt_eq (single x nil) (l ++ hang old f) r
  rw [roots_append, List.length_append, roots_hang] at hat
  rw [mapRow_plug _ hn, hhang, ← append_assoc l, hat]
  simp only [append_assoc]

/-- A new child goes behind the new children of its parent, before the old ones. -/
theorem insert_child (h : Hung old f) (hf : (labels f).Nodup) (hx : x ∉ labels f) {p : α}
    (hp : (spine f)[k]? = some p) (hn : (labels (plug z (l ++ (hang old f ++ r)))).Nodup) :
    mapRow (some p) (insertAt (single x nil) (roots (under p f)).length)
      (plug z (l ++ (hang old f ++ r))) = plug z (l ++ (hang old (snoc x (k + 1) f) ++ r)) := by
  have hmem := spine_subset f (List.mem_of_getElem? hp)
  obtain ⟨hb, ha, hl, hr, hh⟩ := place_not_mem hn (mem_labels_hang h hf hmem)
  show mapUnder p _ _ = _
  rw [mapUnder_plug _ hb ha, mapUnder_append_right hl, mapUnder_append_left hr,
    mapUnder_hang h hf hh hmem hx, snoc_succ hp]

theorem length_roots_snoc (hk : k ≤ (spine f).length) :
    (roots (snoc x k f)).length = (roots f).length + if k = 0 then 1 else 0 := by
  cases k with
  | zero =>
    show (roots (f ++ single x nil)).length = _
    rw [roots_append, List.length_append]
    rfl
  | succ k =>
    rw [snoc_succ (List.getElem?_eq_getElem (show k < (spine f).length from hk)), roots_graft,
      if_neg (Nat.succ_ne_zero k)]
    rfl

/-! ## Insertions at any position -/

omit [DecidableEq α] in
theorem labels_sublist_insert (z : List (Frame α)) (l t r : Forest α) :
    (labels (plug z (l ++ r))).Sublist (labels (plug z (l ++ (t ++ r)))) := by
  simp only [labels_plug, labels_append, List.append_assoc]
  exact (List.Sublist.refl _).append ((List.Sublist.refl _).append (List.sublist_append_right ..))

/-- The row there gets longer, and the others stay. -/
theorem length_row_insert {t : Forest α} {q : Option α}
    (hn : (labels (plug z (l ++ (t ++ r)))).Nodup) (ht : ∀ y, q = some y → y ∉ labels t) :
    ((row q (plug z (l ++ r))).getD []).length + (if q = ownerOf z then (roots t).length else 0) =
      ((row q (plug z (l ++ (t ++ r)))).getD []).length := by
  by_cases hq : q = ownerOf z
  · rw [if_pos hq, hq, row_owner (hn.sublist (labels_sublist_insert z l t r)), row_owner hn]
    simp only [Option.getD_some, roots_append, List.length_append]
    omega
  · rw [if_neg hq, row_insert_of_ne hq ht, Nat.add_zero]

/-! ## The forest in its place -/

/-- A forest of new labels at a position. With old children it begins with their parent, which
is the only label of it that was there. -/
structure Placed (old : Option (α × Forest α)) (f : Forest α) (z : List (Frame α))
    (l r : Forest α) : Prop where
  begins : ∀ e ∈ old, ∃ k s, f = node e.1 k s
  forest : (labels f).Nodup
  nodup : (labels (plug z (l ++ (hang old f ++ r)))).Nodup
  fresh : ∀ y ∈ labels f, y ∈ labels (plug z (l ++ (replaced old ++ r))) → ∃ e ∈ old, y = e.1

omit [DecidableEq α] in
theorem mem_labels_place {g : Forest α} {y : α} :
    y ∈ labels (plug z (l ++ (g ++ r))) ↔
      y ∈ before z ++ labels l ∨ y ∈ labels g ∨ y ∈ labels r ++ after z := by
  simp only [labels_plug, labels_append, List.mem_append]
  tauto

omit [DecidableEq α] in
theorem filter_place (p : α → Bool) (g : Forest α) :
    (labels (plug z (l ++ (g ++ r)))).filter p =
      (before z ++ labels l).filter p ++ ((labels g).filter p ++ (labels r ++ after z).filter p) := by
  simp [labels_plug, List.filter_append]

omit [DecidableEq α] in
theorem filter_all {p : α → Bool} {m : List α} (h : ∀ y ∈ m, p y = true) : m.filter p = m :=
  List.filter_eq_self.mpr h

omit [DecidableEq α] in
theorem filter_none {p : α → Bool} {m : List α} (h : ∀ y ∈ m, p y = false) : m.filter p = [] :=
  List.filter_eq_nil_iff.mpr fun y hy => by rw [h y hy]; exact Bool.false_ne_true

namespace Placed

/-- Labels of the forest stand nowhere else. -/
theorem outside (h : Placed old f z l r) {y : α} (hy : y ∈ labels (hang old f)) :
    y ∉ before z ++ labels l ∧ y ∉ labels r ++ after z := by
  have hn := h.nodup
  have he : labels (plug z (l ++ (hang old f ++ r))) =
      (before z ++ labels l) ++ (labels (hang old f) ++ (labels r ++ after z)) := by
    simp [labels_plug]
  rw [he] at hn
  obtain ⟨_, hr, hd⟩ := List.nodup_append.mp hn
  exact ⟨fun hm => hd y hm y (List.mem_append_left _ hy) rfl,
    fun hm => (List.nodup_append.mp hr).2.2 y hy y hm rfl⟩

theorem mem_hang (h : Placed old f z l r) {y : α} (hy : y ∈ labels f) :
    y ∈ labels (hang old f) := by
  cases old with
  | none => exact hy
  | some e =>
    obtain ⟨k, s, rfl⟩ := h.begins e rfl
    exact (labels_perm_graft e.2 (List.mem_cons_self ..) h.forest).mem_iff.mpr
      (List.mem_append_right _ hy)

theorem hung (h : Placed old f z l r) : Hung old f := by
  intro e he
  obtain rfl := he
  obtain ⟨k, s, rfl⟩ := h.begins e rfl
  have hb : e.1 ∈ labels (node e.1 k s) := List.mem_cons_self ..
  have hn : (labels (hang (some e) (node e.1 k s))).Nodup := by
    have hn := nodup_of_plug h.nodup
    rw [labels_append, labels_append] at hn
    exact (List.nodup_append.mp (List.nodup_append.mp hn).2.1).1
  rw [show hang (some e) (node e.1 k s) = graft e.1 e.2 (node e.1 k s) from rfl,
    (labels_perm_graft e.2 hb h.forest).nodup_iff] at hn
  exact ⟨hb, fun y hy hm => (List.nodup_append.mp hn).2.2 y hy y hm rfl⟩

/-- What was there is in its old order. -/
theorem labels_old (h : Placed old f z l r) :
    (labels (plug z (l ++ (hang old f ++ r)))).filter
        (· ∈ labels (plug z (l ++ (replaced old ++ r)))) =
      labels (plug z (l ++ (replaced old ++ r))) := by
  have hself : labels (plug z (l ++ (replaced old ++ r))) =
      (before z ++ labels l) ++ (labels (replaced old) ++ (labels r ++ after z)) := by
    simp [labels_plug]
  have hmid : (labels (hang old f)).filter (· ∈ labels (plug z (l ++ (replaced old ++ r)))) =
      labels (replaced old) := by
    cases old with
    | none =>
      refine filter_none fun y hy => decide_eq_false fun hm => ?_
      obtain ⟨e, he, _⟩ := h.fresh y hy hm
      cases he
    | some e =>
      obtain ⟨b, kids⟩ := e
      obtain ⟨k, s, rfl⟩ := h.begins _ rfl
      have hnew (y : α) (hy : y ∈ labels k ++ labels s) :
          decide (y ∈ labels (plug z (l ++ (replaced (some (b, kids)) ++ r)))) = false := by
        refine decide_eq_false fun hm => ?_
        obtain ⟨e, he, heq⟩ := h.fresh y (List.mem_cons_of_mem _ hy) hm
        obtain rfl := Option.some.inj he
        have hnot := (List.nodup_cons.mp h.forest).1
        exact hnot (heq ▸ hy)
      have hold (y : α) (hy : y ∈ labels (replaced (some (b, kids)))) :
          decide (y ∈ labels (plug z (l ++ (replaced (some (b, kids)) ++ r)))) = true :=
        decide_eq_true (mem_labels_place.mpr (.inr (.inl hy)))
      have hhang : labels (hang (some (b, kids)) (node b k s)) =
          b :: (labels k ++ (labels kids ++ labels s)) := by
        show labels (mapUnder b (· ++ kids) (node b k s)) = _
        rw [mapUnder, if_pos rfl, labels_node, labels_append, List.append_assoc]
      rw [hhang, List.filter_cons, if_pos (hold b (by simp [replaced])), List.filter_append,
        List.filter_append, filter_none fun y hy => hnew y (List.mem_append_left _ hy),
        filter_all fun y hy => hold y (by simp [replaced, hy]),
        filter_none fun y hy => hnew y (List.mem_append_right _ hy)]
      simp [replaced]
  rw [filter_place, hmid, filter_all fun y hy => decide_eq_true (mem_labels_place.mpr (.inl hy)),
    filter_all fun y hy => decide_eq_true (mem_labels_place.mpr (.inr (.inr hy)))]
  exact hself.symm

/-- The new labels are in the order of the forest. -/
theorem labels_new (h : Placed old f z l r) :
    (labels (plug z (l ++ (hang old f ++ r)))).filter (· ∈ labels f) = labels f := by
  have hmid : (labels (hang old f)).filter (· ∈ labels f) = labels f := by
    cases old with
    | none => exact filter_all fun y hy => decide_eq_true hy
    | some e =>
      obtain ⟨b, kids⟩ := e
      have hhung := h.hung _ rfl
      obtain ⟨k, s, rfl⟩ := h.begins _ rfl
      have hhang : labels (hang (some (b, kids)) (node b k s)) =
          b :: (labels k ++ (labels kids ++ labels s)) := by
        show labels (mapUnder b (· ++ kids) (node b k s)) = _
        rw [mapUnder, if_pos rfl, labels_node, labels_append, List.append_assoc]
      rw [hhang, List.filter_cons, if_pos (decide_eq_true hhung.1), List.filter_append,
        List.filter_append,
        filter_all fun y hy => decide_eq_true (by simp [hy]),
        filter_none fun y hy => decide_eq_false (hhung.2 y hy),
        filter_all fun y hy => decide_eq_true (by simp [hy])]
      rfl
  have hout (m : List α) (hm : ∀ y ∈ labels f, y ∉ m) : m.filter (· ∈ labels f) = [] :=
    filter_none fun y hy => decide_eq_false fun hf => hm y hf hy
  rw [filter_place, hmid, hout _ fun y hy => (h.outside (h.mem_hang hy)).1,
    hout _ fun y hy => (h.outside (h.mem_hang hy)).2, List.nil_append, List.append_nil]

/-- What was there keeps its parent. -/
theorem parentIn_old (h : Placed old f z l r) {y : α}
    (hy : y ∈ labels (plug z (l ++ (replaced old ++ r)))) :
    parentIn none y (plug z (l ++ (hang old f ++ r))) =
      parentIn none y (plug z (l ++ (replaced old ++ r))) := by
  refine parentIn_plug_congr (fun p => ?_) none
  rw [parentIn_append, parentIn_append, parentIn_append, parentIn_append]
  congr 2
  cases old with
  | none =>
    have hyf : y ∉ labels f := fun hm => by
      obtain ⟨e, he, _⟩ := h.fresh y hm hy
      cases he
    exact parentIn_of_not_mem hyf
  | some e =>
    obtain ⟨b, kids⟩ := e
    obtain ⟨k, s, rfl⟩ := h.begins _ rfl
    show parentIn p y (mapUnder b (· ++ kids) (node b k s)) = parentIn p y (node b kids nil)
    rw [mapUnder, if_pos rfl, parentIn, parentIn]
    by_cases hby : b = y
    · rw [if_pos hby, if_pos hby]
    · have hyf : y ∉ labels (node b k s) := fun hm => by
        obtain ⟨e, he, heq⟩ := h.fresh y hm hy
        obtain rfl := Option.some.inj he
        exact hby heq.symm
      rw [labels_node, List.mem_cons, List.mem_append, not_or, not_or] at hyf
      rw [if_neg hby, if_neg hby, parentIn_append, parentIn_of_not_mem hyf.2.1, Option.none_or,
        parentIn_of_not_mem hyf.2.2, parentIn]

/-- The parents in the forest are those at its place. -/
theorem parentIn_new (h : Placed old f z l r) {y : α} (hy : y ∈ labels f) :
    parentIn none y (plug z (l ++ (hang old f ++ r))) = parentIn (ownerOf z) y f := by
  have hin := h.mem_hang hy
  obtain ⟨hleft, hright⟩ := h.outside hin
  rw [List.mem_append, not_or] at hleft hright
  have hmem : y ∈ labels (l ++ (hang old f ++ r)) := by simp [hin]
  rw [parentIn_plug hleft.1 hmem, parentIn_append, parentIn_of_not_mem hleft.2, Option.none_or,
    parentIn_append, parentIn_of_not_mem hright.1, Option.or_none]
  cases old with
  | none => rfl
  | some e =>
    obtain ⟨hb, hkids⟩ := h.hung e rfl
    show parentIn (ownerOf z) y (graft e.1 e.2 f) = _
    rw [parentIn_graft e.2 hb h.forest (.inl fun hm => hkids y hm hy),
      Option.or_of_isSome (parentIn_isSome.mpr hy)]

theorem row_owner (h : Placed old f z l r) :
    row (ownerOf z) (plug z (l ++ (hang old f ++ r))) =
      some (roots l ++ (roots f ++ roots r)) := by
  rw [Forest.row_owner h.nodup, roots_append, roots_append, roots_hang]

/-- The new children of a label come before its old ones. -/
theorem row_new (h : Placed old f z l r) (hn : (labels (plug z (l ++ (replaced old ++ r)))).Nodup)
    {y : α} (hy : y ∈ labels f) :
    row (some y) (plug z (l ++ (hang old f ++ r))) = some (roots (under y f) ++
      (row (some y) (plug z (l ++ (replaced old ++ r)))).getD []) := by
  have hunder := row_place h.nodup (h.mem_hang hy)
  have hnone (hne : ∀ e ∈ old, y ≠ e.1) :
      (row (some y) (plug z (l ++ (replaced old ++ r)))).getD [] = [] := by
    rw [row, if_neg fun hm => ?_]
    · rfl
    · obtain ⟨e, he, heq⟩ := h.fresh y hy hm
      exact hne e he heq
  rw [hunder]
  cases old with
  | none =>
    rw [hnone (by simp), List.append_nil]
    rfl
  | some e =>
    obtain ⟨b, kids⟩ := e
    obtain ⟨hb, hkids⟩ := h.hung _ rfl
    by_cases hyb : y = b
    · subst hyb
      have hold : row (some y) (plug z (l ++ (replaced (some (y, kids)) ++ r))) =
          some (roots kids) := by
        show row (some y) (plug z (l ++ node y kids r)) = _
        have hn' : (labels (plug z (l ++ node y kids r))).Nodup := hn
        rw [row, if_pos (by simp [labels_plug]), under_split hn']
      show some (roots (under y (graft y kids f))) = _
      rw [under_graft _ hy h.forest, roots_append, hold]
      rfl
    · rw [hnone fun e he => (Option.some.inj he) ▸ hyb, List.append_nil]
      exact congrArg some (roots_under_graft_of_ne kids hyb (fun hm => hkids y hm hy) h.forest)

end Placed

end Neoseq.Forest
