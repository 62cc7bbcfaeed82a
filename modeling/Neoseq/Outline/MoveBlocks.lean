import Neoseq.Forest.Group
import Neoseq.Outline.Levels

/-! The group move. The planner takes every root out of its row and splices the
run in once; the document's tree is changed by one single move for each root.
Both give the group move of the forest. -/

namespace Neoseq.Outline
open Forest OutlineState
variable {β : Type} [LinearOrder β]

/-! ## Detaching the roots -/

/-- The planner's state after the blocks `done` have been detached from `s`. -/
structure Detached (s : OutlineState β) (p : Option β) (done : List β) (t : OutlineState β) :
    Prop where
  parents : ∀ y, t.parents y = if y ∈ done then some p else s.parents y
  children : ∀ q, t.children q = (s.children q).map (·.filter fun y => !done.contains y)
  order : t.documentOrder = s.documentOrder

theorem detached_nil (s : OutlineState β) (p : Option β) : Detached s p [] s where
  parents y := by simp
  children q := by simp
  order := rfl

theorem Represents.detachTo {s t : OutlineState β} {f : Forest β} (hs : Represents s f)
    {p : Option β} {done : List β} (ht : Detached s p done t) {b : β} (hb : b ∈ f.labels)
    (hd : b ∉ done) : ∃ t', t.detachTo p b = .ok t' ∧ Detached s p (done ++ [b]) t' := by
  obtain ⟨o, l, ho, hl, hbl, hpo⟩ := hs.row_of_mem hb
  have hto : t.parents b = some o := by rw [ht.parents, if_neg hd, ho]
  have htl : t.children o = some (l.filter fun y => !done.contains y) := by
    rw [ht.children, hl]; rfl
  have hbt : b ∈ l.filter fun y => !done.contains y := by simp [hbl, hd]
  obtain ⟨j, hj, he⟩ := idxOf?_of_mem hbt
  refine ⟨_, by simp only [OutlineState.detachTo, hto, htl, hj, orElse, bind, Except.bind]; rfl,
    ?_, ?_, ?_⟩
  · intro y
    simp only [setParent, setRow, ht.parents, List.mem_append, List.mem_singleton]
    by_cases hy : y = b <;> simp [hy]
  · intro q
    simp only [setParent, setRow, he]
    by_cases hq : q = o
    · subst hq
      have hn := (nodup_row hs.nodup (by rw [← hs.children, hl])).filter
        fun y => !done.contains y
      rw [if_pos rfl, hl, Option.map_some, hn.erase_eq_filter, List.filter_filter]
      refine congrArg some (List.filter_congr fun y _ => ?_)
      by_cases hy : y = b <;> simp [hy]
    · rw [if_neg hq, ht.children]
      cases hc : s.children q with
      | none => rfl
      | some m =>
        have hbm : b ∉ m := fun hm => by
          have := (mem_row_iff hs.nodup).mp ⟨m, by rw [← hs.children, hc], hm⟩
          exact hq (Option.some.inj (this.symm.trans hpo))
        refine congrArg some (List.filter_congr fun y hy => ?_)
        have hyb : y ≠ b := fun h => hbm (h ▸ hy)
        simp [hyb]
  · exact ht.order

theorem Represents.detachAll {s t : OutlineState β} {f : Forest β} (hs : Represents s f)
    {p : Option β} {done bs : List β} (ht : Detached s p done t) (hb : ∀ b ∈ bs, b ∈ f.labels)
    (hd : ∀ b ∈ bs, b ∉ done) (hn : bs.Nodup) :
    ∃ t', bs.foldlM (fun t b => t.detachTo p b) t = .ok t' ∧ Detached s p (done ++ bs) t' := by
  induction bs generalizing done t with
  | nil => exact ⟨t, rfl, by rwa [List.append_nil]⟩
  | cons b bs ih =>
    obtain ⟨hbn, hn⟩ := List.nodup_cons.mp hn
    obtain ⟨t₁, he, ht₁⟩ := hs.detachTo ht (hb b (List.mem_cons_self ..))
      (hd b (List.mem_cons_self ..))
    have hd' : ∀ c ∈ bs, c ∉ done ++ [b] := fun c hc hm => by
      rcases List.mem_append.mp hm with hm | hm
      · exact hd c (List.mem_cons_of_mem _ hc) hm
      · exact hbn (List.mem_singleton.mp hm ▸ hc)
    obtain ⟨t₂, he₂, ht₂⟩ := ih ht₁ (fun c hc => hb c (List.mem_cons_of_mem _ hc)) hd' hn
    refine ⟨t₂, by rw [List.foldlM_cons, he]; exact he₂, ?_⟩
    rwa [List.append_assoc] at ht₂

/-! ## The projected group move -/

/-- Roots that can be moved after `x`, or to the front of the row of `p`. -/
structure Destination (bs : List β) (p x : Option β) (f : Forest β) : Prop where
  parent : ∀ q, p = some q → q ∈ f.labels ∧ ∀ b ∈ bs, q ∉ subtree b f
  anchor : ∀ y, x = some y → f.parentIn none y = some p ∧ y ∉ bs

/-- An anchor beside the roots is in none of their trees. -/
theorem Destination.landing {bs : List β} {p x : Option β} {f : Forest β}
    (h : Destination bs p x f) (hn : f.labels.Nodup) : Landing bs p x f where
  parent q hq := (h.parent q hq).1
  anchor y hy := parentIn_isSome.mp (by rw [(h.anchor y hy).1]; rfl)
  clear b hb := by
    refine ⟨fun q hq => (h.parent q hq).2 b hb, fun y hy hm => ?_⟩
    obtain ⟨hpy, hyb⟩ := h.anchor y hy
    obtain ⟨z, l, k, r, rfl⟩ := exists_plug (parentIn_isSome.mp (by rw [hpy]; rfl))
    have ho := Option.some.inj ((parentIn_split hn).symm.trans hpy)
    rcases (mem_subtree_split_iff hn).mp hm with rfl | ⟨t, ht, rfl⟩
    · exact hyb hb
    · cases z with
      | nil => cases ht
      | cons u z =>
        refine (h.parent u.owner ho.symm).2 t.owner hb ?_
        rw [plug_cons] at hn ⊢
        rw [mem_subtree_split_iff hn]
        rcases List.mem_cons.mp ht with rfl | ht
        · exact .inl rfl
        · exact .inr ⟨t, ht, rfl⟩

theorem Represents.no_cycle_iff {s : OutlineState β} {f : Forest β} (hs : Represents s f)
    {bs : List β} {p : Option β} (hp : ∀ q, p = some q → q ∈ f.labels) :
    (bs.any fun root => p == some root || p.any fun candidate => s.isDescendant candidate root)
      = false ↔ ∀ q, p = some q → ∀ b ∈ bs, q ∉ subtree b f := by
  cases p with
  | none => simp
  | some q =>
    have hd : ∀ b, s.isDescendant q b = true ↔ q ∈ subtree b f := hs.isDescendant (hp q rfl)
    rw [List.any_eq_false]
    refine ⟨fun h x hx b hb hm => ?_, fun h b hb hc => ?_⟩
    · obtain rfl := Option.some.inj hx
      exact h b hb (by simp [(hd b).mpr hm])
    · have := h q rfl b hb
      rw [← hd b] at this
      have hne : q ≠ b := fun he => h q rfl b hb (he ▸ List.mem_cons_self ..)
      simp [this, hne] at hc

/-- The rest of `moveGroup` once the parent is known and no cycle arises. -/
theorem Represents.moveGroup_eq {s : OutlineState β} {f : Forest β} (hs : Represents s f)
    {bs : List β} {p : Option β} (x : Option β) (hp : ∀ q, p = some q → q ∈ f.labels)
    (hc : ∀ q, p = some q → ∀ b ∈ bs, q ∉ subtree b f) :
    let stationary := ((s.children p).getD []).filter fun b => !bs.contains b
    s.moveGroup bs p x = (do
      let destination ← destinationIndex stationary x
      let s ← bs.foldlM (fun s root => s.detachTo p root) s
      return s.setRow p
        (stationary.take destination ++ bs ++ stationary.drop destination)) := by
  have hcyc : (bs.any fun root =>
      p == some root || p.any fun candidate => s.isDescendant candidate root) = false :=
    (hs.no_cycle_iff hp).mpr hc
  cases p with
  | none => simp only [OutlineState.moveGroup, hcyc]; rfl
  | some q =>
    have hq : (s.parents q).isNone = false := by
      rw [hs.parents, Option.isNone_eq_false_iff, parentIn_isSome]; exact hp q rfl
    simp only [OutlineState.moveGroup, hcyc, hq]; rfl

theorem destinationIndex_eq {l : List β} {x : Option β} (h : ∀ y, x = some y → y ∈ l) :
    ∃ i, destinationIndex l x = .ok i ∧
      ∀ run : List β, l.take i ++ run ++ l.drop i = splice x run l := by
  cases x with
  | none => exact ⟨0, rfl, fun _ => rfl⟩
  | some y =>
    obtain ⟨m, k, rfl, hm⟩ := List.eq_append_cons_of_mem (h y rfl)
    refine ⟨m.length + 1, by rw [destinationIndex, idxOf?_split hm]; rfl, fun run => ?_⟩
    rw [splice, List.idxOf_append_of_notMem hm, List.idxOf_cons_self]

theorem mem_of_destinationIndex {l : List β} {y : β} {i : Nat}
    (h : destinationIndex l (some y) = .ok i) : y ∈ l := by
  cases hi : l.idxOf? y with
  | none => rw [destinationIndex, hi] at h; cases h
  | some j => exact List.isSome_idxOf?.mp (by rw [hi]; rfl)

theorem Represents.moveGroup {s : OutlineState β} {f : Forest β} (hs : Represents s f)
    {bs : List β} {p x : Option β} (ha : Apart bs f) (hd : Destination bs p x f) :
    ∃ s', s.moveGroup bs p x = .ok s' ∧ Represents s' (Forest.moveGroup bs p x f) := by
  have hl := hd.landing hs.nodup
  have hx : ∀ y, x = some y → f.parentIn none y = some p := fun y hy => (hd.anchor y hy).1
  obtain ⟨t, ht, hdt⟩ := hs.detachAll (p := p) (detached_nil s p) ha.mem (by simp) ha.nodup
  rw [List.nil_append] at hdt
  obtain ⟨m, hm⟩ : ∃ m, s.children p = some m := by
    cases p with
    | none => exact ⟨_, hs.children none⟩
    | some q => exact ⟨_, by rw [hs.children, row, if_pos (hd.parent q rfl).1]⟩
  have hmem : ∀ y, x = some y → y ∈ m.filter fun b => !bs.contains b := fun y hy => by
    obtain ⟨m', hm', hym⟩ := (mem_row_iff hs.nodup).mpr (hx y hy)
    obtain rfl : m' = m := by rw [← hs.children, hm] at hm'; exact (Option.some.inj hm').symm
    simp [hym, (hd.anchor y hy).2]
  obtain ⟨i, hi, hsplice⟩ := destinationIndex_eq hmem
  refine ⟨t.setRow p (splice x bs (m.filter fun b => !bs.contains b)), ?_, ?_, ?_, ?_, ?_⟩
  · rw [hs.moveGroup_eq x (fun q hq => (hd.parent q hq).1) (fun q hq => (hd.parent q hq).2), hm]
    simp only [Option.getD_some, hi, bind, Except.bind, ht, hsplice]
    rfl
  · exact (labels_perm_moveGroup hl ha hs.nodup hx).nodup_iff.mpr hs.nodup
  · intro y
    rw [parentIn_moveGroup hl ha hs.nodup hx, ← hs.parents]
    exact hdt.parents y
  · intro q
    rw [row_moveGroup hl ha hs.nodup hx, ← hs.children]
    simp only [setRow]
    by_cases hq : q = p
    · subst hq; simp [hm]
    · simp only [if_neg hq]; exact hdt.children q
  · rw [(labels_perm_moveGroup hl ha hs.nodup hx).length_eq, ← hs.order]
    exact congrArg List.length hdt.order

/-- A group move that is accepted had a destination. -/
theorem Represents.destination_of_moveGroup {s : OutlineState β} {f : Forest β}
    (hs : Represents s f) {bs : List β} {p x : Option β} {s' : OutlineState β}
    (h : s.moveGroup bs p x = .ok s') : Destination bs p x f := by
  have hp : ∀ q, p = some q → q ∈ f.labels := by
    rintro q rfl
    by_contra hq
    have hnone : s.parents q = none := by rw [hs.parents, parentIn_of_not_mem hq]
    simp [OutlineState.moveGroup, hnone, bind, Except.bind, throw, throwThe, MonadExceptOf.throw]
      at h
  have hc : ∀ q, p = some q → ∀ b ∈ bs, q ∉ subtree b f := by
    rw [← hs.no_cycle_iff hp]
    by_contra hcyc
    rw [Bool.not_eq_false] at hcyc
    cases p with
    | none => simp only [OutlineState.moveGroup, hcyc] at h; cases h
    | some q =>
      have hq : (s.parents q).isNone = false := by
        rw [hs.parents, Option.isNone_eq_false_iff, parentIn_isSome]; exact hp q rfl
      simp only [OutlineState.moveGroup, hcyc, hq] at h; cases h
  refine ⟨fun q hq => ⟨hp q hq, hc q hq⟩, ?_⟩
  rintro y rfl
  rw [hs.moveGroup_eq _ hp hc] at h
  obtain ⟨m, hm⟩ : ∃ m, s.children p = some m := by
    cases p with
    | none => exact ⟨_, hs.children none⟩
    | some q => exact ⟨_, by rw [hs.children, row, if_pos (hp q rfl)]⟩
  simp only [hm, Option.getD_some] at h
  cases hi : destinationIndex (m.filter fun b => !bs.contains b) (some y) with
  | error e => simp only [hi, bind, Except.bind] at h; cases h
  | ok i =>
    have hmem := mem_of_destinationIndex hi
    rw [List.mem_filter] at hmem
    exact ⟨(mem_row_iff hs.nodup).mp ⟨m, by rw [← hs.children, hm], hmem.1⟩, by
      simpa using hmem.2⟩

/-! ## The single moves -/

variable {T ε : Type} {ops : TreeOps T β ε}

def TreeOps.moveNext (ops : TreeOps T β ε) (block : β) (parent anchor : Option β) (t : T) :
    Except ε T :=
  match anchor with
  | some previous => ops.movAfter t block previous
  | none => ops.movTo t block parent 0

/-- The loop of `move_blocks`: `anchor` is the block moved last. -/
def TreeOps.moveBlocks (ops : TreeOps T β ε) :
    List β → Option β → Option β → T → Except ε T
  | [], _, _, t => .ok t
  | block :: rest, parent, anchor, t => do
    let t ← ops.moveNext block parent anchor t
    ops.moveBlocks rest parent (some block) t

theorem TreeOps.Lawful.moveBlocks (hl : ops.Lawful) {bs : List β} {p x : Option β} {t : T}
    (h : Landing bs p x (ops.live t)) (ha : Apart bs (ops.live t))
    (hn : (ops.live t).labels.Nodup) :
    ∃ t', ops.moveBlocks bs p x t = .ok t' ∧ ops.live t' = moveRun bs p x (ops.live t) := by
  induction bs generalizing x t with
  | nil => exact ⟨t, rfl, rfl⟩
  | cons b bs ih =>
    have hb := ha.mem b (List.mem_cons_self ..)
    have hfirst : ∃ t₁, ops.moveNext b p x t = .ok t₁ ∧
        ops.live t₁ = Forest.moveNext b p x (ops.live t) := by
      cases x with
      | none => exact hl.movTo_first t b p hn (h.movable hb)
      | some y => exact hl.movAfter_next t b y hn (h.followable hb)
    obtain ⟨t₁, he, hlive⟩ := hfirst
    obtain ⟨ha', h'⟩ := h.step ha hn
    have hp := h.labels_perm hb hn
    rw [← hlive] at ha' h' hp
    obtain ⟨t₂, he₂, hlive₂⟩ := ih h' ha' (hp.nodup_iff.mpr hn)
    refine ⟨t₂, ?_, by rw [hlive₂, hlive, moveRun]⟩
    rw [TreeOps.moveBlocks, he]
    exact he₂

/-- Moving a request: it succeeds exactly when the request is acceptable and its
roots have a destination, and then the single moves give the group move. -/
theorem move_blocks_correct (hl : ops.Lawful) (t : T) (hn : (ops.live t).labels.Nodup)
    (requested : List β) (parent after : Option β) :
    ((∃ r, planMoveBlocks (fromTree (ops.live t)) requested parent after = .ok r) ↔
      Acceptable requested (ops.live t) ∧
        Destination (topmost requested (ops.live t)) parent after (ops.live t)) ∧
    ∀ plan s', planMoveBlocks (fromTree (ops.live t)) requested parent after = .ok (plan, s') →
      plan.outline.roots = topmost requested (ops.live t) ∧
      ∃ g, g = moveGroup plan.outline.roots plan.parent plan.after (ops.live t) ∧
        Represents s' g ∧
        (∀ q, row q g = (row q (ops.live t)).map fun l =>
          let stationary := l.filter fun b => !plan.outline.roots.contains b
          if q = parent then splice after plan.outline.roots stationary else stationary) ∧
        (∀ b ∈ plan.outline.roots, under b g = under b (ops.live t)) ∧
        ∃ t', ops.moveBlocks plan.outline.roots plan.parent plan.after t = .ok t' ∧
          ops.live t' = g := by
  have ha : Apart (topmost requested (ops.live t)) (ops.live t) := apart_topmost hn
  have hs := represents_fromTree hn
  have hok : ∀ r, planMoveBlocks (fromTree (ops.live t)) requested parent after = .ok r →
      Acceptable requested (ops.live t) ∧
        Destination (topmost requested (ops.live t)) parent after (ops.live t) := by
    intro r h
    cases hr : (fromTree (ops.live t)).roots requested with
    | error e => simp only [planMoveBlocks, hr, bind, Except.bind] at h; cases h
    | ok rs =>
      obtain ⟨hacc, rfl⟩ := (roots_ok_iff hn).mp hr
      cases hm : (fromTree (ops.live t)).moveGroup (topmost requested (ops.live t)) parent after with
      | error e => simp only [planMoveBlocks, hr, hm, bind, Except.bind] at h; cases h
      | ok s' => exact ⟨hacc, hs.destination_of_moveGroup hm⟩
  have heq : ∀ {s'}, Acceptable requested (ops.live t) →
      (fromTree (ops.live t)).moveGroup (topmost requested (ops.live t)) parent after = .ok s' →
      planMoveBlocks (fromTree (ops.live t)) requested parent after =
        .ok (⟨⟨fromTree (ops.live t), topmost requested (ops.live t)⟩, parent, after⟩, s') := by
    intro s' hacc hm
    simp only [planMoveBlocks, roots_fromTree hn hacc, hm, bind, Except.bind]
    rfl
  refine ⟨⟨fun ⟨r, h⟩ => hok r h, fun ⟨hacc, hd⟩ => ?_⟩, fun plan s' h => ?_⟩
  · obtain ⟨s', hm, _⟩ := hs.moveGroup ha hd
    exact ⟨_, heq hacc hm⟩
  · obtain ⟨hacc, hd⟩ := hok _ h
    obtain ⟨s₁, hm, hs₁⟩ := hs.moveGroup ha hd
    obtain ⟨rfl, rfl⟩ := Prod.mk.inj (Except.ok.inj ((heq hacc hm).symm.trans h))
    have hland := hd.landing hn
    have hx : ∀ y, after = some y → (ops.live t).parentIn none y = some parent :=
      fun y hy => (hd.anchor y hy).1
    obtain ⟨t', ht, hlive⟩ := hl.moveBlocks hland ha hn
    exact ⟨rfl, _, rfl, hs₁, fun q => row_moveGroup hland ha hn hx,
      fun b hb => under_moveGroup hland ha hn hx hb, t', ht, hlive.trans (moveRun_eq hland ha hn)⟩

theorem move_blocks_sample :
    ∃ plan s', planMoveBlocks (fromTree sample) [5, 4, 2] (some 1) (some 3) = .ok (plan, s') ∧
      Represents s' (node 1 (node 3 nil (node 2 nil (node 4 nil (node 5 nil nil)))) nil) ∧
      forestOps.moveBlocks plan.outline.roots plan.parent plan.after sample =
        .ok (node 1 (node 3 nil (node 2 nil (node 4 nil (node 5 nil nil)))) nil) := by
  obtain ⟨_, g, _, hs, _, _, t', ht, he⟩ :=
    (move_blocks_correct forestOps_lawful sample (by decide) [5, 4, 2] (some 1) (some 3)).2 _ _ rfl
  obtain rfl : t' = g := he
  obtain rfl : node 1 (node 3 nil (node 2 nil (node 4 nil (node 5 nil nil)))) nil = t' :=
    Except.ok.inj ht
  exact ⟨_, _, rfl, hs, ht⟩

/-- An empty request is refused whatever its destination. -/
theorem move_blocks_empty :
    ¬((∃ r, planMoveBlocks (fromTree sample) [] (some 1) (some 3) = .ok r) ↔
      (∀ b ∈ ([] : List Nat), b ∈ sample.labels) ∧
        Destination (topmost [] sample) (some 1) (some 3) sample) := by
  intro h
  have hd : Destination (topmost [] sample) (some 1) (some 3) sample := by
    refine ⟨fun q hq => ?_, fun y hy => ?_⟩
    · obtain rfl := Option.some.inj hq
      exact ⟨by decide, by decide⟩
    · obtain rfl := Option.some.inj hy
      exact ⟨by decide, by decide⟩
  obtain ⟨r, hr⟩ := h.mpr ⟨by simp, hd⟩
  cases hr

end Neoseq.Outline
