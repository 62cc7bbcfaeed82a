import Neoseq.Content.Inline
import Neoseq.Domain.Snapshot
import Neoseq.Forest.Objects

/-! Blocks that a re-read brings again. Objects and arrays are told apart by their references, as
`===` does; what is built gets a reference that nothing had before. -/

namespace Neoseq.Snapshot

open Domain (BlockId PropertyBag TagId)
open Content (InlineContent PageReferenceSpan)

/-- What a block says besides its children. -/
structure BlockValue where
  content : List InlineContent
  markdown : String
  pageReferences : List PageReferenceSpan
  properties : PropertyBag
  tags : List TagId
  deriving DecidableEq

/-- A block object; its children stand under it in a forest. -/
structure BlockObject where
  ref : Nat
  id : BlockId
  value : BlockValue
  /-- The array of the children. -/
  array : Nat
  deriving DecidableEq

/-- An array of blocks. -/
structure Blocks where
  ref : Nat
  items : Forest BlockObject
  deriving DecidableEq

/-- The array of a block's children. -/
def childrenOf (block : BlockObject × Forest BlockObject) : Blocks := ⟨block.1.array, block.2⟩

/-- Blocks as values: two forests are deeply equal if this is the same of both. -/
def values (f : Forest BlockObject) : Forest (BlockId × BlockValue) :=
  f.map fun block => (block.id, block.value)

def valueOf (block : BlockObject × Forest BlockObject) :
    (BlockId × BlockValue) × Forest (BlockId × BlockValue) :=
  ((block.1.id, block.1.value), values block.2)

/-! ## Sharing -/

/-- The `before` of a forest; a later block of an id replaces an earlier one. -/
def remember (previous : Forest BlockObject) (id : BlockId) :
    Option (BlockObject × Forest BlockObject) :=
  previous.objects.reverse.find? fun block => block.1.id = id

/-- `unchanged` at the end of the loop over the blocks of an array. -/
def unchanged (prior : Blocks) (kept : Forest BlockObject) : Bool :=
  prior.items.roots.map BlockObject.ref = kept.roots.map BlockObject.ref

/-- The array that `share` returns for the blocks it kept, with the next reference. -/
def sharedArray (prior : Option Blocks) (kept : Forest BlockObject) (next : Nat) : Blocks × Nat :=
  match prior.filter fun p => unchanged p kept with
  | some prior => (prior, next)
  | none => (⟨next, kept⟩, next + 1)

/-- The object that is kept for a block once its children have been shared. -/
def keptBlock (old : Option (BlockObject × Forest BlockObject)) (block : BlockObject)
    (kids : Forest BlockObject) (children : Blocks) (next : Nat) :
    (BlockObject × Forest BlockObject) × Nat :=
  match old.filter fun old => children.ref = old.1.array && old.1.value = block.value with
  | some old => (old, next)
  | none =>
    if children.ref = block.array then ((block, kids), next)
    else (({ block with ref := next, array := children.ref }, children.items), next + 1)

/-- The loop of `share` over the blocks of an array. -/
def shareItems (before : BlockId → Option (BlockObject × Forest BlockObject)) :
    Forest BlockObject → (next : Nat) → Forest BlockObject × Nat
  | .nil, next => (.nil, next)
  | .node block kids rest, next =>
    let old := before block.id
    let (keptKids, next) := shareItems before kids next
    let (children, next) := sharedArray (old.map childrenOf) keptKids next
    let (kept, next) := keptBlock old block kids children next
    let (keptRest, next) := shareItems before rest next
    (.node kept.1 kept.2 keptRest, next)

/-- Keeps every previous block whose value a re-read did not change. -/
def shareBlocks (previous reread : Blocks) (next : Nat) : Blocks × Nat :=
  if previous.items = .nil then (reread, next)
  else
    let (kept, next) := shareItems (remember previous.items) reread.items next
    sharedArray (some previous) kept next

/-! ## References -/

/-- The objects and arrays of two forests, of which those with the same reference are the same,
and which have references below the next one. -/
structure Heap (previous reread : Blocks) (next : Nat) : Prop where
  blocks : ∀ a ∈ previous.items.objects ++ reread.items.objects,
    ∀ b ∈ previous.items.objects ++ reread.items.objects, a.1.ref = b.1.ref → a = b
  arrays : ∀ a ∈ previous.items.objects ++ reread.items.objects,
    ∀ b ∈ previous.items.objects ++ reread.items.objects, a.1.array = b.1.array → a.2 = b.2
  fresh : ∀ a ∈ previous.items.objects ++ reread.items.objects,
    a.1.ref < next ∧ a.1.array < next

variable {previous reread : Blocks} {next₀ : Nat}

/-- Objects of the two forests, and new ones. -/
def Known (previous reread : Blocks) (next₀ : Nat) (a : BlockObject × Forest BlockObject) : Prop :=
  a ∈ previous.items.objects ++ reread.items.objects ∨ next₀ ≤ a.1.ref

theorem Heap.eq_of_ref (h : Heap previous reread next₀) {a b : BlockObject × Forest BlockObject}
    (ha : a ∈ previous.items.objects) (hb : Known previous reread next₀ b)
    (heq : a.1.ref = b.1.ref) : a = b := by
  have ha' := List.mem_append_left reread.items.objects ha
  rcases hb with hb | hb
  · exact h.blocks a ha' b hb heq
  · have hlt := (h.fresh a ha').1
    omega

theorem eq_of_map_eq {α β : Type} {φ : α → β} {l l' : List α}
    (h : ∀ a ∈ l, ∀ b ∈ l', φ a = φ b → a = b) (heq : l.map φ = l'.map φ) : l = l' := by
  induction l generalizing l' with
  | nil =>
    cases l' with
    | nil => rfl
    | cons => cases heq
  | cons a l ih =>
    cases l' with
    | nil => cases heq
    | cons b l' =>
      obtain ⟨hhead, htail⟩ := List.cons.inj heq
      rw [h a List.mem_cons_self b List.mem_cons_self hhead, ih (fun a ha b hb =>
        h a (List.mem_cons_of_mem _ ha) b (List.mem_cons_of_mem _ hb)) htail]

/-- An array is unchanged if it has the kept blocks, as objects. -/
theorem Heap.unchanged_iff (h : Heap previous reread next₀) {prior : Blocks}
    {kept : Forest BlockObject} (hprior : ∀ t ∈ prior.items.rowTrees, t ∈ previous.items.objects)
    (hkept : ∀ t ∈ kept.rowTrees, Known previous reread next₀ t) :
    unchanged prior kept = true ↔ prior.items = kept := by
  unfold unchanged
  rw [decide_eq_true_iff, Forest.roots_eq_map_rowTrees, Forest.roots_eq_map_rowTrees, List.map_map,
    List.map_map]
  constructor
  · intro heq
    refine Forest.rowTrees_injective (eq_of_map_eq ?_ heq)
    exact fun a ha b hb href => h.eq_of_ref (hprior a ha) (hkept b hb) href
  · intro heq
    rw [heq]

/-- What is returned for the kept blocks has them, and is the array that was there before exactly
if that has them. -/
theorem Heap.sharedArray (h : Heap previous reread next₀) {prior : Option Blocks}
    {kept : Forest BlockObject}
    (hprior : ∀ p, prior = some p → ∀ t ∈ p.items.rowTrees, t ∈ previous.items.objects)
    (hkept : ∀ t ∈ kept.rowTrees, Known previous reread next₀ t) (next : Nat) :
    (Snapshot.sharedArray prior kept next).1.items = kept ∧
      next ≤ (Snapshot.sharedArray prior kept next).2 ∧
      (prior = some (Snapshot.sharedArray prior kept next).1 ∨
        (Snapshot.sharedArray prior kept next).1.ref = next) ∧
      ∀ p, prior = some p → p.items = kept → Snapshot.sharedArray prior kept next = (p, next) := by
  unfold Snapshot.sharedArray
  split
  · next p hp =>
    obtain ⟨rfl, hunchanged⟩ := Option.filter_eq_some_iff.mp hp
    have hitems := (h.unchanged_iff (hprior p rfl) hkept).mp hunchanged
    refine ⟨hitems, le_rfl, .inl rfl, fun p' hp' _ => ?_⟩
    rw [Option.some.inj hp']
  · next hnone =>
    refine ⟨rfl, Nat.le_succ next, .inr rfl, ?_⟩
    rintro p rfl hitems
    have hunchanged := (h.unchanged_iff (hprior p rfl) hkept).mpr hitems
    rw [Option.filter_some, if_pos hunchanged] at hnone
    cases hnone

/-- The kept block says what the block says, has the kept children, and is the old object if
that does too. -/
theorem Heap.keptBlock (h : Heap previous reread next₀)
    {old : Option (BlockObject × Forest BlockObject)} {block : BlockObject}
    {kids keptKids : Forest BlockObject} {next : Nat}
    (hold : ∀ o, old = some o → o ∈ previous.items.objects ∧ o.1.id = block.id)
    (hblock : (block, kids) ∈ reread.items.objects) (hnext : next₀ ≤ next)
    (hkept : ∀ t ∈ keptKids.rowTrees, Known previous reread next₀ t) :
    let children := Snapshot.sharedArray (old.map childrenOf) keptKids next
    let kept := Snapshot.keptBlock old block kids children.1 children.2
    kept.1.2 = keptKids ∧ kept.1.1.id = block.id ∧ kept.1.1.value = block.value ∧
      Known previous reread next₀ kept.1 ∧ next ≤ kept.2 ∧
      ∀ o, old = some o → o.2 = keptKids → o.1.value = block.value → kept.1 = o := by
  intro children kept
  have hprior : ∀ p, old.map childrenOf = some p →
      ∀ t ∈ p.items.rowTrees, t ∈ previous.items.objects := by
    intro p hp t ht
    obtain ⟨o, ho, rfl⟩ := Option.map_eq_some_iff.mp hp
    exact Forest.mem_objects_trans (hold o ho).1 (Forest.mem_objects_of_mem_rowTrees ht)
  obtain ⟨hitems, hle, hcase, hsame⟩ := h.sharedArray hprior hkept next
  have hblock' := List.mem_append_right previous.items.objects hblock
  -- an array that was there before is that of the old object, or of no object
  have harray {a} (ha : a ∈ previous.items.objects ++ reread.items.objects)
      (heq : children.1.ref = a.1.array) : a.2 = keptKids := by
    rcases hcase with hp | hfresh
    · obtain ⟨o, ho, hp⟩ := Option.map_eq_some_iff.mp hp
      rw [← hitems, ← hp]
      refine (h.arrays o (List.mem_append_left _ (hold o ho).1) a ha ?_).symm
      exact (congrArg Blocks.ref hp).trans heq
    · have hlt := (h.fresh a ha).2
      have heq' : children.1.ref = next := hfresh
      omega
  have hkeeps : ∀ o, old = some o → o.2 = keptKids → o.1.value = block.value → kept.1 = o := by
    rintro o rfl hkids hvalue
    have hchildren : children = (childrenOf o, next) := hsame _ rfl hkids
    have href : children.1.ref = o.1.array := by rw [hchildren]; rfl
    show (Snapshot.keptBlock _ _ _ _ _).1 = o
    unfold Snapshot.keptBlock
    rw [Option.filter_some, if_pos (by simp [href, hvalue])]
  have hrest : kept.1.2 = keptKids ∧ kept.1.1.id = block.id ∧ kept.1.1.value = block.value ∧
      Known previous reread next₀ kept.1 ∧ children.2 ≤ kept.2 := by
    dsimp only [kept]
    unfold Snapshot.keptBlock
    split
    · next o ho =>
      obtain ⟨rfl, hcond⟩ := Option.filter_eq_some_iff.mp ho
      simp only [Bool.and_eq_true, decide_eq_true_eq] at hcond
      have ho' := List.mem_append_left reread.items.objects (hold o rfl).1
      exact ⟨harray ho' hcond.1, (hold o rfl).2, hcond.2, .inl ho', le_rfl⟩
    · split
      · next heq => exact ⟨harray hblock' heq, rfl, rfl, .inl hblock', le_rfl⟩
      · exact ⟨hitems, rfl, rfl, .inr (hnext.trans hle), Nat.le_succ _⟩
  obtain ⟨hkids, hid, hvalue, hknown, hle'⟩ := hrest
  exact ⟨hkids, hid, hvalue, hknown, hle.trans hle', hkeeps⟩

/-! ## What is remembered -/

theorem mem_of_remember {f : Forest BlockObject} {id : BlockId}
    {o : BlockObject × Forest BlockObject} (h : remember f id = some o) :
    o ∈ f.objects ∧ o.1.id = id :=
  ⟨List.mem_reverse.mp (List.mem_of_find?_eq_some h), by simpa using List.find?_some h⟩

theorem remember_of_mem {f : Forest BlockObject} (hn : (f.labels.map BlockObject.id).Nodup)
    {o : BlockObject × Forest BlockObject} (h : o ∈ f.objects) :
    remember f o.1.id = some o := by
  rw [Forest.labels_eq_map_objects, List.map_map] at hn
  cases hfound : remember f o.1.id with
  | none => simpa using List.find?_eq_none.mp hfound o (List.mem_reverse.mpr h)
  | some o' =>
    obtain ⟨hmem, hid⟩ := mem_of_remember hfound
    exact congrArg some (List.inj_on_of_nodup_map hn hmem h hid)

/-! ## What is shared -/

section
variable (h : Heap previous reread next₀)
include h

/-- One round of `share`: the kept block says what the block says. -/
theorem Heap.shareItems_node {block : BlockObject} {kids : Forest BlockObject}
    (rest : Forest BlockObject) {next : Nat} (hmem : (block, kids) ∈ reread.items.objects) (hnext : next₀ ≤ next)
    (hkids : ∀ t ∈ (shareItems (remember previous.items) kids next).1.rowTrees,
      Known previous reread next₀ t)
    (hle : next ≤ (shareItems (remember previous.items) kids next).2) :
    ∃ kept next', next ≤ next' ∧
      shareItems (remember previous.items) (.node block kids rest) next =
        (.node kept (shareItems (remember previous.items) kids next).1
          (shareItems (remember previous.items) rest next').1,
          (shareItems (remember previous.items) rest next').2) ∧
      kept.id = block.id ∧ kept.value = block.value ∧
      Known previous reread next₀ (kept, (shareItems (remember previous.items) kids next).1) ∧
      ∀ o, remember previous.items block.id = some o →
        o.2 = (shareItems (remember previous.items) kids next).1 →
        o.1.value = block.value → kept = o.1 := by
  obtain ⟨hitems, hid, hvalue, hknown, hle', hsame⟩ :=
    h.keptBlock (fun o ho => mem_of_remember ho) hmem (hnext.trans hle) hkids
  have heta {kept : BlockObject × Forest BlockObject} {items : Forest BlockObject}
      (heq : kept.2 = items) (hkept : Known previous reread next₀ kept) :
      Known previous reread next₀ (kept.1, items) := by
    rw [← heq]
    exact hkept
  refine ⟨_, _, hle.trans hle', ?_, hid, hvalue, heta hitems hknown, fun o ho hkept hval =>
    congrArg Prod.fst (hsame o ho hkept hval)⟩
  rw [shareItems]
  dsimp only
  rw [hitems]

/-- The kept blocks are objects of the two forests or new. -/
theorem Heap.known_shareItems {f : Forest BlockObject} {next : Nat}
    (hmem : ∀ t ∈ f.objects, t ∈ reread.items.objects) (hnext : next₀ ≤ next) :
    next ≤ (shareItems (remember previous.items) f next).2 ∧
      ∀ t ∈ (shareItems (remember previous.items) f next).1.rowTrees,
        Known previous reread next₀ t := by
  induction f generalizing next with
  | nil => exact ⟨le_rfl, nofun⟩
  | node block kids rest ihk ihr =>
    obtain ⟨hle, hkids⟩ := ihk (fun t ht => hmem t (by simp [ht])) hnext
    obtain ⟨kept, next', hle', heq, -, -, hknown, -⟩ :=
      h.shareItems_node rest (hmem _ List.mem_cons_self) hnext hkids hle
    obtain ⟨hle'', hrest⟩ := ihr (fun t ht => hmem t (by simp [ht])) (hnext.trans hle')
    rw [heq]
    exact ⟨hle'.trans hle'', List.forall_mem_cons.mpr ⟨hknown, hrest⟩⟩

/-- One round of `share`, for blocks of the re-read forest. -/
theorem Heap.shareItems_cons {block : BlockObject} {kids rest : Forest BlockObject} {next : Nat}
    (hmem : ∀ t ∈ (Forest.node block kids rest).objects, t ∈ reread.items.objects)
    (hnext : next₀ ≤ next) :
    ∃ kept next', next₀ ≤ next' ∧
      shareItems (remember previous.items) (.node block kids rest) next =
        (.node kept (shareItems (remember previous.items) kids next).1
          (shareItems (remember previous.items) rest next').1,
          (shareItems (remember previous.items) rest next').2) ∧
      kept.id = block.id ∧ kept.value = block.value ∧
      ∀ o, remember previous.items block.id = some o →
        o.2 = (shareItems (remember previous.items) kids next).1 →
        o.1.value = block.value → kept = o.1 := by
  obtain ⟨hle, hkids⟩ := h.known_shareItems (f := kids) (fun t ht => hmem t (by simp [ht])) hnext
  obtain ⟨kept, next', hle', heq, hid, hvalue, -, hsame⟩ :=
    h.shareItems_node rest (hmem _ List.mem_cons_self) hnext hkids hle
  exact ⟨kept, next', hnext.trans hle', heq, hid, hvalue, hsame⟩

/-- What is kept says what was read. -/
theorem Heap.values_shareItems {f : Forest BlockObject} {next : Nat}
    (hmem : ∀ t ∈ f.objects, t ∈ reread.items.objects) (hnext : next₀ ≤ next) :
    values (shareItems (remember previous.items) f next).1 = values f := by
  induction f generalizing next with
  | nil => rfl
  | node block kids rest ihk ihr =>
    obtain ⟨kept, next', hnext', heq, hid, hvalue, -⟩ := h.shareItems_cons hmem hnext
    have hkids := ihk (fun t ht => hmem t (by simp [ht])) hnext
    have hrest := ihr (fun t ht => hmem t (by simp [ht])) hnext'
    rw [heq]
    unfold values at hkids hrest ⊢
    rw [Forest.map_node, Forest.map_node, hkids, hrest, hid, hvalue]

/-- Blocks that say what blocks said before are those blocks. -/
theorem Heap.shareItems_of_values_eq (hn : (previous.items.labels.map BlockObject.id).Nodup)
    {f g : Forest BlockObject} {next : Nat} (hmem : ∀ t ∈ f.objects, t ∈ reread.items.objects)
    (hnext : next₀ ≤ next) (hg : ∀ t ∈ g.objects, t ∈ previous.items.objects)
    (heq : values f = values g) : (shareItems (remember previous.items) f next).1 = g := by
  induction f generalizing g next with
  | nil =>
    cases g with
    | nil => rfl
    | node => cases heq
  | node block kids rest ihk ihr =>
    cases g with
    | nil => cases heq
    | node block' kids' rest' =>
      obtain ⟨hlabel, hkids, hrest⟩ := Forest.node.inj heq
      obtain ⟨hid, hvalue⟩ := Prod.mk.inj hlabel
      obtain ⟨kept, next', hnext', hshare, -, -, hsame⟩ := h.shareItems_cons hmem hnext
      have hold : remember previous.items block.id = some (block', kids') := by
        rw [hid]
        exact remember_of_mem hn (hg _ List.mem_cons_self)
      have hkids' := ihk (fun t ht => hmem t (by simp [ht])) hnext
        (fun t ht => hg t (by simp [ht])) hkids
      have hrest' := ihr (fun t ht => hmem t (by simp [ht])) hnext'
        (fun t ht => hg t (by simp [ht])) hrest
      rw [hshare, hkids', hrest', hsame _ hold hkids'.symm hvalue.symm]

/-- An object that a block says again is among those that are kept. -/
theorem Heap.mem_shareItems (hn : (previous.items.labels.map BlockObject.id).Nodup)
    {f : Forest BlockObject} {next : Nat} (hmem : ∀ t ∈ f.objects, t ∈ reread.items.objects)
    (hnext : next₀ ≤ next) {old t : BlockObject × Forest BlockObject}
    (hold : old ∈ previous.items.objects) (ht : t ∈ f.objects) (heq : valueOf t = valueOf old) :
    old ∈ (shareItems (remember previous.items) f next).1.objects := by
  induction f generalizing next with
  | nil => cases ht
  | node block kids rest ihk ihr =>
    obtain ⟨kept, next', hnext', hshare, -, -, hsame⟩ := h.shareItems_cons hmem hnext
    rw [hshare, Forest.objects_node]
    rcases List.mem_cons.mp ht with rfl | ht
    · obtain ⟨hlabel, hkids⟩ := Prod.mk.inj heq
      obtain ⟨hid, hvalue⟩ := Prod.mk.inj hlabel
      have hkids' := h.shareItems_of_values_eq hn (fun t ht => hmem t (by simp [ht])) hnext
        (fun t ht => Forest.mem_objects_trans hold ht) hkids
      have hremembered := remember_of_mem hn hold
      rw [← hid] at hremembered
      rw [hkids', hsame old hremembered hkids'.symm hvalue.symm]
      exact List.mem_cons_self
    · refine List.mem_cons_of_mem _ (List.mem_append.mpr ?_)
      rcases List.mem_append.mp ht with ht | ht
      · exact .inl (ihk (fun t ht => hmem t (by simp [ht])) hnext ht)
      · exact .inr (ihr (fun t ht => hmem t (by simp [ht])) hnext' ht)

end

/-! ## Sharing is invisible -/

/-- The shared blocks say what was read, are the array that was there if that said it, and have
every object that is said again. -/
def SharesInvisibly (previous reread : Blocks) (next : Nat) : Prop :=
  let shared := (shareBlocks previous reread next).1
  values shared.items = values reread.items ∧
    (values reread.items = values previous.items → shared = previous) ∧
    ∀ old ∈ previous.items.objects,
      (∃ t ∈ reread.items.objects, valueOf t = valueOf old) → old ∈ shared.items.objects

theorem sharesInvisibly_iff_of_heap (h : Heap previous reread next₀)
    (hn : (previous.items.labels.map BlockObject.id).Nodup) :
    SharesInvisibly previous reread next₀ ↔
      ¬(previous.items = .nil ∧ reread.items = .nil ∧ reread.ref ≠ previous.ref) := by
  unfold SharesInvisibly shareBlocks
  by_cases hempty : previous.items = .nil
  · rw [if_pos hempty]
    dsimp only
    constructor
    · rintro ⟨-, hsame, -⟩ ⟨-, hnil, hne⟩
      exact hne (congrArg Blocks.ref (hsame (by rw [hnil, hempty])))
    · intro hcond
      refine ⟨rfl, fun hvalues => ?_, fun old hold => ?_⟩
      · rw [hempty] at hvalues
        have hnil : reread.items = .nil := by
          cases hitems : reread.items with
          | nil => rfl
          | node => rw [hitems] at hvalues; cases hvalues
        have href : reread.ref = previous.ref := by
          by_contra hne
          exact hcond ⟨hempty, hnil, hne⟩
        cases previous
        cases reread
        dsimp only at hempty hnil href
        rw [hempty, hnil, href]
      · rw [hempty] at hold
        cases hold
  · rw [if_neg hempty]
    dsimp only
    obtain ⟨-, hknown⟩ := h.known_shareItems (fun t ht => ht) le_rfl
    obtain ⟨hitems, -, -, hsame⟩ := h.sharedArray
      (fun p (hp : some previous = some p) t ht =>
        Forest.mem_objects_of_mem_rowTrees (Option.some.inj hp ▸ ht)) hknown
      (shareItems (remember previous.items) reread.items next₀).2
    rw [hitems]
    refine iff_of_true ⟨h.values_shareItems (fun t ht => ht) le_rfl, fun hvalues => ?_,
      fun old hold ⟨t, ht, heq⟩ => h.mem_shareItems hn (fun t ht => ht) le_rfl hold ht heq⟩
      fun hcond => hempty hcond.1
    have hkept := h.shareItems_of_values_eq hn (fun t ht => ht) le_rfl (fun t ht => ht) hvalues
    rw [hsame previous rfl hkept.symm]

end Neoseq.Snapshot
