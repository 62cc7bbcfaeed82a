import Neoseq.Snapshot.Sharing

/-! Blocks whose content the core has sent. They are put in where their owner is read, and what
has none of them stays the object that it was. -/

namespace Neoseq.Snapshot

open Domain (BlockId OutlineOwner PropertyBag maxIdLen validate)
open Content (InlineContent PageReferenceSpan)

structure BlockContentUpdate where
  owner : OutlineOwner
  blockId : BlockId
  content : List InlineContent
  markdown : String
  pageReferences : List PageReferenceSpan
  properties : PropertyBag

/-- `outlineOwnerKey`, which does not tell pages and tags apart. -/
def outlineOwnerKey : OutlineOwner → String
  | .page id => "document:" ++ id.asStr
  | .tag id => "document:" ++ id.asStr

/-- A page or a tag of a snapshot, with its outline. -/
structure OutlineItem (Header : Type) where
  ref : Nat
  owner : OutlineOwner
  header : Header
  blocks : Blocks

structure Items (Header : Type) where
  ref : Nat
  items : List (OutlineItem Header)

structure GraphSnapshot (PageHeader TagHeader Rest : Type) where
  ref : Nat
  pages : Items PageHeader
  tags : Items TagHeader
  rest : Rest

/-! ## Installing updates -/

/-- The map of an owner in `byOwner`; a later update of a block replaces an earlier one. -/
def updatesOf (updates : List BlockContentUpdate) (owner : OutlineOwner) :
    Option (BlockId → Option BlockContentUpdate) :=
  match updates.filter fun update => outlineOwnerKey update.owner = outlineOwnerKey owner with
  | [] => none
  | owned => some fun id => owned.reverse.find? fun update => update.blockId = id

/-- What a block says with an update installed. -/
def installed (update : Option BlockContentUpdate) (value : BlockValue) : BlockValue :=
  match update with
  | none => value
  | some update =>
    { value with
      content := update.content
      markdown := update.markdown
      pageReferences := update.pageReferences
      properties := update.properties }

/-- `visit` for an array whose blocks have been visited. -/
def visitedArray (blocks : Blocks) (visited : Forest BlockObject) (changed : Bool) (next : Nat) :
    Blocks × Nat :=
  if changed then (⟨next, visited⟩, next + 1) else (blocks, next)

/-- The loop of `visit` over the blocks of an array: what it leaves, whether that is something
else, and the next reference. -/
def visitItems (updates : BlockId → Option BlockContentUpdate) :
    Forest BlockObject → (next : Nat) → Forest BlockObject × Bool × Nat
  | .nil, next => (.nil, false, next)
  | .node block kids rest, next =>
    let (visitedKids, kidsChanged, next) := visitItems updates kids next
    let (children, next) := visitedArray ⟨block.array, kids⟩ visitedKids kidsChanged next
    if updates block.id = none ∧ children.ref = block.array then
      let (visitedRest, changed, next) := visitItems updates rest next
      (.node block kids visitedRest, changed, next)
    else
      let (visitedRest, _, next') := visitItems updates rest (next + 1)
      (.node
        { ref := next
          id := block.id
          value := installed (updates block.id) block.value
          array := children.ref } children.items visitedRest, true, next')

def visit (updates : BlockId → Option BlockContentUpdate) (blocks : Blocks) (next : Nat) :
    Blocks × Nat :=
  let (visited, changed, next) := visitItems updates blocks.items next
  visitedArray blocks visited changed next

/-- The loop of `owners` over the pages or the tags. -/
def visitOwners {Header : Type} (updates : List BlockContentUpdate) :
    List (OutlineItem Header) → (next : Nat) → List (OutlineItem Header) × Bool × Nat
  | [], next => ([], false, next)
  | item :: items, next =>
    match updatesOf updates item.owner with
    | none =>
      let (rest, changed, next) := visitOwners updates items next
      (item :: rest, changed, next)
    | some owned =>
      let (blocks, next) := visit owned item.blocks next
      if blocks.ref = item.blocks.ref then
        let (rest, changed, next) := visitOwners updates items next
        (item :: rest, changed, next)
      else
        let (rest, _, next') := visitOwners updates items (next + 1)
        ({ item with ref := next, blocks := blocks } :: rest, true, next')

def owners {Header : Type} (updates : List BlockContentUpdate) (items : Items Header)
    (next : Nat) : Items Header × Nat :=
  let (visited, changed, next) := visitOwners updates items.items next
  if changed then (⟨next, visited⟩, next + 1) else (items, next)

/-- Installs authoritative values. Unhydrated owners remain demand reads. -/
def applyContentUpdates {PageHeader TagHeader Rest : Type}
    (snapshot : GraphSnapshot PageHeader TagHeader Rest) (updates : List BlockContentUpdate)
    (next : Nat) : GraphSnapshot PageHeader TagHeader Rest × Nat :=
  let (pages, next) := owners updates snapshot.pages next
  let (tags, next) := owners updates snapshot.tags next
  if pages.ref = snapshot.pages.ref ∧ tags.ref = snapshot.tags.ref then (snapshot, next)
  else ({ snapshot with ref := next, pages := pages, tags := tags }, next + 1)

/-! ## Blocks -/

/-- No block of a forest is listed. -/
def Unlisted (updates : BlockId → Option BlockContentUpdate) (f : Forest BlockObject) : Prop :=
  ∀ block ∈ f.labels, updates block.id = none

/-- The listed blocks say what was sent, the others what they said. -/
def patched (updates : BlockId → Option BlockContentUpdate) (f : Forest BlockObject) :
    Forest (BlockId × BlockValue) :=
  f.map fun block => (block.id, installed (updates block.id) block.value)

theorem unlisted_node {updates : BlockId → Option BlockContentUpdate} {block : BlockObject}
    {kids rest : Forest BlockObject} :
    Unlisted updates (.node block kids rest) ↔
      updates block.id = none ∧ Unlisted updates kids ∧ Unlisted updates rest := by
  unfold Unlisted
  rw [Forest.labels_node, List.forall_mem_cons, List.forall_mem_append]

/-- What a visit of the blocks of an array comes to. -/
structure Visited (updates : BlockId → Option BlockContentUpdate) (f : Forest BlockObject)
    (next : Nat) (result : Forest BlockObject × Bool × Nat) : Prop where
  le : next ≤ result.2.2
  values : values result.1 = patched updates f
  changed : result.2.1 = false ↔ Unlisted updates f
  same : Unlisted updates f → result.1 = f
  /-- Whatever has no listed block is there as it was. -/
  kept : ∀ t ∈ f.objects, updates t.1.id = none → Unlisted updates t.2 → t ∈ result.1.objects
  /-- What is there otherwise is new. -/
  new : ∀ t ∈ result.1.objects, (updates t.1.id = none ∧ Unlisted updates t.2) ∨ next ≤ t.1.ref

/-- A visited array has the visited blocks, and is another one exactly if a block is listed. -/
theorem Visited.array {updates : BlockId → Option BlockContentUpdate} {blocks : Blocks}
    {next : Nat} {result : Forest BlockObject × Bool × Nat}
    (h : Visited updates blocks.items next result) (hfresh : blocks.ref < next) :
    (visitedArray blocks result.1 result.2.1 result.2.2).1.items = result.1 ∧
      result.2.2 ≤ (visitedArray blocks result.1 result.2.1 result.2.2).2 ∧
      ((visitedArray blocks result.1 result.2.1 result.2.2).1.ref = blocks.ref ↔
        Unlisted updates blocks.items) ∧
      (Unlisted updates blocks.items →
        (visitedArray blocks result.1 result.2.1 result.2.2).1 = blocks) := by
  have hle := h.le
  unfold visitedArray
  cases hchanged : result.2.1 with
  | true =>
    have hlisted : ¬Unlisted updates blocks.items := by
      rw [← h.changed, hchanged]
      exact Bool.noConfusion
    refine ⟨rfl, Nat.le_succ _, iff_of_false ?_ hlisted, fun hun => absurd hun hlisted⟩
    show result.2.2 ≠ blocks.ref
    omega
  | false =>
    have hun := h.changed.mp hchanged
    exact ⟨(h.same hun).symm, le_rfl, iff_of_true rfl hun, fun _ => rfl⟩

theorem visited_nil (updates : BlockId → Option BlockContentUpdate) (next : Nat) :
    Visited updates .nil next (.nil, false, next) :=
  ⟨le_rfl, rfl, iff_of_true rfl nofun, fun _ => rfl, nofun, nofun⟩

theorem Unlisted.objects {updates : BlockId → Option BlockContentUpdate} {f : Forest BlockObject}
    (h : Unlisted updates f) {t : BlockObject × Forest BlockObject} (ht : t ∈ f.objects) :
    updates t.1.id = none ∧ Unlisted updates t.2 := by
  refine ⟨h t.1 ?_, fun block hblock => h block ?_⟩
  · rw [Forest.labels_eq_map_objects]
    exact List.mem_map_of_mem ht
  · rw [Forest.labels_eq_map_objects] at hblock ⊢
    obtain ⟨u, hu, rfl⟩ := List.mem_map.mp hblock
    exact List.mem_map_of_mem (Forest.mem_objects_trans ht hu)

/-- A block that has nothing listed stays the object that it was. -/
theorem Visited.node_same {updates : BlockId → Option BlockContentUpdate} {block : BlockObject}
    {kids rest : Forest BlockObject} {next next' : Nat}
    {result : Forest BlockObject × Bool × Nat} (hblock : updates block.id = none)
    (hkids : Unlisted updates kids) (hle : next ≤ next') (hrest : Visited updates rest next' result)
    (hvalues : Snapshot.values kids = patched updates kids) :
    Visited updates (.node block kids rest) next (.node block kids result.1, result.2) where
  le := hle.trans hrest.le
  values := by
    have hvals := hrest.values
    unfold Snapshot.values patched at hvals hvalues ⊢
    rw [Forest.map_node, Forest.map_node, hvals, hvalues, hblock]
    rfl
  changed := by rw [hrest.changed, unlisted_node, and_iff_right hblock, and_iff_right hkids]
  same hun := by rw [hrest.same (unlisted_node.mp hun).2.2]
  kept t ht hid hun := by
    rw [Forest.objects_node] at ht ⊢
    rcases List.mem_cons.mp ht with rfl | ht
    · exact List.mem_cons_self
    · refine List.mem_cons_of_mem _ (List.mem_append.mpr ?_)
      exact (List.mem_append.mp ht).imp_right fun ht => hrest.kept t ht hid hun
  new t ht := by
    rw [Forest.objects_node] at ht
    rcases List.mem_cons.mp ht with rfl | ht
    · exact .inl ⟨hblock, hkids⟩
    · rcases List.mem_append.mp ht with ht | ht
      · exact .inl (hkids.objects ht)
      · exact (hrest.new t ht).imp_right hle.trans

/-- A block that is listed, or has something listed under it, is built anew. -/
theorem Visited.node_new {updates : BlockId → Option BlockContentUpdate}
    {block block' : BlockObject} {kids kids' rest : Forest BlockObject} {next next' next'' : Nat}
    {changed : Bool} {result : Forest BlockObject × Bool × Nat}
    (hlisted : ¬(updates block.id = none ∧ Unlisted updates kids))
    (hkids : Visited updates kids next (kids', changed, next')) (hle : next' ≤ next'')
    (hrest : Visited updates rest next'' result) (hid : block'.id = block.id)
    (hvalue : block'.value = installed (updates block.id) block.value) (href : next ≤ block'.ref) :
    Visited updates (.node block kids rest) next
      (.node block' kids' result.1, true, result.2.2) where
  le := (hkids.le.trans hle).trans hrest.le
  values := by
    have hvals := hrest.values
    have hkidsVals := hkids.values
    unfold Snapshot.values patched at hvals hkidsVals ⊢
    rw [Forest.map_node, Forest.map_node, hvals, hkidsVals, hid, hvalue]
  changed := by
    refine iff_of_false Bool.noConfusion fun hun => hlisted ?_
    exact ⟨(unlisted_node.mp hun).1, (unlisted_node.mp hun).2.1⟩
  same hun := absurd ⟨(unlisted_node.mp hun).1, (unlisted_node.mp hun).2.1⟩ hlisted
  kept t ht htid hun := by
    rw [Forest.objects_node] at ht ⊢
    refine List.mem_cons_of_mem _ (List.mem_append.mpr ?_)
    rcases List.mem_cons.mp ht with rfl | ht
    · exact absurd ⟨htid, hun⟩ hlisted
    · rcases List.mem_append.mp ht with ht | ht
      · exact .inl (hkids.kept t ht htid hun)
      · exact .inr (hrest.kept t ht htid hun)
  new t ht := by
    rw [Forest.objects_node] at ht
    rcases List.mem_cons.mp ht with rfl | ht
    · exact .inr href
    · rcases List.mem_append.mp ht with ht | ht
      · exact hkids.new t ht
      · exact (hrest.new t ht).imp_right (hkids.le.trans hle).trans

theorem visited_visitItems (updates : BlockId → Option BlockContentUpdate)
    {f : Forest BlockObject} {next : Nat} (hfresh : ∀ block ∈ f.labels, block.array < next) :
    Visited updates f next (visitItems updates f next) := by
  induction f generalizing next with
  | nil => exact visited_nil updates next
  | node block kids rest ihk ihr =>
    rw [Forest.labels_node] at hfresh
    have hkids : Visited updates kids next (visitItems updates kids next) :=
      ihk fun b hb => hfresh b (by simp [hb])
    have hrest (next' : Nat) (hle : next ≤ next') :
        Visited updates rest next' (visitItems updates rest next') :=
      ihr fun b hb => (hfresh b (by simp [hb])).trans_le hle
    obtain ⟨hitems, hle, href, -⟩ :=
      @Visited.array updates ⟨block.array, kids⟩ next _ hkids (hfresh block List.mem_cons_self)
    have hle' := hkids.le.trans hle
    rw [visitItems]
    dsimp only
    split
    · next hun =>
      have hvalues := hkids.values
      have hkidsUn := href.mp hun.2
      rw [hkids.same hkidsUn] at hvalues
      exact .node_same hun.1 hkidsUn hle' (hrest _ hle') hvalues
    · next hlisted =>
      rw [href] at hlisted
      rw [hitems]
      exact .node_new hlisted hkids (hle.trans (Nat.le_succ _))
        (hrest _ (hle'.trans (Nat.le_succ _))) rfl rfl hle'

/-! ## Pages and tags -/

/-- The update that is looked up for a block of an owner. -/
def lookup (updates : List BlockContentUpdate) (owner : OutlineOwner) (id : BlockId) :
    Option BlockContentUpdate :=
  (updatesOf updates owner).bind fun owned => owned id

/-- What a visit makes of an item. -/
structure PatchedBy {Header : Type} (updates : BlockId → Option BlockContentUpdate) (next : Nat)
    (before after : OutlineItem Header) : Prop where
  owner : after.owner = before.owner
  header : after.header = before.header
  values : values after.blocks.items = patched updates before.blocks.items
  kept : ∀ t ∈ before.blocks.items.objects, updates t.1.id = none →
    Unlisted updates t.2 → t ∈ after.blocks.items.objects
  new : ∀ t ∈ after.blocks.items.objects,
    (updates t.1.id = none ∧ Unlisted updates t.2) ∨ next ≤ t.1.ref
  same : Unlisted updates before.blocks.items → after = before

/-- The objects and arrays of an item have references below the next one. -/
def OutlineItem.Below {Header : Type} (next : Nat) (item : OutlineItem Header) : Prop :=
  item.blocks.ref < next ∧
    ∀ block ∈ item.blocks.items.labels, block.ref < next ∧ block.array < next

theorem OutlineItem.Below.mono {Header : Type} {item : OutlineItem Header} {next next' : Nat}
    (h : item.Below next) (hle : next ≤ next') : item.Below next' :=
  ⟨h.1.trans_le hle, fun block hblock =>
    ⟨(h.2 block hblock).1.trans_le hle, (h.2 block hblock).2.trans_le hle⟩⟩

theorem patched_of_unlisted {updates : BlockId → Option BlockContentUpdate}
    {f : Forest BlockObject} (h : Unlisted updates f) : patched updates f = values f := by
  induction f with
  | nil => rfl
  | node block kids rest ihk ihr =>
    obtain ⟨hblock, hkids, hrest⟩ := unlisted_node.mp h
    unfold patched Snapshot.values at ihk ihr ⊢
    rw [Forest.map_node, Forest.map_node, ihk hkids, ihr hrest, hblock]
    rfl

theorem patchedBy_self {Header : Type} {updates : BlockId → Option BlockContentUpdate}
    {item : OutlineItem Header} (h : Unlisted updates item.blocks.items) (next : Nat) :
    PatchedBy updates next item item :=
  ⟨rfl, rfl, (patched_of_unlisted h).symm, fun _ ht _ _ => ht, fun _ ht => .inl (h.objects ht),
    fun _ => rfl⟩

theorem PatchedBy.mono {Header : Type} {updates : BlockId → Option BlockContentUpdate}
    {next next' : Nat} {before after : OutlineItem Header}
    (h : PatchedBy updates next' before after) (hle : next ≤ next') :
    PatchedBy updates next before after :=
  ⟨h.owner, h.header, h.values, h.kept, fun t ht => (h.new t ht).imp_right hle.trans, h.same⟩

theorem visit_spec (updates : BlockId → Option BlockContentUpdate) {blocks : Blocks} {next : Nat}
    (href : blocks.ref < next) (hfresh : ∀ block ∈ blocks.items.labels, block.array < next) :
    next ≤ (visit updates blocks next).2 ∧
      values (visit updates blocks next).1.items = patched updates blocks.items ∧
      ((visit updates blocks next).1.ref = blocks.ref ↔ Unlisted updates blocks.items) ∧
      (∀ t ∈ blocks.items.objects, updates t.1.id = none → Unlisted updates t.2 →
        t ∈ (visit updates blocks next).1.items.objects) ∧
      ∀ t ∈ (visit updates blocks next).1.items.objects,
        (updates t.1.id = none ∧ Unlisted updates t.2) ∨ next ≤ t.1.ref := by
  have hvisited := visited_visitItems updates hfresh
  obtain ⟨hitems, hle, hsame, -⟩ := hvisited.array href
  unfold visit
  dsimp only
  rw [hitems]
  exact ⟨hvisited.le.trans hle, hvisited.values, hsame, hvisited.kept, hvisited.new⟩

/-- All items are patched, and none of them is another one if nothing in them is listed. -/
structure OwnersVisited {Header : Type} (updates : List BlockContentUpdate)
    (items : List (OutlineItem Header)) (next : Nat)
    (result : List (OutlineItem Header) × Bool × Nat) : Prop where
  le : next ≤ result.2.2
  patches : List.Forall₂ (fun before after => PatchedBy (lookup updates before.owner) next before
    after) items result.1
  changed : result.2.1 = false ↔
    ∀ item ∈ items, Unlisted (lookup updates item.owner) item.blocks.items
  same : result.2.1 = false → result.1 = items

theorem OwnersVisited.cons_same {Header : Type} {updates : List BlockContentUpdate}
    {item : OutlineItem Header} {items : List (OutlineItem Header)} {next next' : Nat}
    {result : List (OutlineItem Header) × Bool × Nat}
    (hitem : Unlisted (lookup updates item.owner) item.blocks.items) (hle : next ≤ next')
    (hrest : OwnersVisited updates items next' result) :
    OwnersVisited updates (item :: items) next (item :: result.1, result.2) where
  le := hle.trans hrest.le
  patches := .cons (patchedBy_self hitem next) (hrest.patches.imp fun _ _ h => h.mono hle)
  changed := by rw [hrest.changed, List.forall_mem_cons, and_iff_right hitem]
  same hchanged := by rw [hrest.same hchanged]

theorem OwnersVisited.cons_new {Header : Type} {updates : List BlockContentUpdate}
    {item item' : OutlineItem Header} {items : List (OutlineItem Header)} {next next' : Nat}
    {result : List (OutlineItem Header) × Bool × Nat}
    (hitem : ¬Unlisted (lookup updates item.owner) item.blocks.items)
    (hpatches : PatchedBy (lookup updates item.owner) next item item') (hle : next ≤ next')
    (hrest : OwnersVisited updates items next' result) :
    OwnersVisited updates (item :: items) next (item' :: result.1, true, result.2.2) where
  le := hle.trans hrest.le
  patches := .cons hpatches (hrest.patches.imp fun _ _ h => h.mono hle)
  changed := iff_of_false Bool.noConfusion fun h => hitem (h item List.mem_cons_self)
  same := Bool.noConfusion

theorem ownersVisited {Header : Type} (updates : List BlockContentUpdate)
    {items : List (OutlineItem Header)} {next : Nat} (hfresh : ∀ item ∈ items, item.Below next) :
    OwnersVisited updates items next (visitOwners updates items next) := by
  induction items generalizing next with
  | nil => exact ⟨le_rfl, .nil, iff_of_true rfl nofun, fun _ => rfl⟩
  | cons item items ih =>
    obtain ⟨⟨href, hblocks⟩, hitems⟩ := List.forall_mem_cons.mp hfresh
    have hrest (next' : Nat) (hle : next ≤ next') :
        OwnersVisited updates items next' (visitOwners updates items next') :=
      ih fun i hi => (hitems i hi).mono hle
    rw [visitOwners]
    split
    · next hnone =>
      refine .cons_same (fun block _ => ?_) le_rfl (hrest next le_rfl)
      unfold lookup
      rw [hnone]
      rfl
    · next owned howned =>
      have hlookup : lookup updates item.owner = owned := by
        unfold lookup
        rw [howned]
        rfl
      subst hlookup
      obtain ⟨hle, hvalues, hsame, hkept, hnew⟩ := visit_spec (lookup updates item.owner) href
        fun block hblock => (hblocks block hblock).2
      dsimp only
      split
      · next heq => exact .cons_same (hsame.mp heq) hle (hrest _ hle)
      · next hne =>
        rw [hsame] at hne
        exact .cons_new hne ⟨rfl, rfl, hvalues, hkept, hnew, fun hun => absurd hun hne⟩
          (hle.trans (Nat.le_succ _)) (hrest _ (hle.trans (Nat.le_succ _)))

/-- What is read of the items has references below the next one. -/
def Items.Below {Header : Type} (next : Nat) (items : Items Header) : Prop :=
  items.ref < next ∧ ∀ item ∈ items.items, item.Below next

theorem Items.Below.mono {Header : Type} {items : Items Header} {next next' : Nat}
    (h : items.Below next) (hle : next ≤ next') : items.Below next' :=
  ⟨h.1.trans_le hle, fun item hitem => (h.2 item hitem).mono hle⟩

/-- Nothing in the items is looked up. -/
def Items.Unlisted {Header : Type} (updates : List BlockContentUpdate) (items : Items Header) :
    Prop :=
  ∀ item ∈ items.items, Snapshot.Unlisted (lookup updates item.owner) item.blocks.items

theorem owners_spec {Header : Type} (updates : List BlockContentUpdate) {items : Items Header}
    {next : Nat} (h : items.Below next) :
    next ≤ (owners updates items next).2 ∧
      List.Forall₂ (fun before after => PatchedBy (lookup updates before.owner) next before after)
        items.items (owners updates items next).1.items ∧
      ((owners updates items next).1.ref = items.ref ↔ items.Unlisted updates) ∧
      (items.Unlisted updates → (owners updates items next).1 = items) := by
  have hvisited := ownersVisited updates h.2
  have hle := hvisited.le
  unfold owners
  dsimp only
  split
  · next hchanged =>
    have hlisted : ¬items.Unlisted updates := by
      unfold Items.Unlisted
      rw [← hvisited.changed, hchanged]
      exact Bool.noConfusion
    refine ⟨hle.trans (Nat.le_succ _), hvisited.patches, iff_of_false ?_ hlisted,
      fun hun => absurd hun hlisted⟩
    exact (h.1.trans_le hle).ne'
  · next hchanged =>
    rw [Bool.not_eq_true] at hchanged
    have hpatches := hvisited.patches
    rw [hvisited.same hchanged] at hpatches
    exact ⟨hle, hpatches, iff_of_true rfl (hvisited.changed.mp hchanged), fun _ => rfl⟩

/-! ## What is listed -/

def ownerId : OutlineOwner → String
  | .page id => id.asStr
  | .tag id => id.asStr

/-- Owners with one id, be they pages or tags. -/
def sameOutlineOwner (left right : OutlineOwner) : Prop := ownerId left = ownerId right

theorem outlineOwnerKey_eq_iff {left right : OutlineOwner} :
    outlineOwnerKey left = outlineOwnerKey right ↔ sameOutlineOwner left right := by
  have hkey (owner : OutlineOwner) : outlineOwnerKey owner = "document:" ++ ownerId owner := by
    cases owner <;> rfl
  rw [hkey, hkey]
  exact String.append_right_inj "document:"

section Listed
variable (same : OutlineOwner → OutlineOwner → Prop) (updates : List BlockContentUpdate)
  (owner : OutlineOwner)

/-- An update of the list is for the block of the owner. -/
def Listed (id : BlockId) : Prop :=
  ∃ update ∈ updates, same update.owner owner ∧ update.blockId = id

/-- The last update of the list that is for the block of the owner. -/
def LastFor (id : BlockId) (update : BlockContentUpdate) : Prop :=
  ∃ earlier later, updates = earlier ++ update :: later ∧
    (same update.owner owner ∧ update.blockId = id) ∧ ¬Listed same later owner id

/-- What a block says after the updates: what the last one for it says, with its own tags, and
what it said if there is none. -/
structure Says (block : BlockObject) (value : BlockValue) : Prop where
  listed : ∀ update, LastFor same updates owner block.id update →
    value = ⟨update.content, update.markdown, update.pageReferences, update.properties,
      block.value.tags⟩
  unlisted : ¬Listed same updates owner block.id → value = block.value

/-- No block of a tree is listed. -/
def Untouched (t : BlockObject × Forest BlockObject) : Prop :=
  ∀ block ∈ t.1 :: t.2.labels, ¬Listed same updates owner block.id

end Listed

/-- An item with its listed blocks replaced: the objects that stay are those that have no listed
block in them. -/
structure Patches {Header : Type} (same : OutlineOwner → OutlineOwner → Prop)
    (updates : List BlockContentUpdate) (before after : OutlineItem Header) : Prop where
  owner : after.owner = before.owner
  header : after.header = before.header
  values : ∃ value : BlockObject → BlockValue,
    (∀ block, Says same updates before.owner block (value block)) ∧
      values after.blocks.items = before.blocks.items.map fun block => (block.id, value block)
  kept : ∀ t ∈ before.blocks.items.objects,
    t ∈ after.blocks.items.objects ↔ Untouched same updates before.owner t
  same : (∀ block ∈ before.blocks.items.labels, ¬Listed same updates before.owner block.id) →
    after = before

theorem lookup_eq (updates : List BlockContentUpdate) (owner : OutlineOwner) (id : BlockId) :
    lookup updates owner id = (updates.filter fun update =>
      outlineOwnerKey update.owner = outlineOwnerKey owner).reverse.find? fun update =>
        update.blockId = id := by
  unfold lookup updatesOf
  split
  · next hnil =>
    rw [hnil]
    rfl
  · rfl

theorem lookup_eq_none {updates : List BlockContentUpdate} {owner : OutlineOwner} {id : BlockId} :
    lookup updates owner id = none ↔ ¬Listed sameOutlineOwner updates owner id := by
  rw [lookup_eq, List.find?_eq_none]
  constructor
  · rintro h ⟨update, hmem, hsame, hid⟩
    have hkey := outlineOwnerKey_eq_iff.mpr hsame
    refine h update (List.mem_reverse.mpr (List.mem_filter.mpr ⟨hmem, ?_⟩)) ?_
    · exact decide_eq_true hkey
    · exact decide_eq_true hid
  · intro h update hmem hid
    obtain ⟨hmem, hsame⟩ := List.mem_filter.mp (List.mem_reverse.mp hmem)
    exact h ⟨update, hmem, outlineOwnerKey_eq_iff.mp (of_decide_eq_true hsame),
      of_decide_eq_true hid⟩

theorem LastFor.lookup_eq {updates : List BlockContentUpdate} {owner : OutlineOwner} {id : BlockId}
    {update : BlockContentUpdate} (h : LastFor sameOutlineOwner updates owner id update) :
    lookup updates owner id = some update := by
  obtain ⟨earlier, later, rfl, ⟨hsame, hid⟩, hlater⟩ := h
  have hkey := outlineOwnerKey_eq_iff.mpr hsame
  have hnone := lookup_eq_none.mpr hlater
  rw [Snapshot.lookup_eq] at hnone ⊢
  rw [List.filter_append, List.filter_cons, if_pos (decide_eq_true hkey), List.reverse_append,
    List.reverse_cons, List.append_assoc, List.find?_append, hnone, Option.none_or]
  exact List.find?_cons_of_pos (decide_eq_true hid)

theorem says_installed {updates : List BlockContentUpdate} {owner : OutlineOwner}
    (block : BlockObject) : Says sameOutlineOwner updates owner block
      (installed (lookup updates owner block.id) block.value) where
  listed update h := by rw [h.lookup_eq]; rfl
  unlisted h := by rw [lookup_eq_none.mpr h]; rfl

theorem PatchedBy.patches {Header : Type} {updates : List BlockContentUpdate} {next : Nat}
    {before after : OutlineItem Header} (h : PatchedBy (lookup updates before.owner) next before
      after) (hbelow : before.Below next) : Patches sameOutlineOwner updates before after where
  owner := h.owner
  header := h.header
  values := ⟨_, says_installed, h.values⟩
  kept t ht := by
    have hun : Untouched sameOutlineOwner updates before.owner t ↔
        lookup updates before.owner t.1.id = none ∧ Unlisted (lookup updates before.owner) t.2 := by
      unfold Untouched Unlisted
      rw [List.forall_mem_cons]
      simp only [lookup_eq_none]
    rw [hun]
    constructor
    · intro hafter
      refine (h.new t hafter).resolve_right fun hle => ?_
      have hmem : t.1 ∈ before.blocks.items.labels := by
        rw [Forest.labels_eq_map_objects]
        exact List.mem_map_of_mem ht
      exact absurd (hbelow.2 t.1 hmem).1 (Nat.not_lt_of_le hle)
    · intro hun
      exact h.kept t ht hun.1 hun.2
  same hun := h.same fun block hblock => lookup_eq_none.mpr (hun block hblock)

/-- Every page and tag has its listed blocks replaced; whatever has no listed block in it is the
object that it was, up to the whole snapshot. -/
structure Installs {PageHeader TagHeader Rest : Type} (same : OutlineOwner → OutlineOwner → Prop)
    (updates : List BlockContentUpdate) (before after : GraphSnapshot PageHeader TagHeader Rest) :
    Prop where
  pages : List.Forall₂ (Patches same updates) before.pages.items after.pages.items
  tags : List.Forall₂ (Patches same updates) before.tags.items after.tags.items
  rest : after.rest = before.rest
  samePages : after.pages = before.pages ↔ ∀ item ∈ before.pages.items,
    ∀ block ∈ item.blocks.items.labels, ¬Listed same updates item.owner block.id
  sameTags : after.tags = before.tags ↔ ∀ item ∈ before.tags.items,
    ∀ block ∈ item.blocks.items.labels, ¬Listed same updates item.owner block.id
  same : after.pages = before.pages → after.tags = before.tags → after = before

theorem installs_applyContentUpdates {PageHeader TagHeader Rest : Type}
    {snapshot : GraphSnapshot PageHeader TagHeader Rest} {next : Nat}
    (hpages : snapshot.pages.Below next) (htags : snapshot.tags.Below next)
    (updates : List BlockContentUpdate) :
    Installs sameOutlineOwner updates snapshot (applyContentUpdates snapshot updates next).1 := by
  obtain ⟨hle, hpatches, href, hsame⟩ := owners_spec updates hpages
  obtain ⟨-, hpatches', href', hsame'⟩ := owners_spec updates (htags.mono hle)
  have hpatched {Header : Type} {items items' : Items Header} {next : Nat}
      (hbelow : items.Below next) (h : List.Forall₂ (fun before after =>
        PatchedBy (lookup updates before.owner) next before after) items.items items'.items) :
      List.Forall₂ (Patches sameOutlineOwner updates) items.items items'.items := by
    obtain ⟨hlength, hget⟩ := List.forall₂_iff_get.mp h
    refine List.forall₂_iff_get.mpr ⟨hlength, fun i hi hi' => ?_⟩
    exact (hget i hi hi').patches (hbelow.2 _ (List.get_mem ..))
  have hunlisted {Header : Type} {items items' : Items Header}
      (href : items'.ref = items.ref ↔ items.Unlisted updates)
      (hsame : items.Unlisted updates → items' = items) :
      items' = items ↔ ∀ item ∈ items.items, ∀ block ∈ item.blocks.items.labels,
        ¬Listed sameOutlineOwner updates item.owner block.id := by
    have hiff : items' = items ↔ items.Unlisted updates :=
      ⟨fun heq => href.mp (congrArg Items.ref heq), hsame⟩
    rw [hiff]
    unfold Items.Unlisted Snapshot.Unlisted
    simp only [lookup_eq_none]
  unfold applyContentUpdates
  dsimp only
  split
  · next heq =>
    have hun := href.mp heq.1
    have hun' := href'.mp heq.2
    rw [hsame hun] at hpatches href hsame
    rw [hsame' hun'] at hpatches' href' hsame'
    exact ⟨hpatched hpages hpatches, hpatched (htags.mono hle) hpatches', rfl,
      hunlisted href hsame, hunlisted href' hsame', fun _ _ => rfl⟩
  · next hne =>
    refine ⟨hpatched hpages hpatches, hpatched (htags.mono hle) hpatches', rfl,
      hunlisted href hsame, hunlisted href' hsame', fun heq heq' => absurd ?_ hne⟩
    exact ⟨congrArg Items.ref heq, congrArg Items.ref heq'⟩

/-! ## Pages and tags with ids of their own -/

section Congr
variable {same same' : OutlineOwner → OutlineOwner → Prop} {updates : List BlockContentUpdate}
  {owner : OutlineOwner} (h : ∀ update ∈ updates, same update.owner owner ↔ same' update.owner owner)
include h

theorem listed_congr {id : BlockId} :
    Listed same updates owner id ↔ Listed same' updates owner id :=
  exists_congr fun update => and_congr_right fun hupdate => and_congr_left' (h update hupdate)

theorem lastFor_congr {id : BlockId} {update : BlockContentUpdate} :
    LastFor same updates owner id update ↔ LastFor same' updates owner id update := by
  refine exists_congr fun earlier => exists_congr fun later => and_congr_right fun heq => ?_
  subst heq
  refine and_congr (and_congr_left' (h update (by simp))) (not_congr (listed_congr ?_))
  exact fun u hu => h u (by simp [hu])

theorem says_congr {block : BlockObject} {value : BlockValue}
    (hsaid : Says same updates owner block value) : Says same' updates owner block value where
  listed update hlast := hsaid.listed update ((lastFor_congr h).mpr hlast)
  unlisted hun := hsaid.unlisted fun hlisted => hun ((listed_congr h).mp hlisted)

end Congr

theorem Patches.congr {Header : Type} {same same' : OutlineOwner → OutlineOwner → Prop}
    {updates : List BlockContentUpdate} {before after : OutlineItem Header}
    (hpatches : Patches same updates before after)
    (h : ∀ update ∈ updates, same update.owner before.owner ↔ same' update.owner before.owner) :
    Patches same' updates before after where
  owner := hpatches.owner
  header := hpatches.header
  values := by
    obtain ⟨value, hsaid, hvalues⟩ := hpatches.values
    exact ⟨value, fun block => says_congr h (hsaid block), hvalues⟩
  kept t ht := by
    rw [hpatches.kept t ht]
    unfold Untouched
    simp only [listed_congr h]
  same hun := by
    simp only [← listed_congr h] at hun
    exact hpatches.same hun

/-- The owners of a snapshot. -/
def GraphSnapshot.outlineOwners {PageHeader TagHeader Rest : Type}
    (snapshot : GraphSnapshot PageHeader TagHeader Rest) : List OutlineOwner :=
  snapshot.pages.items.map OutlineItem.owner ++ snapshot.tags.items.map OutlineItem.owner

/-- The updates name no page by the id of a tag and no tag by the id of a page. -/
def KindsApart (updates : List BlockContentUpdate) (owners : List OutlineOwner) : Prop :=
  ∀ update ∈ updates, ∀ owner ∈ owners, sameOutlineOwner update.owner owner → update.owner = owner

theorem Installs.of_kindsApart {PageHeader TagHeader Rest : Type}
    {updates : List BlockContentUpdate} {before after : GraphSnapshot PageHeader TagHeader Rest}
    (h : Installs sameOutlineOwner updates before after)
    (hapart : KindsApart updates before.outlineOwners) : Installs Eq updates before after := by
  have hiff {owner : OutlineOwner} (howner : owner ∈ before.outlineOwners) :
      ∀ update ∈ updates, sameOutlineOwner update.owner owner ↔ update.owner = owner :=
    fun update hupdate => ⟨hapart update hupdate owner howner, fun heq => by rw [heq]; rfl⟩
  have hpatches {Header : Type} {items items' : List (OutlineItem Header)}
      (howners : ∀ item ∈ items, item.owner ∈ before.outlineOwners)
      (hpatches : List.Forall₂ (Patches sameOutlineOwner updates) items items') :
      List.Forall₂ (Patches Eq updates) items items' := by
    obtain ⟨hlength, hget⟩ := List.forall₂_iff_get.mp hpatches
    refine List.forall₂_iff_get.mpr ⟨hlength, fun i hi hi' => ?_⟩
    exact (hget i hi hi').congr (hiff (howners _ (List.get_mem ..)))
  have hlisted {Header : Type} {items : List (OutlineItem Header)}
      (howners : ∀ item ∈ items, item.owner ∈ before.outlineOwners) :
      (∀ item ∈ items, ∀ block ∈ item.blocks.items.labels,
        ¬Listed sameOutlineOwner updates item.owner block.id) ↔
      ∀ item ∈ items, ∀ block ∈ item.blocks.items.labels,
        ¬Listed Eq updates item.owner block.id :=
    forall₂_congr fun item hitem => forall₂_congr fun block _ =>
      not_congr (listed_congr (hiff (howners item hitem)))
  have hpages : ∀ item ∈ before.pages.items, item.owner ∈ before.outlineOwners :=
    fun item hitem => List.mem_append_left _ (List.mem_map_of_mem hitem)
  have htags : ∀ item ∈ before.tags.items, item.owner ∈ before.outlineOwners :=
    fun item hitem => List.mem_append_right _ (List.mem_map_of_mem hitem)
  exact ⟨hpatches hpages h.pages, hpatches htags h.tags, h.rest,
    h.samePages.trans (hlisted hpages), h.sameTags.trans (hlisted htags), h.same⟩

/-! ## Both -/

/-- A re-read is shared invisibly unless both it and what was there are empty arrays, and updates
replace the blocks they list and no others. The code tells owners apart by their ids, so an owner
is the owner of an update if no page has the id of a tag. -/
theorem sharesInvisibly_iff {PageHeader TagHeader Rest : Type} {previous reread : Blocks}
    {next : Nat} (h : Heap previous reread next)
    (hn : (previous.items.labels.map BlockObject.id).Nodup)
    (snapshot : GraphSnapshot PageHeader TagHeader Rest)
    (hpages : snapshot.pages.Below next) (htags : snapshot.tags.Below next)
    (updates : List BlockContentUpdate) :
    (SharesInvisibly previous reread next ↔
      ¬(previous.items = .nil ∧ reread.items = .nil ∧ reread.ref ≠ previous.ref)) ∧
    Installs sameOutlineOwner updates snapshot (applyContentUpdates snapshot updates next).1 ∧
    (KindsApart updates snapshot.outlineOwners →
      Installs Eq updates snapshot (applyContentUpdates snapshot updates next).1) :=
  have hinstalls := installs_applyContentUpdates hpages htags updates
  ⟨sharesInvisibly_iff_of_heap h hn, hinstalls, hinstalls.of_kindsApart⟩

theorem first_valid : validate "a" "block id" maxIdLen = .ok () := by decide

theorem second_valid : validate "b" "block id" maxIdLen = .ok () := by decide

theorem third_valid : validate "c" "block id" maxIdLen = .ok () := by decide

theorem home_valid : validate "home" "page id" maxIdLen = .ok () := by decide

theorem label_valid : validate "label" "tag id" maxIdLen = .ok () := by decide

def sampleBlock (ref : Nat) (id : BlockId) (markdown : String) : BlockObject :=
  ⟨ref, id, ⟨[], markdown, [], PropertyBag.empty, []⟩, ref + 1⟩

def sampleUpdate (owner : OutlineOwner) (id : BlockId) (markdown : String) : BlockContentUpdate :=
  ⟨owner, id, [], markdown, [], PropertyBag.empty⟩

/-- A block with a child, and another one. -/
def sampleBlocks : Blocks :=
  ⟨0, .node (sampleBlock 1 ⟨"a", first_valid⟩ "x")
    (.single (sampleBlock 3 ⟨"b", second_valid⟩ "") .nil)
    (.single (sampleBlock 5 ⟨"c", third_valid⟩ "") .nil)⟩

/-- The other one first, with the child, and another text in the block. -/
def rereadBlocks : Blocks :=
  ⟨7, .node (sampleBlock 8 ⟨"c", third_valid⟩ "")
    (.single (sampleBlock 10 ⟨"b", second_valid⟩ "") .nil)
    (.single (sampleBlock 12 ⟨"a", first_valid⟩ "y") .nil)⟩

def sampleSnapshot : GraphSnapshot Unit Unit Unit :=
  ⟨14, ⟨15, [⟨16, .page ⟨"home", home_valid⟩, (), sampleBlocks⟩]⟩,
    ⟨17, [⟨18, .tag ⟨"label", label_valid⟩, (),
      ⟨19, .single (sampleBlock 20 ⟨"a", first_valid⟩ "z") .nil⟩⟩]⟩, ()⟩

/-- Two updates of the child, of which the later one counts. -/
def sampleUpdates : List BlockContentUpdate :=
  [sampleUpdate (.page ⟨"home", home_valid⟩) ⟨"b", second_valid⟩ "early",
    sampleUpdate (.page ⟨"home", home_valid⟩) ⟨"b", second_valid⟩ "late",
    sampleUpdate (.tag ⟨"label", label_valid⟩) ⟨"c", third_valid⟩ "elsewhere"]

theorem sharesInvisibly_sample :
    SharesInvisibly sampleBlocks rereadBlocks 22 ∧
      (shareBlocks sampleBlocks rereadBlocks 22).1.items.labels.map BlockObject.ref = [23, 3, 25] ∧
      Installs Eq sampleUpdates sampleSnapshot
        (applyContentUpdates sampleSnapshot sampleUpdates 22).1 ∧
      (applyContentUpdates sampleSnapshot sampleUpdates 22).1.pages.items.map
        (fun item => item.blocks.items.labels.map fun block => block.value.markdown) =
          [["x", "late", ""]] ∧
      (applyContentUpdates sampleSnapshot sampleUpdates 22).1.tags = sampleSnapshot.tags := by
  have hheap : Heap sampleBlocks rereadBlocks 22 := ⟨by decide, by decide, by decide⟩
  have hpages : sampleSnapshot.pages.Below 22 :=
    ⟨by decide, List.forall_mem_singleton.mpr ⟨by decide, by decide⟩⟩
  have htags : sampleSnapshot.tags.Below 22 :=
    ⟨by decide, List.forall_mem_singleton.mpr ⟨by decide, by decide⟩⟩
  have hapart : KindsApart sampleUpdates sampleSnapshot.outlineOwners := by
    unfold KindsApart sameOutlineOwner
    decide
  have h := sharesInvisibly_iff hheap (by decide) sampleSnapshot hpages htags sampleUpdates
  exact ⟨h.1.mpr (by decide), by decide, h.2.2 hapart, by decide, rfl⟩

/-- An empty outline that is read again is another array. -/
theorem not_sharesInvisibly_empty : ¬SharesInvisibly ⟨0, .nil⟩ ⟨1, .nil⟩ 2 := by
  intro h
  exact absurd (h.2.1 rfl) (by decide)

end Neoseq.Snapshot
