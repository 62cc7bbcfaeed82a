import Neoseq.Core.Merges
import Neoseq.Forest.Depths

/-! Insertions of outline items. The loop puts one node after the other behind the nodes it has
made, at the depth of the item, so what it makes is the forest that the depths encode. -/

namespace Neoseq.Core
open Domain Document Collections Content Forest

variable {owner : OutlineOwner} {d : GraphDoc} {o o' : Outline} {b x : BlockId}

/-! ## Nodes that stay -/

/-- Another outline of the same nodes, with the rest of the document as it was. -/
def SameNodes (owner : OutlineOwner) (d d' : GraphDoc) : Prop :=
  ∀ o, d.outline owner = .ok o → ∃ o', d' = d.putOutline owner o' ∧ o'.tree = o.tree ∧
    o'.known = o.known

instance (owner : OutlineOwner) : Std.Refl (SameNodes owner) :=
  ⟨fun _ o h => ⟨o, (GraphDoc.putOutline_self h).symm, rfl, rfl⟩⟩

instance (owner : OutlineOwner) : IsTrans GraphDoc (SameNodes owner) where
  trans d d' d'' h h' := by
    intro o ho
    obtain ⟨o', rfl, htree, hknown⟩ := h o ho
    obtain ⟨o'', rfl, htree', hknown'⟩ := h' o' (GraphDoc.outline_putOutline ho)
    exact ⟨o'', GraphDoc.putOutline_putOutline .., htree'.trans htree, hknown'.trans hknown⟩

theorem sameNodes_putMeta (d : GraphDoc) (owner : OutlineOwner) (b : BlockId) (m : BlockMeta) :
    SameNodes owner d (d.putMeta owner b m) := by
  intro o ho
  refine ⟨o.setMeta b m, ?_, rfl, rfl⟩
  unfold GraphDoc.putMeta
  rw [GraphDoc.outlineAt_of_ok ho]

section Same
variable {γ : Type}

theorem sameNodes_inMeta {y : Edit CoreError BlockMeta γ} :
    Edit.Keeps (SameNodes owner) (inMeta owner b y) :=
  .bind (.read _) fun _ => .zoom (S := fun _ _ => True) (fun _ => trivial)
    fun d m _ => sameNodes_putMeta d owner b m

theorem sameNodes_inBag {y : Edit CoreError Bag γ} :
    Edit.Keeps (SameNodes owner) (inBag (.block owner b) y) :=
  .bind (.read _) fun _ => .zoom (S := fun _ _ => True) (fun _ => trivial)
    fun d _ _ => sameNodes_putMeta d owner b _

theorem sameNodes_insertInlineAtoms {index : Nat} {atoms : List InlineAtom} :
    Edit.Keeps (SameNodes owner) (insertInlineAtoms owner b index atoms) := by
  induction atoms generalizing index with
  | nil => exact .pure ()
  | cons atom rest ih => exact .bind sameNodes_inMeta fun _ => ih

theorem sameNodes_decorate (host : Host) {item : PlannedOutlineItem} :
    Edit.Keeps (SameNodes owner) (decorate host owner b item) := by
  have hrest : Edit.Keeps (SameNodes owner) (do
      inBag (.block owner b) (Edit.each (writePlannedProperty host) item.properties)
      inTagRefs (.block owner b) fun refs => refs.extend item.tags) :=
    .bind sameNodes_inBag fun _ => sameNodes_inMeta
  unfold decorate
  cases item.content with
  | inline atoms => exact .bind sameNodes_insertInlineAtoms fun _ => hrest
  | markdown _ => exact hrest

end Same

/-! ## Decorations -/

/-- The error of an item that has no parent among the items before it. -/
def skippedDepth : CoreError := .invalidHierarchy "outline insert skips a depth"

/-- The message of a payload error starts otherwise. -/
theorem noPayload_ne (key : PropertyKey) (slot : String) : noPayload key slot ≠ skippedDepth := by
  intro h
  have htext := congrArg (fun s => s.toList.head?) (CoreError.invalidHierarchy.inj h)
  simp [String.toList_append] at htext

theorem ensurePropertyField_ne {key : PropertyKey} {valueType : PropertyType}
    {cardinality : Cardinality} {bag : Bag} {e : CoreError}
    (h : ensurePropertyField key valueType cardinality bag = .error e) : e ≠ skippedDepth := by
  unfold ensurePropertyField at h
  split at h
  · cases h
    exact fun he => by cases he
  · split at h
    · cases h
      exact fun he => by cases he
    · split at h
      · split at h
        · cases h
          exact fun he => by cases he
        · split at h
          · cases h
            exact fun he => by cases he
          · next field _ _ _ =>
            cases hp : validatePropertyPayloadShape field key with
            | ok u =>
              rw [hp] at h
              cases h
            | error e' =>
              rw [hp] at h
              cases h
              unfold validatePropertyPayloadShape at hp
              split at hp
              · split at hp
                · cases hp
                · cases hp
                  exact noPayload_ne key "document"
              · cases hp
                intro hskip
                have htext := congrArg (fun s => s.toList.head?)
                  (CoreError.invalidHierarchy.inj hskip)
                simp [String.toList_append] at htext
              · split at hp
                · cases hp
                · cases hp
                  exact noPayload_ne key "set"
              · cases hp
      · cases h

theorem setSingle_ne {key : PropertyKey} {value : PropertyValue} {bag : Bag} {e : CoreError}
    (h : setSingle key value bag = .error e) : e ≠ skippedDepth := by
  unfold setSingle at h
  cases hfield : ensurePropertyField key value.propertyType .single bag with
  | error e' =>
    rw [hfield] at h
    cases h
    exact ensurePropertyField_ne hfield
  | ok bag' =>
    rw [hfield] at h
    cases h

theorem setRepeated_ne {key : PropertyKey} {value : PropertyValue} {bag : Bag} {e : CoreError}
    (h : setRepeated key value bag = .error e) : e ≠ skippedDepth := by
  unfold setRepeated at h
  cases hfield : ensurePropertyField key value.propertyType .set bag with
  | error e' =>
    rw [hfield] at h
    cases h
    exact ensurePropertyField_ne hfield
  | ok bag' =>
    rw [hfield] at h
    cases h

theorem queryError_ne {γ : Type} {y : Except QueryError γ} {e : CoreError}
    (h : queryError y = .error e) : e ≠ skippedDepth := by
  cases y with
  | ok a => cases h
  | error e' =>
    cases h
    exact nofun

theorem refuses_putQueryView (host : Host) (view : QueryView) :
    Edit.Refuses (· ≠ skippedDepth) (putQueryView host view) := by
  unfold putQueryView
  refine .bind (.read fun _ _ h => by cases h) fun created => .bind (.write _) fun _ => ?_
  split
  · refine .bind (.write _) fun _ => .bind (.read fun _ e h => ?_) fun _ => .write _
    unfold normalizedQueryDefinition at h
    split at h
    · next plan _ =>
      unfold derivedQuerySource at h
      cases hplan : host.codec.derivePlanSource plan with
      | none =>
        rw [hplan] at h
        cases h
        exact fun he => by cases he
      | some source =>
        rw [hplan] at h
        simp only [orElse, bind, Except.bind] at h
        split at h
        · next heq =>
          split at heq
          · cases heq
            cases h
            exact fun he => by cases he
          · cases heq
        · cases h
    · cases h
  · exact .pure _

theorem refuses_writePlannedProperty (host : Host) (field : PropertyField) :
    Edit.Refuses (· ≠ skippedDepth) (writePlannedProperty host field) := by
  unfold writePlannedProperty
  refine .bind (.update fun _ _ => ensurePropertyField_ne) fun _ => .each fun value _ => ?_
  cases value with
  | document document =>
    refine .bind (.update fun _ _ => ensurePropertyField_ne) fun _ => .zoom ?_
    refine .bind (.read fun _ _ => queryError_ne) fun _ => .bind (.write _) fun _ => ?_
    exact .each fun view _ => refuses_putQueryView host view
  | unsupportedDocument schema version => exact .fail fun he => by cases he
  | _ =>
    dsimp only
    split
    · exact .update fun _ _ => setSingle_ne
    · exact .update fun _ _ => setRepeated_ne

theorem map_error {γ δ : Type} {f : γ → δ} {y : Except CoreError γ} {e : CoreError}
    (h : y.map f = .error e) : y = .error e := by
  cases y with
  | error e' =>
    cases h
    rfl
  | ok a => cases h

theorem outline_ne {e : CoreError} (h : d.outline owner = .error e) : e ≠ skippedDepth := by
  have hfind {γ : Type} {entry : Option γ} {e' : CoreError} (h : orElse entry e' = .error e) :
      e' = e := by
    cases entry with
    | none => exact Except.error.inj h
    | some a => cases h
  have hrecord := map_error h
  cases owner with
  | page id =>
    rw [← hfind hrecord]
    exact nofun
  | tag id =>
    rw [← hfind hrecord]
    exact nofun

theorem blockMeta_ne {e : CoreError} (h : d.blockMeta owner b = .error e) :
    e ≠ skippedDepth := by
  cases ho : d.outline owner with
  | ok o =>
    rw [GraphDoc.blockMeta_eq ho] at h
    split_ifs at h
    cases h
    exact nofun
  | error e' =>
    unfold GraphDoc.blockMeta at h
    rw [ho] at h
    cases h
    exact outline_ne ho

theorem refuses_inMeta {γ : Type} {y : Edit CoreError BlockMeta γ}
    (hy : Edit.Refuses (· ≠ skippedDepth) y) :
    Edit.Refuses (· ≠ skippedDepth) (inMeta owner b y) :=
  .bind (.read fun _ _ => blockMeta_ne) fun _ => .zoom hy

theorem refuses_decorate (host : Host) {item : PlannedOutlineItem} :
    Edit.Refuses (· ≠ skippedDepth) (decorate host owner b item) := by
  have hrest : Edit.Refuses (· ≠ skippedDepth) (do
      inBag (.block owner b) (Edit.each (writePlannedProperty host) item.properties)
      inTagRefs (.block owner b) fun refs => refs.extend item.tags) := by
    refine .bind (.bind (.read fun d e h => ?_) fun _ => .zoom ?_) fun _ => ?_
    · exact blockMeta_ne (map_error h)
    · exact .each fun field _ => refuses_writePlannedProperty host field
    · exact refuses_inMeta (.write _)
  have hatoms (index : Nat) (atoms : List InlineAtom) :
      Edit.Refuses (· ≠ skippedDepth) (insertInlineAtoms owner b index atoms) := by
    induction atoms generalizing index with
    | nil => exact .pure ()
    | cons atom rest ih =>
      refine .bind (refuses_inMeta (.update fun m e h => ?_)) fun _ => ih _
      unfold insertText at h
      split at h
      · cases h
      · cases h
        exact nofun
  unfold decorate
  cases item.content with
  | inline atoms => exact .bind (hatoms 0 atoms) fun _ => hrest
  | markdown _ => exact hrest

/-! ## New nodes -/

theorem known_of_outline (ho : d.outline owner = .ok o) : o.known ⊆ d.known := by
  obtain ⟨record, hget, rfl⟩ := GraphDoc.outline_ok.mp ho
  intro x hx
  exact List.mem_flatMap.mpr ⟨_, BTreeMap.mem_entries.mpr hget, hx⟩

/-- How many nodes there ever were, counted by outline. -/
theorem length_known_putOutline (o' : Outline) (ho : d.outline owner = .ok o) :
    (d.putOutline owner o').known.length + o.known.length =
      d.known.length + o'.known.length := by
  obtain ⟨record, hget, rfl⟩ := GraphDoc.outline_ok.mp ho
  obtain ⟨l, r, hentries, hinsert⟩ :=
    BTreeMap.entries_insert_of_get { record with outline := o' } hget
  unfold GraphDoc.putOutline GraphDoc.updateRecord GraphDoc.known
  rw [hget]
  show ((d.entities.insert _ _).entries.flatMap _).length + _ = _
  rw [hentries, hinsert]
  simp only [List.flatMap_append, List.flatMap_cons, List.length_append]
  omega

theorem run_inOutline_error {f : Outline → Except CoreError Outline} {e : CoreError}
    (h : d.outline owner = .ok o) (hf : f o = .error e) :
    (inOutline owner f).run d = (.error e, d.putOutline owner o) := by
  have hread : (Edit.read fun d : GraphDoc => d.outline owner).run d = (.ok o, d) :=
    Edit.run_read h
  refine (Edit.run_bind_ok hread).trans ?_
  rw [Edit.run_zoom, GraphDoc.outlineAt_of_ok h]
  unfold Edit.run Edit.update
  rw [hf]

variable {host : Host} {source : IdSource} {now : Timestamp}

/-- A new node goes where it is to go, unless there are no ids left. -/
theorem ends_createNode {E : CoreError → Prop} {parent : Option BlockId} {index : Nat}
    {content : Text} (ho : d.outline owner = .ok o)
    (hparent : ∀ p ∈ parent, p ∈ o.tree.labels) (hindex : index ≤ o.count parent)
    (hE : source.capacity ≤ d.known.length → E .loro) :
    (createNode source now owner parent index content).Ends E d fun node d' =>
      node ∉ o.known ∧ ∃ o', d' = d.putOutline owner o' ∧
        o'.tree = mapRow parent (insertAt (single node .nil) index) o.tree ∧
        o'.known = node :: o.known := by
  obtain ⟨node, hnode⟩ : ∃ node, node = source.next d.known := ⟨_, rfl⟩
  have hread : (Edit.read fun d : GraphDoc => (.ok (source.next d.known) :
      Except CoreError BlockId)).run d = (.ok node, d) := by
    rw [hnode]
    rfl
  refine .after hread ?_
  by_cases hknown : node ∈ o.known
  · have hrefused : o.createAt node parent index = .error .loro := dif_neg fun h => h.1 hknown
    refine .bind (.of_error (run_inOutline_error (f := (·.createAt node parent index)) ho hrefused)
      (hE ?_))
    by_contra hlt
    exact source.fresh d.known (Nat.lt_of_not_le hlt) (hnode ▸ known_of_outline ho hknown)
  · obtain ⟨o₁, hcreate, htree, hissued, hmeta⟩ : ∃ o₁, o.createAt node parent index = .ok o₁ ∧
        o₁.tree = mapRow parent (insertAt (single node .nil) index) o.tree ∧
        o₁.known = node :: o.known ∧ o₁.metas node = {} :=
      ⟨_, dif_pos ⟨hknown, hparent, hindex⟩, rfl, rfl, if_pos rfl⟩
    have hmem : node ∈ o₁.tree.labels := by
      rw [htree, (Outline.nodup_create index hknown hparent).1.mem_iff]
      exact List.mem_cons_self ..
    refine .after (run_inOutline (f := (·.createAt node parent index)) ho hcreate) ?_
    have ho₁ : (d.putOutline owner o₁).outline owner = .ok o₁ := GraphDoc.outline_putOutline ho
    have htext : (inText owner node fun _ => .ok (plainPieces content)).run
        (d.putOutline owner o₁) = (.ok (), d.putOutline owner
          (o₁.setContent node (plainPieces content))) := by
      rw [run_inText (f := fun _ => .ok (plainPieces content)) ho₁ hmem rfl,
        GraphDoc.putOutline_putOutline]
    refine .after htext ?_
    obtain ⟨o₂, ho₂⟩ : ∃ o₂, o₂ = o₁.setContent node (plainPieces content) := ⟨_, rfl⟩
    rw [← ho₂]
    have houtline₂ : (d.putOutline owner o₂).outline owner = .ok o₂ :=
      GraphDoc.outline_putOutline ho
    have hmem₂ : node ∈ o₂.tree.labels := by
      rw [ho₂]
      exact hmem
    have hbag : (o₂.metas node).properties = ∅ := by
      rw [ho₂]
      unfold Outline.setContent
      rw [Outline.metas_setMeta_same, hmeta]
    have hcreated : (o₂.metas node).properties.get createdAtKey = none := by
      rw [hbag]
      rfl
    have hupdated : (o₂.metas node).properties.get updatedAtKey = none := by
      rw [hbag]
      rfl
    obtain ⟨bag, hlife, -⟩ := run_initializeLifecycle now hcreated hupdated
    have hrun := run_inBag_block (y := initializeLifecycle now) houtline₂ hmem₂
    rw [hlife, GraphDoc.putOutline_putOutline] at hrun
    refine .after hrun (.of_ok rfl ⟨hknown, _, rfl, ?_, ?_⟩)
    · rw [Outline.tree_setMeta, ho₂, Outline.tree_setContent, htree]
    · rw [Outline.known_setMeta, ho₂, Outline.known_setContent, hissued]

/-! ## The loop -/

/-- Depths that begin at `limit` at most and go up by one at most. -/
def Deepens : (limit : Nat) → List Nat → Prop
  | _, [] => True
  | limit, depth :: rest => depth ≤ limit ∧ Deepens (depth + 1) rest

theorem deepens_of_validateItemDepths {operation : String} {items : List (Nat × Text)}
    {previousDepth totalText : Nat}
    (h : validateItemDepths operation items previousDepth totalText = .ok ()) :
    Deepens (previousDepth + 1) (items.map Prod.fst) := by
  induction items generalizing previousDepth totalText with
  | nil => trivial
  | cons item rest ih =>
    obtain ⟨depth, markdown⟩ := item
    unfold validateItemDepths at h
    by_cases hdeep : depth > previousDepth + 1
    · rw [if_pos hdeep] at h
      cases h
    · rw [if_neg hdeep] at h
      obtain ⟨_, _, h⟩ := bind_eq_ok.mp h
      by_cases htext : totalText + utf8Len markdown > maxBlockTextBytes
      · rw [if_pos htext] at h
        cases h
      · rw [if_neg htext] at h
        exact ⟨Nat.le_of_not_lt hdeep, ih h⟩

/-- A list that is accepted begins at depth zero. -/
theorem deepens_of_validateOutlineItems {operation : String} {items : List (Nat × Text)}
    (h : validateOutlineItems items operation = .ok ()) : Deepens 0 (items.map Prod.fst) := by
  unfold validateOutlineItems at h
  by_cases hempty : items.isEmpty
  · rw [if_pos hempty] at h
    cases h
  by_cases hlong : items.length > Outline.maxStructuralTargets
  · rw [if_neg hempty, if_pos hlong] at h
    cases h
  by_cases hhead : (items.head?.any fun item => item.1 != 0) = true
  · rw [if_neg hempty, if_neg hlong, if_pos hhead] at h
    cases h
  rw [if_neg hempty, if_neg hlong, if_neg hhead] at h
  have hdeep := deepens_of_validateItemDepths h
  cases items with
  | nil => trivial
  | cons item rest =>
    have hzero : item.1 = 0 := by simpa using hhead
    exact ⟨Nat.le_of_eq hzero, hdeep.2⟩

variable {o₀ : Outline} {old : Option (BlockId × Forest BlockId)} {z : List (Frame BlockId)}
  {l r f : Forest BlockId} {state : InsertState}

/-- What the loop has made of an outline. `f` is the forest of the nodes it has put behind one
another, and it takes the place of `old`. -/
structure Building (o₀ : Outline) (old : Option (BlockId × Forest BlockId))
    (z : List (Frame BlockId)) (l r f : Forest BlockId) (state : InsertState) (o : Outline) :
    Prop where
  tree : o.tree = plug z (l ++ (hang old f ++ r))
  forest : f.labels.Nodup
  begins : ∀ e ∈ old, f.labels.head? = some e.1
  hung : Hung old f
  fresh : ∀ y ∈ f.labels, y ∈ o₀.known → ∃ e ∈ old, y = e.1
  known : o₀.known ⊆ o.known
  made : o.known = (f.labels.drop old.toList.length).reverse ++ o₀.known
  levels : state.levels = spine f
  counted : ∀ e ∈ state.insertedChildren, e.1 ∈ f.labels
  counts : ∀ y ∈ f.labels,
    (state.insertedChildren.lookup y).getD 0 = (under y f).roots.length
  offset : state.rootOffset = f.roots.length
  last : state.lastCreated = f.labels.getLast?

/-- The state for the next item. -/
def InsertState.next (state : InsertState) (depth : Nat) (node : BlockId) : InsertState :=
  { state with levels := state.levels.take depth ++ [node], lastCreated := some node }

theorem Building.congr (h : Building o₀ old z l r f state o) (htree : o'.tree = o.tree)
    (hknown : o'.known = o.known) : Building o₀ old z l r f state o' where
  tree := htree.trans h.tree
  forest := h.forest
  begins := h.begins
  hung := h.hung
  fresh := h.fresh
  known := hknown ▸ h.known
  made := hknown ▸ h.made
  levels := h.levels
  counted := h.counted
  counts := h.counts
  offset := h.offset
  last := h.last

theorem Building.mem (h : Building o₀ old z l r f state o) {y : BlockId} (hy : y ∈ f.labels) :
    y ∈ o.tree.labels := by
  rw [h.tree]
  simp [labels_plug, mem_labels_hang h.hung h.forest hy]

theorem Building.length_old (h : Building o₀ old z l r f state o) :
    old.toList.length ≤ f.labels.length := by
  cases old with
  | none => exact Nat.zero_le _
  | some e =>
    have hhead := h.begins e rfl
    cases hf : f.labels with
    | nil =>
      rw [hf] at hhead
      cases hhead
    | cons a rest => exact Nat.succ_le_succ (Nat.zero_le _)

/-- One more node behind the others. -/
theorem Building.snoc (h : Building o₀ old z l r f state o) {node : BlockId} {depth : Nat}
    {insertedChildren : List (BlockId × Nat)} {rootOffset : Nat} (hnode : node ∉ o.known)
    (hdepth : depth ≤ (spine f).length)
    (htree : o'.tree = plug z (l ++ (hang old (Forest.snoc node depth f) ++ r)))
    (hknown : o'.known = node :: o.known)
    (hcounted : ∀ e ∈ insertedChildren, e.1 ∈ f.labels)
    (hcounts : ∀ y ∈ f.labels, (insertedChildren.lookup y).getD 0 =
      (under y (Forest.snoc node depth f)).roots.length)
    (hoffset : rootOffset = (Forest.snoc node depth f).roots.length) :
    Building o₀ old z l r (Forest.snoc node depth f)
      (InsertState.next { state with insertedChildren, rootOffset } depth node) o' := by
  have hf : node ∉ f.labels := fun hm => hnode (o.issued _ (h.mem hm))
  have hlabels := labels_snoc (x := node) hdepth h.forest
  have hlookup : insertedChildren.lookup node = none := by
    cases hl : insertedChildren.lookup node with
    | none => rfl
    | some n =>
      obtain ⟨left, right, he, -⟩ := List.lookup_eq_some_iff.mp hl
      exact absurd (hcounted (node, n) (by rw [he]; simp)) hf
  refine ⟨htree, ?_, ?_, ?_, ?_, ?_, ?_, ?_, ?_, ?_, hoffset, ?_⟩
  · rw [hlabels]
    exact List.nodup_append.mpr ⟨h.forest, List.nodup_singleton _, fun a ha b hb he =>
      hf (List.mem_singleton.mp hb ▸ he ▸ ha)⟩
  · intro e he
    rw [hlabels, List.head?_append, h.begins e he]
    rfl
  · intro e he
    obtain ⟨hb, hkids⟩ := h.hung e he
    rw [hlabels]
    refine ⟨List.mem_append_left _ hb, fun y hy hm => ?_⟩
    rcases List.mem_append.mp hm with hm | hm
    · exact hkids y hy hm
    · refine hnode (o.issued _ ?_)
      obtain rfl : y = node := List.mem_singleton.mp hm
      have hin : y ∈ (hang old f).labels := by
        rw [Option.mem_def.mp he]
        exact (labels_perm_graft _ hb h.forest).mem_iff.mpr (List.mem_append_left _ hy)
      rw [h.tree]
      simp [labels_plug, hin]
  · intro y hy hold
    rw [hlabels] at hy
    rcases List.mem_append.mp hy with hy | hy
    · exact h.fresh y hy hold
    · rw [List.mem_singleton.mp hy] at hold
      exact absurd (h.known hold) hnode
  · rw [hknown]
    exact fun y hy => List.mem_cons_of_mem _ (h.known hy)
  · rw [hknown, hlabels, List.drop_append_of_le_length h.length_old, List.reverse_append, h.made]
    rfl
  · show state.levels.take depth ++ [node] = _
    rw [h.levels, spine_snoc hdepth h.forest]
  · intro e he
    rw [hlabels]
    exact List.mem_append_left _ (hcounted e he)
  · intro y hy
    rw [hlabels] at hy
    rcases List.mem_append.mp hy with hy | hy
    · exact hcounts y hy
    · rw [List.mem_singleton.mp hy]
      show (insertedChildren.lookup node).getD 0 = _
      rw [hlookup, under_snoc_self hdepth h.forest hf]
      rfl
  · show some node = _
    rw [hlabels, List.getLast?_append]
    rfl

variable {E : CoreError → Prop} {base : Option BlockId} {baseIndex : Nat}

/-- The place of the run among the children of the base. -/
structure RunAt (base : Option BlockId) (baseIndex : Nat) (z : List (Frame BlockId))
    (l r : Forest BlockId) : Prop where
  base : ownerOf z = base
  index : l.roots.length = min baseIndex (l.roots.length + r.roots.length)

/-- An item becomes a node behind the others at its depth. -/
def Places (host : Host) (source : IdSource) (now : Timestamp) (owner : OutlineOwner)
    (base : Option BlockId) (baseIndex : Nat) (E : CoreError → Prop) (d : GraphDoc)
    (o₀ : Outline) (old : Option (BlockId × Forest BlockId)) (z : List (Frame BlockId))
    (l r f : Forest BlockId) (state : InsertState) (o : Outline) (item : PlannedOutlineItem) :
    Prop :=
  (insertItem host source now owner base baseIndex none state item).Ends E d fun result d' =>
    ∃ o', d' = d.putOutline owner o' ∧ o'.known = result.1 :: o.known ∧
      Building o₀ old z l r (Forest.snoc result.1 item.depth f)
        (InsertState.next result.2 item.depth result.1) o'

/-- A root goes behind the roots that the run has. -/
theorem Building.places_root {item : PlannedOutlineItem} (h : Building o₀ old z l r f state o)
    (hat : RunAt base baseIndex z l r) (ho : d.outline owner = .ok o) (hzero : item.depth = 0)
    (hplace : baseIndex + state.rootOffset < host.usizeCount)
    (hE : source.capacity ≤ d.known.length → E .loro) :
    Places host source now owner base baseIndex E d o₀ old z l r f state o item := by
  have hn := h.tree ▸ o.nodup
  have hfresh {node : BlockId} (hnode : node ∉ o.known) : node ∉ f.labels :=
    fun hm => hnode (o.issued _ (h.mem hm))
  unfold Places insertItem
  dsimp only
  rw [if_pos hzero]
  have hcount : o.count base = l.roots.length + (f.roots.length + r.roots.length) := by
    unfold Outline.count
    rw [h.tree, ← hat.base, row_owner hn, roots_append, roots_append, roots_hang]
    simp
  have hread : (Edit.read fun d : GraphDoc => (d.outline owner).map fun o => o.count base).run d =
      (.ok (o.count base), d) := by
    refine Edit.run_read ?_
    rw [ho]
    rfl
  refine .after hread ?_
  have hindex : min ((baseIndex + state.rootOffset) % host.usizeCount) (o.count base) =
      l.roots.length + f.roots.length := by
    have hlen := hat.index
    rw [Nat.mod_eq_of_lt hplace, hcount, h.offset]
    omega
  rw [hindex]
  have hparent : ∀ p ∈ base, p ∈ o.tree.labels := by
    intro p hp
    rw [h.tree]
    refine mem_of_row (row_owner hn) p ?_
    rw [hat.base]
    exact hp
  refine .bind ((ends_createNode ho hparent (by rw [hcount]; omega) hE).imp ?_)
  rintro node d' ⟨hnode, o', rfl, htree, hknown⟩
  refine .of_ok rfl ⟨o', rfl, hknown, ?_⟩
  rw [hzero]
  refine h.snoc hnode (Nat.zero_le _) ?_ hknown h.counted ?_ ?_
  · rw [htree, h.tree, ← hat.base]
    exact insert_root h.hung (hfresh hnode) hn
  · intro y hy
    rw [kids_snoc (Nat.zero_le _) h.forest (hfresh hnode) hy, if_neg (by omega), List.append_nil]
    exact h.counts y hy
  · show state.rootOffset + 1 = (f ++ single node nil).roots.length
    rw [h.offset, roots_append, List.length_append]
    rfl

/-- A deeper item goes behind the children that the last node above its depth has. -/
theorem Building.places_child {item : PlannedOutlineItem} (h : Building o₀ old z l r f state o)
    (ho : d.outline owner = .ok o) {k : Nat} (hk : item.depth = k + 1)
    (hdepth : k + 1 ≤ (spine f).length) (hE : source.capacity ≤ d.known.length → E .loro) :
    Places host source now owner base baseIndex E d o₀ old z l r f state o item := by
  have hn := h.tree ▸ o.nodup
  have hfresh {node : BlockId} (hnode : node ∉ o.known) : node ∉ f.labels :=
    fun hm => hnode (o.issued _ (h.mem hm))
  unfold Places insertItem
  dsimp only
  rw [hk, if_neg (Nat.succ_ne_zero k)]
  have hp := List.getElem?_eq_getElem (show k < (spine f).length from hdepth)
  obtain ⟨p, hpdef⟩ : ∃ p, p = (spine f)[k] := ⟨_, rfl⟩
  rw [← hpdef] at hp
  have hpf := spine_subset f (List.mem_of_getElem? hp)
  have hread : (Edit.read fun _ : GraphDoc => orElse state.levels[k + 1 - 1]?
      (CoreError.invalidHierarchy "outline insert skips a depth")).run d = (.ok p, d) := by
    refine Edit.run_read ?_
    rw [Nat.add_sub_cancel, h.levels, hp]
    rfl
  refine .after hread ?_
  have hcount : o.count (some p) = (under p (hang old f)).roots.length := by
    unfold Outline.count
    rw [h.tree, row_place hn (mem_labels_hang h.hung h.forest hpf)]
    rfl
  rw [h.counts p hpf]
  have hparent : ∀ q ∈ some p, q ∈ o.tree.labels := by
    intro q hq
    obtain rfl := Option.some.inj hq
    exact h.mem hpf
  have hindex : (under p f).roots.length ≤ o.count (some p) := by
    rw [hcount]
    exact length_kids_hang h.hung h.forest hpf
  refine .bind ((ends_createNode ho hparent hindex hE).imp ?_)
  rintro node d' ⟨hnode, o', rfl, htree, hknown⟩
  refine .of_ok rfl ⟨o', rfl, hknown, ?_⟩
  refine h.snoc hnode hdepth ?_ hknown ?_ ?_ ?_
  · rw [htree, h.tree]
    exact insert_child h.hung h.forest (hfresh hnode) hp hn
  · intro e he
    rcases List.mem_cons.mp he with rfl | he
    · exact hpf
    · exact h.counted e he
  · intro y hy
    rw [kids_snoc hdepth h.forest (hfresh hnode) hy, Nat.add_sub_cancel, hp, List.lookup_cons]
    by_cases hyp : y = p
    · subst hyp
      rw [if_pos ⟨Nat.succ_pos k, rfl⟩, beq_self_eq_true]
      simp
    · rw [if_neg fun hs => hyp (Option.some.inj hs.2).symm, List.append_nil,
        beq_false_of_ne hyp]
      exact h.counts y hy
  · show state.rootOffset = _
    rw [h.offset, snoc_succ hp, roots_graft]

theorem Building.ends_insertItem {item : PlannedOutlineItem}
    (h : Building o₀ old z l r f state o) (hat : RunAt base baseIndex z l r)
    (ho : d.outline owner = .ok o) (hdepth : item.depth ≤ (spine f).length)
    (hplace : item.depth = 0 → baseIndex + state.rootOffset < host.usizeCount)
    (hE : source.capacity ≤ d.known.length → E .loro) :
    Places host source now owner base baseIndex E d o₀ old z l r f state o item := by
  by_cases hzero : item.depth = 0
  · exact h.places_root hat ho hzero (hplace hzero) hE
  · obtain ⟨k, hk⟩ : ∃ k, item.depth = k + 1 := Nat.exists_eq_succ_of_ne_zero hzero
    exact h.places_child ho hk (hk ▸ hdepth) hE

/-- The decoration of a node with an item can end in the error. -/
def DecorationFails (host : Host) (owner : OutlineOwner) (item : PlannedOutlineItem)
    (e : CoreError) : Prop :=
  ∃ d o node d', GraphDoc.outline d owner = .ok o ∧ node ∈ o.tree.labels ∧
    (decorate host owner node item).run d = (.error e, d')

/-- A node is decorated and touched, and the outline keeps its nodes. -/
theorem ends_decorate {node : BlockId} {item : PlannedOutlineItem}
    (ho : d.outline owner = .ok o) (hnode : node ∈ o.tree.labels)
    (hE : ∀ e, DecorationFails host owner item e → E e) :
    (decorate host owner node item).Ends E d fun _ d₁ =>
      (touchBlock now owner node).Ends E d₁ fun _ d' =>
        ∃ o', d' = d.putOutline owner o' ∧ o'.tree = o.tree ∧ o'.known = o.known := by
  have hdecorate := (sameNodes_decorate (b := node) host : Edit.Keeps (SameNodes owner)
    (decorate host owner node item)).ends (s := d) (E := E) fun e t he =>
      hE e ⟨d, o, node, t, ho, hnode, he⟩
  refine hdecorate.imp fun _ d₁ hsame => ?_
  obtain ⟨o₁, rfl, htree, hknown⟩ := hsame o ho
  have ho₁ : (d.putOutline owner o₁).outline owner = .ok o₁ := GraphDoc.outline_putOutline ho
  obtain ⟨bag, hrun, -⟩ := run_touchBlock now ho₁ (htree ▸ hnode)
  rw [GraphDoc.putOutline_putOutline] at hrun
  exact .of_ok hrun ⟨_, rfl, htree, hknown⟩

/-- One item of the loop, and the rest of the loop after it. -/
theorem ends_insertItems_cons {item : PlannedOutlineItem} {rest : List PlannedOutlineItem}
    {P : BlockId × InsertState → Outline → Prop} {Q : Option BlockId → GraphDoc → Prop}
    (ho : d.outline owner = .ok o)
    (hitem : (insertItem host source now owner base baseIndex none state item).Ends E d
      fun result d' => ∃ o', d' = d.putOutline owner o' ∧ result.1 ∈ o'.tree.labels ∧ P result o')
    (hdecorate : ∀ e, DecorationFails host owner item e → E e)
    (hrest : ∀ result o' o'', P result o' → o''.tree = o'.tree → o''.known = o'.known →
      (insertItems host source now owner base baseIndex rest none
        (InsertState.next result.2 item.depth result.1)).Ends E (d.putOutline owner o'') Q) :
    (insertItems host source now owner base baseIndex (item :: rest) none state).Ends E d Q := by
  unfold insertItems
  refine .bind (hitem.imp ?_)
  rintro ⟨node, state₁⟩ d₁ ⟨o₁, rfl, hnode, hP⟩
  have ho₁ : (d.putOutline owner o₁).outline owner = .ok o₁ := GraphDoc.outline_putOutline ho
  refine .bind ((ends_decorate ho₁ hnode hdecorate).imp fun _ _ htouch => .bind (htouch.imp ?_))
  rintro - d₂ ⟨o₂, rfl, htree₂, hknown₂⟩
  rw [GraphDoc.putOutline_putOutline]
  exact hrest (node, state₁) o₁ o₂ hP htree₂ hknown₂

/-- How many items there are at depth zero. -/
def rootCount (items : List PlannedOutlineItem) : Nat := items.countP (·.depth = 0)

theorem rootCount_cons (item : PlannedOutlineItem) (rest : List PlannedOutlineItem) :
    rootCount (item :: rest) = rootCount rest + if item.depth = 0 then 1 else 0 := by
  unfold rootCount
  rw [List.countP_cons]
  simp only [decide_eq_true_eq]

/-- One item behind the others, and the rest of the loop after it. -/
theorem Building.ends_cons {item : PlannedOutlineItem}
    {rest : List PlannedOutlineItem} {Q : Option BlockId → GraphDoc → Prop}
    (h : Building o₀ old z l r f state o) (hat : RunAt base baseIndex z l r)
    (ho : d.outline owner = .ok o) (hdepth : item.depth ≤ (spine f).length)
    (hplace : item.depth = 0 → baseIndex + state.rootOffset < host.usizeCount)
    (hE : source.capacity ≤ d.known.length → E .loro)
    (hdecorate : ∀ e, DecorationFails host owner item e → E e)
    (hrest : ∀ node state' o', Building o₀ old z l r (Forest.snoc node item.depth f) state' o' →
      state'.rootOffset = state.rootOffset + (if item.depth = 0 then 1 else 0) →
      (d.putOutline owner o').known.length = d.known.length + 1 →
      (insertItems host source now owner base baseIndex rest none state').Ends E
        (d.putOutline owner o') Q) :
    (insertItems host source now owner base baseIndex (item :: rest) none state).Ends E d Q := by
  refine ends_insertItems_cons (P := fun result o' => o'.known = result.1 :: o.known ∧
      Building o₀ old z l r (Forest.snoc result.1 item.depth f)
        (InsertState.next result.2 item.depth result.1) o') ho
    ((h.ends_insertItem hat ho hdepth hplace hE).imp ?_) hdecorate ?_
  · rintro result d₁ ⟨o₁, rfl, hknown, h₁⟩
    refine ⟨o₁, rfl, h₁.mem ?_, hknown, h₁⟩
    rw [labels_snoc hdepth h.forest]
    exact List.mem_append_right _ (List.mem_singleton_self _)
  · rintro result o₁ o₂ ⟨hknown₁, h₁⟩ htree₂ hknown₂
    refine hrest result.1 _ o₂ (h₁.congr htree₂ hknown₂) ?_ ?_
    · rw [h₁.offset, length_roots_snoc hdepth, ← h.offset]
    · have hlen := length_known_putOutline o₂ ho
      rw [hknown₂, hknown₁, List.length_cons] at hlen
      omega

/-- The loop puts all items behind the nodes that are there, when the sums do not wrap. -/
theorem Building.ends_insertItems {items : List PlannedOutlineItem}
    (h : Building o₀ old z l r f state o) (hat : RunAt base baseIndex z l r)
    (ho : d.outline owner = .ok o)
    (hdeepens : Deepens (spine f).length (items.map PlannedOutlineItem.depth))
    (hplaces : baseIndex + state.rootOffset + rootCount items ≤ host.usizeCount)
    (hids : source.capacity < d.known.length + items.length → E .loro)
    (hdecorate : ∀ item ∈ items, ∀ e, DecorationFails host owner item e → E e) :
    (insertItems host source now owner base baseIndex items none state).Ends E d
      fun created d' => ∃ o' f' state', d' = d.putOutline owner o' ∧
        Building o₀ old z l r f' state' o' ∧ created = f'.labels.getLast? ∧
        (f'.depths 0).map Prod.snd =
          (f.depths 0).map Prod.snd ++ items.map PlannedOutlineItem.depth := by
  induction items generalizing d o f state with
  | nil =>
    refine .of_ok rfl ⟨o, f, state, (GraphDoc.putOutline_self ho).symm, h, h.last, ?_⟩
    rw [List.map_nil, List.append_nil]
  | cons item rest ih =>
    obtain ⟨hdepth, hdeepens⟩ := hdeepens
    rw [List.length_cons] at hids
    rw [rootCount_cons] at hplaces
    refine h.ends_cons hat ho hdepth ?_ (fun hcap => hids (by omega))
      (hdecorate item (List.mem_cons_self ..)) ?_
    · intro hzero
      rw [if_pos hzero] at hplaces
      omega
    · intro node state' o' h' hoffset hlen
      refine (ih h' (GraphDoc.outline_putOutline ho) ?_ (by omega) (fun hcap => hids (by omega))
        fun item hitem => hdecorate item (List.mem_cons_of_mem _ hitem)).imp ?_
      · rw [spine_snoc hdepth h.forest]
        simpa [Nat.min_eq_left hdepth] using hdeepens
      · rintro created d₃ ⟨o₃, f', state₃, rfl, hbuilding, hcreated, hdepths⟩
        refine ⟨o₃, f', state₃, GraphDoc.putOutline_putOutline .., hbuilding, hcreated, ?_⟩
        rw [hdepths, depths_snoc hdepth h.forest, List.map_append, List.append_assoc]
        rfl

/-! ## A sum that wraps

An item whose sum wraps goes to the front of the children of the base, and the items after it go
anywhere. -/

/-- What an item needs, wherever the nodes before it went. -/
structure Underway (base : Option BlockId) (state : InsertState) (o : Outline) : Prop where
  base : ∀ p ∈ base, p ∈ o.tree.labels
  levels : ∀ p ∈ state.levels, p ∈ o.tree.labels
  counted : ∀ e ∈ state.insertedChildren, e.1 ∈ o.tree.labels
  counts : ∀ p ∈ o.tree.labels, (state.insertedChildren.lookup p).getD 0 ≤ o.count (some p)

theorem Underway.congr (h : Underway base state o) (htree : o'.tree = o.tree) :
    Underway base state o' where
  base := htree ▸ h.base
  levels := htree ▸ h.levels
  counted := htree ▸ h.counted
  counts := by
    unfold Outline.count
    rw [htree]
    exact h.counts

theorem Building.underway (h : Building o₀ old z l r f state o)
    (hat : RunAt base baseIndex z l r) : Underway base state o where
  base := by
    intro p hp
    rw [h.tree]
    refine mem_of_row (row_owner (h.tree ▸ o.nodup)) p ?_
    rw [hat.base]
    exact hp
  levels := by
    intro p hp
    rw [h.levels] at hp
    exact h.mem (spine_subset f hp)
  counted := fun e he => h.mem (h.counted e he)
  counts := by
    intro p _
    by_cases hp : p ∈ f.labels
    · unfold Outline.count
      rw [h.counts p hp, h.tree,
        row_place (h.tree ▸ o.nodup) (mem_labels_hang h.hung h.forest hp)]
      exact length_kids_hang h.hung h.forest hp
    · cases hlookup : state.insertedChildren.lookup p with
      | none => exact Nat.zero_le _
      | some n =>
        obtain ⟨left, right, he, -⟩ := List.lookup_eq_some_iff.mp hlookup
        exact absurd (h.counted (p, n) (by rw [he]; simp)) hp

/-- A new node anywhere in an outline. -/
structure Sprouts (o : Outline) (node : BlockId) (parent : Option BlockId) (index : Nat)
    (o' : Outline) : Prop where
  fresh : node ∉ o.known
  tree : o'.tree = mapRow parent (insertAt (single node nil) index) o.tree
  known : o'.known = node :: o.known
  parent : ∀ p ∈ parent, p ∈ o.tree.labels

section Sprouts
variable {node : BlockId} {parent : Option BlockId} {index : Nat}

theorem Sprouts.exists_insert (h : Sprouts o node parent index o') :
    ∃ z l r, o.tree = plug z (l ++ r) ∧ o'.tree = plug z (l ++ (single node nil ++ r)) ∧
      ownerOf z = parent ∧ l.roots.length = min index (o.count parent) := by
  obtain ⟨z, l, r, he, hz, hinsert, hl⟩ :=
    Forest.exists_insert (single node nil) index o.nodup h.parent
  refine ⟨z, l, r, he, h.tree.trans hinsert, hz, ?_⟩
  unfold Outline.count
  rw [hl, he, ← hz, row_owner (he ▸ o.nodup)]
  rfl

theorem Sprouts.sublist (h : Sprouts o node parent index o') :
    o.tree.labels.Sublist o'.tree.labels := by
  obtain ⟨z, l, r, he, he', -⟩ := h.exists_insert
  rw [he, he']
  exact labels_sublist_insert z l _ r

theorem Sprouts.mem (h : Sprouts o node parent index o') : node ∈ o'.tree.labels := by
  obtain ⟨z, l, r, -, he', -⟩ := h.exists_insert
  rw [he']
  simp [labels_plug]

theorem Sprouts.count (h : Sprouts o node parent index o') {p : BlockId}
    (hp : p ∈ o.tree.labels) :
    o'.count (some p) = o.count (some p) + if some p = parent then 1 else 0 := by
  obtain ⟨z, l, r, he, he', rfl, -⟩ := h.exists_insert
  unfold Outline.count
  rw [he, he', ← length_row_insert (he' ▸ o'.nodup)]
  · rfl
  · intro y hy hm
    obtain rfl := Option.some.inj hy
    obtain rfl : p = node := by simpa [single] using hm
    exact h.fresh (o.issued p hp)

/-- At the front of a row a node comes before all that is in the row. -/
theorem Sprouts.front (h : Sprouts o node parent 0 o') {b : BlockId}
    (hb : b ∈ (row parent o.tree).getD []) : [node, b].Sublist o'.tree.labels := by
  obtain ⟨z, l, r, he, he', rfl, hl⟩ := h.exists_insert
  have hnil : l.roots = [] := List.eq_nil_of_length_eq_zero (by omega)
  rw [he, row_owner (he ▸ o.nodup), roots_append, hnil] at hb
  rw [he', labels_plug]
  have hmem : b ∈ r.labels := mem_labels_of_mem_roots hb
  have hpair : [node, b].Sublist (node :: r.labels) :=
    (List.singleton_sublist.mpr hmem).cons_cons node
  simp only [labels_append, labels_single, labels_nil, List.append_assoc]
  refine .trans ?_ (List.sublist_append_right _ _)
  refine .trans ?_ (List.sublist_append_right _ _)
  exact hpair.trans (List.sublist_append_left (node :: r.labels) _)

theorem Underway.next (h : Underway base state o) (hs : Sprouts o node parent index o')
    {depth : Nat} {insertedChildren : List (BlockId × Nat)} {rootOffset : Nat}
    (hcounted : ∀ e ∈ insertedChildren, e.1 ∈ o.tree.labels)
    (hcounts : ∀ p ∈ o.tree.labels, (insertedChildren.lookup p).getD 0 ≤ o'.count (some p)) :
    Underway base (InsertState.next { state with insertedChildren, rootOffset } depth node) o' where
  base := fun p hp => hs.sublist.subset (h.base p hp)
  levels := by
    intro p hp
    rcases List.mem_append.mp hp with hp | hp
    · exact hs.sublist.subset (h.levels p (List.mem_of_mem_take hp))
    · rw [List.mem_singleton.mp hp]
      exact hs.mem
  counted := fun e he => hs.sublist.subset (hcounted e he)
  counts := by
    intro p _
    by_cases hp : p ∈ o.tree.labels
    · exact hcounts p hp
    · show (insertedChildren.lookup p).getD 0 ≤ _
      cases hlookup : insertedChildren.lookup p with
      | none => exact Nat.zero_le _
      | some n =>
        obtain ⟨left, right, he, -⟩ := List.lookup_eq_some_iff.mp hlookup
        exact absurd (hcounted (p, n) (by rw [he]; simp)) hp

end Sprouts

/-- An item becomes a node somewhere, and a root goes where the sum says. -/
theorem Underway.ends_insertItem {item : PlannedOutlineItem} (h : Underway base state o)
    (ho : d.outline owner = .ok o) (hdepth : item.depth ≤ state.levels.length)
    (hE : source.capacity ≤ d.known.length → E .loro) :
    (insertItem host source now owner base baseIndex none state item).Ends E d fun result d' =>
      ∃ o', d' = d.putOutline owner o' ∧
        (∃ parent index, Sprouts o result.1 parent index o' ∧ (item.depth = 0 → parent = base ∧
          index = min ((baseIndex + state.rootOffset) % host.usizeCount) (o.count base))) ∧
        Underway base (InsertState.next result.2 item.depth result.1) o' ∧
        result.2.levels = state.levels := by
  unfold insertItem
  dsimp only
  by_cases hzero : item.depth = 0
  · rw [if_pos hzero]
    have hread : (Edit.read fun d : GraphDoc => (d.outline owner).map fun o => o.count base).run d =
        (.ok (o.count base), d) := by
      refine Edit.run_read ?_
      rw [ho]
      rfl
    refine .after hread (.bind ((ends_createNode ho h.base (Nat.min_le_right _ _) hE).imp ?_))
    rintro node d' ⟨hnode, o', rfl, htree, hknown⟩
    have hs : Sprouts o node base _ o' := ⟨hnode, htree, hknown, h.base⟩
    refine .of_ok rfl ⟨o', rfl, ⟨base, _, hs, fun _ => ⟨rfl, rfl⟩⟩, h.next hs h.counted ?_, rfl⟩
    intro p hp
    rw [hs.count hp]
    exact Nat.le_add_right_of_le (h.counts p hp)
  · rw [if_neg hzero]
    obtain ⟨k, hk⟩ : ∃ k, item.depth = k + 1 := Nat.exists_eq_succ_of_ne_zero hzero
    rw [hk] at hdepth ⊢
    have hp := List.getElem?_eq_getElem (show k < state.levels.length from hdepth)
    obtain ⟨p, hpdef⟩ : ∃ p, p = state.levels[k] := ⟨_, rfl⟩
    rw [← hpdef] at hp
    have hmem := h.levels p (List.mem_of_getElem? hp)
    have hread : (Edit.read fun _ : GraphDoc => orElse state.levels[k + 1 - 1]?
        (CoreError.invalidHierarchy "outline insert skips a depth")).run d = (.ok p, d) := by
      refine Edit.run_read ?_
      rw [Nat.add_sub_cancel, hp]
      rfl
    have hparent : ∀ q ∈ some p, q ∈ o.tree.labels := by
      intro q hq
      obtain rfl := Option.some.inj hq
      exact hmem
    refine .after hread (.bind ((ends_createNode ho hparent (h.counts p hmem) hE).imp ?_))
    rintro node d' ⟨hnode, o', rfl, htree, hknown⟩
    have hs : Sprouts o node (some p) _ o' := ⟨hnode, htree, hknown, hparent⟩
    refine .of_ok rfl ⟨o', rfl, ⟨some p, _, hs, fun he => absurd he (Nat.succ_ne_zero k)⟩,
      h.next hs ?_ ?_, rfl⟩
    · intro e he
      rcases List.mem_cons.mp he with rfl | he
      · exact hmem
      · exact h.counted e he
    · intro q hq
      have hcount := h.counts q hq
      rw [hs.count hq, List.lookup_cons]
      by_cases hqp : q = p
      · subst hqp
        rw [beq_self_eq_true, if_pos rfl]
        exact Nat.succ_le_succ hcount
      · rw [beq_false_of_ne hqp]
        exact Nat.le_add_right_of_le hcount

theorem InsertState.length_levels_next {next : InsertState} {depth : Nat} {node : BlockId}
    (hlevels : next.levels = state.levels) (hdepth : depth ≤ state.levels.length) :
    (next.next depth node).levels.length = depth + 1 := by
  show (next.levels.take depth ++ [node]).length = _
  rw [hlevels, List.length_append, List.length_take, Nat.min_eq_left hdepth]
  rfl

/-- The loop goes on, and what was there keeps its order. -/
theorem Underway.ends_insertItems {items : List PlannedOutlineItem} (h : Underway base state o)
    (ho : d.outline owner = .ok o)
    (hdeepens : Deepens state.levels.length (items.map PlannedOutlineItem.depth))
    (hids : source.capacity < d.known.length + items.length → E .loro)
    (hdecorate : ∀ item ∈ items, ∀ e, DecorationFails host owner item e → E e) :
    (insertItems host source now owner base baseIndex items none state).Ends E d fun _ d' =>
      ∃ o' made, d' = d.putOutline owner o' ∧ o'.known = List.reverse made ++ o.known ∧
        o.tree.labels.Sublist o'.tree.labels := by
  induction items generalizing d o state with
  | nil =>
    exact .of_ok rfl ⟨o, [], (GraphDoc.putOutline_self ho).symm, rfl, List.Sublist.refl _⟩
  | cons item rest ih =>
    obtain ⟨hdepth, hdeepens⟩ := hdeepens
    rw [List.length_cons] at hids
    refine ends_insertItems_cons (P := fun result o' =>
        (∃ parent index, Sprouts o result.1 parent index o') ∧
        Underway base (InsertState.next result.2 item.depth result.1) o' ∧
        result.2.levels = state.levels) ho
      ((h.ends_insertItem ho hdepth fun hcap => hids (by omega)).imp ?_)
      (hdecorate item (List.mem_cons_self ..)) ?_
    · rintro result d₁ ⟨o₁, rfl, ⟨parent, index, hs, -⟩, h₁⟩
      exact ⟨o₁, rfl, hs.mem, ⟨parent, index, hs⟩, h₁⟩
    · rintro result o₁ o₂ ⟨⟨parent, index, hs⟩, h₁, hlevels⟩ htree₂ hknown₂
      have ho₂ : (d.putOutline owner o₂).outline owner = .ok o₂ := GraphDoc.outline_putOutline ho
      have hlen := length_known_putOutline o₂ ho
      rw [hknown₂, hs.known, List.length_cons] at hlen
      refine (ih (h₁.congr htree₂) ho₂ ?_ (fun hcap => hids (by omega))
        fun item hitem => hdecorate item (List.mem_cons_of_mem _ hitem)).imp ?_
      · exact InsertState.length_levels_next hlevels hdepth ▸ hdeepens
      · rintro created d₃ ⟨o', made, rfl, hknown, hsub⟩
        refine ⟨o', result.1 :: made, GraphDoc.putOutline_putOutline .., ?_, ?_⟩
        · rw [hknown, hknown₂, hs.known, List.reverse_cons, List.append_assoc]
          rfl
        · exact hs.sublist.trans (htree₂ ▸ hsub)

/-- A node that was made later comes before the node of the first item. -/
def Overtaken (o o' : Outline) : Prop :=
  ∃ first rest x, o'.known = List.reverse (first :: rest) ++ o.known ∧ x ∈ rest ∧
    [x, first].Sublist o'.tree.labels

/-- The item at the front overtakes the run that is there. -/
theorem Building.overtaken {node : BlockId} {o₁ o₂ : Outline} {made : List BlockId}
    (h : Building o₀ none z l r f state o) (hat : RunAt base baseIndex z l r)
    (hoffset : 0 < state.rootOffset) (hs : Sprouts o node base 0 o₁)
    (hknown : o₂.known = made.reverse ++ o₁.known)
    (hsub : o₁.tree.labels.Sublist o₂.tree.labels) : Overtaken o₀ o₂ := by
  cases f with
  | nil =>
    rw [h.offset] at hoffset
    exact absurd hoffset (Nat.lt_irrefl 0)
  | node a k s =>
    refine ⟨a, k.labels ++ s.labels ++ node :: made, node, ?_, by simp, ?_⟩
    · rw [hknown, hs.known, h.made]
      simp
    · refine (hs.front (b := a) ?_).trans hsub
      rw [h.tree, ← hat.base, row_owner (h.tree ▸ o.nodup), Option.getD_some, roots_append,
        roots_append, roots_hang, roots_node]
      simp

/-- The loop does not keep the run together when a sum wraps. -/
theorem Building.ends_insertItems_wrapped {items : List PlannedOutlineItem}
    (h : Building o₀ none z l r f state o) (hat : RunAt base baseIndex z l r)
    (ho : d.outline owner = .ok o)
    (hdeepens : Deepens (spine f).length (items.map PlannedOutlineItem.depth))
    (hindex : baseIndex < host.usizeCount)
    (hfits : baseIndex + state.rootOffset ≤ host.usizeCount)
    (hover : host.usizeCount < baseIndex + state.rootOffset + rootCount items)
    (hids : source.capacity < d.known.length + items.length → E .loro)
    (hdecorate : ∀ item ∈ items, ∀ e, DecorationFails host owner item e → E e) :
    (insertItems host source now owner base baseIndex items none state).Ends E d fun _ d' =>
      ∃ o', d' = d.putOutline owner o' ∧ Overtaken o₀ o' := by
  induction items generalizing d o f state with
  | nil => exact absurd hover (Nat.not_lt_of_le hfits)
  | cons item rest ih =>
    obtain ⟨hdepth, hdeepens⟩ := hdeepens
    rw [List.length_cons] at hids
    rw [rootCount_cons] at hover
    by_cases hwrap : item.depth = 0 ∧ baseIndex + state.rootOffset = host.usizeCount
    · -- This item is the first one whose sum wraps.
      obtain ⟨hzero, hsum⟩ := hwrap
      have hunder := h.underway hat
      have hdepth : item.depth ≤ state.levels.length := hzero ▸ Nat.zero_le _
      refine ends_insertItems_cons (P := fun result o' => Sprouts o result.1 base 0 o' ∧
          Underway base (InsertState.next result.2 item.depth result.1) o' ∧
          result.2.levels = state.levels) ho
        ((hunder.ends_insertItem ho hdepth fun hcap => hids (by omega)).imp ?_)
        (hdecorate item (List.mem_cons_self ..)) ?_
      · rintro result d₁ ⟨o₁, rfl, ⟨parent, index, hs, hroot⟩, h₁⟩
        obtain ⟨rfl, rfl⟩ := hroot hzero
        rw [hsum, Nat.mod_self, Nat.zero_min] at hs
        exact ⟨o₁, rfl, hs.mem, hs, h₁⟩
      · rintro result o₁ o₂ ⟨hs, h₁, hlevels⟩ htree₂ hknown₂
        have ho₂ : (d.putOutline owner o₂).outline owner = .ok o₂ := GraphDoc.outline_putOutline ho
        have hlen := length_known_putOutline o₂ ho
        rw [hknown₂, hs.known, List.length_cons] at hlen
        refine ((h₁.congr htree₂).ends_insertItems ho₂ ?_ (fun hcap => hids (by omega))
          fun item hitem => hdecorate item (List.mem_cons_of_mem _ hitem)).imp ?_
        · exact InsertState.length_levels_next hlevels hdepth ▸ hdeepens
        · rintro created d₃ ⟨o', made, rfl, hknown, hsub⟩
          refine ⟨o', GraphDoc.putOutline_putOutline .., h.overtaken hat (by omega) hs
            (hknown.trans (by rw [hknown₂])) (htree₂ ▸ hsub)⟩
    · have hne (hzero : item.depth = 0) : baseIndex + state.rootOffset ≠ host.usizeCount :=
        fun hsum => hwrap ⟨hzero, hsum⟩
      refine h.ends_cons hat ho hdepth
        (fun hzero => Nat.lt_of_le_of_ne hfits (hne hzero)) (fun hcap => hids (by omega))
        (hdecorate item (List.mem_cons_self ..)) ?_
      intro node state' o' h' hoffset hlen
      refine (ih h' (GraphDoc.outline_putOutline ho) ?_ ?_ (by omega) (fun hcap => hids (by omega))
        fun item hitem => hdecorate item (List.mem_cons_of_mem _ hitem)).imp ?_
      · rw [spine_snoc hdepth h.forest]
        simpa [Nat.min_eq_left hdepth] using hdeepens
      · rw [hoffset]
        split_ifs with hzero
        · have hlt := Nat.lt_of_le_of_ne hfits (hne hzero)
          omega
        · exact hfits
      · rintro created d₃ ⟨o₃, rfl, hover'⟩
        exact ⟨o₃, GraphDoc.putOutline_putOutline .., hover'⟩

/-! ## What is inserted -/

/-- What an insertion makes of an outline. `nodes` are the nodes of the items, each with the depth
of its item. -/
structure Inserted (plan : OutlineInsertPlan) (o o' : Outline) (nodes : List (BlockId × Nat)) :
    Prop where
  depths : nodes.map Prod.snd = plan.items.map PlannedOutlineItem.depth
  /-- The nodes are made in the order of the items. -/
  issued : o'.known = ((nodes.map Prod.fst).drop plan.replace.toList.length).reverse ++ o.known
  /-- Only a replaced block was there before, and it is the node of the first item. -/
  fresh : ∀ e ∈ nodes, e.1 ∈ o.known → plan.replace = some e.1
  first : ∀ b ∈ plan.replace, nodes.head? = some (b, 0)
  /-- The nodes are the one forest that the depths encode. Its roots are a run among the children
  of the base, and its children come before those that a replaced block had. -/
  rows : ∃ (f : Forest BlockId) (base : Option BlockId) (left right : List BlockId),
    f.depths 0 = nodes ∧ (∀ g : Forest BlockId, g.depths 0 = nodes → g = f) ∧
    (plan.replace = none →
      base = plan.parent ∧ left.length = min plan.index (o.count plan.parent)) ∧
    row base o.tree = some (left ++ (plan.replace.toList ++ right)) ∧
    row base o'.tree = some (left ++ (f.roots ++ right)) ∧
    ∀ x ∈ f.labels, row (some x) o'.tree =
      some ((under x f).roots ++ (row (some x) o.tree).getD [])
  /-- The parent of an item is the nearest one before it that is one level up. -/
  parent : ∀ u v w p x k, nodes = u ++ (p, k) :: (v ++ (x, k + 1) :: w) → (∀ y ∈ v, y.2 ≠ k) →
    parentIn none x o'.tree = some (some p)
  newOrder : o'.tree.labels.filter (· ∈ nodes.map Prod.fst) = nodes.map Prod.fst
  oldOrder : o'.tree.labels.filter (· ∈ o.tree.labels) = o.tree.labels
  oldParent : ∀ x ∈ o.tree.labels, parentIn none x o'.tree = parentIn none x o.tree

theorem Building.inserted {plan : OutlineInsertPlan} {o : Outline}
    (h : Building o old z l r f state o') (he : o.tree = plug z (l ++ (replaced old ++ r)))
    (hreplace : plan.replace = old.map Prod.fst)
    (hplace : plan.replace = none →
      ownerOf z = plan.parent ∧ l.roots.length = min plan.index (o.count plan.parent))
    (hdepths : (f.depths 0).map Prod.snd = plan.items.map PlannedOutlineItem.depth) :
    Inserted plan o o' (f.depths 0) := by
  have hlabels : (f.depths 0).map Prod.fst = f.labels := map_fst_depths 0 f
  have hbegins : ∀ e ∈ old, ∃ k s, f = node e.1 k s := by
    intro e hmem
    have hhead := h.begins e hmem
    cases f with
    | nil => cases hhead
    | node a k s =>
      obtain rfl : a = e.1 := Option.some.inj hhead
      exact ⟨k, s, rfl⟩
  have hfresh : ∀ y ∈ f.labels, y ∈ (plug z (l ++ (replaced old ++ r))).labels →
      ∃ e ∈ old, y = e.1 := fun y hy hm => h.fresh y hy (o.issued y (he ▸ hm))
  have hplaced : Placed old f z l r := ⟨hbegins, h.forest, h.tree ▸ o'.nodup, hfresh⟩
  refine ⟨hdepths, ?_, ?_, ?_, ?_, ?_, ?_, ?_, ?_⟩
  · rw [hlabels, hreplace, h.made]
    cases old with
    | none => rfl
    | some e => rfl
  · intro e hmem hold
    have hf : e.1 ∈ f.labels := hlabels ▸ List.mem_map_of_mem hmem
    obtain ⟨e', he', heq⟩ := h.fresh e.1 hf hold
    rw [hreplace, Option.mem_def.mp he', heq]
    rfl
  · intro b hb
    rw [hreplace] at hb
    obtain ⟨e, hmem, rfl⟩ := Option.mem_map.mp hb
    obtain ⟨k, s, rfl⟩ := hbegins e hmem
    rfl
  · refine ⟨f, ownerOf z, l.roots, r.roots, rfl, fun g hg => depths_injective hg, hplace, ?_, ?_,
      ?_⟩
    · rw [he, row_owner (he ▸ o.nodup), roots_append, roots_append, hreplace]
      cases old with
      | none => rfl
      | some e => rfl
    · rw [h.tree, hplaced.row_owner]
    · intro x hx
      rw [h.tree, he]
      exact hplaced.row_new (he ▸ o.nodup) hx
  · intro u v w p x k hnodes hv
    have hx : x ∈ f.labels := by
      rw [← hlabels, hnodes]
      simp
    have hparent := parentIn_of_depths h.forest hnodes hv
    have hroot : x ∉ f.roots := by
      intro hm
      have htop := parentIn_owner (x := x) h.forest none none
      rw [if_pos hm, hparent] at htop
      cases htop
    rw [h.tree, hplaced.parentIn_new hx, parentIn_owner h.forest (ownerOf z) none, if_neg hroot,
      hparent]
  · rw [h.tree, hlabels]
    exact hplaced.labels_new
  · rw [h.tree, he]
    exact hplaced.labels_old
  · intro x hx
    rw [he] at hx
    rw [h.tree, he]
    exact hplaced.parentIn_old hx

/-- The place of a run without a replaced block. -/
theorem insertBase_none {parent : Option BlockId} (index : Nat)
    (hparent : ∀ p ∈ parent, p ∈ o.tree.labels) :
    insertBase host parent index none o = .ok (parent, index, 0) := by
  cases parent with
  | none => rfl
  | some p =>
    unfold insertBase treeId
    dsimp only
    rw [if_pos (.inl (hparent p rfl))]
    rfl

/-- A replaced block is the first of the run. -/
theorem insertBase_some {parent : Option BlockId} {index : Nat} {kids : Forest BlockId}
    (he : o.tree = plug z (l ++ node b kids r))
    (hparent : ∀ p ∈ parent, p ∈ o.tree.labels ∨ host.isTreeId p = true) :
    insertBase host parent index (some b) o = .ok (ownerOf z, l.roots.length, 1) := by
  have hn := he ▸ o.nodup
  have hb : b ∈ o.tree.labels := by
    rw [he]
    simp [labels_plug]
  have hbl : b ∉ l.roots := fun hm =>
    (split_not_mem hn (List.mem_cons_self ..)).2.2.1 (mem_labels_of_mem_roots hm)
  have hrow : (row (ownerOf z) o.tree).getD [] = l.roots ++ b :: r.roots := by
    rw [he, row_owner hn, roots_append]
    rfl
  have hrest : (do
      requireBlockIn o b
      let actual ← orElse (o.tree.parentIn none b) (CoreError.blockNotFound b)
      let position ← orElse (((Forest.row actual o.tree).getD []).idxOf? b)
        (CoreError.blockNotFound b)
      return (actual, position, 1)) = Except.ok (ownerOf z, l.roots.length, 1) := by
    unfold requireBlockIn
    rw [if_pos hb, he, parentIn_split hn, ← he]
    show (orElse (((Forest.row (ownerOf z) o.tree).getD []).idxOf? b) _ >>= _) = _
    rw [hrow, idxOf?_append_cons hbl]
    rfl
  cases parent with
  | none => exact hrest
  | some p =>
    unfold insertBase treeId
    dsimp only
    rw [if_pos (hparent p rfl)]
    exact hrest

/-- The errors of an insertion: the ids have run out, or a decoration fails. -/
def InsertFails (host : Host) (source : IdSource) (d : GraphDoc) (plan : OutlineInsertPlan)
    (e : CoreError) : Prop :=
  e ≠ skippedDepth ∧
    ((e = .loro ∧ source.capacity < d.known.length + plan.items.length) ∨
      ∃ item ∈ plan.items, DecorationFails host plan.owner item e)

section Runs
variable {plan : OutlineInsertPlan}

/-- The places of the roots among the children of the base are values of `usize`, or the run
begins at a replaced block. -/
def PlacesFit (host : Host) (plan : OutlineInsertPlan) : Prop :=
  plan.replace.isSome = true ∨ plan.index + rootCount plan.items ≤ host.usizeCount

/-- An insertion that has put a later node before the first one is not what is asked for. -/
theorem Overtaken.not_inserted {nodes : List (BlockId × Nat)} (h : Overtaken o o')
    (hreplace : plan.replace = none) : ¬Inserted plan o o' nodes := by
  intro hinserted
  obtain ⟨first, rest, x, hknown, hx, hsub⟩ := h
  have hnodes : nodes.map Prod.fst = first :: rest := by
    have hissued := hinserted.issued
    rw [hreplace, hknown] at hissued
    exact (List.reverse_injective (List.append_cancel_right hissued)).symm
  have horder := hinserted.newOrder
  have hnodup : (first :: rest).Nodup := by
    rw [← hnodes, ← horder]
    exact o'.nodup.filter _
  have hpair : [x, first].Sublist (first :: rest) := by
    rw [hnodes] at horder
    rw [← horder]
    refine List.Sublist.trans ?_ (hsub.filter (· ∈ first :: rest))
    simp [hx]
  have hfirst := (List.nodup_cons.mp hnodup).1
  cases hpair with
  | cons _ hpair => exact hfirst (hpair.subset (by simp))
  | cons_cons _ hpair => exact hfirst hx

theorem InsertFails.of_ids (h : source.capacity < d.known.length + plan.items.length) :
    InsertFails host source d plan .loro := ⟨nofun, .inl ⟨rfl, h⟩⟩

theorem InsertFails.of_decoration {item : PlannedOutlineItem} (hitem : item ∈ plan.items)
    {e : CoreError} (h : DecorationFails host plan.owner item e) :
    InsertFails host source d plan e := by
  refine ⟨?_, .inr ⟨item, hitem, h⟩⟩
  obtain ⟨d', o, node, d'', _, _, hrun⟩ := h
  exact refuses_decorate host d' e d'' hrun

/-- Items that go between the children of the base. -/
theorem ends_insertItems_none (ho : d.outline plan.owner = .ok o) (hreplace : plan.replace = none)
    (hparent : ∀ p ∈ plan.parent, p ∈ o.tree.labels)
    (hdeepens : Deepens 0 (plan.items.map PlannedOutlineItem.depth))
    (hindex : plan.index < host.usizeCount) :
    (insertItems host source now plan.owner plan.parent plan.index plan.items none
        { rootOffset := 0 }).Ends (InsertFails host source d plan) d fun created d' =>
      (∃ o' nodes, d' = d.putOutline plan.owner o' ∧
        created = (nodes.map Prod.fst).getLast? ∧ Inserted plan o o' nodes) ↔
          PlacesFit host plan := by
  obtain ⟨z, g, he, hbase⟩ := exists_row fun x hx => hparent x hx
  obtain ⟨l, r, rfl, -, hl⟩ := exists_insertAt (nil : Forest BlockId) plan.index g
  have hn := he ▸ o.nodup
  have hcount : o.count plan.parent = (l ++ r).roots.length := by
    unfold Outline.count
    rw [he, ← hbase, row_owner hn]
    rfl
  have hbuilding : Building o none z l r nil { rootOffset := 0 } o :=
    ⟨he, List.nodup_nil, nofun, nofun, nofun, List.Subset.refl _, rfl, rfl, nofun, nofun, rfl,
      rfl⟩
  have hat : RunAt plan.parent plan.index z l r := by
    refine ⟨hbase, ?_⟩
    rw [roots_append, List.length_append] at hl
    exact hl
  have hdecorate : ∀ item ∈ plan.items, ∀ e, DecorationFails host plan.owner item e →
      InsertFails host source d plan e := fun item hitem e he => .of_decoration hitem he
  have hfits : PlacesFit host plan ↔ plan.index + rootCount plan.items ≤ host.usizeCount := by
    unfold PlacesFit
    rw [hreplace]
    exact or_iff_right Bool.false_ne_true
  rw [hfits]
  rcases Nat.lt_or_ge host.usizeCount (plan.index + rootCount plan.items) with hover | hplaces
  · refine (hbuilding.ends_insertItems_wrapped hat ho hdeepens hindex (Nat.le_of_lt hindex)
      hover .of_ids hdecorate).imp ?_
    rintro created d' ⟨o₁, rfl, hovertaken⟩
    refine iff_of_false ?_ (Nat.not_le_of_lt hover)
    rintro ⟨o', nodes, hd, -, hinserted⟩
    have hsame := (GraphDoc.outline_putOutline ho).symm.trans
      ((congrArg (GraphDoc.outline · plan.owner) hd).trans (GraphDoc.outline_putOutline ho))
    obtain rfl := Except.ok.inj hsame
    exact hovertaken.not_inserted hreplace hinserted
  · refine (hbuilding.ends_insertItems hat ho hdeepens hplaces .of_ids hdecorate).imp ?_
    rintro created d' ⟨o', f, state, rfl, hend, hcreated, hdepths⟩
    refine iff_of_true ⟨o', f.depths 0, rfl, ?_, hend.inserted he hreplace (fun _ => ?_) hdepths⟩
      hplaces
    · rw [hcreated, map_fst_depths]
    · exact ⟨hbase, by rw [hl, hcount]⟩

/-- The block that the first item replaces begins the run, above the children it had. -/
theorem building_replaced {item : PlannedOutlineItem} {kids : Forest BlockId} {o₂ : Outline}
    (he : o.tree = plug z (l ++ node b kids r)) (hzero : item.depth = 0)
    (htree : o₂.tree = o.tree) (hknown : o₂.known = o.known) :
    Building o (some (b, kids)) z l r (single b nil)
      (InsertState.next { rootOffset := 1 } item.depth b) o₂ := by
  have hkids : ∀ y ∈ kids.labels, y ∉ (single b nil : Forest BlockId).labels := by
    intro y hy hm
    obtain rfl : y = b := by simpa [single] using hm
    exact split_not_mem_kids (he ▸ o.nodup) hy
  refine ⟨?_, ?_, ?_, ?_, ?_, ?_, ?_, ?_, by simp [InsertState.next], ?_, rfl, rfl⟩
  · rw [htree, he]
    show _ = plug z (l ++ (mapUnder b (· ++ kids) (node b nil nil) ++ r))
    rw [mapUnder, if_pos rfl]
    rfl
  · simp [single]
  · intro e hmem
    obtain rfl := Option.some.inj hmem
    rfl
  · intro e hmem
    obtain rfl := Option.some.inj hmem
    exact ⟨List.mem_cons_self .., hkids⟩
  · intro y hy _
    exact ⟨_, rfl, by simpa [single] using hy⟩
  · rw [hknown]
    exact List.Subset.refl _
  · rw [hknown]
    rfl
  · rw [hzero]
    rfl
  · intro y hy
    obtain rfl : y = b := by simpa [single] using hy
    show _ = (under y (node y nil nil)).roots.length
    rw [under, if_pos rfl]
    rfl

/-- Items the first of which replaces a block. -/
theorem ends_insertItems_some (ho : d.outline plan.owner = .ok o) (hreplace : plan.replace = some b)
    {kids : Forest BlockId} (he : o.tree = plug z (l ++ node b kids r)) (hne : plan.items ≠ [])
    (hdeepens : Deepens 0 (plan.items.map PlannedOutlineItem.depth))
    (hroom : o.tree.labels.length + plan.items.length ≤ host.usizeCount) :
    (insertItems host source now plan.owner (ownerOf z) l.roots.length plan.items (some b)
        { rootOffset := 1 }).Ends (InsertFails host source d plan) d fun created d' =>
      ∃ o' nodes, d' = d.putOutline plan.owner o' ∧
        created = (nodes.map Prod.fst).getLast? ∧ Inserted plan o o' nodes := by
  have hb : b ∈ o.tree.labels := by
    rw [he]
    simp [labels_plug]
  have hfails : ∀ item ∈ plan.items, ∀ e, DecorationFails host plan.owner item e →
      InsertFails host source d plan e := fun item hitem e he => .of_decoration hitem he
  cases hitems : plan.items with
  | nil => exact absurd hitems hne
  | cons item rest =>
  rw [hitems] at hdeepens hfails
  obtain ⟨hzero, hdeepens⟩ := hdeepens
  have hzero : item.depth = 0 := Nat.le_zero.mp hzero
  unfold insertItems insertItem
  obtain ⟨o₁, ho₁⟩ : ∃ o₁, o₁ = o.setContent b (plainPieces item.markdown) := ⟨_, rfl⟩
  have htext : (inText plan.owner b fun _ => .ok (plainPieces item.markdown)).run d =
      (.ok (), d.putOutline plan.owner o₁) :=
    ho₁ ▸ run_inText (f := fun _ => .ok (plainPieces item.markdown)) ho hb rfl
  have houtline₁ : (d.putOutline plan.owner o₁).outline plan.owner = .ok o₁ :=
    GraphDoc.outline_putOutline ho
  refine .bind (.after htext (.of_ok rfl ?_))
  refine .bind ((ends_decorate houtline₁ (ho₁ ▸ hb) (hfails item (List.mem_cons_self ..))).imp
    fun _ _ htouch => .bind (htouch.imp ?_))
  rintro - d₂ ⟨o₂, rfl, htree₂, hknown₂⟩
  rw [GraphDoc.putOutline_putOutline]
  have ho₂ : (d.putOutline plan.owner o₂).outline plan.owner = .ok o₂ :=
    GraphDoc.outline_putOutline ho
  have htree : o₂.tree = o.tree := htree₂.trans (ho₁ ▸ rfl)
  have hknown : o₂.known = o.known := hknown₂.trans (ho₁ ▸ rfl)
  have hbuilding : Building o (some (b, kids)) z l r (single b nil)
      (InsertState.next { rootOffset := 1 } item.depth b) o₂ :=
    building_replaced he hzero htree hknown
  have hat : RunAt (ownerOf z) l.roots.length z l r := ⟨rfl, by omega⟩
  have hlen := length_known_putOutline o₂ ho
  rw [hknown] at hlen
  have hplaces : l.roots.length + 1 + rootCount rest ≤ host.usizeCount := by
    have hroots := (roots_sublist l).length_le
    have hcount : rootCount rest ≤ rest.length := List.countP_le_length
    rw [he, hitems, List.length_cons, labels_plug, labels_append, labels_node] at hroom
    simp only [List.length_append, List.length_cons] at hroom
    omega
  refine (hbuilding.ends_insertItems (E := InsertFails host source d plan) hat ho₂ ?_ hplaces
    (fun hcap => .of_ids ?_)
    fun item hitem => hfails item (List.mem_cons_of_mem _ hitem)).imp ?_
  · rw [hzero] at hdeepens
    exact hdeepens
  · rw [hitems, List.length_cons]
    omega
  · rintro created d' ⟨o', f, state, rfl, hend, hcreated, hdepths⟩
    refine ⟨o', f.depths 0, GraphDoc.putOutline_putOutline .., ?_,
      hend.inserted he hreplace (fun h => ?_) ?_⟩
    · rw [hcreated, map_fst_depths]
    · rw [hreplace] at h
      cases h
    · rw [hdepths, hitems, List.map_cons, hzero]
      rfl

/-- A node can be decorated with an item of plain text. -/
theorem not_decorationFails_plain {item : PlannedOutlineItem} {markdown : Text}
    (hitem : item = plainItem item.depth markdown) {e : CoreError} :
    ¬DecorationFails host owner item e := by
  rintro ⟨d, o, node, d', ho, hnode, hrun⟩
  rw [hitem] at hrun
  have hproperties := run_inBag_block (y := Edit.each (writePlannedProperty host) []) ho hnode
  have ho₁ : (d.putOutline owner (o.setMeta node
      { o.metas node with properties := (o.metas node).properties })).outline owner = .ok _ :=
    GraphDoc.outline_putOutline ho
  have htags := run_inMeta (b := node)
    (y := Edit.write fun m : BlockMeta => { m with tagRefs := m.tagRefs.extend [] }) ho₁ hnode
  have hok : (decorate host owner node (plainItem item.depth markdown)).run d =
      (.ok (), _) := (Edit.run_bind_ok hproperties).trans htags
  rw [hok] at hrun
  cases hrun

theorem ends_insertOutlineItems (host : Host) (source : IdSource) (now : Timestamp)
    (plan : OutlineInsertPlan) {items : List (Nat × Text)} {operation : String}
    (hitems : validateOutlineItems items operation = .ok ())
    (hdepths : plan.items.map PlannedOutlineItem.depth = items.map Prod.fst)
    (ho : d.outline plan.owner = .ok o)
    (hparent : ∀ p ∈ plan.parent, p ∈ o.tree.labels ∨
      (plan.replace.isSome = true ∧ host.isTreeId p = true))
    (hreplace : ∀ block ∈ plan.replace, block ∈ o.tree.labels)
    (hindex : plan.index < host.usizeCount)
    (hroom : o.tree.labels.length + plan.items.length ≤ host.usizeCount) :
    (insertOutlineItems host source now plan).Ends (InsertFails host source d plan) d
      fun created d' => (∃ o' nodes, d' = d.putOutline plan.owner o' ∧
        created = (nodes.map Prod.fst).getLast? ∧ Inserted plan o o' nodes) ↔
          PlacesFit host plan := by
  have hdeepens : Deepens 0 (plan.items.map PlannedOutlineItem.depth) :=
    hdepths ▸ deepens_of_validateOutlineItems hitems
  have hne : plan.items ≠ [] := by
    intro hnil
    rw [hnil] at hdepths
    have hempty : items = [] := List.map_eq_nil_iff.mp hdepths.symm
    rw [hempty] at hitems
    cases hitems
  have hread {result : Option BlockId × Nat × Nat}
      (h : insertBase host plan.parent plan.index plan.replace o = .ok result) :
      (Edit.read fun d : GraphDoc => do
        insertBase host plan.parent plan.index plan.replace (← d.outline plan.owner)).run d =
          (.ok result, d) := by
    refine Edit.run_read ?_
    rw [ho]
    exact h
  unfold insertOutlineItems
  cases hblock : plan.replace with
  | none =>
    have hmem : ∀ p ∈ plan.parent, p ∈ o.tree.labels := by
      intro p hp
      refine (hparent p hp).resolve_right fun h => ?_
      rw [hblock] at h
      cases h.1
    rw [hblock] at hread
    exact .after (hread (insertBase_none plan.index hmem))
      (ends_insertItems_none ho hblock hmem hdeepens hindex)
  | some block =>
    obtain ⟨z, l, kids, r, he⟩ := exists_plug (hreplace block hblock)
    rw [hblock] at hread
    refine .after (hread (insertBase_some he fun p hp => (hparent p hp).imp_right And.right))
      ((ends_insertItems_some ho hblock he hne hdeepens hroom).imp fun _ _ h =>
        iff_of_true h (.inl ?_))
    rw [hblock]
    rfl

/-- Items of plain text are always inserted while there are ids. -/
theorem exists_run_insertOutlineItems {Q : Option BlockId → GraphDoc → Prop}
    (h : (insertOutlineItems host source now plan).Ends (InsertFails host source d plan) d Q)
    (hplain : ∀ item ∈ plan.items, ∃ markdown, item = plainItem item.depth markdown)
    (hids : d.known.length + plan.items.length ≤ source.capacity) :
    ∃ created d', (insertOutlineItems host source now plan).run d = (.ok created, d') := by
  unfold Edit.Ends at h
  cases hrun : (insertOutlineItems host source now plan).run d with
  | mk result d' =>
    cases result with
    | ok created => exact ⟨created, d', rfl⟩
    | error e =>
      rw [hrun] at h
      rcases h.2 with ⟨-, hover⟩ | ⟨item, hitem, hfails⟩
      · omega
      · obtain ⟨markdown, hmarkdown⟩ := hplain item hitem
        exact absurd hfails (not_decorationFails_plain hmarkdown)

end Runs

/-- An insertion never finds an item without a parent, and it fails only where the ids run out or
an item cannot be decorated, so items of plain text are always inserted. What it makes of an
accepted list is the forest that the depths encode, as one run among the children of the base, with
what was there as it was, if and only if the places of the roots are values of `usize` or a block
is replaced. -/
theorem insertOutlineItems_forest (host : Host) (source : IdSource) (now : Timestamp)
    {plan : OutlineInsertPlan} {items : List (Nat × Text)} {operation : String}
    (hitems : validateOutlineItems items operation = .ok ())
    (hdepths : plan.items.map PlannedOutlineItem.depth = items.map Prod.fst)
    (ho : d.outline plan.owner = .ok o)
    (hparent : ∀ p ∈ plan.parent, p ∈ o.tree.labels ∨
      (plan.replace.isSome = true ∧ host.isTreeId p = true))
    (hreplace : ∀ block ∈ plan.replace, block ∈ o.tree.labels)
    (hindex : plan.index < host.usizeCount)
    (hroom : o.tree.labels.length + plan.items.length ≤ host.usizeCount) :
    (insertOutlineItems host source now plan).Ends (InsertFails host source d plan) d
        (fun created d' => (∃ o' nodes, d' = d.putOutline plan.owner o' ∧
          created = (nodes.map Prod.fst).getLast? ∧ Inserted plan o o' nodes) ↔
            PlacesFit host plan) ∧
      ((∀ item ∈ plan.items, ∃ markdown, item = plainItem item.depth markdown) →
        d.known.length + plan.items.length ≤ source.capacity →
        ∃ created d', (insertOutlineItems host source now plan).run d = (.ok created, d')) :=
  have hends := ends_insertOutlineItems host source now plan hitems hdepths ho hparent hreplace
    hindex hroom
  ⟨hends, exists_run_insertOutlineItems hends⟩

/-! ## A sample -/

/-- Ids from a list, the first that is not taken. -/
def listedIds (ids : List BlockId) (hn : ids.Nodup) : IdSource where
  next known := (ids.find? fun id => id ∉ known).getD ⟨"none", by decide⟩
  capacity := ids.length
  fresh known h := by
    cases hfind : ids.find? fun id => id ∉ known with
    | some id => simpa using List.find?_some hfind
    | none =>
      have hall : ids ⊆ known := by
        intro id hid
        simpa using List.find?_eq_none.mp hfind id hid
      exact absurd (List.subperm_of_subset hn hall).length_le (Nat.not_le_of_lt h)

def sampleIds : IdSource :=
  listedIds [⟨"1", by decide⟩, ⟨"2", by decide⟩, ⟨"3", by decide⟩, ⟨"4", by decide⟩,
    ⟨"5", by decide⟩] (by decide)

theorem a_valid : validate "a" "block id" maxIdLen = .ok () := by decide

theorem b_valid : validate "b" "block id" maxIdLen = .ok () := by decide

/-- An empty block with a child. -/
def sampleParent : Outline where
  tree := single ⟨"a", a_valid⟩ (single ⟨"b", b_valid⟩ nil)
  known := [⟨"a", a_valid⟩, ⟨"b", b_valid⟩]
  metas _ := {}
  nodup := by decide
  issued := by decide

/-- The first item replaces the block. -/
def samplePlan : OutlineInsertPlan :=
  ⟨.page samplePage, none, 7, some ⟨"a", a_valid⟩,
    [plainItem 0 ['x'], plainItem 1 ['y'], plainItem 0 ['z']], []⟩

/-- The same items behind the block. -/
def appendPlan : OutlineInsertPlan := { samplePlan with replace := none }

/-- The items of a plan are inserted in the page. -/
def InsertsSample (plan : OutlineInsertPlan) : Prop :=
  ∃ created o' nodes,
    (insertOutlineItems sampleHost sampleIds ⟨"now", by decide⟩ plan).run (pageWith sampleParent) =
      (.ok created, (pageWith sampleParent).putOutline (.page samplePage) o') ∧
    Inserted plan sampleParent o' nodes

theorem insertOutlineItems_forest_sample : InsertsSample samplePlan ∧ InsertsSample appendPlan := by
  have hitems : validateOutlineItems [(0, ['x']), (1, ['y']), (0, ['z'])] "insert" = .ok () := rfl
  have hinserts : ∀ plan ∈ [samplePlan, appendPlan], InsertsSample plan := by
    intro plan hplan
    have hfacts : plan.items = samplePlan.items ∧ plan.owner = .page samplePage ∧
        plan.parent = none ∧ plan.index = 7 ∧
        ∀ block ∈ plan.replace, block ∈ sampleParent.tree.labels := by
      rcases List.mem_pair.mp hplan with rfl | rfl
      · exact ⟨rfl, rfl, rfl, rfl, by decide⟩
      · exact ⟨rfl, rfl, rfl, rfl, by decide⟩
    obtain ⟨hplanned, howner, hbase, hindex, hreplace⟩ := hfacts
    have ho : (pageWith sampleParent).outline plan.owner = .ok sampleParent := by
      rw [howner]
      rfl
    have hforest := insertOutlineItems_forest sampleHost sampleIds ⟨"now", by decide⟩
      hitems (by rw [hplanned]; rfl) ho (by rw [hbase]; exact fun _ h => by cases h) hreplace
      (by rw [hindex]; decide) (by rw [hplanned]; decide)
    have hfits : PlacesFit sampleHost plan := by
      refine .inr ?_
      rw [hplanned, hindex]
      decide
    obtain ⟨created, d', hrun⟩ := hforest.2
      (by rw [hplanned]; simp [samplePlan, plainItem]) (by rw [hplanned]; decide)
    obtain ⟨o', nodes, rfl, -, hinserted⟩ := (hforest.1.eq_ok hrun).mpr hfits
    rw [howner] at hrun
    exact ⟨created, o', nodes, hrun, hinserted⟩
  exact ⟨hinserts _ List.mem_cons_self, hinserts _ (List.mem_cons_of_mem _ List.mem_cons_self)⟩

/-- Two roots at the largest index. -/
def wrappedPlan : OutlineInsertPlan :=
  ⟨.page samplePage, none, 2 ^ 64 - 1, none, [plainItem 0 ['x'], plainItem 0 ['y']], []⟩

/-- The labels of the top level of the page. -/
def topLevel (d : GraphDoc) : List String :=
  match d.outline (.page samplePage) with
  | .ok o => o.tree.roots.map (·.asStr)
  | .error _ => []

/-- The place of the second root wraps to the front, so the block that was there parts the run. -/
theorem not_inserted_wrappedPlan : ∃ created d',
    (insertOutlineItems sampleHost sampleIds ⟨"now", by decide⟩ wrappedPlan).run
        (pageWith sampleParent) = (.ok created, d') ∧
      topLevel d' = ["2", "a", "1"] ∧
      ¬∃ o' nodes, d' = (pageWith sampleParent).putOutline wrappedPlan.owner o' ∧
        created = (nodes.map Prod.fst).getLast? ∧ Inserted wrappedPlan sampleParent o' nodes := by
  have hitems : validateOutlineItems [(0, ['x']), (0, ['y'])] "insert" = .ok () := rfl
  have ho : (pageWith sampleParent).outline wrappedPlan.owner = .ok sampleParent := rfl
  have hdepths : wrappedPlan.items.map PlannedOutlineItem.depth =
      [(0, ['x']), (0, ['y'])].map Prod.fst := rfl
  have hindex : wrappedPlan.index < sampleHost.usizeCount := Nat.sub_lt (Nat.two_pow_pos 64) one_pos
  have hroom : sampleParent.tree.labels.length + wrappedPlan.items.length ≤
      sampleHost.usizeCount := by
    decide
  have hends := ends_insertOutlineItems sampleHost sampleIds ⟨"now", by decide⟩ wrappedPlan
    hitems hdepths ho (fun _ h => by cases h) (fun _ h => by cases h) hindex hroom
  obtain ⟨created, d', hrun⟩ := exists_run_insertOutlineItems hends
    (by simp [wrappedPlan, plainItem]) (by decide)
  have htop : topLevel ((insertOutlineItems sampleHost sampleIds ⟨"now", by decide⟩
      wrappedPlan).run (pageWith sampleParent)).2 = ["2", "a", "1"] := by
    decide +kernel
  refine ⟨created, d', hrun, by rwa [hrun] at htop, fun h => ?_⟩
  rcases (hends.eq_ok hrun).mp h with hreplace | hplaces
  · cases hreplace
  · have hplaces : 2 ^ 64 - 1 + 2 ≤ 2 ^ 64 := hplaces
    omega

end Neoseq.Core
