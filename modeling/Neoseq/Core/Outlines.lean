import Neoseq.Core.Frames

/-! Runs inside one outline. An edit of the nodes, the texts or the bags of an outline that is
there puts another outline in its place and leaves the rest of the document alone. -/

namespace Neoseq.Core
open Domain Document Collections Content

variable {owner other : OutlineOwner} {d : GraphDoc} {o o' : Outline} {b x : BlockId}

/-! ## Outlines -/

namespace Outline

theorem ext {o o' : Outline} (htree : o'.tree = o.tree) (hknown : o'.known = o.known)
    (hmetas : ∀ b, o'.metas b = o.metas b) : o' = o := by
  obtain ⟨tree, known, metas, nodup, issued⟩ := o
  obtain ⟨tree', known', metas', nodup', issued'⟩ := o'
  obtain rfl : tree' = tree := htree
  obtain rfl : known' = known := hknown
  obtain rfl : metas' = metas := funext hmetas
  rfl

@[simp] theorem tree_setMeta (o : Outline) (b : BlockId) (m : BlockMeta) :
    (o.setMeta b m).tree = o.tree := rfl

@[simp] theorem known_setMeta (o : Outline) (b : BlockId) (m : BlockMeta) :
    (o.setMeta b m).known = o.known := rfl

theorem metas_setMeta (o : Outline) (b x : BlockId) (m : BlockMeta) :
    (o.setMeta b m).metas x = if x = b then m else o.metas x := rfl

@[simp] theorem metas_setMeta_same (o : Outline) (b : BlockId) (m : BlockMeta) :
    (o.setMeta b m).metas b = m := if_pos rfl

@[simp] theorem setMeta_setMeta (o : Outline) (b : BlockId) (m m' : BlockMeta) :
    (o.setMeta b m).setMeta b m' = o.setMeta b m' := by
  refine ext rfl rfl fun x => ?_
  rw [metas_setMeta, metas_setMeta, metas_setMeta]
  split_ifs <;> rfl

/-- Another text for a block. -/
def setContent (o : Outline) (b : BlockId) (content : List Piece) : Outline :=
  o.setMeta b { o.metas b with content }

@[simp] theorem tree_setContent (o : Outline) (b : BlockId) (content : List Piece) :
    (o.setContent b content).tree = o.tree := rfl

@[simp] theorem known_setContent (o : Outline) (b : BlockId) (content : List Piece) :
    (o.setContent b content).known = o.known := rfl

theorem content_setContent (o : Outline) (b x : BlockId) (content : List Piece) :
    ((o.setContent b content).metas x).content =
      if x = b then content else (o.metas x).content := by
  unfold setContent
  rw [metas_setMeta]
  split_ifs <;> rfl

@[simp] theorem content_setContent_same (o : Outline) (b : BlockId) (content : List Piece) :
    ((o.setContent b content).metas b).content = content := by
  rw [content_setContent, if_pos rfl]

@[simp] theorem setContent_setContent (o : Outline) (b : BlockId) (content content' : List Piece) :
    (o.setContent b content).setContent b content' = o.setContent b content' := by
  unfold setContent
  rw [setMeta_setMeta, metas_setMeta_same]

theorem setContent_self (o : Outline) (b : BlockId) : o.setContent b (o.metas b).content = o := by
  refine ext rfl rfl fun x => ?_
  unfold setContent
  rw [metas_setMeta]
  split_ifs with h
  · rw [h]
  · rfl

end Outline

/-! ## Documents -/

namespace GraphDoc

theorem outline_ok : d.outline owner = .ok o ↔
    ∃ record, d.entities.get (ownerEntity owner) = some record ∧ record.outline = o := by
  unfold outline
  cases owner with
  | page id =>
    show (orElse (d.entities.get id) _).map _ = _ ↔ _
    cases h : d.entities.get id with
    | none => exact iff_of_false nofun (fun ⟨_, hget, _⟩ => nomatch hget.symm.trans h)
    | some record =>
      refine ⟨fun he => ⟨record, h, Except.ok.inj he⟩, fun ⟨record', hget, he⟩ => ?_⟩
      obtain rfl := Option.some.inj (h.symm.trans hget)
      exact congrArg Except.ok he
  | tag id =>
    show (orElse (d.entities.get id.cast) _).map _ = _ ↔ _
    cases h : d.entities.get id.cast with
    | none => exact iff_of_false nofun (fun ⟨_, hget, _⟩ => nomatch hget.symm.trans h)
    | some record =>
      refine ⟨fun he => ⟨record, h, Except.ok.inj he⟩, fun ⟨record', hget, he⟩ => ?_⟩
      obtain rfl := Option.some.inj (h.symm.trans hget)
      exact congrArg Except.ok he

theorem outlineAt_of_ok (h : d.outline owner = .ok o) : d.outlineAt owner = o := by
  obtain ⟨record, hget, rfl⟩ := outline_ok.mp h
  unfold outlineAt
  rw [hget]
  rfl

theorem outline_putOutline (h : d.outline owner = .ok o) :
    (d.putOutline owner o').outline owner = .ok o' := by
  obtain ⟨record, hget, -⟩ := outline_ok.mp h
  refine outline_ok.mpr ⟨{ record with outline := o' }, ?_, rfl⟩
  unfold putOutline
  rw [get_updateRecord, if_pos rfl, hget]
  rfl

theorem putOutline_putOutline (d : GraphDoc) (owner : OutlineOwner) (o o' : Outline) :
    (d.putOutline owner o).putOutline owner o' = d.putOutline owner o' := by
  unfold putOutline
  cases h : d.entities.get (ownerEntity owner) with
  | none =>
    have hsame (f : Record → Record) : d.updateRecord (ownerEntity owner) f = d := by
      unfold updateRecord
      rw [h]
    simp only [hsame]
  | some record =>
    have hset (f : Record → Record) :
        d.updateRecord (ownerEntity owner) f = d.setEntity (ownerEntity owner) (f record) := by
      unfold updateRecord
      rw [h]
    rw [hset, hset, updateRecord_setEntity]

theorem putOutline_self (h : d.outline owner = .ok o) : d.putOutline owner o = d := by
  obtain ⟨record, hget, rfl⟩ := outline_ok.mp h
  obtain ⟨graphId, defaultQueries, entities⟩ := d
  unfold putOutline updateRecord
  rw [hget]
  show GraphDoc.mk _ _ (entities.insert (ownerEntity owner) record) = _
  congr 1
  refine BTreeMap.ext fun k => ?_
  rw [BTreeMap.get_insert]
  split_ifs with hk
  · rw [hk]
    exact hget.symm
  · rfl

theorem blockMeta_eq (h : d.outline owner = .ok o) :
    d.blockMeta owner b =
      if b ∈ o.tree.labels then .ok (o.metas b) else .error (.blockNotFound b) := by
  unfold blockMeta requireBlockIn
  rw [h]
  show (if b ∈ o.tree.labels then Except.ok () else _) >>= _ = _
  split_ifs <;> rfl

theorem blockText_eq (h : d.outline owner = .ok o) :
    d.blockText owner b =
      if b ∈ o.tree.labels then .ok (o.metas b).content else .error (.blockNotFound b) := by
  unfold blockText
  rw [blockMeta_eq h]
  split_ifs <;> rfl

theorem blockText_ok (h : d.outline owner = .ok o) {text : List Piece} :
    d.blockText owner b = .ok text ↔ b ∈ o.tree.labels ∧ (o.metas b).content = text := by
  rw [blockText_eq h]
  split_ifs with hb
  · exact ⟨fun he => ⟨hb, Except.ok.inj he⟩, fun he => congrArg _ he.2⟩
  · exact iff_of_false nofun fun he => hb he.1

theorem requireBlock_ok (h : d.outline owner = .ok o) :
    d.requireBlock owner b = .ok () ↔ b ∈ o.tree.labels := by
  unfold requireBlock requireBlockIn
  rw [h]
  show (if b ∈ o.tree.labels then Except.ok () else _) = _ ↔ _
  split_ifs with hb
  · exact iff_of_true rfl hb
  · exact iff_of_false nofun hb

/-- A block is there where its outline is. -/
theorem outline_of_requireBlock (h : d.requireBlock owner b = .ok ()) :
    ∃ o, d.outline owner = .ok o := by
  obtain ⟨o, ho, -⟩ := bind_eq_ok.mp h
  exact ⟨o, ho⟩

end GraphDoc

/-! ## Runs -/

theorem run_inOutline {f : Outline → Except CoreError Outline} (h : d.outline owner = .ok o)
    (hf : f o = .ok o') : (inOutline owner f).run d = (.ok (), d.putOutline owner o') := by
  have hread : (Edit.read fun d : GraphDoc => d.outline owner).run d = (.ok o, d) :=
    Edit.run_read h
  refine (Edit.run_bind_ok hread).trans ?_
  rw [Edit.run_zoom, GraphDoc.outlineAt_of_ok h, Edit.run_update hf]

theorem run_inMeta {γ : Type} {y : Edit CoreError BlockMeta γ} (h : d.outline owner = .ok o)
    (hb : b ∈ o.tree.labels) :
    (inMeta owner b y).run d =
      ((y.run (o.metas b)).1, d.putOutline owner (o.setMeta b (y.run (o.metas b)).2)) := by
  have hmeta : d.blockMeta owner b = .ok (o.metas b) := by
    rw [GraphDoc.blockMeta_eq h, if_pos hb]
  have hread : (Edit.read fun d : GraphDoc => d.blockMeta owner b).run d =
      (.ok (o.metas b), d) := Edit.run_read hmeta
  refine (Edit.run_bind_ok hread).trans ?_
  rw [Edit.run_zoom]
  unfold GraphDoc.metaAt GraphDoc.putMeta
  rw [GraphDoc.outlineAt_of_ok h]

theorem run_inText {f : List Piece → Except CoreError (List Piece)} {content : List Piece}
    (h : d.outline owner = .ok o) (hb : b ∈ o.tree.labels) (hf : f (o.metas b).content = .ok content) :
    (inText owner b f).run d = (.ok (), d.putOutline owner (o.setContent b content)) := by
  refine (run_inMeta h hb).trans ?_
  have hupdate : (Edit.update fun m : BlockMeta => do
      let content ← f m.content
      return { m with content }).run (o.metas b) = (.ok (), { o.metas b with content }) := by
    refine Edit.run_update ?_
    rw [hf]
    rfl
  rw [hupdate]
  rfl

/-- An edit of the bag of a block. -/
theorem run_inBag_block {γ : Type} {y : Edit CoreError Bag γ} (h : d.outline owner = .ok o)
    (hb : b ∈ o.tree.labels) :
    (inBag (.block owner b) y).run d =
      ((y.run (o.metas b).properties).1, d.putOutline owner (o.setMeta b
        { o.metas b with properties := (y.run (o.metas b).properties).2 })) := by
  have hbag : d.propertyOwnerBag (.block owner b) = .ok (o.metas b).properties := by
    show (d.blockMeta owner b).map _ = _
    rw [GraphDoc.blockMeta_eq h, if_pos hb]
    rfl
  rw [run_inBag hbag]
  show (_, d.putOutline owner ((d.outlineAt owner).setMeta b
    { (d.outlineAt owner).metas b with properties := _ })) = _
  rw [GraphDoc.outlineAt_of_ok h]

/-! ## A sample -/

theorem journal_valid : validate "journal" "page id" maxIdLen = .ok () := by decide

theorem graph_valid : validate "graph" "graph id" maxIdLen = .ok () := by decide

theorem block_valid : validate "block" "block id" maxIdLen = .ok () := by decide

def sampleHost : Host where
  codec := sampleCodec
  encode _ := ""
  encodeColumns _ := "[]"
  encodeOptions _ := "\x7b\x7d"
  encodePlanState _ := "raw"
  planError _ := ""
  toLowercase value := value
  isWhitespace c := c == ' '
  journalId _ _ := ⟨"journal", journal_valid⟩
  fragmentEntityId _ _ _ id := id
  fragmentSize _ := 0
  isTreeId _ := false

def samplePage : PageId := ⟨"page", by decide⟩

/-- A document of one page with an outline. -/
def pageWith (o : Outline) : GraphDoc where
  graphId := ⟨"graph", graph_valid⟩
  defaultQueries := ∅
  entities := (∅ : BTreeMap PageId Record).insert samplePage
    { freshRecord "Page" with outline := o }

end Neoseq.Core
