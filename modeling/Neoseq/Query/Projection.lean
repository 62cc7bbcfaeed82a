import Neoseq.Collections.BTreeMap
import Neoseq.Collections.Keyed
import Neoseq.Query.PropertyIndex

/-! What a page or a tag contributes to the index: for the unit itself and for each
block of its outline an entity with its triples, its text, and a reference to
it. -/

namespace Neoseq.Query
open Collections Domain

inductive QueryEntityRef where
  | page (id : String)
  | block (owner : OutlineOwner) (id : String)
  | tag (id : String)
  deriving DecidableEq

inductive IndexUnit where
  | page (snapshot : PageSnapshot)
  | tag (snapshot : TagSnapshot)

def IndexUnit.owner : IndexUnit → OutlineOwner
  | .page snapshot => .page snapshot.id
  | .tag snapshot => .tag snapshot.id

/-- Everything the projection says about one entity. -/
structure Entity where
  key : String
  ref : QueryEntityRef
  owner : OutlineOwner
  text : String
  triples : Finset Triple
  deriving DecidableEq

structure Projection where
  entities : BTreeMap String (Finset Triple)
  entityRefs : BTreeMap String QueryEntityRef
  ownerEntities : HashMap OutlineOwner (BTreeSet String)
  entityText : BTreeMap String String

namespace Projection

def empty : Projection := ⟨∅, ∅, ∅, ∅⟩

def record (p : Projection) (e : Entity) : Projection where
  entities := p.entities.insert e.key e.triples
  entityRefs := p.entityRefs.insert e.key e.ref
  ownerEntities :=
    p.ownerEntities.insert e.owner (((p.ownerEntities.lookup e.owner).getD ∅).add e.key)
  entityText := p.entityText.insert e.key e.text

end Projection

section Triples
variable (numerals : Numerals) (graph : GraphId)

def tagTriples (subject : String) (tags : List TagId) : List Triple :=
  tags.map fun tag => ⟨subject, neoNs ++ "tag", .namedNode (entityIri graph "tag" tag.asStr)⟩

def referenceTriples (subject : String) (references : List PageReferenceSpan) : List Triple :=
  references.map fun reference =>
    ⟨subject, neoNs ++ "references",
      .namedNode (entityIri graph "page" reference.pageId.asStr)⟩

/-- Documents are configuration, not facts: only their presence is a triple. -/
def propertyObject : PropertyValue → Option Term
  | .number value => some (Term.ofF64 numerals value)
  | .string value => some (Term.simple value)
  | .page id => some (.namedNode (entityIri graph "page" id.asStr))
  | .checkbox value => some (Term.ofBool value)
  | .date value => some (.literal value.asStr Xsd.date none)
  | .document _ => none
  | .unsupportedDocument .. => none

def propertyTriples (subject : String) (bag : PropertyBag) (namespc : String) : List Triple :=
  let presence :=
    neoNs ++ (if namespc = defaultPropertyNs then "hasDefaultProperty" else "hasProperty")
  bag.fields.flatMap fun field =>
    ⟨subject, presence, .namedNode (propertyKeyNs ++ encodeComponent field.key.asStr)⟩ ::
      (field.values.filterMap (propertyObject numerals graph)).map fun value =>
        ⟨subject, namespc ++ encodeComponent field.key.asStr, value⟩

def pageEntity (page : PageSnapshot) : Entity :=
  let iri := entityIri graph "page" page.id.asStr
  { key := iri
    ref := .page page.id.asStr
    owner := .page page.id
    text := page.title
    triples :=
      (⟨iri, rdfType, .namedNode (neoNs ++ "Page")⟩ ::
        ⟨iri, neoNs ++ "content", Term.simple page.title⟩ ::
        propertyTriples numerals graph iri page.properties propertyNs ++
        tagTriples graph iri page.tags).toFinset }

def tagEntity (tag : TagSnapshot) : Entity :=
  let iri := entityIri graph "tag" tag.id.asStr
  { key := iri
    ref := .tag tag.id.asStr
    owner := .tag tag.id
    text := tag.name
    triples :=
      (⟨iri, rdfType, .namedNode (neoNs ++ "Tag")⟩ ::
        ⟨iri, neoNs ++ "name", Term.simple tag.name⟩ ::
        propertyTriples numerals graph iri tag.properties propertyNs ++
        propertyTriples numerals graph iri tag.defaults defaultPropertyNs).toFinset }

def ownerIri : OutlineOwner → String
  | .page id => entityIri graph "page" id.asStr
  | .tag id => entityIri graph "tag" id.asStr

/-- Only a page is the page of its blocks. -/
def pageTriples (subject : String) (owner : OutlineOwner) : List Triple :=
  match owner with
  | .page _ => [⟨subject, neoNs ++ "page", .namedNode (ownerIri graph owner)⟩]
  | .tag _ => []

def blockEntity (owner : OutlineOwner) (parent : String) (block : BlockSnapshot)
    (siblingIndex : Nat) : Entity :=
  let iri := entityIri graph "block" block.id.asStr
  { key := iri
    ref := .block owner block.id.asStr
    owner := owner
    text := block.markdown
    triples :=
      (⟨iri, rdfType, .namedNode (neoNs ++ "Block")⟩ ::
        ⟨iri, neoNs ++ "content", Term.simple block.markdown⟩ ::
        referenceTriples graph iri block.pageReferences ++
        ⟨iri, neoNs ++ "owner", .namedNode (ownerIri graph owner)⟩ ::
        pageTriples graph iri owner ++
        ⟨iri, neoNs ++ "parent", .namedNode parent⟩ ::
        ⟨iri, neoNs ++ "siblingIndex", Term.ofInt siblingIndex⟩ ::
        propertyTriples numerals graph iri block.properties propertyNs ++
        tagTriples graph iri block.tags).toFinset }

mutual

def projectBlock (p : Projection) (owner : OutlineOwner) (parent : String)
    (siblingIndex : Nat) : BlockSnapshot → Projection
  | .mk id markdown pageReferences properties tags children =>
    let block := BlockSnapshot.mk id markdown pageReferences properties tags children
    projectBlocks (p.record (blockEntity numerals graph owner parent block siblingIndex)) owner
      (entityIri graph "block" id.asStr) 0 children

def projectBlocks (p : Projection) (owner : OutlineOwner) (parent : String) (index : Nat) :
    List BlockSnapshot → Projection
  | [] => p
  | block :: rest =>
    projectBlocks (projectBlock p owner parent index block) owner parent (index + 1) rest

end

def projectPage (p : Projection) (page : PageSnapshot) : Projection :=
  projectBlocks numerals graph (p.record (pageEntity numerals graph page)) (.page page.id)
    (entityIri graph "page" page.id.asStr) 0 page.blocks

def projectTag (p : Projection) (tag : TagSnapshot) : Projection :=
  projectBlocks numerals graph (p.record (tagEntity numerals graph tag)) (.tag tag.id)
    (entityIri graph "tag" tag.id.asStr) 0 tag.blocks

def projectUnit (p : Projection) : IndexUnit → Projection
  | .page page => projectPage numerals graph p page
  | .tag tag => projectTag numerals graph p tag

/-! ## The entities of a unit, in the order they are recorded -/

mutual

def blockEntities (owner : OutlineOwner) (parent : String) (siblingIndex : Nat) :
    BlockSnapshot → List Entity
  | .mk id markdown pageReferences properties tags children =>
    let block := BlockSnapshot.mk id markdown pageReferences properties tags children
    blockEntity numerals graph owner parent block siblingIndex ::
      blocksEntities owner (entityIri graph "block" id.asStr) 0 children

def blocksEntities (owner : OutlineOwner) (parent : String) (index : Nat) :
    List BlockSnapshot → List Entity
  | [] => []
  | block :: rest =>
    blockEntities owner parent index block ++ blocksEntities owner parent (index + 1) rest

end

def unitEntities : IndexUnit → List Entity
  | .page page =>
    pageEntity numerals graph page ::
      blocksEntities numerals graph (.page page.id) (entityIri graph "page" page.id.asStr) 0
        page.blocks
  | .tag tag =>
    tagEntity numerals graph tag ::
      blocksEntities numerals graph (.tag tag.id) (entityIri graph "tag" tag.id.asStr) 0 tag.blocks

variable {numerals graph}

mutual

theorem projectBlock_eq (p : Projection) (owner : OutlineOwner) (parent : String) (i : Nat) :
    ∀ block, projectBlock numerals graph p owner parent i block =
      (blockEntities numerals graph owner parent i block).foldl Projection.record p
  | .mk .. => by
    rw [projectBlock, blockEntities, List.foldl_cons, projectBlocks_eq]

theorem projectBlocks_eq (p : Projection) (owner : OutlineOwner) (parent : String) (i : Nat) :
    ∀ blocks, projectBlocks numerals graph p owner parent i blocks =
      (blocksEntities numerals graph owner parent i blocks).foldl Projection.record p
  | [] => by rw [projectBlocks, blocksEntities, List.foldl_nil]
  | block :: rest => by
    rw [projectBlocks, blocksEntities, List.foldl_append, projectBlocks_eq, projectBlock_eq]

end

/-- The projection of a unit records its entities one after another. -/
theorem projectUnit_eq (p : Projection) (unit : IndexUnit) :
    projectUnit numerals graph p unit =
      (unitEntities numerals graph unit).foldl Projection.record p := by
  cases unit with
  | page page =>
    show projectPage numerals graph p page = _
    rw [projectPage, projectBlocks_eq, unitEntities, List.foldl_cons]
  | tag tag =>
    show projectTag numerals graph p tag = _
    rw [projectTag, projectBlocks_eq, unitEntities, List.foldl_cons]

/-- An entity that some unit of the graph can have. -/
inductive Projected (numerals : Numerals) (graph : GraphId) : Entity → Prop where
  | page (page : PageSnapshot) : Projected numerals graph (pageEntity numerals graph page)
  | tag (tag : TagSnapshot) : Projected numerals graph (tagEntity numerals graph tag)
  | block (owner : OutlineOwner) (parent : String) (block : BlockSnapshot) (i : Nat) :
    Projected numerals graph (blockEntity numerals graph owner parent block i)

mutual

theorem blockEntities_spec (owner : OutlineOwner) (parent : String) (i : Nat) :
    ∀ block, ∀ e ∈ blockEntities numerals graph owner parent i block,
      Projected numerals graph e ∧ e.owner = owner
  | .mk .. => fun e he => by
    rw [blockEntities] at he
    rcases List.mem_cons.mp he with rfl | he
    · exact ⟨.block .., rfl⟩
    · exact blocksEntities_spec _ _ _ _ e he

theorem blocksEntities_spec (owner : OutlineOwner) (parent : String) (i : Nat) :
    ∀ blocks, ∀ e ∈ blocksEntities numerals graph owner parent i blocks,
      Projected numerals graph e ∧ e.owner = owner
  | [] => fun e he => by
    rw [blocksEntities] at he
    cases he
  | block :: rest => fun e he => by
    rw [blocksEntities] at he
    rcases List.mem_append.mp he with he | he
    · exact blockEntities_spec _ _ _ _ e he
    · exact blocksEntities_spec _ _ _ _ e he

end

theorem unitEntities_spec {unit : IndexUnit} {e : Entity}
    (h : e ∈ unitEntities numerals graph unit) :
    Projected numerals graph e ∧ e.owner = unit.owner := by
  cases unit with
  | page page =>
    rcases List.mem_cons.mp h with rfl | h
    · exact ⟨.page page, rfl⟩
    · exact blocksEntities_spec _ _ _ _ e h
  | tag tag =>
    rcases List.mem_cons.mp h with rfl | h
    · exact ⟨.tag tag, rfl⟩
    · exact blocksEntities_spec _ _ _ _ e h

/-! ## An entity is known from its triples -/

/-- The predicates that say what an entity is. -/
def corePredicates : List String :=
  [rdfType, neoNs ++ "content", neoNs ++ "name", neoNs ++ "owner", neoNs ++ "page"]

theorem append_ne_of_not_prefix {a b : String} (x : String)
    (h : a.toList.isPrefixOf b.toList = false) : a ++ x ≠ b := by
  rintro rfl
  rw [String.toList_append, Bool.eq_false_iff, ne_eq, List.isPrefixOf_iff_prefix] at h
  exact h (List.prefix_append ..)

theorem not_core_of_not_prefix {a : String} (x : String)
    (h : ∀ b ∈ corePredicates, a.toList.isPrefixOf b.toList = false) :
    a ++ x ∉ corePredicates := fun hm => append_ne_of_not_prefix x (h _ hm) rfl

theorem tagTriples_spec {subject : String} {tags : List TagId} {t : Triple}
    (h : t ∈ tagTriples graph subject tags) :
    t.subject = subject ∧ t.predicate ∉ corePredicates := by
  obtain ⟨_, _, rfl⟩ := List.mem_map.mp h
  refine ⟨rfl, ?_⟩
  show neoNs ++ "tag" ∉ corePredicates
  decide

theorem referenceTriples_spec {subject : String} {references : List PageReferenceSpan}
    {t : Triple} (h : t ∈ referenceTriples graph subject references) :
    t.subject = subject ∧ t.predicate ∉ corePredicates := by
  obtain ⟨_, _, rfl⟩ := List.mem_map.mp h
  refine ⟨rfl, ?_⟩
  show neoNs ++ "references" ∉ corePredicates
  decide

theorem propertyTriples_spec {subject namespc : String} {bag : PropertyBag} {t : Triple}
    (hns : namespc = propertyNs ∨ namespc = defaultPropertyNs)
    (h : t ∈ propertyTriples numerals graph subject bag namespc) :
    t.subject = subject ∧ t.predicate ∉ corePredicates := by
  obtain ⟨field, _, h⟩ := List.mem_flatMap.mp h
  rcases List.mem_cons.mp h with rfl | h
  · refine ⟨rfl, ?_⟩
    show neoNs ++ _ ∉ corePredicates
    split <;> decide
  · obtain ⟨value, _, rfl⟩ := List.mem_map.mp h
    refine ⟨rfl, ?_⟩
    rcases hns with rfl | rfl
    · exact not_core_of_not_prefix _ (by decide)
    · exact not_core_of_not_prefix _ (by decide)

theorem triple_ne {s s' p p' : String} {o o' : Term} (h : p ≠ p') :
    (⟨s, p, o⟩ : Triple) ≠ ⟨s', p', o'⟩ := fun he => h (congrArg Triple.predicate he)

theorem pageTriples_spec {subject : String} {owner : OutlineOwner} {t : Triple}
    (h : t ∈ pageTriples graph subject owner) :
    t.subject = subject ∧ t.predicate = neoNs ++ "page" := by
  cases owner with
  | page id =>
    obtain rfl := List.mem_singleton.mp h
    exact ⟨rfl, rfl⟩
  | tag id => cases h

theorem mem_pageEntity {page : PageSnapshot} {t : Triple}
    (h : t ∈ (pageEntity numerals graph page).triples) :
    t.subject = entityIri graph "page" page.id.asStr ∧ (t.predicate ∈ corePredicates →
      t = ⟨entityIri graph "page" page.id.asStr, rdfType, .namedNode (neoNs ++ "Page")⟩ ∨
      t = ⟨entityIri graph "page" page.id.asStr, neoNs ++ "content",
        Term.simple page.title⟩) := by
  simp only [pageEntity, List.mem_toFinset, List.mem_cons, List.mem_append] at h
  rcases h with (rfl | rfl | h) | h
  · exact ⟨rfl, fun _ => .inl rfl⟩
  · exact ⟨rfl, fun _ => .inr rfl⟩
  · exact (propertyTriples_spec (.inl rfl) h).imp_right Not.elim
  · exact (tagTriples_spec h).imp_right Not.elim

theorem mem_tagEntity {tag : TagSnapshot} {t : Triple}
    (h : t ∈ (tagEntity numerals graph tag).triples) :
    t.subject = entityIri graph "tag" tag.id.asStr ∧ (t.predicate ∈ corePredicates →
      t = ⟨entityIri graph "tag" tag.id.asStr, rdfType, .namedNode (neoNs ++ "Tag")⟩ ∨
      t = ⟨entityIri graph "tag" tag.id.asStr, neoNs ++ "name", Term.simple tag.name⟩) := by
  simp only [tagEntity, List.mem_toFinset, List.mem_cons, List.mem_append] at h
  rcases h with (rfl | rfl | h) | h
  · exact ⟨rfl, fun _ => .inl rfl⟩
  · exact ⟨rfl, fun _ => .inr rfl⟩
  · exact (propertyTriples_spec (.inl rfl) h).imp_right Not.elim
  · exact (propertyTriples_spec (.inr rfl) h).imp_right Not.elim

theorem mem_blockEntity {owner : OutlineOwner} {parent : String} {block : BlockSnapshot}
    {i : Nat} {t : Triple} (h : t ∈ (blockEntity numerals graph owner parent block i).triples) :
    t.subject = entityIri graph "block" block.id.asStr ∧ (t.predicate ∈ corePredicates →
      t = ⟨entityIri graph "block" block.id.asStr, rdfType, .namedNode (neoNs ++ "Block")⟩ ∨
      t = ⟨entityIri graph "block" block.id.asStr, neoNs ++ "content",
        Term.simple block.markdown⟩ ∨
      t = ⟨entityIri graph "block" block.id.asStr, neoNs ++ "owner",
        .namedNode (ownerIri graph owner)⟩ ∨
      t ∈ pageTriples graph (entityIri graph "block" block.id.asStr) owner) := by
  simp only [blockEntity, List.mem_toFinset, List.mem_cons, List.mem_append] at h
  rcases h with (((rfl | rfl | h) | rfl | h) | rfl | rfl | h) | h
  · exact ⟨rfl, fun _ => .inl rfl⟩
  · exact ⟨rfl, fun _ => .inr (.inl rfl)⟩
  · exact (referenceTriples_spec h).imp_right Not.elim
  · exact ⟨rfl, fun _ => .inr (.inr (.inl rfl))⟩
  · exact ⟨(pageTriples_spec h).1, fun _ => .inr (.inr (.inr h))⟩
  · exact ⟨rfl, fun hp => absurd hp (show neoNs ++ "parent" ∉ corePredicates by decide)⟩
  · exact ⟨rfl, fun hp => absurd hp (show neoNs ++ "siblingIndex" ∉ corePredicates by decide)⟩
  · exact (propertyTriples_spec (.inl rfl) h).imp_right Not.elim
  · exact (tagTriples_spec h).imp_right Not.elim

/-- The triples of an entity are about the entity. -/
theorem Projected.subject_eq {e : Entity} (h : Projected numerals graph e) {t : Triple}
    (ht : t ∈ e.triples) : t.subject = e.key := by
  cases h with
  | page page => exact (mem_pageEntity ht).1
  | tag tag => exact (mem_tagEntity ht).1
  | block owner parent block i => exact (mem_blockEntity ht).1

/-- Which kind of entity it is. -/
def Entity.typeName (e : Entity) : String :=
  match e.ref with
  | .page _ => "Page"
  | .tag _ => "Tag"
  | .block .. => "Block"

theorem Projected.type_mem {e : Entity} (h : Projected numerals graph e) :
    ⟨e.key, rdfType, .namedNode (neoNs ++ e.typeName)⟩ ∈ e.triples := by
  cases h <;> simp [pageEntity, tagEntity, blockEntity, Entity.typeName]

theorem Projected.type_unique {e : Entity} (h : Projected numerals graph e) {s : String} {o : Term}
    (ht : ⟨s, rdfType, o⟩ ∈ e.triples) : o = .namedNode (neoNs ++ e.typeName) := by
  have hp : rdfType ∈ corePredicates := List.mem_cons_self ..
  cases h with
  | page page =>
    rcases (mem_pageEntity ht).2 hp with he | he
    · exact congrArg Triple.object he
    · exact absurd he (triple_ne (by decide))
  | tag tag =>
    rcases (mem_tagEntity ht).2 hp with he | he
    · exact congrArg Triple.object he
    · exact absurd he (triple_ne (by decide))
  | block owner parent block i =>
    rcases (mem_blockEntity ht).2 hp with he | he | he | he
    · exact congrArg Triple.object he
    · exact absurd he (triple_ne (by decide))
    · exact absurd he (triple_ne (by decide))
    · exact absurd (pageTriples_spec he).2 (show rdfType ≠ neoNs ++ "page" by decide)

theorem Projected.typeName_eq {e e' : Entity} (h : Projected numerals graph e)
    (h' : Projected numerals graph e') (ht : e.triples = e'.triples) :
    e.typeName = e'.typeName := by
  have := h'.type_unique (ht ▸ h.type_mem)
  exact String.append_right_inj _ |>.mp (Term.namedNode.inj this)

theorem Term.simple_injective : Function.Injective Term.simple := fun _ _ h =>
  (Term.literal.inj h).1

/-- A block of a page is not a block of a tag. -/
theorem page_of_blockEntity {owner' : OutlineOwner} {parent parent' : String}
    {block block' : BlockSnapshot} {i i' : Nat} {id : PageId}
    (ht : (blockEntity numerals graph (.page id) parent block i).triples ⊆
      (blockEntity numerals graph owner' parent' block' i').triples) :
    ∃ id', owner' = .page id' := by
  have hm : ⟨entityIri graph "block" block.id.asStr, neoNs ++ "page",
      .namedNode (ownerIri graph (.page id))⟩ ∈
      (blockEntity numerals graph (.page id) parent block i).triples := by
    simp [blockEntity, pageTriples]
  have hp : neoNs ++ "page" ∈ corePredicates := by decide
  rcases (mem_blockEntity (ht hm)).2 hp with he | he | he | he
  · exact absurd he (triple_ne (by decide))
  · exact absurd he (triple_ne (by decide))
  · exact absurd he (triple_ne (by decide))
  · cases owner' with
    | page id' => exact ⟨id', rfl⟩
    | tag id' => cases he

theorem owner_of_blockEntity {owner owner' : OutlineOwner} {parent parent' : String}
    {block block' : BlockSnapshot} {i i' : Nat}
    (ht : (blockEntity numerals graph owner parent block i).triples =
      (blockEntity numerals graph owner' parent' block' i').triples) : owner = owner' := by
  have hm : ⟨entityIri graph "block" block.id.asStr, neoNs ++ "owner",
      .namedNode (ownerIri graph owner)⟩ ∈
      (blockEntity numerals graph owner parent block i).triples := by
    simp [blockEntity]
  have hp : neoNs ++ "owner" ∈ corePredicates := by decide
  have hiri : ownerIri graph owner = ownerIri graph owner' := by
    rcases (mem_blockEntity (ht ▸ hm)).2 hp with he | he | he | he
    · exact absurd he (triple_ne (by decide))
    · exact absurd he (triple_ne (by decide))
    · exact Term.namedNode.inj (congrArg Triple.object he)
    · exact absurd (pageTriples_spec he).2 (show neoNs ++ "owner" ≠ neoNs ++ "page" by decide)
  cases owner with
  | page id =>
    obtain ⟨id', rfl⟩ := page_of_blockEntity (Finset.subset_of_eq ht)
    exact congrArg _ (OpaqueString.ext (entityIri_injective hiri))
  | tag id =>
    cases owner' with
    | page id' => exact nomatch page_of_blockEntity (Finset.subset_of_eq ht.symm)
    | tag id' => exact congrArg _ (OpaqueString.ext (entityIri_injective hiri))

/-- Two entities with one key and the same triples are the same. -/
theorem Projected.eq_of_triples {e e' : Entity} (h : Projected numerals graph e)
    (h' : Projected numerals graph e') (hk : e.key = e'.key) (ht : e.triples = e'.triples) :
    e = e' := by
  have hname := h.typeName_eq h' ht
  have hp : neoNs ++ "content" ∈ corePredicates := by decide
  have hp' : neoNs ++ "name" ∈ corePredicates := by decide
  cases h with
  | page page =>
    cases h' with
    | page page' =>
      have hid := OpaqueString.ext (entityIri_injective hk)
      have hm : ⟨entityIri graph "page" page.id.asStr, neoNs ++ "content",
          Term.simple page.title⟩ ∈ (pageEntity numerals graph page).triples := by
        simp [pageEntity]
      have htext : page.title = page'.title := by
        rcases (mem_pageEntity (ht ▸ hm)).2 hp with he | he
        · exact absurd he (triple_ne (by decide))
        · exact Term.simple_injective (congrArg Triple.object he)
      rw [Entity.mk.injEq]
      exact ⟨hk, congrArg (fun id : PageId => QueryEntityRef.page id.asStr) hid,
        congrArg OutlineOwner.page hid, htext, ht⟩
    | tag tag => exact absurd hname (show "Page" ≠ "Tag" by decide)
    | block owner parent block i => exact absurd hname (show "Page" ≠ "Block" by decide)
  | tag tag =>
    cases h' with
    | page page => exact absurd hname (show "Tag" ≠ "Page" by decide)
    | tag tag' =>
      have hid := OpaqueString.ext (entityIri_injective hk)
      have hm : ⟨entityIri graph "tag" tag.id.asStr, neoNs ++ "name",
          Term.simple tag.name⟩ ∈ (tagEntity numerals graph tag).triples := by
        simp [tagEntity]
      have htext : tag.name = tag'.name := by
        rcases (mem_tagEntity (ht ▸ hm)).2 hp' with he | he
        · exact absurd he (triple_ne (by decide))
        · exact Term.simple_injective (congrArg Triple.object he)
      rw [Entity.mk.injEq]
      exact ⟨hk, congrArg (fun id : TagId => QueryEntityRef.tag id.asStr) hid,
        congrArg OutlineOwner.tag hid, htext, ht⟩
    | block owner parent block i => exact absurd hname (show "Tag" ≠ "Block" by decide)
  | block owner parent block i =>
    cases h' with
    | page page => exact absurd hname (show "Block" ≠ "Page" by decide)
    | tag tag => exact absurd hname (show "Block" ≠ "Tag" by decide)
    | block owner' parent' block' i' =>
      have hid := OpaqueString.ext (entityIri_injective hk)
      have howner := owner_of_blockEntity ht
      have hm : ⟨entityIri graph "block" block.id.asStr, neoNs ++ "content",
          Term.simple block.markdown⟩ ∈
          (blockEntity numerals graph owner parent block i).triples := by
        simp [blockEntity]
      have htext : block.markdown = block'.markdown := by
        rcases (mem_blockEntity (ht ▸ hm)).2 hp with he | he | he | he
        · exact absurd he (triple_ne (by decide))
        · exact Term.simple_injective (congrArg Triple.object he)
        · exact absurd he (triple_ne (by decide))
        · exact absurd (pageTriples_spec he).2
            (show neoNs ++ "content" ≠ neoNs ++ "page" by decide)
      rw [Entity.mk.injEq]
      refine ⟨hk, ?_, howner, htext, ht⟩
      show QueryEntityRef.block owner block.id.asStr = .block owner' block'.id.asStr
      rw [hid, howner]

theorem unitEntities_ne_nil (unit : IndexUnit) : unitEntities numerals graph unit ≠ [] := by
  cases unit <;> exact List.cons_ne_nil _ _

end Triples

/-! ## What a projection holds -/

/-- The entity that was recorded last under a key. -/
def lastWith (l : List Entity) (k : String) : Option Entity :=
  l.reverse.find? fun e => decide (e.key = k)

theorem lastWith_append (l m : List Entity) (k : String) :
    lastWith (l ++ m) k = (lastWith m k).or (lastWith l k) := by
  unfold lastWith
  rw [List.reverse_append, List.find?_append]

theorem lastWith_concat (l : List Entity) (e : Entity) (k : String) :
    lastWith (l ++ [e]) k = if k = e.key then some e else lastWith l k := by
  rw [lastWith_append]
  by_cases h : e.key = k
  · simp [lastWith, h]
  · simp [lastWith, h, Ne.symm h]

theorem lastWith_eq_some {l : List Entity} {k : String} {e : Entity} (h : lastWith l k = some e) :
    e ∈ l ∧ e.key = k :=
  ⟨List.mem_reverse.mp (List.mem_of_find?_eq_some h), by simpa using List.find?_some h⟩

theorem lastWith_isSome {l : List Entity} {k : String} :
    (lastWith l k).isSome = true ↔ ∃ e ∈ l, e.key = k := by
  unfold lastWith
  rw [List.find?_isSome]
  simp

theorem lastWith_eq_none {l : List Entity} {k : String} :
    lastWith l k = none ↔ ∀ e ∈ l, e.key ≠ k := by
  rw [← Option.not_isSome_iff_eq_none, lastWith_isSome]
  push Not
  rfl

namespace Projection

/-- The projection that entities record, one after another. -/
def ofEntities (l : List Entity) : Projection := l.foldl record empty

theorem ofEntities_concat (l : List Entity) (e : Entity) :
    ofEntities (l ++ [e]) = (ofEntities l).record e := List.foldl_concat ..

theorem get_entities (l : List Entity) (k : String) :
    (ofEntities l).entities.get k = (lastWith l k).map Entity.triples := by
  induction l using List.reverseRecOn with
  | nil => rfl
  | append_singleton l e ih =>
    rw [ofEntities_concat, lastWith_concat]
    show ((ofEntities l).entities.insert e.key e.triples).get k = _
    rw [BTreeMap.get_insert, ih]
    split <;> rfl

theorem get_entityRefs (l : List Entity) (k : String) :
    (ofEntities l).entityRefs.get k = (lastWith l k).map Entity.ref := by
  induction l using List.reverseRecOn with
  | nil => rfl
  | append_singleton l e ih =>
    rw [ofEntities_concat, lastWith_concat]
    show ((ofEntities l).entityRefs.insert e.key e.ref).get k = _
    rw [BTreeMap.get_insert, ih]
    split <;> rfl

theorem get_entityText (l : List Entity) (k : String) :
    (ofEntities l).entityText.get k = (lastWith l k).map Entity.text := by
  induction l using List.reverseRecOn with
  | nil => rfl
  | append_singleton l e ih =>
    rw [ofEntities_concat, lastWith_concat]
    show ((ofEntities l).entityText.insert e.key e.text).get k = _
    rw [BTreeMap.get_insert, ih]
    split <;> rfl

theorem lookup_record (p : Projection) (e : Entity) (o : OutlineOwner) :
    (p.record e).ownerEntities.lookup o =
      if o = e.owner then some (((p.ownerEntities.lookup e.owner).getD ∅).add e.key)
      else p.ownerEntities.lookup o := by
  unfold record
  by_cases h : o = e.owner
  · subst h
    rw [if_pos rfl, Finmap.lookup_insert]
  · rw [if_neg h, Finmap.lookup_insert_of_ne _ h]

theorem isSome_ownerEntities (l : List Entity) (o : OutlineOwner) :
    ((ofEntities l).ownerEntities.lookup o).isSome = true ↔ ∃ e ∈ l, e.owner = o := by
  induction l using List.reverseRecOn with
  | nil => simp [ofEntities, empty]
  | append_singleton l e ih =>
    rw [ofEntities_concat, lookup_record]
    split
    · next h => simp [h]
    · next h => simp [ih, Ne.symm h]

theorem mem_ownerEntities (l : List Entity) (o : OutlineOwner) (k : String) :
    k ∈ ((ofEntities l).ownerEntities.lookup o).getD ∅ ↔
      ∃ e ∈ l, e.owner = o ∧ e.key = k := by
  induction l using List.reverseRecOn with
  | nil => simp [ofEntities, empty]
  | append_singleton l e ih =>
    rw [ofEntities_concat, lookup_record]
    split
    · next h =>
      subst h
      rw [Option.getD_some, BTreeSet.mem_add, ih]
      simp only [List.mem_append, List.mem_singleton]
      constructor
      · rintro (rfl | ⟨x, hx, h⟩)
        · exact ⟨e, .inr rfl, rfl, rfl⟩
        · exact ⟨x, .inl hx, h⟩
      · rintro ⟨x, hx | rfl, h⟩
        · exact .inr ⟨x, hx, h⟩
        · exact .inl h.2.symm
    · next h =>
      rw [ih]
      simp only [List.mem_append, List.mem_singleton]
      constructor
      · rintro ⟨x, hx, h⟩
        exact ⟨x, .inl hx, h⟩
      · rintro ⟨x, hx | rfl, hx'⟩
        · exact ⟨x, hx, hx'⟩
        · exact absurd hx'.1.symm h

end Projection

theorem projectUnit_empty (numerals : Numerals) (graph : GraphId) (unit : IndexUnit) :
    projectUnit numerals graph Projection.empty unit =
      Projection.ofEntities (unitEntities numerals graph unit) :=
  projectUnit_eq ..

end Neoseq.Query
