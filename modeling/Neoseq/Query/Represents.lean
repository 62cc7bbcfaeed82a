import Neoseq.Query.GraphIndex

/-! Which entities an index is an index of. Every loop of the builder and of a
delta is described by what it does to the live entities. -/

namespace Neoseq.Query
open Collections Domain

variable {unicode : Unicode} {numerals : Numerals} {graph : GraphId}

/-! ## Loops over plain maps -/

theorem lookup_eq_none {υ : Type} {l : List (String × υ)} {k : String}
    (h : k ∉ l.map Prod.fst) : List.lookup k l = none := by
  rw [List.lookup_eq_none_iff]
  intro p hp
  have hne : k ≠ p.1 := fun he => h (he ▸ List.mem_map_of_mem hp)
  simpa using hne

theorem lookup_foldl_insert {υ : Type} {l : List (String × υ)} (hn : (l.map Prod.fst).Nodup)
    (m : HashMap String υ) (k : String) :
    (l.foldl (fun m e => m.insert e.1 e.2) m).lookup k = (List.lookup k l).or (m.lookup k) := by
  induction l generalizing m with
  | nil => rfl
  | cons e rest ih =>
    rw [List.map_cons, List.nodup_cons] at hn
    rw [List.foldl_cons, ih hn.2, List.lookup_cons]
    by_cases h : k = e.1
    · subst h
      rw [lookup_eq_none hn.1, Finmap.lookup_insert, beq_self_eq_true]
      rfl
    · rw [beq_false_of_ne h, Finmap.lookup_insert_of_ne _ h]

theorem lookup_foldl_erase {κ υ : Type} [DecidableEq κ] (l : List κ) (m : HashMap κ υ) (k : κ) :
    (l.foldl (fun m key => m.erase key) m).lookup k = if k ∈ l then none else m.lookup k := by
  induction l generalizing m with
  | nil => simp
  | cons x rest ih =>
    rw [List.foldl_cons, ih]
    by_cases h : k = x
    · subst h
      simp
    · rw [Finmap.lookup_erase_ne h]
      simp [h]

theorem mem_unionAll {l : List (String × Finset Triple)} {t : Triple} :
    t ∈ unionAll l ↔ ∃ e ∈ l, t ∈ e.2 := by
  unfold unionAll
  induction l with
  | nil => simp
  | cons e rest ih =>
    rw [List.foldr_cons, Finset.mem_union, ih]
    simp

/-- Triples of different subjects do not meet, so their numbers add up. -/
theorem card_unionAll {l : List (String × Finset Triple)} (hn : (l.map Prod.fst).Nodup)
    (hs : ∀ e ∈ l, ∀ t ∈ e.2, t.subject = e.1) : (unionAll l).card = total l := by
  induction l with
  | nil => rfl
  | cons e rest ih =>
    rw [List.map_cons, List.nodup_cons] at hn
    have hd : Disjoint e.2 (unionAll rest) := Finset.disjoint_left.mpr fun t ht hm => by
      obtain ⟨e', he', ht'⟩ := mem_unionAll.mp hm
      have h := hs e (List.mem_cons_self ..) t ht
      have h' := hs e' (List.mem_cons_of_mem _ he') t ht'
      exact hn.1 (List.mem_map.mpr ⟨e', he', h'.symm.trans h⟩)
    show (e.2 ∪ unionAll rest).card = (e.2.card :: rest.map fun e => e.2.card).sum
    rw [Finset.card_union_of_disjoint hd, List.sum_cons,
      ih hn.2 fun e' he' => hs e' (List.mem_cons_of_mem _ he')]
    rfl

/-! ## The invariant -/

/-- The text and the property postings of the live entities. -/
structure Indexed (unicode : Unicode) (numerals : Numerals) (properties : PropertyIndex)
    (texts : TextIndex) (normalized : NormalizedText) (live : String → Option Entity) : Prop where
  text : texts.Holds unicode normalized fun k => (live k).map Entity.text
  properties : properties.Holds numerals fun id t =>
    ∃ e, live t.subject = some e ∧ t ∈ e.triples ∧ texts.bySubject.lookup t.subject = some id

/-- The tables are those of the live entities. -/
structure Represents (unicode : Unicode) (numerals : Numerals) (graph : GraphId)
    (b : ProjectionBuild) (live : String → Option Entity) : Prop where
  projected : ∀ k e, live k = some e → Projected numerals graph e ∧ e.key = k
  store : ∀ t, t ∈ b.store ↔ ∃ e, live t.subject = some e ∧ t ∈ e.triples
  count : b.tripleCount = b.store.card
  refs : ∀ k, b.entityRefs.lookup k = (live k).map Entity.ref
  owned : ∀ o k, k ∈ (b.ownerEntities.lookup o).getD ∅ ↔ ∃ e, live k = some e ∧ e.owner = o
  owners : ∀ o, (b.ownerEntities.lookup o).isSome = true ↔ ∃ k e, live k = some e ∧ e.owner = o
  indexed : Indexed unicode numerals b.propertyIndex b.textIndex b.normalizedText live

/-- The live entities where later ones replace. -/
def overlay (l : List Entity) (live : String → Option Entity) (k : String) : Option Entity :=
  (lastWith l k).or (live k)

theorem represents_empty :
    Represents unicode numerals graph ProjectionBuild.empty fun _ => none where
  projected k e h := nomatch h
  store t := by simp [ProjectionBuild.empty]
  count := rfl
  refs k := by simp [ProjectionBuild.empty]
  owned o k := by simp [ProjectionBuild.empty]
  owners o := by simp [ProjectionBuild.empty]
  indexed := {
    text := TextIndex.holds_empty
    properties := PropertyIndex.holds_empty.congr fun i t => by simp }

/-- There are ids for the live subjects, and their triples can be counted. -/
def Fits (live : String → Option Entity) : Prop :=
  ∃ (subjects : Finset String) (triples : Finset Triple),
    (∀ k e, live k = some e → k ∈ subjects ∧ e.triples ⊆ triples) ∧
      subjects.card ≤ 4294967296 ∧ triples.card ≤ usizeMax

theorem Fits.mono {live live' : String → Option Entity} (h : Fits live)
    (hsub : ∀ k e, live' k = some e → live k = some e) : Fits live' := by
  obtain ⟨subjects, triples, hmem, hcards⟩ := h
  exact ⟨subjects, triples, fun k e he => hmem k e (hsub k e he), hcards⟩

/-! ## Texts -/

theorem bySubject_remove {ix : TextIndex} {s k : String} {normalized : NormalizedText}
    (h : k ≠ s) : (ix.remove s normalized).1.bySubject.lookup k = ix.bySubject.lookup k := by
  unfold TextIndex.remove
  split
  · rfl
  · split
    · exact Finmap.lookup_erase_ne h
    · exact Finmap.lookup_erase_ne h

theorem bySubject_insert {ix ix' : TextIndex} {s v k : String}
    {normalized normalized' : NormalizedText} (hk : k ≠ s)
    (h : ix.insert unicode s v normalized = .ok (ix', normalized')) :
    ix'.bySubject.lookup k = ix.bySubject.lookup k := by
  unfold TextIndex.insert at h
  obtain ⟨⟨id, entries, freeIds⟩, _, h⟩ := bind_eq_ok.mp h
  obtain ⟨rfl, _⟩ := Prod.mk.inj (pure_eq_ok.mp h)
  exact (Finmap.lookup_insert_of_ne _ hk).trans (bySubject_remove hk)

/-- Texts of distinct subjects are all put in, and leave the others' ids alone. -/
theorem insertTexts_spec {l : List (String × String)} (hn : (l.map Prod.fst).Nodup)
    {subjects : Finset String} (hcard : subjects.card ≤ 4294967296)
    (hl : ∀ e ∈ l, e.1 ∈ subjects) {ix : TextIndex} {normalized : NormalizedText}
    {text : String → Option String} (h : ix.Holds unicode normalized text)
    (htext : ∀ k, text k ≠ none → k ∈ subjects) :
    ∃ ix' normalized', insertTexts unicode l (ix, normalized) = .ok (ix', normalized') ∧
      ix'.Holds unicode normalized' (fun k => (List.lookup k l).or (text k)) ∧
      ∀ k, k ∉ l.map Prod.fst → ix'.bySubject.lookup k = ix.bySubject.lookup k := by
  induction l generalizing ix normalized text with
  | nil => exact ⟨ix, normalized, rfl, h, fun _ _ => rfl⟩
  | cons e rest ih =>
    obtain ⟨s, v⟩ := e
    rw [List.map_cons, List.nodup_cons] at hn
    obtain ⟨ix₁, normalized₁, hins, h₁⟩ :=
      h.insert v (fun k _ hk => htext k hk) (hl _ (List.mem_cons_self ..)) hcard
    obtain ⟨ix₂, normalized₂, hrest, h₂, hids⟩ :=
      ih hn.2 (fun e he => hl e (List.mem_cons_of_mem _ he)) h₁ (fun k hk => by
        by_cases hks : k = s
        · exact hks ▸ hl _ (List.mem_cons_self ..)
        · exact htext k (by simpa [hks] using hk))
    refine ⟨ix₂, normalized₂, ?_, ?_, fun k hk => ?_⟩
    · rw [insertTexts, hins]
      exact hrest
    · have he : (fun k => (List.lookup k ((s, v) :: rest)).or (text k)) =
          fun k => (List.lookup k rest).or (if k = s then some v else text k) := by
        funext k
        rw [List.lookup_cons]
        by_cases hks : k = s
        · subst hks
          simp [lookup_eq_none hn.1]
        · simp [beq_false_of_ne hks, hks]
      rw [he]
      exact h₂
    · rw [List.map_cons, List.mem_cons, not_or] at hk
      rw [hids k hk.2, bySubject_insert hk.1 hins]

/-! ## Properties -/

theorem insertProperties_spec {ids : TextIndex} {l : List (String × Finset Triple)}
    (hl : ∀ e ∈ l, (ids.bySubject.lookup e.1).isSome = true) {ix : PropertyIndex}
    {facts : Nat → Triple → Prop} (h : ix.Holds numerals facts) :
    ∃ ix', insertProperties numerals ids l ix = .ok ix' ∧
      ix'.Holds numerals fun id t =>
        (∃ e ∈ l, ids.bySubject.lookup e.1 = some id ∧ t ∈ e.2) ∨ facts id t := by
  induction l generalizing ix facts with
  | nil => exact ⟨ix, rfl, h.congr fun i t => by simp⟩
  | cons e rest ih =>
    obtain ⟨key, triples⟩ := e
    obtain ⟨id, hid⟩ := Option.isSome_iff_exists.mp (hl _ (List.mem_cons_self ..))
    obtain ⟨ix', hrest, h'⟩ :=
      ih (fun e he => hl e (List.mem_cons_of_mem _ he)) (h.insertSubject id triples)
    refine ⟨ix', ?_, h'.congr fun i t => ?_⟩
    · rw [insertProperties, show ids.id key = some id from hid]
      exact hrest
    · simp only [List.mem_cons, exists_eq_or_imp, hid, Option.some.injEq]
      rw [or_left_comm, or_assoc, eq_comm (a := id)]

/-! ## Both sides together -/

theorem lookup_eq_get {υ : Type} (m : BTreeMap String υ) (k : String) :
    List.lookup k m.entries = m.get k := rfl

/-- The entities of a projection are put in where nothing is live under their keys. -/
theorem Indexed.add {properties : PropertyIndex} {texts : TextIndex} {normalized : NormalizedText}
    {live : String → Option Entity} (h : Indexed unicode numerals properties texts normalized live)
    {l : List Entity} (hsub : ∀ e ∈ l, ∀ t ∈ e.triples, t.subject = e.key)
    (hnew : ∀ e ∈ l, live e.key = none) {subjects : Finset String}
    (hcard : subjects.card ≤ 4294967296) (hl : ∀ e ∈ l, e.key ∈ subjects)
    (hlive : ∀ k, live k ≠ none → k ∈ subjects) :
    ∃ texts' normalized' properties',
      insertTexts unicode (Projection.ofEntities l).entityText.entries (texts, normalized) =
        .ok (texts', normalized') ∧
      insertProperties numerals texts' (Projection.ofEntities l).entities.entries properties =
        .ok properties' ∧
      Indexed unicode numerals properties' texts' normalized' (overlay l live) := by
  have hkeys : ∀ {k : String} {v : String}, (k, v) ∈ (Projection.ofEntities l).entityText.entries →
      ∃ e ∈ l, e.key = k := fun {k v} hm => by
    rw [BTreeMap.mem_entries, Projection.get_entityText] at hm
    exact lastWith_isSome.mp (by rw [← Option.isSome_map (f := Entity.text), hm]; rfl)
  obtain ⟨texts', normalized', htexts, hholds, hids⟩ :=
    insertTexts_spec (BTreeMap.nodup_keys _) hcard (fun e he => by
      obtain ⟨x, hx, hk⟩ := hkeys he
      exact hk ▸ hl x hx) h.text (fun k hk => hlive k fun hn => hk (by rw [hn]; rfl))
  have htext : (fun k => (List.lookup k (Projection.ofEntities l).entityText.entries).or
      ((live k).map Entity.text)) = fun k => (overlay l live k).map Entity.text := by
    funext k
    rw [lookup_eq_get, Projection.get_entityText, overlay]
    cases lastWith l k <;> rfl
  rw [htext] at hholds
  have hent : ∀ {k : String} {ts : Finset Triple},
      (k, ts) ∈ (Projection.ofEntities l).entities.entries ↔
        ∃ e, lastWith l k = some e ∧ e.triples = ts := fun {k ts} => by
    rw [BTreeMap.mem_entries, Projection.get_entities, Option.map_eq_some_iff]
  have hheld : ∀ e ∈ (Projection.ofEntities l).entities.entries,
      (texts'.bySubject.lookup e.1).isSome = true := by
    intro ⟨k, ts⟩ he
    obtain ⟨e, he, _⟩ := hent.mp he
    rw [hholds.id_isSome, overlay, he]
    rfl
  obtain ⟨properties', hprops, hpholds⟩ := insertProperties_spec hheld h.properties
  refine ⟨texts', normalized', properties', htexts, hprops, hholds, hpholds.congr fun id t => ?_⟩
  have hold : ∀ e, live t.subject = some e →
      lastWith l t.subject = none ∧
        texts'.bySubject.lookup t.subject = texts.bySubject.lookup t.subject := fun e he => by
    have hnone : lastWith l t.subject = none := lastWith_eq_none.mpr fun x hx hk => by
      have := hnew x hx
      rw [hk, he] at this
      cases this
    refine ⟨hnone, hids _ fun hm => ?_⟩
    obtain ⟨⟨k, v⟩, hkv, hk⟩ := List.mem_map.mp hm
    obtain ⟨x, hx, hxk⟩ := hkeys hkv
    exact lastWith_eq_none.mp hnone x hx (hxk.trans hk)
  constructor
  · rintro (⟨⟨k, ts⟩, he, hid, ht⟩ | ⟨e, he, ht, hid⟩)
    · obtain ⟨e, hlast, rfl⟩ := hent.mp he
      obtain ⟨hmem, rfl⟩ := lastWith_eq_some hlast
      have hs := hsub e hmem t ht
      refine ⟨e, ?_, ht, hs ▸ hid⟩
      rw [overlay, hs, hlast]
      rfl
    · obtain ⟨hnone, hsame⟩ := hold e he
      refine ⟨e, ?_, ht, hsame.trans hid⟩
      rw [overlay, hnone, he]
      rfl
  · rintro ⟨e, he, ht, hid⟩
    unfold overlay at he
    cases hlast : lastWith l t.subject with
    | none =>
      rw [hlast, Option.none_or] at he
      exact .inr ⟨e, he, ht, (hold e he).2 ▸ hid⟩
    | some x =>
      rw [hlast, Option.some_or] at he
      obtain rfl := Option.some.inj he
      exact .inl ⟨(t.subject, x.triples), hent.mpr ⟨x, hlast, rfl⟩, hid, ht⟩

/-! ## One unit of a cold build -/

/-- Entities that are recorded under new keys of a new owner. -/
structure Adds (graph : GraphId) (numerals : Numerals) (live : String → Option Entity)
    (l : List Entity) (owner : OutlineOwner) : Prop where
  nonempty : l ≠ []
  projected : ∀ e ∈ l, Projected numerals graph e ∧ e.owner = owner
  key_new : ∀ e ∈ l, live e.key = none
  owner_new : ∀ k e, live k = some e → e.owner ≠ owner

section Adds
variable {live : String → Option Entity} {l : List Entity} {owner : OutlineOwner}

theorem overlay_eq_some {k : String} {e : Entity} :
    overlay l live k = some e ↔
      lastWith l k = some e ∨ lastWith l k = none ∧ live k = some e := by
  unfold overlay
  cases lastWith l k <;> simp

/-- Nothing that was live is replaced. -/
theorem Adds.overlay_eq_some (h : Adds graph numerals live l owner) {k : String} {e : Entity} :
    overlay l live k = some e ↔ lastWith l k = some e ∨ live k = some e := by
  rw [Query.overlay_eq_some]
  refine or_congr_right ⟨And.right, fun he => ⟨lastWith_eq_none.mpr fun x hx hk => ?_, he⟩⟩
  have := h.key_new x hx
  rw [hk, he] at this
  cases this

theorem mem_unionAll_ofEntities (hp : ∀ e ∈ l, Projected numerals graph e) {t : Triple} :
    t ∈ unionAll (Projection.ofEntities l).entities.entries ↔
      ∃ e, lastWith l t.subject = some e ∧ t ∈ e.triples := by
  rw [mem_unionAll]
  constructor
  · rintro ⟨⟨k, ts⟩, hm, ht⟩
    rw [BTreeMap.mem_entries, Projection.get_entities, Option.map_eq_some_iff] at hm
    obtain ⟨e, he, rfl⟩ := hm
    obtain ⟨hmem, rfl⟩ := lastWith_eq_some he
    exact ⟨e, ((hp e hmem).subject_eq ht).symm ▸ he, ht⟩
  · rintro ⟨e, he, ht⟩
    refine ⟨(t.subject, e.triples), ?_, ht⟩
    rw [BTreeMap.mem_entries, Projection.get_entities, he]
    rfl

theorem card_unionAll_ofEntities (hp : ∀ e ∈ l, Projected numerals graph e) :
    (unionAll (Projection.ofEntities l).entities.entries).card =
      total (Projection.ofEntities l).entities.entries := by
  refine card_unionAll (BTreeMap.nodup_keys _) fun ⟨k, ts⟩ hm t ht => ?_
  rw [BTreeMap.mem_entries, Projection.get_entities, Option.map_eq_some_iff] at hm
  obtain ⟨e, he, rfl⟩ := hm
  obtain ⟨hmem, rfl⟩ := lastWith_eq_some he
  exact (hp e hmem).subject_eq ht

theorem lookup_entityRefs (refs : HashMap String QueryEntityRef) (k : String) :
    ((Projection.ofEntities l).entityRefs.entries.foldl (fun m e => m.insert e.1 e.2)
      refs).lookup k = ((lastWith l k).map Entity.ref).or (refs.lookup k) := by
  rw [lookup_foldl_insert (BTreeMap.nodup_keys _), lookup_eq_get, Projection.get_entityRefs]

/-- A unit with new subjects is projected into the tables. -/
theorem Represents.projectUnit {b : ProjectionBuild}
    (h : Represents unicode numerals graph b live) {unit : IndexUnit}
    (hadds : Adds graph numerals live (unitEntities numerals graph unit) unit.owner)
    (hfits : Fits (overlay (unitEntities numerals graph unit) live)) :
    ∃ b', b.projectUnit unicode numerals graph unit = .ok b' ∧
      Represents unicode numerals graph b' (overlay (unitEntities numerals graph unit) live) := by
  obtain ⟨subjects, triples, hmem, hcard, htotal⟩ := hfits
  generalize hl : unitEntities numerals graph unit = l at hadds hmem ⊢
  have hproj : ∀ e ∈ l, Projected numerals graph e := fun e he => (hadds.projected e he).1
  have hoverlay : ∀ {k e}, overlay l live k = some e ↔ lastWith l k = some e ∨ live k = some e :=
    hadds.overlay_eq_some
  obtain ⟨texts, normalized, properties, htexts, hprops, hindexed⟩ :=
    h.indexed.add (fun e he t ht => (hproj e he).subject_eq ht) hadds.key_new hcard
      (fun e he => by
        obtain ⟨x, hx⟩ := Option.isSome_iff_exists.mp (lastWith_isSome.mpr ⟨e, he, rfl⟩)
        exact (hmem _ x (hoverlay.mpr (.inl hx))).1)
      (fun k hk => by
        obtain ⟨x, hx⟩ := Option.ne_none_iff_exists'.mp hk
        exact (hmem k x (hoverlay.mpr (.inr hx))).1)
  have hnodup : (Projection.ofEntities l).entityRefs.entries.any
      (fun e => (b.entityRefs.lookup e.1).isSome) = false := by
    rw [List.any_eq_false]
    rintro ⟨k, r⟩ hm
    rw [BTreeMap.mem_entries, Projection.get_entityRefs, Option.map_eq_some_iff] at hm
    obtain ⟨e, he, _⟩ := hm
    obtain ⟨hm, rfl⟩ := lastWith_eq_some he
    rw [h.refs, hadds.key_new e hm]
    simp
  have hstore : ∀ t, t ∈ b.store ∪ unionAll (Projection.ofEntities l).entities.entries ↔
      ∃ e, overlay l live t.subject = some e ∧ t ∈ e.triples := fun t => by
    rw [Finset.mem_union, h.store, mem_unionAll_ofEntities hproj, or_comm, ← exists_or]
    exact exists_congr fun e => by rw [hoverlay, or_and_right]
  have hdisj : Disjoint b.store (unionAll (Projection.ofEntities l).entities.entries) :=
    Finset.disjoint_left.mpr fun t ht hu => by
      obtain ⟨e, he, _⟩ := (h.store t).mp ht
      obtain ⟨x, hx, _⟩ := (mem_unionAll_ofEntities hproj).mp hu
      obtain ⟨hm, hk⟩ := lastWith_eq_some hx
      have := hadds.key_new x hm
      rw [hk, he] at this
      cases this
  have hsum : b.store.card + total (Projection.ofEntities l).entities.entries =
      (b.store ∪ unionAll (Projection.ofEntities l).entities.entries).card := by
    rw [Finset.card_union_of_disjoint hdisj, card_unionAll_ofEntities hproj]
  have hle : (b.store ∪ unionAll (Projection.ofEntities l).entities.entries).card ≤ usizeMax :=
    (Finset.card_le_card fun t ht => by
      obtain ⟨e, he, hte⟩ := (hstore t).mp ht
      exact (hmem _ e he).2 hte).trans htotal
  have hkeys : ∀ k, k ∈ ((Projection.ofEntities l).ownerEntities.lookup unit.owner).getD ∅ ↔
      ∃ e, overlay l live k = some e ∧ e.owner = unit.owner := fun k => by
    rw [Projection.mem_ownerEntities]
    constructor
    · rintro ⟨e, he, _, hk⟩
      obtain ⟨x, hx⟩ := Option.isSome_iff_exists.mp (lastWith_isSome.mpr ⟨e, he, hk⟩)
      exact ⟨x, hoverlay.mpr (.inl hx), (hadds.projected x (lastWith_eq_some hx).1).2⟩
    · rintro ⟨e, he, ho⟩
      rcases hoverlay.mp he with he | he
      · obtain ⟨hm, hk⟩ := lastWith_eq_some he
        exact ⟨e, hm, ho, hk⟩
      · exact absurd ho (hadds.owner_new k e he)
  unfold ProjectionBuild.projectUnit
  simp only [projectUnit_empty, hl, hnodup, htexts, hprops, h.count, hsum, checkedAdd, hle,
    bind, Except.bind, pure, Except.pure, orElse, if_true]
  refine ⟨_, rfl, fun k e he => ?_, hstore, rfl, fun k => ?_, fun o k => ?_, fun o => ?_, hindexed⟩
  · rcases hoverlay.mp he with he | he
    · obtain ⟨hm, hk⟩ := lastWith_eq_some he
      exact ⟨hproj e hm, hk⟩
    · exact h.projected k e he
  · rw [lookup_entityRefs, h.refs, overlay]
    cases lastWith l k <;> rfl
  · by_cases ho : o = unit.owner
    · subst ho
      rw [Finmap.lookup_insert, Option.getD_some, hkeys]
    · rw [Finmap.lookup_insert_of_ne _ ho, h.owned]
      refine exists_congr fun e => ⟨fun ⟨he, hoe⟩ => ⟨hoverlay.mpr (.inr he), hoe⟩,
        fun ⟨he, hoe⟩ => ⟨(hoverlay.mp he).resolve_left fun hx => ho ?_, hoe⟩⟩
      rw [← hoe, (hadds.projected e (lastWith_eq_some hx).1).2]
  · by_cases ho : o = unit.owner
    · subst ho
      rw [Finmap.lookup_insert]
      obtain ⟨e, he⟩ := List.exists_mem_of_ne_nil l hadds.nonempty
      obtain ⟨x, hx, hxo⟩ := (hkeys e.key).mp
        ((Projection.mem_ownerEntities ..).mpr ⟨e, he, (hadds.projected e he).2, rfl⟩)
      exact iff_of_true rfl ⟨_, x, hx, hxo⟩
    · rw [Finmap.lookup_insert_of_ne _ ho, h.owners]
      refine exists_congr fun k => exists_congr fun e =>
        ⟨fun ⟨he, hoe⟩ => ⟨hoverlay.mpr (.inr he), hoe⟩,
          fun ⟨he, hoe⟩ => ⟨(hoverlay.mp he).resolve_left fun hx => ho ?_, hoe⟩⟩
      rw [← hoe, (hadds.projected e (lastWith_eq_some hx).1).2]

end Adds

end Neoseq.Query
