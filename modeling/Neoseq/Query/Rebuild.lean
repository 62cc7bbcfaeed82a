import Neoseq.Query.Incremental

/-! An index that deltas have carried along is the index that a rebuild from the
final units gives, up to the ids of its texts. -/

namespace Neoseq.Query
open Collections Domain

variable {unicode : Unicode} {numerals : Numerals} {graph : GraphId}

/-! ## Units -/

/-- The units an index is built from, each under its id. -/
structure UnitMap where
  units : BTreeMap IndexUnitId IndexUnit
  keyed : ∀ id unit, units.get id = some unit → unit.id = id

namespace UnitMap

def list (m : UnitMap) : List IndexUnit := m.units.entries.map Prod.snd

def change (units : BTreeMap IndexUnitId IndexUnit) (id : IndexUnitId) :
    IndexChange → BTreeMap IndexUnitId IndexUnit
  | .upsert unit => units.insert id unit
  | .remove _ => units.remove id

/-- What a change leaves of a unit. -/
def after : IndexChange → Option IndexUnit
  | .upsert unit => some unit
  | .remove _ => none

theorem get_change (units : BTreeMap IndexUnitId IndexUnit) (id id' : IndexUnitId)
    (c : IndexChange) :
    (change units id c).get id' = if id' = id then after c else units.get id' := by
  cases c with
  | upsert unit => exact BTreeMap.get_insert ..
  | remove _ => exact BTreeMap.get_remove ..

theorem get_foldl_change (entries : List (IndexUnitId × IndexChange))
    (hn : (entries.map Prod.fst).Nodup) (units : BTreeMap IndexUnitId IndexUnit)
    (id : IndexUnitId) :
    (entries.foldl (fun units e => change units e.1 e.2) units).get id =
      match List.lookup id entries with
      | some c => after c
      | none => units.get id := by
  induction entries generalizing units with
  | nil => rfl
  | cons e entries ih =>
    rw [List.map_cons, List.nodup_cons] at hn
    rw [List.foldl_cons, ih hn.2, List.lookup_cons]
    by_cases h : id = e.1
    · subst h
      have hnone : List.lookup e.1 entries = none := by
        rw [List.lookup_eq_none_iff]
        intro p hp
        have hne : e.1 ≠ p.1 := fun he => hn.1 (he ▸ List.mem_map_of_mem hp)
        simpa using hne
      simp [hnone, get_change]
    · rw [beq_false_of_ne h]
      cases List.lookup id entries with
      | some c => rfl
      | none => exact (get_change ..).trans (if_neg h)

def apply (m : UnitMap) (delta : IndexDelta) : UnitMap where
  units := delta.changes.entries.foldl (fun units e => change units e.1 e.2) m.units
  keyed id unit h := by
    rw [get_foldl_change _ (BTreeMap.nodup_keys _)] at h
    split at h
    · next c hc =>
      cases c with
      | upsert u =>
        obtain rfl := Option.some.inj h
        exact delta.keyed (id, .upsert u) (BTreeMap.mem_entries.mpr hc)
      | remove i => cases h
    · exact m.keyed id unit h

theorem get_apply (m : UnitMap) (delta : IndexDelta) (id : IndexUnitId) :
    (m.apply delta).units.get id =
      match delta.changes.get id with
      | some c => after c
      | none => m.units.get id :=
  get_foldl_change _ (BTreeMap.nodup_keys _) _ _

theorem mem_list {m : UnitMap} {unit : IndexUnit} :
    unit ∈ m.list ↔ m.units.get unit.id = some unit := by
  unfold list
  rw [List.mem_map]
  constructor
  · rintro ⟨⟨id, u⟩, hm, rfl⟩
    rw [BTreeMap.mem_entries] at hm
    rw [m.keyed id u hm]
    exact hm
  · intro h
    exact ⟨(unit.id, unit), BTreeMap.mem_entries.mpr h, rfl⟩

end UnitMap

theorem owner_id (unit : IndexUnit) : unit.id.owner = unit.owner := by
  cases unit <;> rfl

variable (numerals graph) in
/-- Two units with no subject in common. -/
def Apart (u v : IndexUnit) : Prop :=
  ∀ e ∈ unitEntities numerals graph u, ∀ e' ∈ unitEntities numerals graph v, e.key ≠ e'.key

theorem Apart.symm {u v : IndexUnit} (h : Apart numerals graph u v) : Apart numerals graph v u :=
  fun e he e' he' hk => h e' he' e he hk.symm

variable (numerals graph) in
/-- No two units have a subject in common. -/
def SubjectDisjoint (units : List IndexUnit) : Prop :=
  ∀ u ∈ units, ∀ v ∈ units, u ≠ v → Apart numerals graph u v

theorem SubjectDisjoint.mono {units units' : List IndexUnit}
    (h : SubjectDisjoint numerals graph units) (hs : units' ⊆ units) :
    SubjectDisjoint numerals graph units' := fun u hu v hv => h u (hs hu) v (hs hv)

variable (numerals graph) in
/-- The entities that are live in a list of units. -/
def liveOf (units : List IndexUnit) : String → Option Entity :=
  lastWith (units.flatMap (unitEntities numerals graph))

theorem liveOf_concat (units : List IndexUnit) (unit : IndexUnit) :
    liveOf numerals graph (units ++ [unit]) =
      overlay (unitEntities numerals graph unit) (liveOf numerals graph units) := by
  funext k
  unfold liveOf overlay
  rw [List.flatMap_append, lastWith_append, List.flatMap_singleton]

theorem unit_of_liveOf {units : List IndexUnit} {k : String} {e : Entity}
    (h : liveOf numerals graph units k = some e) :
    ∃ u ∈ units, e ∈ unitEntities numerals graph u ∧ e.key = k := by
  obtain ⟨hm, hk⟩ := lastWith_eq_some h
  obtain ⟨u, hu, he⟩ := List.mem_flatMap.mp hm
  exact ⟨u, hu, he, hk⟩

/-- Where units are apart, an entity is live where it is live in its unit. -/
theorem liveOf_eq_some {units : List IndexUnit} (hd : SubjectDisjoint numerals graph units)
    {k : String} {e : Entity} :
    liveOf numerals graph units k = some e ↔
      ∃ u ∈ units, lastWith (unitEntities numerals graph u) k = some e := by
  induction units using List.reverseRecOn with
  | nil => simp [liveOf, lastWith]
  | append_singleton units u ih =>
    rw [liveOf_concat, overlay_eq_some, ih (hd.mono (List.subset_append_left ..))]
    constructor
    · rintro (he | ⟨_, v, hv, he⟩)
      · exact ⟨u, by simp, he⟩
      · exact ⟨v, by simp [hv], he⟩
    · rintro ⟨v, hv, he⟩
      by_cases hvu : v = u
      · exact .inl (hvu ▸ he)
      · have hv' : v ∈ units := (List.mem_append.mp hv).resolve_right (by simpa using hvu)
        refine .inr ⟨lastWith_eq_none.mpr fun x hx hxk => ?_, v, hv', he⟩
        obtain ⟨hm, hk⟩ := lastWith_eq_some he
        exact hd v hv u (by simp) hvu e hm x hx (hk.trans hxk.symm)

theorem liveOf_congr {units units' : List IndexUnit} (hm : ∀ u, u ∈ units ↔ u ∈ units')
    (hd : SubjectDisjoint numerals graph units) :
    liveOf numerals graph units = liveOf numerals graph units' := by
  have hd' : SubjectDisjoint numerals graph units' := hd.mono fun u hu => (hm u).mpr hu
  funext k
  refine Option.ext fun e => ?_
  rw [liveOf_eq_some hd, liveOf_eq_some hd']
  exact exists_congr fun u => and_congr_left fun _ => hm u

/-! ## A cold build -/

theorem Represents.foldlM_projectUnit {rest : List IndexUnit} :
    ∀ {done : List IndexUnit} {b : ProjectionBuild},
      Represents unicode numerals graph b (liveOf numerals graph done) →
      SubjectDisjoint numerals graph (done ++ rest) →
      ((done ++ rest).map IndexUnit.owner).Nodup →
      Fits (liveOf numerals graph (done ++ rest)) →
      ∃ b', rest.foldlM (ProjectionBuild.projectUnit unicode numerals graph) b = .ok b' ∧
        Represents unicode numerals graph b' (liveOf numerals graph (done ++ rest)) := by
  induction rest with
  | nil =>
    intro done b h _ _ _
    rw [List.append_nil]
    exact ⟨b, rfl, h⟩
  | cons u rest ih =>
    intro done b h hd hn hfits
    have hsplit : done ++ u :: rest = (done ++ [u]) ++ rest := by simp
    rw [hsplit] at hd hn hfits ⊢
    have hd₁ := hd.mono (List.subset_append_left (done ++ [u]) rest)
    have hn₁ : ((done ++ [u]).map IndexUnit.owner).Nodup := by
      rw [List.map_append] at hn
      exact (List.nodup_append.mp hn).1
    have hfits₁ : Fits (liveOf numerals graph (done ++ [u])) := hfits.mono fun k e he => by
      obtain ⟨v, hv, he⟩ := (liveOf_eq_some hd₁).mp he
      exact (liveOf_eq_some hd).mpr ⟨v, List.mem_append_left _ hv, he⟩
    have hown : ∀ v ∈ done, v.owner ≠ u.owner := fun v hv => by
      rw [List.map_append, List.nodup_append] at hn₁
      exact hn₁.2.2 _ (List.mem_map_of_mem hv) _ (by simp)
    have hne : ∀ v ∈ done, v ≠ u := fun v hv he => hown v hv (congrArg _ he)
    have hadds : Adds graph numerals (liveOf numerals graph done)
        (unitEntities numerals graph u) u.owner := {
      nonempty := unitEntities_ne_nil u
      projected := fun e he => unitEntities_spec he
      key_new := fun e he => by
        refine Option.eq_none_iff_forall_ne_some.mpr fun x hx => ?_
        obtain ⟨v, hv, hxv, hk⟩ := unit_of_liveOf hx
        exact hd₁ v (by simp [hv]) u (by simp) (hne v hv) x hxv e he hk
      owner_new := fun k x hx ho => by
        obtain ⟨v, hv, hxv, _⟩ := unit_of_liveOf hx
        rw [(unitEntities_spec hxv).2] at ho
        exact hown v hv ho }
    rw [liveOf_concat] at hfits₁
    obtain ⟨b₁, hb₁, h₁⟩ := h.projectUnit hadds hfits₁
    rw [← liveOf_concat] at h₁
    obtain ⟨b₂, hb₂, h₂⟩ := ih h₁ hd hn hfits
    exact ⟨b₂, by rw [List.foldlM_cons, hb₁]; exact hb₂, h₂⟩

/-- Units that are apart are indexed. -/
theorem fromUnits_spec {units : List IndexUnit} (frontier : String)
    (hd : SubjectDisjoint numerals graph units) (hn : (units.map IndexUnit.owner).Nodup)
    (hfits : Fits (liveOf numerals graph units)) :
    ∃ ix, GraphIndex.fromUnits unicode numerals graph frontier units = .ok ix ∧
      ix.graphId = graph ∧
      Represents unicode numerals graph ix.toProjectionBuild (liveOf numerals graph units) := by
  have hempty : Represents unicode numerals graph ProjectionBuild.empty
      (liveOf numerals graph []) := represents_empty
  obtain ⟨b, hb, h⟩ := hempty.foldlM_projectUnit hd hn hfits
  unfold GraphIndex.fromUnits
  rw [hb]
  exact ⟨_, rfl, rfl, h⟩

/-! ## One delta -/

/-- The units that a delta puts in. -/
def IndexDelta.upserts (delta : IndexDelta) : List IndexUnit :=
  delta.changes.entries.filterMap fun e => UnitMap.after e.2

theorem project_eq (delta : IndexDelta) :
    delta.project numerals graph =
      Projection.ofEntities (delta.upserts.flatMap (unitEntities numerals graph)) := by
  unfold IndexDelta.project IndexDelta.upserts Projection.ofEntities
  generalize Projection.empty = p
  induction delta.changes.entries generalizing p with
  | nil => rfl
  | cons e rest ih =>
    rw [List.foldl_cons]
    cases he : e.2 with
    | upsert u =>
      simp only
      rw [List.filterMap_cons_some (b := u) (by rw [he]; rfl), List.flatMap_cons,
        List.foldl_append, ← projectUnit_eq]
      exact ih _
    | remove id =>
      simp only
      rw [List.filterMap_cons_none (by rw [he]; rfl)]
      exact ih _

theorem mem_upserts {delta : IndexDelta} {u : IndexUnit} :
    u ∈ delta.upserts ↔ delta.changes.get u.id = some (.upsert u) := by
  unfold IndexDelta.upserts
  rw [List.mem_filterMap]
  constructor
  · rintro ⟨⟨id, c⟩, hm, hc⟩
    cases c with
    | upsert v =>
      obtain rfl := Option.some.inj hc
      have hk := delta.keyed _ hm
      rw [← BTreeMap.mem_entries, show v.id = id from hk]
      exact hm
    | remove i => cases hc
  · intro h
    exact ⟨_, BTreeMap.mem_entries.mpr h, rfl⟩

theorem mem_owners {delta : IndexDelta} {u : IndexUnit} :
    u.owner ∈ delta.owners ↔ (delta.changes.get u.id).isSome = true := by
  unfold IndexDelta.owners
  rw [BTreeSet.mem_extend, List.mem_map, Option.isSome_iff_exists]
  simp only [BTreeSet.not_mem_empty, or_false]
  constructor
  · rintro ⟨⟨id, c⟩, hm, ho⟩
    rw [← owner_id] at ho
    obtain rfl := IndexUnitId.owner_injective ho
    exact ⟨c, BTreeMap.mem_entries.mp hm⟩
  · rintro ⟨c, hc⟩
    exact ⟨(u.id, c), BTreeMap.mem_entries.mpr hc, owner_id u⟩

/-- The units after a delta are those it puts in and those it does not name. -/
theorem mem_list_apply {m : UnitMap} {delta : IndexDelta} {u : IndexUnit} :
    u ∈ (m.apply delta).list ↔ u ∈ delta.upserts ∨ u ∈ m.list ∧ u.owner ∉ delta.owners := by
  rw [UnitMap.mem_list, UnitMap.get_apply, UnitMap.mem_list, mem_upserts, mem_owners]
  cases hc : delta.changes.get u.id with
  | none => simp
  | some c =>
    cases c with
    | upsert v => simp [UnitMap.after]
    | remove i => simp [UnitMap.after]

/-- What is live after a delta. -/
theorem liveOf_apply {m : UnitMap} {delta : IndexDelta}
    (hd : SubjectDisjoint numerals graph m.list)
    (hd' : SubjectDisjoint numerals graph (m.apply delta).list) :
    Replaces graph numerals (liveOf numerals graph m.list)
        (delta.upserts.flatMap (unitEntities numerals graph)) delta.owners ∧
      overlay (delta.upserts.flatMap (unitEntities numerals graph))
          (kept (liveOf numerals graph m.list) delta.owners) =
        liveOf numerals graph (m.apply delta).list := by
  have hmem : ∀ {u}, u ∈ delta.upserts → u ∈ (m.apply delta).list := fun hu =>
    mem_list_apply.mpr (.inl hu)
  have hkeep : ∀ {u}, u ∈ m.list → u.owner ∉ delta.owners → u ∈ (m.apply delta).list :=
    fun hu ho => mem_list_apply.mpr (.inr ⟨hu, ho⟩)
  have hin : ∀ {u}, u ∈ delta.upserts → u.owner ∈ delta.owners := fun hu =>
    mem_owners.mpr (by rw [mem_upserts.mp hu]; rfl)
  have hr : Replaces graph numerals (liveOf numerals graph m.list)
      (delta.upserts.flatMap (unitEntities numerals graph)) delta.owners := by
    refine ⟨fun e he => ?_, fun e he e' he' hk => ?_, fun k e he ho x hx hxk => ?_⟩
    · obtain ⟨u, hu, he⟩ := List.mem_flatMap.mp he
      obtain ⟨hp, heo⟩ := unitEntities_spec he
      exact ⟨hp, heo ▸ hin hu⟩
    · obtain ⟨u, hu, he⟩ := List.mem_flatMap.mp he
      obtain ⟨u', hu', he'⟩ := List.mem_flatMap.mp he'
      by_cases huu : u = u'
      · rw [(unitEntities_spec he).2, (unitEntities_spec he').2, huu]
      · exact absurd hk (hd' u (hmem hu) u' (hmem hu') huu e he e' he')
    · obtain ⟨u, hu, hx⟩ := List.mem_flatMap.mp hx
      obtain ⟨v, hv, hev, hek⟩ := unit_of_liveOf he
      rw [(unitEntities_spec hev).2] at ho
      have hne : u ≠ v := fun huv => ho (huv ▸ hin hu)
      exact hd' u (hmem hu) v (hkeep hv ho) hne x hx e hev (hxk.trans hek.symm)
  refine ⟨hr, funext fun k => Option.ext fun e => ?_⟩
  rw [overlay_eq_some, kept_eq_some, liveOf_eq_some hd', liveOf_eq_some hd,
    show lastWith (delta.upserts.flatMap (unitEntities numerals graph)) k =
      liveOf numerals graph delta.upserts k from rfl,
    liveOf_eq_some (hd'.mono fun u hu => hmem hu)]
  simp only [mem_list_apply]
  constructor
  · rintro (⟨u, hu, he⟩ | ⟨_, ⟨u, hu, he⟩, ho⟩)
    · exact ⟨u, .inl hu, he⟩
    · rw [(unitEntities_spec (lastWith_eq_some he).1).2] at ho
      exact ⟨u, .inr ⟨hu, ho⟩, he⟩
  · rintro ⟨u, hu | ⟨hu, ho⟩, he⟩
    · exact .inl ⟨u, hu, he⟩
    · have heo : e.owner ∉ delta.owners := by
        rw [(unitEntities_spec (lastWith_eq_some he).1).2]
        exact ho
      exact .inr ⟨lastWith_eq_none.mpr
        (hr.apart k e ((liveOf_eq_some hd).mpr ⟨u, hu, he⟩) heo), ⟨u, hu, he⟩, heo⟩

/-! ## Equal up to ids -/

/-- The ids of one index, each renamed to that of its subject in the other. -/
structure Renames (rename : Nat → Nat) (a b : ProjectionBuild) : Prop where
  injOn : Set.InjOn rename {id | ∃ s, a.textIndex.id s = some id}
  ids : ∀ s, b.textIndex.id s = (a.textIndex.id s).map rename
  entries : ∀ id e, a.textIndex.entries[id]? = some (some e) →
    b.textIndex.entries[rename id]? = some (some e)
  postings : ∀ t, b.textIndex.postings.under t = (a.textIndex.postings.under t).image rename
  presence : ∀ p, b.propertyIndex.presence.under p =
    (a.propertyIndex.presence.under p).image rename
  exact : ∀ k, b.propertyIndex.exact.under k = (a.propertyIndex.exact.under k).image rename
  ordered : ∀ p v, (b.propertyIndex.ordered.under p).under v =
    ((a.propertyIndex.ordered.under p).under v).image rename

/-- The tables agree, and the postings do up to the ids of texts. -/
structure SameTables (a b : ProjectionBuild) : Prop where
  store : a.store = b.store
  tripleCount : a.tripleCount = b.tripleCount
  entityRefs : a.entityRefs = b.entityRefs
  ownerEntities : a.ownerEntities = b.ownerEntities
  normalizedText : a.normalizedText = b.normalizedText
  valueRefCounts : a.textIndex.valueRefCounts = b.textIndex.valueRefCounts
  postings : ∃ rename, Renames rename a b

section Same
variable {live : String → Option Entity}

/-- The subjects that have a text. -/
def subjectsWith (entries : List (Option TextEntry)) (value : String) : List String :=
  entries.filterMap fun e => (e.filter fun e => decide (e.value = value)).map TextEntry.subject

theorem length_subjectsWith (entries : List (Option TextEntry)) (value : String) :
    (subjectsWith entries value).length = TextIndex.uses entries value := by
  unfold subjectsWith TextIndex.uses
  rw [List.length_filterMap_eq_countP]
  congr 1
  funext e
  cases e with
  | none => simp
  | some e => by_cases h : e.value = value <;> simp [h]

theorem mem_subjectsWith {entries : List (Option TextEntry)} {value s : String} :
    s ∈ subjectsWith entries value ↔ some ⟨s, value⟩ ∈ entries := by
  unfold subjectsWith
  rw [List.mem_filterMap]
  constructor
  · rintro ⟨e, he, hs⟩
    obtain ⟨⟨s', v⟩, hf, rfl⟩ := Option.map_eq_some_iff.mp hs
    rw [Option.filter_eq_some_iff, decide_eq_true_iff] at hf
    obtain ⟨rfl, rfl⟩ := hf
    exact he
  · intro h
    exact ⟨_, h, by simp⟩

theorem nodup_subjectsWith {ix : TextIndex} {normalized : NormalizedText}
    {text : String → Option String} (h : ix.Holds unicode normalized text) (value : String) :
    (subjectsWith ix.entries value).Nodup := by
  unfold subjectsWith
  rw [List.Nodup, List.pairwise_filterMap]
  refine List.pairwise_iff_getElem.mpr fun i j hi hj hij x hx y hy hxy => ?_
  obtain ⟨a, ha, rfl⟩ := Option.map_eq_some_iff.mp hx
  obtain ⟨b, hb, rfl⟩ := Option.map_eq_some_iff.mp hy
  have hga := List.getElem?_eq_getElem hi
  have hgb := List.getElem?_eq_getElem hj
  rw [(Option.filter_eq_some_iff.mp ha).1] at hga
  rw [(Option.filter_eq_some_iff.mp hb).1] at hgb
  exact absurd (h.subject_unique hga hgb hxy) (by omega)

/-- A text is in use as often in one index as in another of the same texts. -/
theorem uses_eq {ix jx : TextIndex} {normalized normalized' : NormalizedText}
    {text : String → Option String} (hi : ix.Holds unicode normalized text)
    (hj : jx.Holds unicode normalized' text) (value : String) :
    TextIndex.uses ix.entries value = TextIndex.uses jx.entries value := by
  rw [← length_subjectsWith, ← length_subjectsWith]
  refine ((List.perm_ext_iff_of_nodup (nodup_subjectsWith hi value)
    (nodup_subjectsWith hj value)).mpr fun s => ?_).length_eq
  rw [mem_subjectsWith, mem_subjectsWith, List.mem_iff_getElem?, List.mem_iff_getElem?,
    ← hi.content, ← hj.content]

/-- The id in one index of the subject of an id in another. -/
def renameId (ix jx : TextIndex) (id : Nat) : Nat :=
  (((ix.entries[id]?).join).bind fun e => jx.id e.subject).getD 0

theorem renameId_eq {ix jx : TextIndex} {normalized normalized' : NormalizedText}
    {text : String → Option String} (hi : ix.Holds unicode normalized text)
    (hj : jx.Holds unicode normalized' text) {s : String} {id : Nat} (hid : ix.id s = some id) :
    jx.id s = some (renameId ix jx id) := by
  obtain ⟨v, hv⟩ := (hi.subject s id).mp hid
  have hsome := hj.id_isSome s
  rw [(hi.content s v).mpr ⟨id, hv⟩, Option.isSome_some, Option.isSome_iff_exists] at hsome
  obtain ⟨id', hid'⟩ := hsome
  unfold renameId
  rw [hv, Option.join_some, Option.bind_some]
  show jx.id s = some ((jx.id s).getD 0)
  rw [show jx.id s = some id' from hid', Option.getD_some]

theorem Represents.posts_iff {b : ProjectionBuild}
    (h : Represents unicode numerals graph b live) (k : PropertyIndex.Place) (id : Nat) :
    b.propertyIndex.Posts k id ↔ ∃ s, b.textIndex.id s = some id ∧
      ∃ e, live s = some e ∧ ∃ t ∈ e.triples, PropertyIndex.PlaceOf numerals t k := by
  rw [h.indexed.properties k id]
  constructor
  · rintro ⟨t, ⟨e, he, ht, hid⟩, hk⟩
    exact ⟨_, hid, e, he, t, ht, hk⟩
  · rintro ⟨s, hid, e, he, t, ht, hk⟩
    obtain ⟨hp, rfl⟩ := h.projected s e he
    have hs := hp.subject_eq ht
    exact ⟨t, ⟨e, hs.symm ▸ he, ht, hs.symm ▸ hid⟩, hk⟩

/-- Sets of ids that are those of the same subjects are renamed into each other. -/
theorem eq_image_rename {ix jx : TextIndex} {normalized normalized' : NormalizedText}
    {text : String → Option String} (hi : ix.Holds unicode normalized text)
    (hj : jx.Holds unicode normalized' text) {subjects : String → Prop} {a b : Finset Nat}
    (ha : ∀ id, id ∈ a ↔ ∃ s, ix.id s = some id ∧ subjects s)
    (hb : ∀ id, id ∈ b ↔ ∃ s, jx.id s = some id ∧ subjects s) :
    b = a.image (renameId ix jx) := by
  ext id
  rw [hb, Finset.mem_image]
  constructor
  · rintro ⟨s, hid, hs⟩
    have hsome := hi.id_isSome s
    rw [← hj.id_isSome s, show jx.bySubject.lookup s = some id from hid, Option.isSome_some,
      Option.isSome_iff_exists] at hsome
    obtain ⟨i, hi'⟩ := hsome
    refine ⟨i, (ha i).mpr ⟨s, hi', hs⟩, ?_⟩
    exact Option.some.inj ((renameId_eq hi hj hi').symm.trans hid)
  · rintro ⟨i, hm, rfl⟩
    obtain ⟨s, hid, hs⟩ := (ha i).mp hm
    exact ⟨s, renameId_eq hi hj hid, hs⟩

/-- Two indexes of the same live entities are the same up to ids. -/
theorem Represents.same {a b : ProjectionBuild}
    (ha : Represents unicode numerals graph a live)
    (hb : Represents unicode numerals graph b live) : SameTables a b := by
  have hstore : a.store = b.store := by
    ext t
    rw [ha.store, hb.store]
  have huses := uses_eq ha.indexed.text hb.indexed.text
  refine ⟨hstore, by rw [ha.count, hb.count, hstore], ?_, ?_, ?_, ?_,
    renameId a.textIndex b.textIndex, ?_, fun s => ?_, fun id e he => ?_, fun t => ?_, fun p => ?_,
    fun k => ?_, fun p v => ?_⟩
  · exact Finmap.ext_lookup fun k => by rw [ha.refs, hb.refs]
  · refine Finmap.ext_lookup fun o => ?_
    have hsome : (a.ownerEntities.lookup o).isSome = (b.ownerEntities.lookup o).isSome := by
      rw [Bool.eq_iff_iff, ha.owners, hb.owners]
    have hmem : (a.ownerEntities.lookup o).getD ∅ = (b.ownerEntities.lookup o).getD ∅ :=
      BTreeSet.ext fun k => by rw [ha.owned, hb.owned]
    cases hla : a.ownerEntities.lookup o <;> cases hlb : b.ownerEntities.lookup o
    · rfl
    · rw [hla, hlb] at hsome; cases hsome
    · rw [hla, hlb] at hsome; cases hsome
    · rw [hla, hlb] at hmem
      exact congrArg some hmem
  · exact Finmap.ext_lookup fun v => by rw [ha.indexed.text.cached, hb.indexed.text.cached, huses]
  · exact Finmap.ext_lookup fun v => by rw [ha.indexed.text.counts, hb.indexed.text.counts, huses]
  · rintro i ⟨s, hs⟩ j ⟨s', hs'⟩ hij
    have hi := renameId_eq ha.indexed.text hb.indexed.text hs
    have hj := renameId_eq ha.indexed.text hb.indexed.text hs'
    rw [hij] at hi
    obtain ⟨v, hv⟩ := (hb.indexed.text.subject _ _).mp hi
    obtain ⟨w, hw⟩ := (hb.indexed.text.subject _ _).mp hj
    rw [hv] at hw
    obtain rfl := (TextEntry.mk.inj (Option.some.inj (Option.some.inj hw))).1
    exact Option.some.inj (hs.symm.trans hs')
  · cases hs : a.textIndex.id s with
    | some id => exact renameId_eq ha.indexed.text hb.indexed.text hs
    | none =>
      have hnone := hb.indexed.text.id_isSome s
      rw [← ha.indexed.text.id_isSome s, show a.textIndex.bySubject.lookup s = none from hs,
        Option.isSome_none, Option.isSome_eq_false_iff, Option.isNone_iff_eq_none] at hnone
      exact hnone
  · have hid := (ha.indexed.text.subject e.subject id).mpr ⟨e.value, he⟩
    obtain ⟨v, hv⟩ := (hb.indexed.text.subject _ _).mp
      (renameId_eq ha.indexed.text hb.indexed.text hid)
    have hta := (ha.indexed.text.content e.subject e.value).mpr ⟨id, he⟩
    have htb := (hb.indexed.text.content e.subject v).mpr ⟨_, hv⟩
    obtain rfl := Option.some.inj (hta.symm.trans htb)
    exact hv
  · have hpost : ∀ {x : ProjectionBuild}, Represents unicode numerals graph x live → ∀ id,
        id ∈ x.textIndex.postings.under t ↔ ∃ s, x.textIndex.id s = some id ∧
          ∃ e, live s = some e ∧ t ∈ textTrigrams (normalizeText unicode e.text) :=
      fun {x} hx id => by
      refine (hx.indexed.text.postings t id).trans ⟨?_, ?_⟩
      · rintro ⟨⟨s, v⟩, he, ht⟩
        obtain ⟨e, he', rfl⟩ := Option.map_eq_some_iff.mp
          ((hx.indexed.text.content s v).mpr ⟨id, he⟩)
        exact ⟨s, (hx.indexed.text.subject s id).mpr ⟨_, he⟩, e, he', ht⟩
      · rintro ⟨s, hid, e, he, ht⟩
        obtain ⟨v, hv⟩ := (hx.indexed.text.subject s id).mp hid
        have hc := (hx.indexed.text.content s v).mpr ⟨id, hv⟩
        rw [he] at hc
        obtain rfl := Option.some.inj hc
        exact ⟨_, hv, ht⟩
    exact eq_image_rename ha.indexed.text hb.indexed.text (hpost ha) (hpost hb)
  · exact eq_image_rename ha.indexed.text hb.indexed.text
      (ha.posts_iff (.presence p)) (hb.posts_iff (.presence p))
  · exact eq_image_rename ha.indexed.text hb.indexed.text
      (ha.posts_iff (.exact k.1 k.2)) (hb.posts_iff (.exact k.1 k.2))
  · exact eq_image_rename ha.indexed.text hb.indexed.text
      (ha.posts_iff (.ordered p v)) (hb.posts_iff (.ordered p v))

end Same

/-! ## Runs of deltas -/

def UnitMap.applyAll (m : UnitMap) (deltas : List IndexDelta) : UnitMap :=
  deltas.foldl UnitMap.apply m

variable (unicode numerals) in
def GraphIndex.applyDeltas (ix : GraphIndex) (deltas : List IndexDelta) :
    Except QueryError GraphIndex :=
  deltas.foldlM (fun ix delta => (ix.applyDelta unicode numerals delta).map Prod.fst) ix

theorem Represents.applyDeltas {deltas : List IndexDelta} :
    ∀ {m : UnitMap} {ix : GraphIndex}, ix.graphId = graph →
      Represents unicode numerals graph ix.toProjectionBuild (liveOf numerals graph m.list) →
      (∀ p, p <+: deltas → SubjectDisjoint numerals graph (m.applyAll p).list) →
      (∀ p, p <+: deltas → Fits (liveOf numerals graph (m.applyAll p).list)) →
      ∃ jx, ix.applyDeltas unicode numerals deltas = .ok jx ∧
        Represents unicode numerals graph jx.toProjectionBuild
          (liveOf numerals graph (m.applyAll deltas).list) := by
  induction deltas with
  | nil => exact fun _ h _ _ => ⟨_, rfl, h⟩
  | cons delta deltas ih =>
    rintro m ix rfl h hd hfits
    have hstart : [delta] <+: delta :: deltas := ⟨deltas, rfl⟩
    have hbefore : SubjectDisjoint numerals ix.graphId m.list := hd [] (List.nil_prefix ..)
    have hafter : SubjectDisjoint numerals ix.graphId (m.apply delta).list := hd _ hstart
    have hroom : Fits (liveOf numerals ix.graphId (m.apply delta).list) := hfits _ hstart
    obtain ⟨hr, hover⟩ := liveOf_apply hbefore hafter
    obtain ⟨jx, changed, hjx, hg, hj⟩ := h.applyDelta (project_eq delta) hr (hover ▸ hroom)
    rw [hover, hg] at hj
    obtain ⟨kx, hkx, hk⟩ := ih hg hj
      (fun p hp => hd (delta :: p) (List.prefix_cons_inj delta |>.mpr hp))
      (fun p hp => hfits (delta :: p) (List.prefix_cons_inj delta |>.mpr hp))
    refine ⟨kx, ?_, hk⟩
    unfold GraphIndex.applyDeltas
    rw [List.foldlM_cons, hjx]
    exact hkx

theorem UnitMap.nodup_owners (m : UnitMap) : (m.list.map IndexUnit.owner).Nodup := by
  have hk : m.list.map IndexUnit.owner =
      (m.units.entries.map Prod.fst).map IndexUnitId.owner := by
    unfold UnitMap.list
    rw [List.map_map, List.map_map]
    refine List.map_congr_left fun e he => ?_
    rw [Function.comp_apply, Function.comp_apply, ← owner_id,
      m.keyed _ _ (BTreeMap.mem_entries.mp he)]
  rw [hk]
  exact (BTreeMap.nodup_keys m.units).map IndexUnitId.owner_injective

/-- Carrying an index along a run of deltas gives the index of the final units,
where no unit map of the run has two units with one subject. -/
theorem incremental_equals_rebuild {m : UnitMap} {deltas : List IndexDelta}
    {units final : List IndexUnit} (hunits : units.Perm m.list)
    (hfinal : final.Perm (m.applyAll deltas).list)
    (hd : ∀ p, p <+: deltas → SubjectDisjoint numerals graph (m.applyAll p).list)
    (hfits : ∀ p, p <+: deltas → Fits (liveOf numerals graph (m.applyAll p).list))
    (frontier frontier' : String) :
    ∃ ix jx rebuilt, GraphIndex.fromUnits unicode numerals graph frontier units = .ok ix ∧
      ix.applyDeltas unicode numerals deltas = .ok jx ∧
      GraphIndex.fromUnits unicode numerals graph frontier' final = .ok rebuilt ∧
      SameTables jx.toProjectionBuild rebuilt.toProjectionBuild := by
  have hcold : ∀ {m : UnitMap} {units : List IndexUnit}, units.Perm m.list →
      SubjectDisjoint numerals graph m.list → Fits (liveOf numerals graph m.list) → ∀ frontier,
      ∃ ix, GraphIndex.fromUnits unicode numerals graph frontier units = .ok ix ∧
        ix.graphId = graph ∧ Represents unicode numerals graph ix.toProjectionBuild
          (liveOf numerals graph m.list) := fun {m units} hp hd hfits frontier => by
    have hd' := hd.mono fun u hu => hp.mem_iff.mp hu
    have hlive := liveOf_congr (fun u => hp.mem_iff) hd'
    rw [← hlive]
    exact fromUnits_spec frontier hd' ((hp.map _).nodup_iff.mpr m.nodup_owners) (hlive ▸ hfits)
  obtain ⟨ix, hix, hg, hi⟩ := hcold hunits (hd [] (List.nil_prefix ..))
    (hfits [] (List.nil_prefix ..)) frontier
  obtain ⟨jx, hjx, hj⟩ := hi.applyDeltas hg hd hfits
  obtain ⟨rebuilt, hrebuilt, _, hr⟩ := hcold hfinal (hd _ (List.prefix_refl _))
    (hfits _ (List.prefix_refl _)) frontier'
  exact ⟨ix, jx, rebuilt, hix, hjx, hrebuilt, hj.same hr⟩

/-! ## Conditions that can be computed -/

instance (u v : IndexUnit) : Decidable (Apart numerals graph u v) := by
  unfold Apart
  infer_instance

theorem SubjectDisjoint.of_pairwise {units : List IndexUnit}
    (h : units.Pairwise (Apart numerals graph)) : SubjectDisjoint numerals graph units := by
  have hsymm : Std.Symm (Apart numerals graph) := ⟨fun _ _ h => h.symm⟩
  exact fun u hu v hv hne => h.forall hu hv hne

/-- The triples that any of the entities has. -/
def allTriples (l : List Entity) : Finset Triple := l.foldr (fun e s => e.triples ∪ s) ∅

theorem card_allTriples_le (l : List Entity) :
    (allTriples l).card ≤ (l.map fun e => e.triples.card).sum := by
  induction l with
  | nil => exact Nat.le_refl 0
  | cons e rest ih =>
    rw [List.map_cons, List.sum_cons]
    exact (Finset.card_union_le ..).trans (Nat.add_le_add_left ih _)

theorem subset_allTriples {l : List Entity} {e : Entity} (h : e ∈ l) :
    e.triples ⊆ allTriples l := by
  induction l with
  | nil => cases h
  | cons x rest ih =>
    rcases List.mem_cons.mp h with rfl | h
    · exact Finset.subset_union_left
    · exact (ih h).trans Finset.subset_union_right

theorem fits_of_length {units : List IndexUnit}
    (hlen : (units.flatMap (unitEntities numerals graph)).length ≤ 4294967296)
    (hsum : ((units.flatMap (unitEntities numerals graph)).map fun e => e.triples.card).sum ≤
      usizeMax) : Fits (liveOf numerals graph units) := by
  unfold liveOf
  generalize units.flatMap (unitEntities numerals graph) = l at hlen hsum
  refine ⟨(l.map Entity.key).toFinset, allTriples l, fun k e he => ?_, ?_,
    (card_allTriples_le l).trans hsum⟩
  · obtain ⟨hm, rfl⟩ := lastWith_eq_some he
    exact ⟨List.mem_toFinset.mpr (List.mem_map_of_mem hm), subset_allTriples hm⟩
  · exact (List.toFinset_card_le _).trans (by rwa [List.length_map])

/-! ## A block that changes its page -/

def sampleUnicode : Unicode where
  toLowercase c := [c]
  isAlphanumeric := Char.isAlphanum
  isWhitespace := Char.isWhitespace

def sampleNumerals : Numerals where
  showF64 _ := "0"
  parseF64 _ := none

def sampleGraph : GraphId := ⟨"g", by decide⟩

def sampleBlock : BlockSnapshot := .mk ⟨"k", by decide⟩ "text" [] PropertyBag.empty [] []

/-- A page of no properties. -/
def samplePage (id : PageId) (blocks : List BlockSnapshot) : IndexUnit :=
  .page ⟨id, "page", PropertyBag.empty, [], blocks⟩

def pageA : PageId := ⟨"a", by decide⟩

def pageB : PageId := ⟨"b", by decide⟩

/-- The block on the first of two pages. -/
def sampleUnits : UnitMap where
  units := (((∅ : BTreeMap IndexUnitId IndexUnit).insert (.page pageA)
    (samplePage pageA [sampleBlock])).insert (.page pageB) (samplePage pageB []))
  keyed id unit h := by
    rw [BTreeMap.get_insert, BTreeMap.get_insert] at h
    split at h
    · next hid => exact hid ▸ Option.some.inj h ▸ rfl
    · split at h
      · next hid => exact hid ▸ Option.some.inj h ▸ rfl
      · cases h

/-- Both pages change at once. -/
def moveDelta : IndexDelta :=
  IndexDelta.new "1" [.upsert (samplePage pageA []), .upsert (samplePage pageB [sampleBlock])]

theorem incremental_equals_rebuild_sample :
    ∃ ix jx rebuilt,
      GraphIndex.fromUnits sampleUnicode sampleNumerals sampleGraph "0" sampleUnits.list =
        .ok ix ∧
      ix.applyDeltas sampleUnicode sampleNumerals [moveDelta] = .ok jx ∧
      GraphIndex.fromUnits sampleUnicode sampleNumerals sampleGraph "1"
        (sampleUnits.applyAll [moveDelta]).list = .ok rebuilt ∧
      SameTables jx.toProjectionBuild rebuilt.toProjectionBuild := by
  have hcases : ∀ p, p <+: [moveDelta] → p = [] ∨ p = [moveDelta] := fun p hp => by
    have hlen := hp.length_le
    rcases p with _ | ⟨d, _ | ⟨d', p⟩⟩
    · exact .inl rfl
    · exact .inr (hp.eq_of_length rfl)
    · simp at hlen
  refine incremental_equals_rebuild (List.Perm.refl _) (List.Perm.refl _) (fun p hp => ?_)
    (fun p hp => ?_) "0" "1"
  · rcases hcases p hp with rfl | rfl
    · exact .of_pairwise (by decide)
    · exact .of_pairwise (by decide)
  · rcases hcases p hp with rfl | rfl
    · exact fits_of_length (by decide) (by decide)
    · exact fits_of_length (by decide) (by decide)

/-- The pages change one after the other, so both have the block in between. The
second delta then takes out the block that the first one put in. -/
theorem incremental_loses_shared_subject :
    let deltas := [IndexDelta.new "1" [.upsert (samplePage pageB [sampleBlock])],
      IndexDelta.new "2" [.upsert (samplePage pageA [])]]
    SubjectDisjoint sampleNumerals sampleGraph sampleUnits.list ∧
      SubjectDisjoint sampleNumerals sampleGraph (sampleUnits.applyAll deltas).list ∧
      ((GraphIndex.fromUnits sampleUnicode sampleNumerals sampleGraph "0" sampleUnits.list >>=
        fun ix => ix.applyDeltas sampleUnicode sampleNumerals deltas).toOption.map
          fun ix => ix.tripleCount) = some 4 ∧
      ((GraphIndex.fromUnits sampleUnicode sampleNumerals sampleGraph "2"
        (sampleUnits.applyAll deltas).list).toOption.map fun ix => ix.tripleCount) = some 10 :=
  ⟨.of_pairwise (by decide), .of_pairwise (by decide), rfl, rfl⟩

end Neoseq.Query
