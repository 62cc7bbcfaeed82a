import Neoseq.Query.Represents

/-! A delta keeps the tables those of the live entities. The subjects of the changed
units are taken out of every table, and what the units are now is put in. -/

namespace Neoseq.Query
open Collections Domain

variable {unicode : Unicode} {numerals : Numerals} {graph : GraphId}

section Delta
variable {live : String → Option Entity} {l : List Entity} {owners : BTreeSet OutlineOwner}

/-- What stays live when some owners' entities go. -/
def kept (live : String → Option Entity) (owners : BTreeSet OutlineOwner) (k : String) :
    Option Entity := (live k).filter fun e => decide (e.owner ∉ owners)

theorem kept_eq_some {k : String} {e : Entity} :
    kept live owners k = some e ↔ live k = some e ∧ e.owner ∉ owners := by
  unfold kept
  rw [Option.filter_eq_some_iff]
  simp

/-- Entities that replace those of the given owners, and meet no others. -/
structure Replaces (graph : GraphId) (numerals : Numerals) (live : String → Option Entity)
    (l : List Entity) (owners : BTreeSet OutlineOwner) : Prop where
  projected : ∀ e ∈ l, Projected numerals graph e ∧ e.owner ∈ owners
  owner_eq : ∀ e ∈ l, ∀ e' ∈ l, e.key = e'.key → e.owner = e'.owner
  apart : ∀ k e, live k = some e → e.owner ∉ owners → ∀ x ∈ l, x.key ≠ k

/-! ## The subjects a delta replaces -/

theorem mem_replacedSubjects {ledger : HashMap OutlineOwner (BTreeSet String)}
    {projected : Projection} {os : List OutlineOwner} {k : String} :
    k ∈ replacedSubjects ledger projected os ↔
      ∃ o ∈ os, k ∈ (ledger.lookup o).getD ∅ ∨
        k ∈ (projected.ownerEntities.lookup o).getD ∅ := by
  unfold replacedSubjects
  induction os using List.reverseRecOn with
  | nil => simp
  | append_singleton os o ih =>
    rw [List.foldl_concat, BTreeSet.mem_extend, BTreeSet.mem_extend, BTreeSet.mem_toList,
      BTreeSet.mem_toList, ih]
    simp only [List.mem_append, List.mem_singleton, or_and_right, exists_or, exists_eq_left]
    constructor
    · rintro (h | h | h)
      exacts [.inr (.inr h), .inr (.inl h), .inl h]
    · rintro (h | h | h)
      exacts [.inr (.inr h), .inr (.inl h), .inl h]

theorem Represents.mem_replaced {b : ProjectionBuild}
    (h : Represents unicode numerals graph b live) (hr : Replaces graph numerals live l owners)
    {k : String} :
    k ∈ replacedSubjects b.ownerEntities (Projection.ofEntities l) owners.toList ↔
      (∃ e, live k = some e ∧ e.owner ∈ owners) ∨ ∃ e ∈ l, e.key = k := by
  rw [mem_replacedSubjects]
  simp only [h.owned, Projection.mem_ownerEntities, BTreeSet.mem_toList]
  constructor
  · rintro ⟨o, ho, ⟨e, he, rfl⟩ | ⟨e, he, rfl, hk⟩⟩
    · exact .inl ⟨e, he, ho⟩
    · exact .inr ⟨e, he, hk⟩
  · rintro (⟨e, he, ho⟩ | ⟨e, he, hk⟩)
    · exact ⟨e.owner, ho, .inl ⟨e, he, rfl⟩⟩
    · exact ⟨e.owner, (hr.projected e he).2, .inr ⟨e, he, rfl, hk⟩⟩

/-- Replaced subjects are live only through the delta, the others as they were. -/
theorem Represents.kept_eq {b : ProjectionBuild}
    (h : Represents unicode numerals graph b live) (hr : Replaces graph numerals live l owners)
    (k : String) :
    kept live owners k =
      if k ∈ replacedSubjects b.ownerEntities (Projection.ofEntities l) owners.toList then none
      else live k := by
  split
  · next hk =>
    refine Option.eq_none_iff_forall_ne_some.mpr fun e he => ?_
    obtain ⟨he, ho⟩ := kept_eq_some.mp he
    rcases (h.mem_replaced hr).mp hk with ⟨x, hx, hxo⟩ | ⟨x, hx, hxk⟩
    · obtain rfl := Option.some.inj (he.symm.trans hx)
      exact ho hxo
    · exact hr.apart k e he ho x hx hxk
  · next hk =>
    refine Option.ext fun e => ?_
    rw [kept_eq_some, and_iff_left_iff_imp]
    exact fun he ho => hk ((h.mem_replaced hr).mpr (.inl ⟨e, he, ho⟩))

theorem Represents.lastWith_eq_none_of_not_mem {b : ProjectionBuild}
    (h : Represents unicode numerals graph b live) (hr : Replaces graph numerals live l owners)
    {k : String}
    (hk : k ∉ replacedSubjects b.ownerEntities (Projection.ofEntities l) owners.toList) :
    lastWith l k = none :=
  lastWith_eq_none.mpr fun e he hek => hk ((h.mem_replaced hr).mpr (.inr ⟨e, he, hek⟩))

/-! ## The previous triples -/

theorem get_previousTriples (store : Finset Triple) (keys : List String) (k : String) :
    (previousTriples store keys).get k =
      if k ∈ keys ∧ triplesForSubject store k ≠ ∅ then some (triplesForSubject store k)
      else none := by
  unfold previousTriples
  induction keys using List.reverseRecOn with
  | nil => simp
  | append_singleton keys x ih =>
    rw [List.foldl_concat]
    simp only
    split
    · next hx =>
      rw [ih]
      by_cases hk : k = x
      · subst hk
        simp [hx]
      · simp [hk]
    · next hx =>
      rw [BTreeMap.get_insert, ih]
      by_cases hk : k = x
      · subst hk
        simp [hx]
      · simp [hk]

theorem Represents.triplesForSubject_eq {b : ProjectionBuild}
    (h : Represents unicode numerals graph b live) (k : String) :
    triplesForSubject b.store k = ((live k).map Entity.triples).getD ∅ := by
  ext t
  unfold triplesForSubject
  rw [Finset.mem_filter, h.store]
  constructor
  · rintro ⟨⟨e, he, ht⟩, rfl⟩
    rw [he]
    exact ht
  · intro ht
    cases hk : live k with
    | none =>
      rw [hk] at ht
      exact absurd ht (Finset.notMem_empty t)
    | some e =>
      rw [hk] at ht
      obtain ⟨hp, rfl⟩ := h.projected k e hk
      have hs := hp.subject_eq ht
      exact ⟨⟨e, hs.symm ▸ hk, ht⟩, hs⟩

theorem Represents.get_previous {b : ProjectionBuild}
    (h : Represents unicode numerals graph b live) (keys : List String) (k : String) :
    (previousTriples b.store keys).get k =
      if k ∈ keys then (live k).map Entity.triples else none := by
  rw [get_previousTriples, h.triplesForSubject_eq]
  by_cases hk : k ∈ keys
  · simp only [hk, true_and, if_true]
    cases he : live k with
    | none => simp
    | some e =>
      have hne : e.triples ≠ ∅ := fun hn => by
        have := (h.projected k e he).1.type_mem
        rw [hn] at this
        exact Finset.notMem_empty _ this
      simp [hne]
  · simp [hk]

/-- Where no subject's triples change, nothing that is live does. -/
theorem Represents.overlay_eq_of_unchanged {b : ProjectionBuild}
    (h : Represents unicode numerals graph b live) (hr : Replaces graph numerals live l owners)
    (hsame : ∀ k ∈ replacedSubjects b.ownerEntities (Projection.ofEntities l) owners.toList,
      (live k).map Entity.triples = (lastWith l k).map Entity.triples) :
    overlay l (kept live owners) = live := by
  funext k
  unfold overlay
  rw [h.kept_eq hr]
  split
  · next hk =>
    rw [Option.or_none]
    have ht := hsame k hk
    cases hlast : lastWith l k with
    | none =>
      rw [hlast, Option.map_none, Option.map_eq_none_iff] at ht
      exact ht.symm
    | some x =>
      rw [hlast, Option.map_some, Option.map_eq_some_iff] at ht
      obtain ⟨e, he, hte⟩ := ht
      obtain ⟨hm, hxk⟩ := lastWith_eq_some hlast
      obtain ⟨hp, hek⟩ := h.projected k e he
      rw [he, hp.eq_of_triples (hr.projected x hm).1 (hek.trans hxk.symm) hte]
  · next hk => rw [h.lastWith_eq_none_of_not_mem hr hk, Option.none_or]

/-! ## The store -/

theorem mem_foldl_writeEntityDiff {previous next : BTreeMap String (Finset Triple)}
    (hprev : ∀ k ts, previous.get k = some ts → ∀ t ∈ ts, t.subject = k)
    (hnext : ∀ k ts, next.get k = some ts → ∀ t ∈ ts, t.subject = k)
    {keys : List String} (hn : keys.Nodup) {store : Finset Triple}
    (hstore : ∀ t, t.subject ∈ keys →
      (t ∈ store ↔ t ∈ (previous.get t.subject).getD ∅)) (t : Triple) :
    t ∈ keys.foldl (fun store key =>
        writeEntityDiff store (previous.get key) (next.get key)) store ↔
      if t.subject ∈ keys then t ∈ (next.get t.subject).getD ∅ else t ∈ store := by
  have hget : ∀ {m : BTreeMap String (Finset Triple)},
      (∀ k ts, m.get k = some ts → ∀ t ∈ ts, t.subject = k) → ∀ {k : String} {t : Triple},
        t ∈ (m.get k).getD ∅ → t.subject = k := fun {m} hm {k t} ht => by
    cases he : m.get k with
    | none =>
      rw [he] at ht
      exact absurd ht (Finset.notMem_empty t)
    | some ts =>
      rw [he] at ht
      exact hm k ts he t ht
  induction keys generalizing store with
  | nil => simp
  | cons k keys ih =>
    obtain ⟨hk, hn⟩ := List.nodup_cons.mp hn
    -- after the first step the store agrees with the projection on the first subject
    have hstep : ∀ s, s ∈ writeEntityDiff store (previous.get k) (next.get k) ↔
        if s.subject = k then s ∈ (next.get k).getD ∅ else s ∈ store := fun s => by
      unfold writeEntityDiff
      simp only [Finset.mem_union, Finset.mem_sdiff]
      split
      · next hs =>
        have := hstore s (hs ▸ List.mem_cons_self ..)
        rw [hs] at this
        tauto
      · next hs =>
        have hp : s ∉ (previous.get k).getD ∅ := fun hm => hs (hget hprev hm)
        have hx : s ∉ (next.get k).getD ∅ := fun hm => hs (hget hnext hm)
        tauto
    have hagree : ∀ s, s.subject ∈ keys →
        (s ∈ writeEntityDiff store (previous.get k) (next.get k) ↔
          s ∈ (previous.get s.subject).getD ∅) := fun s hs => by
      have hne : s.subject ≠ k := fun he => hk (he ▸ hs)
      rw [hstep, if_neg hne]
      exact hstore s (List.mem_cons_of_mem _ hs)
    rw [List.foldl_cons]
    refine (ih hn hagree).trans ?_
    by_cases ht : t.subject = k
    · simp only [ht, hk, if_false, List.mem_cons, true_or, if_true, hstep]
    · simp only [List.mem_cons, ht, false_or, hstep, if_false]

/-! ## The postings -/

theorem Indexed.drop {previous : BTreeMap String (Finset Triple)} {keys : List String}
    (hn : keys.Nodup) {properties : PropertyIndex} {texts : TextIndex}
    {normalized : NormalizedText} {live : String → Option Entity}
    (h : Indexed unicode numerals properties texts normalized live)
    (hsub : ∀ k e, live k = some e → ∀ t ∈ e.triples, t.subject = k)
    (hprev : ∀ k ∈ keys, previous.get k = (live k).map Entity.triples) :
    let state := dropSubjects numerals previous keys (properties, texts, normalized)
    Indexed unicode numerals state.1 state.2.1 state.2.2
      fun k => if k ∈ keys then none else live k := by
  induction keys generalizing properties texts normalized live with
  | nil =>
    rw [show (fun k => if k ∈ ([] : List String) then none else live k) = live by simp]
    exact h
  | cons key keys ih =>
    obtain ⟨hk, hn⟩ := List.nodup_cons.mp hn
    have hlive : (fun k => if k ∈ key :: keys then none else live k) =
        fun k => if k ∈ keys then none else (fun k => if k = key then none else live k) k := by
      funext k
      by_cases hkk : k = key <;> by_cases hkm : k ∈ keys <;> simp [hkk, hkm]
    rw [hlive]
    have htext : (fun k => if k = key then none else (live k).map Entity.text) =
        fun k => (if k = key then none else live k).map Entity.text := by
      funext k
      split <;> rfl
    have hdrop : Indexed unicode numerals
        (dropSubjects numerals previous [key] (properties, texts, normalized)).1
        (texts.remove key normalized).1 (texts.remove key normalized).2
        fun k => if k = key then none else live k := by
      refine ⟨htext ▸ h.text.remove key, ?_⟩
      have hids : ∀ {s : String}, s ≠ key →
          (texts.remove key normalized).1.bySubject.lookup s = texts.bySubject.lookup s :=
        fun hs => bySubject_remove hs
      simp only [dropSubjects]
      rw [hprev key (List.mem_cons_self ..)]
      have hid := h.text.id_isSome key
      cases he : live key with
      | none =>
        rw [he, Option.map_none, Option.isSome_none, Option.isSome_eq_false_iff,
          Option.isNone_iff_eq_none] at hid
        rw [show texts.id key = none from hid]
        refine h.properties.congr fun i t => exists_congr fun x => ?_
        by_cases ht : t.subject = key
        · simp [ht, he]
        · simp [ht, hids ht]
      | some e =>
        rw [he, Option.map_some, Option.isSome_some, Option.isSome_iff_exists] at hid
        obtain ⟨id, hid⟩ := hid
        rw [show texts.id key = some id from hid]
        -- the id names this subject only
        have honly : ∀ s, texts.bySubject.lookup s = some id → s = key := fun s hs => by
          obtain ⟨v, hv⟩ := (h.text.subject s id).mp hs
          obtain ⟨w, hw⟩ := (h.text.subject key id).mp hid
          rw [hv] at hw
          exact (TextEntry.mk.inj (Option.some.inj (Option.some.inj hw))).1
        have hown : ∀ t, (∃ x, live t.subject = some x ∧ t ∈ x.triples ∧
            texts.bySubject.lookup t.subject = some id) → t ∈ e.triples := by
          rintro t ⟨x, hx, ht, hi⟩
          rw [honly _ hi, he] at hx
          exact Option.some.inj hx ▸ ht
        refine (h.properties.removeSubject hown).congr fun i t => ?_
        constructor
        · rintro ⟨hne, x, hx, ht, hi⟩
          have hs : t.subject ≠ key := fun hs => hne (by
            rw [hs, hid] at hi
            exact (Option.some.inj hi).symm)
          exact ⟨x, by rw [if_neg hs, hx], ht, by rw [hids hs, hi]⟩
        · rintro ⟨x, hx, ht, hi⟩
          by_cases hs : t.subject = key
          · rw [if_pos hs] at hx
            cases hx
          · rw [if_neg hs] at hx
            rw [hids hs] at hi
            exact ⟨fun hne => hs (honly _ (hne ▸ hi)), x, hx, ht, hi⟩
    refine ih hn hdrop (fun k e he => ?_) (fun k hkm => ?_)
    · split at he
      · cases he
      · exact hsub k e he
    · have hne : k ≠ key := fun he => hk (he ▸ hkm)
      rw [hprev k (List.mem_cons_of_mem _ hkm), if_neg hne]

/-! ## References and the ledger -/

theorem lookup_foldl_updateOwner (projected : Projection) (os : List OutlineOwner)
    (ledger : HashMap OutlineOwner (BTreeSet String)) (o : OutlineOwner) :
    (os.foldl (updateOwner projected) ledger).lookup o =
      if o ∈ os then projected.ownerEntities.lookup o else ledger.lookup o := by
  induction os using List.reverseRecOn with
  | nil => simp
  | append_singleton os x ih =>
    rw [List.foldl_concat]
    unfold updateOwner
    by_cases h : o = x
    · subst h
      rw [if_pos (by simp)]
      split
      · next hx => rw [Finmap.lookup_insert, hx]
      · next hx => rw [Finmap.lookup_erase, hx]
    · simp only [List.mem_append, List.mem_singleton, h, or_false]
      split
      · rw [Finmap.lookup_insert_of_ne _ h, Finmap.lookup_erase_ne h]
        exact ih
      · rw [Finmap.lookup_erase_ne h]
        exact ih

theorem Represents.lookup_refs {b : ProjectionBuild}
    (h : Represents unicode numerals graph b live) (hr : Replaces graph numerals live l owners)
    (k : String) :
    ((Projection.ofEntities l).entityRefs.entries.foldl (fun m e => m.insert e.1 e.2)
      ((replacedSubjects b.ownerEntities (Projection.ofEntities l) owners.toList).toList.foldl
        (fun m key => m.erase key) b.entityRefs)).lookup k =
      (overlay l (kept live owners) k).map Entity.ref := by
  rw [lookup_entityRefs, lookup_foldl_erase, overlay, h.kept_eq hr, h.refs]
  cases lastWith l k with
  | some e => rfl
  | none =>
    rw [Option.map_none, Option.none_or, Option.none_or]
    show (if k ∈ replacedSubjects _ _ _ then _ else _) = _
    split <;> rfl

theorem Replaces.owner_iff (hr : Replaces graph numerals live l owners) {o : OutlineOwner}
    {k : String} :
    (∃ e, overlay l (kept live owners) k = some e ∧ e.owner = o) ↔
      if o ∈ owners then ∃ e ∈ l, e.owner = o ∧ e.key = k
      else ∃ e, live k = some e ∧ e.owner = o := by
  have hover : ∀ {e}, overlay l (kept live owners) k = some e ↔
      lastWith l k = some e ∨ live k = some e ∧ e.owner ∉ owners := fun {e} => by
    rw [overlay_eq_some, kept_eq_some]
    refine or_congr_right ⟨And.right, fun he => ⟨lastWith_eq_none.mpr ?_, he⟩⟩
    exact hr.apart k e he.1 he.2
  simp only [hover]
  split
  · next ho =>
    constructor
    · rintro ⟨e, he | ⟨_, hno⟩, rfl⟩
      · obtain ⟨hm, hk⟩ := lastWith_eq_some he
        exact ⟨e, hm, rfl, hk⟩
      · exact absurd ho hno
    · rintro ⟨e, he, rfl, hk⟩
      obtain ⟨x, hx⟩ := Option.isSome_iff_exists.mp (lastWith_isSome.mpr ⟨e, he, hk⟩)
      obtain ⟨hm, hxk⟩ := lastWith_eq_some hx
      exact ⟨x, .inl hx, hr.owner_eq x hm e he (hxk.trans hk.symm)⟩
  · next ho =>
    constructor
    · rintro ⟨e, he | ⟨he, _⟩, rfl⟩
      · exact absurd (hr.projected e (lastWith_eq_some he).1).2 ho
      · exact ⟨e, he, rfl⟩
    · rintro ⟨e, he, rfl⟩
      exact ⟨e, .inr ⟨he, ho⟩, rfl⟩

theorem Represents.mem_ledger {b : ProjectionBuild}
    (h : Represents unicode numerals graph b live) (hr : Replaces graph numerals live l owners)
    (o : OutlineOwner) (k : String) :
    k ∈ ((owners.toList.foldl (updateOwner (Projection.ofEntities l))
        b.ownerEntities).lookup o).getD ∅ ↔
      ∃ e, overlay l (kept live owners) k = some e ∧ e.owner = o := by
  rw [hr.owner_iff, lookup_foldl_updateOwner]
  by_cases ho : o ∈ owners
  · rw [if_pos ho, if_pos (BTreeSet.mem_toList.mpr ho)]
    exact Projection.mem_ownerEntities ..
  · rw [if_neg ho, if_neg (mt BTreeSet.mem_toList.mp ho)]
    exact h.owned o k

theorem Represents.isSome_ledger {b : ProjectionBuild}
    (h : Represents unicode numerals graph b live) (hr : Replaces graph numerals live l owners)
    (o : OutlineOwner) :
    ((owners.toList.foldl (updateOwner (Projection.ofEntities l))
        b.ownerEntities).lookup o).isSome = true ↔
      ∃ k e, overlay l (kept live owners) k = some e ∧ e.owner = o := by
  simp only [hr.owner_iff, lookup_foldl_updateOwner]
  by_cases ho : o ∈ owners
  · simp only [if_pos ho, if_pos (BTreeSet.mem_toList.mpr ho)]
    rw [Projection.isSome_ownerEntities]
    exact ⟨fun ⟨e, he, ho⟩ => ⟨e.key, e, he, ho, rfl⟩, fun ⟨_, e, he, ho, _⟩ => ⟨e, he, ho⟩⟩
  · simp only [if_neg ho, if_neg (mt BTreeSet.mem_toList.mp ho)]
    exact h.owners o

/-! ## The tables where triples change -/

section Changed
variable {b : ProjectionBuild} {replaced : BTreeSet String}

theorem Represents.mem_store (h : Represents unicode numerals graph b live)
    (hr : Replaces graph numerals live l owners)
    (hrep : replacedSubjects b.ownerEntities (Projection.ofEntities l) owners.toList = replaced)
    (t : Triple) :
    t ∈ replaced.toList.foldl (fun store key => writeEntityDiff store
        ((previousTriples b.store replaced.toList).get key)
        ((Projection.ofEntities l).entities.get key)) b.store ↔
      ∃ e, overlay l (kept live owners) t.subject = some e ∧ t ∈ e.triples := by
  have hproj : ∀ e ∈ l, Projected numerals graph e := fun e he => (hr.projected e he).1
  rw [mem_foldl_writeEntityDiff]
  · unfold overlay
    rw [h.kept_eq hr, hrep]
    by_cases ht : t.subject ∈ replaced
    · rw [if_pos (BTreeSet.mem_toList.mpr ht), if_pos ht, Projection.get_entities, Option.or_none]
      cases lastWith l t.subject <;> simp
    · rw [if_neg (mt BTreeSet.mem_toList.mp ht), if_neg ht,
        h.lastWith_eq_none_of_not_mem hr (hrep ▸ ht), Option.none_or, h.store]
  · intro k ts hk t ht
    rw [h.get_previous] at hk
    split at hk
    · obtain ⟨e, he, rfl⟩ := Option.map_eq_some_iff.mp hk
      obtain ⟨hp, rfl⟩ := h.projected k e he
      exact hp.subject_eq ht
    · cases hk
  · intro k ts hk t ht
    rw [Projection.get_entities] at hk
    obtain ⟨e, he, rfl⟩ := Option.map_eq_some_iff.mp hk
    obtain ⟨hm, rfl⟩ := lastWith_eq_some he
    exact (hproj e hm).subject_eq ht
  · exact BTreeMap.nodup_keys replaced
  · intro s hs
    rw [h.get_previous, if_pos hs, h.store]
    cases live s.subject <;> simp

/-- The counter follows the store. -/
theorem Represents.card_store (h : Represents unicode numerals graph b live)
    (hr : Replaces graph numerals live l owners)
    (hrep : replacedSubjects b.ownerEntities (Projection.ofEntities l) owners.toList = replaced)
    {store : Finset Triple} (hstore : ∀ t, t ∈ store ↔
      ∃ e, overlay l (kept live owners) t.subject = some e ∧ t ∈ e.triples) :
    total (previousTriples b.store replaced.toList).entries ≤ b.store.card ∧
      b.store.card - total (previousTriples b.store replaced.toList).entries +
        total (Projection.ofEntities l).entities.entries = store.card := by
  have hproj : ∀ e ∈ l, Projected numerals graph e := fun e he => (hr.projected e he).1
  have hprev : ∀ t, t ∈ unionAll (previousTriples b.store replaced.toList).entries ↔
      t.subject ∈ replaced ∧ t ∈ b.store := fun t => by
    rw [mem_unionAll, h.store]
    constructor
    · rintro ⟨⟨k, ts⟩, hm, ht⟩
      rw [BTreeMap.mem_entries, h.get_previous] at hm
      split at hm
      · next hk =>
        obtain ⟨e, he, rfl⟩ := Option.map_eq_some_iff.mp hm
        obtain ⟨hp, rfl⟩ := h.projected k e he
        have hs := hp.subject_eq ht
        exact ⟨hs ▸ hk, e, hs ▸ he, ht⟩
      · cases hm
    · rintro ⟨hk, e, he, ht⟩
      refine ⟨(t.subject, e.triples), ?_, ht⟩
      rw [BTreeMap.mem_entries, h.get_previous, if_pos (BTreeSet.mem_toList.mpr hk), he]
      rfl
  have hcard : (unionAll (previousTriples b.store replaced.toList).entries).card =
      total (previousTriples b.store replaced.toList).entries := by
    refine card_unionAll (BTreeMap.nodup_keys _) fun ⟨k, ts⟩ hm t ht => ?_
    rw [BTreeMap.mem_entries, h.get_previous] at hm
    split at hm
    · obtain ⟨e, he, rfl⟩ := Option.map_eq_some_iff.mp hm
      obtain ⟨hp, rfl⟩ := h.projected k e he
      exact hp.subject_eq ht
    · cases hm
  have hsub : unionAll (previousTriples b.store replaced.toList).entries ⊆ b.store :=
    fun t ht => ((hprev t).mp ht).2
  have hlast : ∀ t, t ∈ unionAll (Projection.ofEntities l).entities.entries →
      t.subject ∈ replaced := fun t ht => by
    obtain ⟨e, he, _⟩ := (mem_unionAll_ofEntities hproj).mp ht
    obtain ⟨hm, hk⟩ := lastWith_eq_some he
    exact hrep ▸ (h.mem_replaced hr).mpr (.inr ⟨e, hm, hk⟩)
  have hsplit : store = (b.store \ unionAll (previousTriples b.store replaced.toList).entries) ∪
      unionAll (Projection.ofEntities l).entities.entries := by
    ext t
    rw [hstore, Finset.mem_union, Finset.mem_sdiff, hprev, mem_unionAll_ofEntities hproj]
    unfold overlay
    rw [h.kept_eq hr, hrep]
    by_cases ht : t.subject ∈ replaced
    · simp [ht]
    · simp only [ht, if_false, false_and, not_false_eq_true, and_true, h.store,
        h.lastWith_eq_none_of_not_mem hr (hrep ▸ ht), Option.none_or]
      simp
  have hdisj : Disjoint (b.store \ unionAll (previousTriples b.store replaced.toList).entries)
      (unionAll (Projection.ofEntities l).entities.entries) :=
    Finset.disjoint_left.mpr fun t ht hu => by
      obtain ⟨hs, hn⟩ := Finset.mem_sdiff.mp ht
      exact hn ((hprev t).mpr ⟨hlast t hu, hs⟩)
  have hle := Finset.card_le_card hsub
  rw [hsplit, Finset.card_union_of_disjoint hdisj, Finset.card_sdiff_of_subset hsub, hcard,
    card_unionAll_ofEntities hproj]
  exact ⟨hcard ▸ hle, rfl⟩

theorem Represents.indexed_delta (h : Represents unicode numerals graph b live)
    (hr : Replaces graph numerals live l owners)
    (hrep : replacedSubjects b.ownerEntities (Projection.ofEntities l) owners.toList = replaced)
    {subjects : Finset String} (hcard : subjects.card ≤ 4294967296)
    (hmem : ∀ k e, overlay l (kept live owners) k = some e → k ∈ subjects) :
    let state := dropSubjects numerals (previousTriples b.store replaced.toList) replaced.toList
      (b.propertyIndex, b.textIndex, b.normalizedText)
    ∃ texts normalized properties,
      insertTexts unicode (Projection.ofEntities l).entityText.entries (state.2.1, state.2.2) =
        .ok (texts, normalized) ∧
      insertProperties numerals texts (Projection.ofEntities l).entities.entries state.1 =
        .ok properties ∧
      Indexed unicode numerals properties texts normalized (overlay l (kept live owners)) := by
  have hproj : ∀ e ∈ l, Projected numerals graph e := fun e he => (hr.projected e he).1
  have hkept : kept live owners = fun k => if k ∈ replaced.toList then none else live k := by
    funext k
    rw [h.kept_eq hr, hrep]
    rfl
  have hdrop := h.indexed.drop (BTreeMap.nodup_keys replaced)
    (fun k e he t ht => by
      obtain ⟨hp, rfl⟩ := h.projected k e he
      exact hp.subject_eq ht)
    (fun k hk => (h.get_previous replaced.toList k).trans (if_pos hk))
  rw [show (fun k => if k ∈ List.map Prod.fst replaced.entries then none else live k) =
    kept live owners from hkept.symm] at hdrop
  refine hdrop.add (fun e he t ht => (hproj e he).subject_eq ht) (fun e he => ?_) hcard
    (fun e he => ?_) (fun k hk => ?_)
  · rw [h.kept_eq hr, if_pos ((h.mem_replaced hr).mpr (.inr ⟨e, he, rfl⟩))]
  · obtain ⟨x, hx⟩ := Option.isSome_iff_exists.mp (lastWith_isSome.mpr ⟨e, he, rfl⟩)
    exact hmem e.key x (overlay_eq_some.mpr (.inl hx))
  · obtain ⟨x, hx⟩ := Option.ne_none_iff_exists'.mp hk
    obtain ⟨hlive, ho⟩ := kept_eq_some.mp hx
    exact hmem k x (overlay_eq_some.mpr
      (.inr ⟨lastWith_eq_none.mpr (hr.apart k x hlive ho), hx⟩))

end Changed

/-! ## The whole delta -/

theorem Represents.applyDelta {ix : GraphIndex}
    (h : Represents unicode numerals ix.graphId ix.toProjectionBuild live) {delta : IndexDelta}
    (hl : delta.project numerals ix.graphId = Projection.ofEntities l)
    (hr : Replaces ix.graphId numerals live l delta.owners)
    (hfits : Fits (overlay l (kept live delta.owners))) :
    ∃ ix' changed, ix.applyDelta unicode numerals delta = .ok (ix', changed) ∧
      ix'.graphId = ix.graphId ∧
      Represents unicode numerals ix'.graphId ix'.toProjectionBuild
        (overlay l (kept live delta.owners)) := by
  obtain ⟨subjects, triples, hmem, hcard, htotal⟩ := hfits
  have hlive : ∀ k e, overlay l (kept live delta.owners) k = some e →
      Projected numerals ix.graphId e ∧ e.key = k := fun k e he => by
    rcases overlay_eq_some.mp he with he | ⟨_, he⟩
    · exact ⟨(hr.projected e (lastWith_eq_some he).1).1, (lastWith_eq_some he).2⟩
    · exact h.projected k e (kept_eq_some.mp he).1
  have hrefs := h.lookup_refs hr
  have hledger := h.mem_ledger hr
  have howners := h.isSome_ledger hr
  generalize hrep : replacedSubjects ix.ownerEntities (Projection.ofEntities l)
    delta.owners.toList = replaced at hrefs
  unfold GraphIndex.applyDelta
  simp only [hl, hrep]
  cases hchanged : replaced.toList.any fun key =>
      decide ((previousTriples ix.store replaced.toList).get key ≠
        (Projection.ofEntities l).entities.get key) with
  | true =>
    have hstore := h.mem_store hr hrep
    obtain ⟨hsub, hadd⟩ := h.card_store hr hrep hstore
    obtain ⟨texts, normalized, properties, htexts, hprops, hindexed⟩ :=
      h.indexed_delta hr hrep hcard fun k e he => (hmem k e he).1
    have hle := (Finset.card_le_card fun t ht => by
      obtain ⟨e, he, hte⟩ := (hstore t).mp ht
      exact (hmem _ e he).2 hte).trans htotal
    simp only [Bool.not_true, Bool.false_and, Bool.false_eq_true, if_false, if_true, h.count,
      checkedSub, checkedAdd, hsub, Option.bind_some, hadd, hle, orElse, htexts, hprops, bind,
      Except.bind, pure, Except.pure]
    exact ⟨_, _, rfl, rfl, hlive, hstore, rfl, hrefs, hledger, howners, hindexed⟩
  | false =>
    have hsame : overlay l (kept live delta.owners) = live :=
      h.overlay_eq_of_unchanged hr fun k hk => by
        rw [List.any_eq_false] at hchanged
        have := hchanged k (hrep ▸ hk)
        rw [decide_eq_true_iff, not_not, h.get_previous, if_pos (hrep ▸ hk),
          Projection.get_entities] at this
        exact this
    simp only [Bool.not_false, Bool.true_and, Bool.false_eq_true, if_false]
    split
    · refine ⟨_, _, rfl, rfl, ?_⟩
      rw [hsame]
      exact h
    · refine ⟨_, _, rfl, rfl, hlive, ?_, h.count, hrefs, hledger, howners, ?_⟩
      · rw [hsame]
        exact h.store
      · rw [hsame]
        exact h.indexed

end Delta

end Neoseq.Query
