import Neoseq.Collections.BTreeMap
import Neoseq.Collections.Keyed
import Neoseq.Query.Rdf
import Neoseq.Result

/-! The text side of the index. A text has a small id that is used again after
its subject is gone; trigrams of the normalized text name the ids they occur in,
and a normalized text is kept for as long as some subject has the text. -/

namespace Neoseq.Query
open Collections

inductive QueryError where
  | algebraBudget
  | invalidPlan (message : String)
  | disallowed (form : String)
  | invalidTerm (message : String)
  | index (message : String)
  deriving Repr, DecidableEq

/-- The properties of characters that normalization asks for. -/
structure Unicode where
  toLowercase : Char → List Char
  isAlphanumeric : Char → Bool
  isWhitespace : Char → Bool

variable (unicode : Unicode)

def normalizeText (value : String) : String :=
  let folded := (value.toList.flatMap unicode.toLowercase).map fun c =>
    if unicode.isAlphanumeric c || unicode.isWhitespace c then c else ' '
  let words := (folded.splitOnP unicode.isWhitespace).filter fun word => !word.isEmpty
  String.intercalate " " (words.map String.ofList)

abbrev Trigram := Char ×ₗ Char ×ₗ Char

def windows : List Char → List Trigram
  | a :: b :: c :: rest => toLex (a, toLex (b, c)) :: windows (b :: c :: rest)
  | _ => []

def textTrigrams (value : String) : BTreeSet Trigram :=
  (∅ : BTreeSet Trigram).extend (windows value.toList)

structure TextEntry where
  subject : String
  value : String
  deriving Repr, DecidableEq

structure TextIndex where
  bySubject : HashMap String Nat
  entries : List (Option TextEntry)
  freeIds : List Nat
  postings : Keyed Trigram (Finset Nat)
  valueRefCounts : HashMap String Nat

/-- The cache of normalized texts, shared by the whole index. -/
abbrev NormalizedText := HashMap String String

namespace TextIndex

def empty : TextIndex := ⟨∅, [], [], Keyed.empty, ∅⟩

def postAll (postings : Keyed Trigram (Finset Nat)) (id : Nat) (trigrams : List Trigram) :
    Keyed Trigram (Finset Nat) :=
  trigrams.foldl (fun p t => p.insert t id) postings

def unpostAll (postings : Keyed Trigram (Finset Nat)) (id : Nat) (trigrams : List Trigram) :
    Keyed Trigram (Finset Nat) :=
  trigrams.foldl (fun p t => p.remove t id) postings

/-- One use of a text less; the last one takes the cached text with it. -/
def release (counts : HashMap String Nat) (normalized : NormalizedText) (value : String) :
    HashMap String Nat × NormalizedText :=
  match counts.lookup value with
  | none => (counts, normalized)
  | some count =>
    if count - 1 = 0 then (counts.erase value, normalized.erase value)
    else (counts.insert value (count - 1), normalized)

def remove (ix : TextIndex) (subject : String) (normalized : NormalizedText) :
    TextIndex × NormalizedText :=
  match ix.bySubject.lookup subject with
  | none => (ix, normalized)
  | some id =>
    match (ix.entries[id]?).join with
    | none => ({ ix with bySubject := ix.bySubject.erase subject }, normalized)
    | some entry =>
      let postings :=
        match normalized.lookup entry.value with
        | some text => unpostAll ix.postings id (textTrigrams text).toList
        | none => ix.postings
      let released := release ix.valueRefCounts normalized entry.value
      ({ bySubject := ix.bySubject.erase subject
         entries := ix.entries.set id none
         freeIds := id :: ix.freeIds
         postings := postings
         valueRefCounts := released.1 }, released.2)

/-- The id of the next text: one that was given back, or a new one. -/
def allocate (entries : List (Option TextEntry)) (freeIds : List Nat) :
    Except QueryError (Nat × List (Option TextEntry) × List Nat) :=
  match freeIds with
  | id :: rest => .ok (id, entries, rest)
  | [] =>
    if entries.length < 4294967296 then .ok (entries.length, entries ++ [none], [])
    else .error (.index "text subject id overflow")

def insert (ix : TextIndex) (subject value : String) (normalized : NormalizedText) :
    Except QueryError (TextIndex × NormalizedText) := do
  let (ix, normalized) := ix.remove subject normalized
  let (id, entries, freeIds) ← allocate ix.entries ix.freeIds
  let text := (normalized.lookup value).getD (normalizeText unicode value)
  let normalized :=
    if normalized.lookup value = none then normalized.insert value text else normalized
  return ({ bySubject := ix.bySubject.insert subject id
            entries := entries.set id (some ⟨subject, value⟩)
            freeIds := freeIds
            postings := postAll ix.postings id (textTrigrams text).toList
            valueRefCounts :=
              ix.valueRefCounts.insert value ((ix.valueRefCounts.lookup value).getD 0 + 1) },
    normalized)

def id (ix : TextIndex) (subject : String) : Option Nat := ix.bySubject.lookup subject

/-! ## What the index holds -/

@[simp] theorem mem_postAll {postings : Keyed Trigram (Finset Nat)} {id i : Nat}
    {trigrams : List Trigram} {t : Trigram} :
    (postAll postings id trigrams).Mem t i ↔ (t ∈ trigrams ∧ i = id) ∨ postings.Mem t i := by
  unfold postAll
  induction trigrams generalizing postings with
  | nil => simp
  | cons x rest ih =>
    rw [List.foldl_cons, ih, Keyed.mem_insert, List.mem_cons]
    tauto

@[simp] theorem mem_unpostAll {postings : Keyed Trigram (Finset Nat)} {id i : Nat}
    {trigrams : List Trigram} {t : Trigram} :
    (unpostAll postings id trigrams).Mem t i ↔
      ¬(t ∈ trigrams ∧ i = id) ∧ postings.Mem t i := by
  unfold unpostAll
  induction trigrams generalizing postings with
  | nil => simp
  | cons x rest ih =>
    rw [List.foldl_cons, ih, Keyed.mem_remove, List.mem_cons]
    tauto

/-- How often a text is in use. -/
def uses (entries : List (Option TextEntry)) (value : String) : Nat :=
  entries.countP fun e => decide (e.map TextEntry.value = some value)

/-- A count that is kept for as long as it is positive. -/
def positive (n : Nat) : Option Nat := if n = 0 then none else some n

/-- The index and the cache hold exactly the texts of the subjects. -/
structure Holds (ix : TextIndex) (normalized : NormalizedText)
    (text : String → Option String) : Prop where
  subject : ∀ (s : String) (id : Nat), ix.bySubject.lookup s = some id ↔
    ∃ v, ix.entries[id]? = some (some (TextEntry.mk s v))
  content : ∀ (s v : String), text s = some v ↔
    ∃ id : Nat, ix.entries[id]? = some (some (TextEntry.mk s v))
  free_nodup : ix.freeIds.Nodup
  free : ∀ id : Nat, id ∈ ix.freeIds ↔ ix.entries[id]? = some none
  postings : ∀ t id, ix.postings.Mem t id ↔
    ∃ e, ix.entries[id]? = some (some e) ∧ t ∈ textTrigrams (normalizeText unicode e.value)
  counts : ∀ v, ix.valueRefCounts.lookup v = positive (uses ix.entries v)
  cached : ∀ v, normalized.lookup v =
    (positive (uses ix.entries v)).map fun _ => normalizeText unicode v

variable {unicode}

theorem holds_empty : Holds unicode empty ∅ fun _ => none where
  subject s id := by simp [empty]
  content s v := by simp [empty]
  free_nodup := List.nodup_nil
  free id := by simp [empty]
  postings t id := by simp [empty]
  counts v := by simp [empty, uses, positive]
  cached v := by simp [empty, uses, positive]

section Holds
variable {ix : TextIndex} {normalized : NormalizedText} {text : String → Option String}

theorem Holds.subject_unique (h : Holds unicode ix normalized text) {i j : Nat}
    {a b : TextEntry} (hi : ix.entries[i]? = some (some a)) (hj : ix.entries[j]? = some (some b))
    (he : a.subject = b.subject) : i = j := by
  have hli := (h.subject a.subject i).mpr ⟨a.value, hi⟩
  have hlj := (h.subject b.subject j).mpr ⟨b.value, hj⟩
  rw [he] at hli
  exact Option.some.inj (hli.symm.trans hlj)

/-- A subject has an id where it has a text. -/
theorem Holds.id_isSome (h : Holds unicode ix normalized text) (s : String) :
    (ix.bySubject.lookup s).isSome = (text s).isSome := by
  rw [Bool.eq_iff_iff, Option.isSome_iff_exists, Option.isSome_iff_exists]
  constructor
  · rintro ⟨id, hid⟩
    obtain ⟨v, hv⟩ := (h.subject s id).mp hid
    exact ⟨v, (h.content s v).mpr ⟨id, hv⟩⟩
  · rintro ⟨v, hv⟩
    obtain ⟨id, hid⟩ := (h.content s v).mp hv
    exact ⟨id, (h.subject s id).mpr ⟨v, hid⟩⟩

/-! ## Taking a text out -/

theorem uses_set {entries : List (Option TextEntry)} {id : Nat} {old new : Option TextEntry}
    (h : entries[id]? = some old) (v : String) :
    uses (entries.set id new) v =
      uses entries v - (if old.map TextEntry.value = some v then 1 else 0) +
        (if new.map TextEntry.value = some v then 1 else 0) := by
  obtain ⟨hlt, hget⟩ := List.getElem?_eq_some_iff.mp h
  unfold uses
  rw [List.countP_set hlt, hget]
  simp

theorem uses_pos {entries : List (Option TextEntry)} {id : Nat} {e : TextEntry}
    (h : entries[id]? = some (some e)) : 0 < uses entries e.value :=
  List.countP_pos_iff.mpr ⟨_, List.mem_of_getElem? h, by simp⟩

theorem positive_of_pos {n : Nat} (h : 0 < n) : positive n = some n :=
  if_neg (by omega)

/-- A text that is in use loses one use, and its cached form with the last. -/
theorem release_spec {counts : HashMap String Nat} {n : String → Nat} {value : String}
    (hc : ∀ v, counts.lookup v = positive (n v))
    (hn : ∀ v, normalized.lookup v = (positive (n v)).map fun _ => normalizeText unicode v)
    (hpos : 0 < n value) (v : String) :
    (release counts normalized value).1.lookup v =
        positive (n v - if value = v then 1 else 0) ∧
      (release counts normalized value).2.lookup v =
        (positive (n v - if value = v then 1 else 0)).map fun _ => normalizeText unicode v := by
  have hlook : counts.lookup value = some (n value) := (hc value).trans (positive_of_pos hpos)
  unfold release
  rw [hlook]
  simp only
  by_cases hv : v = value
  · subst hv
    rw [if_pos rfl]
    split
    · next hz =>
      rw [hz]
      exact ⟨Finmap.lookup_erase .., Finmap.lookup_erase ..⟩
    · next hz =>
      rw [positive_of_pos (by omega)]
      exact ⟨Finmap.lookup_insert .., (hn v).trans (by rw [positive_of_pos hpos]; rfl)⟩
  · rw [if_neg (Ne.symm hv), Nat.sub_zero]
    split
    · exact ⟨(Finmap.lookup_erase_ne hv).trans (hc v), (Finmap.lookup_erase_ne hv).trans (hn v)⟩
    · exact ⟨(Finmap.lookup_insert_of_ne _ hv).trans (hc v), hn v⟩

theorem Holds.remove (h : Holds unicode ix normalized text) (s : String) :
    Holds unicode (ix.remove s normalized).1 (ix.remove s normalized).2
      fun k => if k = s then none else text k := by
  unfold TextIndex.remove
  cases hid : ix.bySubject.lookup s with
  | none =>
    have htext : text s = none := by
      have := h.id_isSome s
      rw [hid] at this
      simpa using this.symm
    have he : (fun k => if k = s then none else text k) = text := by
      funext k
      split
      · next hk => rw [hk, htext]
      · rfl
    rw [he]
    exact h
  | some id =>
    obtain ⟨v, hv⟩ := (h.subject s id).mp hid
    have hlt : id < ix.entries.length := (List.getElem?_eq_some_iff.mp hv).1
    have hlive : ∀ j e, (ix.entries.set id none)[j]? = some (some e) ↔
        j ≠ id ∧ ix.entries[j]? = some (some e) := fun j e => by
      rw [List.getElem?_set]
      by_cases hj : id = j
      · simp [hj]
      · simp [hj, Ne.symm hj]
    have hne : ∀ {j k w}, k ≠ s → ix.entries[j]? = some (some (TextEntry.mk k w)) → j ≠ id := by
      rintro j k w hk hj rfl
      rw [hv] at hj
      simp [Ne.symm hk] at hj
    have hcache : normalized.lookup v = some (normalizeText unicode v) := by
      rw [h.cached, positive_of_pos (uses_pos hv)]
      rfl
    simp only [hv, Option.join_some, hcache]
    refine ⟨fun k j => ?_, fun k w => ?_, ?_, fun j => ?_, fun t j => ?_, fun w => ?_, fun w => ?_⟩
    · simp only [hlive]
      by_cases hk : k = s
      · subst hk
        rw [Finmap.lookup_erase]
        refine iff_of_false (fun hn => nomatch hn) ?_
        rintro ⟨w, hj, hw⟩
        exact hj (h.subject_unique hw hv rfl)
      · rw [Finmap.lookup_erase_ne hk, h.subject]
        exact exists_congr fun w => ⟨fun hw => ⟨hne hk hw, hw⟩, And.right⟩
    · simp only [hlive]
      by_cases hk : k = s
      · subst hk
        rw [if_pos rfl]
        refine iff_of_false (fun hn => nomatch hn) ?_
        rintro ⟨j, hj, hw⟩
        exact hj (h.subject_unique hw hv rfl)
      · rw [if_neg hk, h.content]
        exact exists_congr fun j => ⟨fun hw => ⟨hne hk hw, hw⟩, And.right⟩
    · refine List.nodup_cons.mpr ⟨fun hm => ?_, h.free_nodup⟩
      rw [h.free, hv] at hm
      cases hm
    · rw [List.mem_cons, h.free, List.getElem?_set]
      by_cases hj : id = j
      · simp [hj, hj ▸ hlt]
      · simp [hj, Ne.symm hj]
    · rw [mem_unpostAll, h.postings]
      simp only [hlive]
      constructor
      · rintro ⟨hn, e, he, ht⟩
        refine ⟨e, ⟨?_, he⟩, ht⟩
        rintro rfl
        rw [hv] at he
        obtain rfl := Option.some.inj (Option.some.inj he)
        exact hn ⟨ht, rfl⟩
      · rintro ⟨e, ⟨hj, he⟩, ht⟩
        exact ⟨fun hn => hj hn.2, e, he, ht⟩
    · rw [(release_spec h.counts h.cached (uses_pos hv) w).1, uses_set hv]
      simp
    · rw [(release_spec h.counts h.cached (uses_pos hv) w).2, uses_set hv]
      simp

/-! ## Putting a text in -/

theorem allocate_spec {entries : List (Option TextEntry)} {freeIds : List Nat}
    (hn : freeIds.Nodup) (hf : ∀ j : Nat, j ∈ freeIds ↔ entries[j]? = some none)
    (hroom : freeIds ≠ [] ∨ entries.length < 4294967296) :
    ∃ id entries' freeIds', allocate entries freeIds = .ok (id, entries', freeIds') ∧
      entries'[id]? = some none ∧ freeIds'.Nodup ∧
      (∀ j : Nat, j ∈ freeIds' ↔ j ≠ id ∧ entries'[j]? = some none) ∧
      (∀ (j : Nat) (e : TextEntry),
        entries'[j]? = some (some e) ↔ entries[j]? = some (some e)) ∧
      ∀ v, uses entries' v = uses entries v := by
  cases freeIds with
  | cons id rest =>
    obtain ⟨hid, hrest⟩ := List.nodup_cons.mp hn
    refine ⟨id, entries, rest, rfl, (hf id).mp (List.mem_cons_self ..), hrest, fun j => ?_,
      fun _ _ => Iff.rfl, fun _ => rfl⟩
    rw [← hf j, List.mem_cons]
    constructor
    · intro hj
      exact ⟨fun he => hid (he ▸ hj), .inr hj⟩
    · rintro ⟨hne, hj⟩
      exact hj.resolve_left hne
  | nil =>
    have hlt := hroom.resolve_left fun h => h rfl
    refine ⟨entries.length, entries ++ [none], [], if_pos hlt, by simp, List.nodup_nil,
      fun j => ?_, fun j e => ?_, fun v => by simp [uses]⟩
    · have := hf j
      simp only [List.not_mem_nil, false_iff] at this ⊢
      rintro ⟨hne, hj⟩
      rw [List.getElem?_append] at hj
      split at hj
      · exact this hj
      · next hge =>
        have hz : j - entries.length ≠ 0 := by omega
        simp [hz] at hj
    · rw [List.getElem?_append]
      split
      · rfl
      · next hge =>
        rw [List.getElem?_eq_none (Nat.le_of_not_lt hge)]
        refine iff_of_false (fun hj => ?_) (fun hj => nomatch hj)
        have := List.mem_of_getElem? hj
        simp at this

/-- There is an id left where there are fewer subjects than ids. -/
theorem Holds.room (h : Holds unicode ix normalized text) {subjects : Finset String}
    (hs : ∀ k, text k ≠ none → k ∈ subjects) (hcard : subjects.card < 4294967296) :
    ix.freeIds ≠ [] ∨ ix.entries.length < 4294967296 := by
  by_cases hfree : ix.freeIds = []
  · right
    -- no slot is empty, so slots and subjects correspond
    have hlive : ∀ i, i < ix.entries.length → ∃ e, ix.entries[i]? = some (some e) := fun i hi => by
      have hget := List.getElem?_eq_getElem hi
      cases he : ix.entries[i] with
      | none =>
        rw [he, ← h.free, hfree] at hget
        cases hget
      | some e => exact ⟨e, by rw [hget, he]⟩
    refine Nat.lt_of_le_of_lt ?_ hcard
    rw [← Finset.card_range ix.entries.length]
    refine Finset.card_le_card_of_injOn
      (fun i => (((ix.entries[i]?).join).map TextEntry.subject).getD "") ?_ ?_
    · intro i hi
      obtain ⟨e, he⟩ := hlive i (by simpa using hi)
      simp only [he, Option.join_some, Option.map_some, Option.getD_some]
      exact hs _ fun hn => by
        have := (h.content e.subject e.value).mpr ⟨i, he⟩
        rw [hn] at this
        cases this
    · intro i hi j hj he
      obtain ⟨a, ha⟩ := hlive i (by simpa using hi)
      obtain ⟨b, hb⟩ := hlive j (by simpa using hj)
      simp only [ha, hb, Option.join_some, Option.map_some, Option.getD_some] at he
      exact h.subject_unique ha hb he
  · exact .inl hfree

/-- Where an id is left once the subject's old text is out, the new text gets one. -/
theorem Holds.insert_of_room (h : Holds unicode ix normalized text) (s v : String)
    (hroom : (ix.remove s normalized).1.freeIds ≠ [] ∨
      (ix.remove s normalized).1.entries.length < 4294967296) :
    ∃ ix' normalized', ix.insert unicode s v normalized = .ok (ix', normalized') ∧
      Holds unicode ix' normalized' fun k => if k = s then some v else text k := by
  have hr := h.remove s
  unfold TextIndex.insert
  generalize hrem : ix.remove s normalized = r at hr hroom ⊢
  obtain ⟨jx, cache⟩ := r
  obtain ⟨id, entries, freeIds, halloc, hslot, hnodup, hfree, hlive, huses⟩ :=
    allocate_spec hr.free_nodup hr.free hroom
  have hlt : id < entries.length := (List.getElem?_eq_some_iff.mp hslot).1
  have hset : ∀ j e, (entries.set id (some ⟨s, v⟩))[j]? = some (some e) ↔
      (j = id ∧ e = ⟨s, v⟩) ∨ jx.entries[j]? = some (some e) := fun j e => by
    rw [List.getElem?_set, ← hlive]
    by_cases hj : id = j
    · subst hj
      rw [if_pos rfl, if_pos hlt, hslot, Option.some.injEq, Option.some.injEq]
      exact ⟨fun he => .inl ⟨rfl, he.symm⟩, fun he => (he.resolve_right nofun).2.symm⟩
    · simp [hj, Ne.symm hj]
  have hno : ∀ (j : Nat) (w : String), jx.entries[j]? ≠ some (some ⟨s, w⟩) := fun j w hj => by
    have := (hr.content s w).mpr ⟨j, hj⟩
    simp at this
  have hnew : ∀ w, uses (entries.set id (some ⟨s, v⟩)) w =
      uses jx.entries w + if w = v then 1 else 0 := fun w => by
    rw [uses_set hslot, huses]
    simp [eq_comm]
  have htext : (cache.lookup v).getD (normalizeText unicode v) = normalizeText unicode v := by
    rw [hr.cached]
    cases positive (uses jx.entries v) <;> rfl
  simp only [halloc, htext, bind, Except.bind, pure, Except.pure]
  refine ⟨_, _, rfl, ?_, ?_, hnodup, fun j => ?_, fun t j => ?_, fun w => ?_, fun w => ?_⟩
  · intro k j
    simp only [hset, TextEntry.mk.injEq]
    by_cases hk : k = s
    · subst hk
      rw [Finmap.lookup_insert, Option.some.injEq]
      exact ⟨fun hj => ⟨v, .inl ⟨hj.symm, rfl, rfl⟩⟩,
        fun ⟨w, hw⟩ => (hw.resolve_right (hno j w)).1.symm⟩
    · rw [Finmap.lookup_insert_of_ne _ hk, hr.subject]
      exact exists_congr fun w => ⟨.inr, fun hw => hw.resolve_left fun hl => hk hl.2.1⟩
  · intro k w
    simp only [hset, TextEntry.mk.injEq]
    by_cases hk : k = s
    · subst hk
      rw [if_pos rfl, Option.some.injEq]
      exact ⟨fun hw => ⟨id, .inl ⟨rfl, rfl, hw.symm⟩⟩,
        fun ⟨j, hj⟩ => (hj.resolve_right (hno j w)).2.2.symm⟩
    · have hc := hr.content k w
      rw [if_neg hk] at hc
      rw [if_neg hk, hc]
      exact exists_congr fun j => ⟨.inr, fun hj => hj.resolve_left fun hl => hk hl.2.1⟩
  · rw [hfree, List.getElem?_set]
    by_cases hj : id = j
    · simp [hj, hj ▸ hlt]
    · simp [hj, Ne.symm hj]
  · rw [mem_postAll, hr.postings]
    simp only [hset]
    constructor
    · rintro (⟨ht, rfl⟩ | ⟨e, he, ht⟩)
      · exact ⟨⟨s, v⟩, .inl ⟨rfl, rfl⟩, ht⟩
      · exact ⟨e, .inr he, ht⟩
    · rintro ⟨e, ⟨rfl, rfl⟩ | he, ht⟩
      · exact .inl ⟨ht, rfl⟩
      · exact .inr ⟨e, he, ht⟩
  · rw [hnew, hr.counts]
    by_cases hw : w = v
    · subst hw
      rw [Finmap.lookup_insert, if_pos rfl, positive_of_pos (Nat.succ_pos _)]
      unfold positive
      split
      · next hz => rw [hz]; rfl
      · rfl
    · rw [Finmap.lookup_insert_of_ne _ hw, if_neg hw, hr.counts]
      rfl
  · rw [hnew]
    by_cases hw : w = v
    · subst hw
      rw [if_pos rfl, positive_of_pos (Nat.succ_pos _), Option.map_some]
      split
      · rw [Finmap.lookup_insert]
      · next hc =>
        rw [hr.cached] at hc ⊢
        cases hp : positive (uses jx.entries w) with
        | none => exact absurd (by rw [hp]; rfl) hc
        | some n => rfl
    · rw [if_neg hw, Nat.add_zero, ← hr.cached]
      split
      · rw [Finmap.lookup_insert_of_ne _ hw]
      · rfl

theorem Holds.insert (h : Holds unicode ix normalized text) {s : String} (v : String)
    {subjects : Finset String} (hs : ∀ k, k ≠ s → text k ≠ none → k ∈ subjects)
    (hmem : s ∈ subjects) (hcard : subjects.card ≤ 4294967296) :
    ∃ ix' normalized', ix.insert unicode s v normalized = .ok (ix', normalized') ∧
      Holds unicode ix' normalized' fun k => if k = s then some v else text k := by
  have hothers : ∀ k, (if k = s then none else text k) ≠ none → k ∈ subjects.erase s := by
    intro k hk
    by_cases hks : k = s
    · simp [hks] at hk
    · rw [if_neg hks] at hk
      exact Finset.mem_erase.mpr ⟨hks, hs k hks hk⟩
  have hless : (subjects.erase s).card < 4294967296 := by
    rw [Finset.card_erase_of_mem hmem]
    have := Finset.card_pos.mpr ⟨s, hmem⟩
    omega
  exact h.insert_of_room s v ((h.remove s).room hothers hless)

end Holds

end TextIndex

end Neoseq.Query
