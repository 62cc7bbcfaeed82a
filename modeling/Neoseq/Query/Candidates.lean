import Neoseq.Query.TextIndex

/-! Searching the texts. The postings of the needle's trigrams are intersected, shortest
first, and what is left is checked against the normalized texts. Over every sequence of
insertions and removals the answer is the subjects whose text has the needle. -/

namespace Neoseq.Query
open Collections

variable (unicode : Unicode)

/-- `str::contains`. -/
def containsText (value needle : String) : Bool := decide (needle.toList <:+: value.toList)

namespace TextIndex

def subject (ix : TextIndex) (id : Nat) : Option String :=
  (ix.entries[id]?).join.map TextEntry.subject

/-- The postings of some trigrams; `none` where one of them has none. -/
def lookupPostings (postings : Keyed Trigram (Finset Nat)) : List Trigram → Option (List (Finset Nat))
  | [] => some []
  | trigram :: rest => do
    let posting ← postings.map.lookup trigram
    let others ← lookupPostings postings rest
    return posting :: others

/-- The loop over the remaining postings, left once no candidate is. -/
def intersectPostings (candidates : Finset Nat) : List (Finset Nat) → Finset Nat
  | [] => candidates
  | posting :: rest =>
    if candidates ∩ posting = ∅ then candidates ∩ posting
    else intersectPostings (candidates ∩ posting) rest

/-- The text of an id contains a normalized needle. -/
def matchesText (ix : TextIndex) (normalized : NormalizedText) (needle : String) (id : Nat) : Bool :=
  (ix.entries[id]?).join.any fun entry =>
    (normalized.lookup entry.value).any fun value => containsText value needle

def candidateIds (ix : TextIndex) (needle : String) (normalized : NormalizedText) :
    Option (Finset Nat) :=
  let needle := normalizeText unicode needle
  let trigrams := (textTrigrams needle).toList
  if trigrams.isEmpty then none
  else
    match lookupPostings ix.postings trigrams with
    | none => some ∅
    | some postings =>
      match postings.mergeSort fun a b => decide (a.card ≤ b.card) with
      -- some trigram has a posting, so one is first
      | [] => none
      | first :: rest =>
        some ((intersectPostings first rest).filter fun id => ix.matchesText normalized needle id)

def candidates (ix : TextIndex) (needle : String) (normalized : NormalizedText) :
    Option (List String) :=
  (ix.candidateIds unicode needle normalized).map fun ids => ids.sort.filterMap ix.subject

/-! ## Trigrams of a part -/

theorem windows_eq_nil {text : List Char} : windows text = [] ↔ text.length < 3 := by
  match text with
  | [] => simp [windows]
  | [a] => simp [windows]
  | [a, b] => simp [windows]
  | a :: b :: c :: rest =>
    rw [windows]
    simp only [List.length_cons, reduceCtorEq, false_iff]
    omega

theorem windows_cons_subset (c : Char) (text : List Char) : windows text ⊆ windows (c :: text) := by
  match text with
  | [] => exact List.nil_subset _
  | [a] => exact List.nil_subset _
  | a :: b :: rest =>
    rw [windows.eq_1 c a b rest]
    exact List.subset_cons_self ..

theorem windows_append_left (before text : List Char) : windows text ⊆ windows (before ++ text) := by
  induction before with
  | nil => exact List.Subset.refl _
  | cons c before ih => exact List.Subset.trans ih (windows_cons_subset c _)

theorem windows_append_right (text after : List Char) : windows text ⊆ windows (text ++ after) := by
  match text with
  | [] => exact List.nil_subset _
  | [a] => exact List.nil_subset _
  | [a, b] => exact List.nil_subset _
  | a :: b :: c :: rest =>
    rw [windows]
    show _ ⊆ toLex (a, toLex (b, c)) :: windows (b :: c :: rest ++ after)
    exact List.cons_subset_cons _ (windows_append_right (b :: c :: rest) after)

/-- A text has the trigrams of each of its parts. -/
theorem textTrigrams_of_contains {value needle : String} (h : containsText value needle = true)
    {t : Trigram} (ht : t ∈ textTrigrams needle) : t ∈ textTrigrams value := by
  obtain ⟨before, after, heq⟩ := of_decide_eq_true h
  simp only [textTrigrams, BTreeSet.mem_extend, BTreeSet.not_mem_empty, or_false] at ht ⊢
  rw [← heq, List.append_assoc]
  exact windows_append_left before _ (windows_append_right _ after ht)

theorem isEmpty_textTrigrams (value : String) :
    (textTrigrams value).toList.isEmpty = decide (value.length < 3) := by
  have hmem (t : Trigram) : t ∈ (textTrigrams value).toList ↔ t ∈ windows value.toList := by
    show t ∈ textTrigrams value ↔ _
    simp [textTrigrams]
  have hnil : (textTrigrams value).toList = [] ↔ windows value.toList = [] := by
    rw [List.eq_nil_iff_forall_not_mem, List.eq_nil_iff_forall_not_mem]
    exact forall_congr' fun t => not_congr (hmem t)
  rw [Bool.eq_iff_iff, List.isEmpty_iff, decide_eq_true_iff, hnil, windows_eq_nil,
    String.length_toList]

/-! ## The candidates of a needle -/

theorem mem_intersectPostings {candidates : Finset Nat} {postings : List (Finset Nat)} {id : Nat} :
    id ∈ intersectPostings candidates postings ↔
      id ∈ candidates ∧ ∀ posting ∈ postings, id ∈ posting := by
  induction postings generalizing candidates with
  | nil => simp [intersectPostings]
  | cons posting rest ih =>
    unfold intersectPostings
    split
    · next hempty =>
      rw [hempty]
      refine iff_of_false (Finset.notMem_empty id) ?_
      rintro ⟨hcand, hall⟩
      refine Finset.notMem_empty id ?_
      rw [← hempty]
      exact Finset.mem_inter.mpr ⟨hcand, hall posting (List.mem_cons_self ..)⟩
    · rw [ih, Finset.mem_inter, List.forall_mem_cons, and_assoc]

theorem lookupPostings_eq_none {postings : Keyed Trigram (Finset Nat)} {trigrams : List Trigram}
    (h : lookupPostings postings trigrams = none) :
    ∃ t ∈ trigrams, ∀ id, ¬postings.Mem t id := by
  induction trigrams with
  | nil => cases h
  | cons t rest ih =>
    cases hpost : postings.map.lookup t with
    | none =>
      refine ⟨t, List.mem_cons_self .., fun id hmem => ?_⟩
      have hunder : postings.under t = ∅ := by
        rw [Keyed.under, hpost]
        rfl
      rw [Keyed.Mem, hunder] at hmem
      exact Finset.notMem_empty id hmem
    | some posting =>
      have hrest : lookupPostings postings rest = none := by
        cases hr : lookupPostings postings rest with
        | none => rfl
        | some others => simp [lookupPostings, hpost, hr] at h
      obtain ⟨t', ht', hno⟩ := ih hrest
      exact ⟨t', List.mem_cons_of_mem _ ht', hno⟩

theorem lookupPostings_eq_some {postings : Keyed Trigram (Finset Nat)} {trigrams : List Trigram}
    {found : List (Finset Nat)} (h : lookupPostings postings trigrams = some found) :
    found = trigrams.map postings.under := by
  induction trigrams generalizing found with
  | nil => exact (Option.some.inj h).symm
  | cons t rest ih =>
    obtain ⟨posting, hpost, h⟩ := Option.bind_eq_some_iff.mp h
    obtain ⟨others, hothers, h⟩ := Option.bind_eq_some_iff.mp h
    obtain rfl := Option.some.inj h
    rw [List.map_cons, ← ih hothers, Keyed.under, hpost]
    rfl

variable {unicode} {ix : TextIndex} {normalized : NormalizedText} {text : String → Option String}

theorem Holds.matchesText_iff (h : Holds unicode ix normalized text) {needle : String} {id : Nat} :
    ix.matchesText normalized needle id = true ↔ ∃ entry, ix.entries[id]? = some (some entry) ∧
      containsText (normalizeText unicode entry.value) needle = true := by
  unfold matchesText
  cases hid : (ix.entries[id]?).join with
  | none =>
    refine iff_of_false nofun ?_
    intro ⟨entry, hentry, _⟩
    rw [hentry] at hid
    cases hid
  | some entry =>
    have hslot : ix.entries[id]? = some (some entry) := Option.join_eq_some_iff.mp hid
    have hcache : normalized.lookup entry.value = some (normalizeText unicode entry.value) := by
      rw [h.cached, positive_of_pos (uses_pos hslot)]
      rfl
    rw [Option.any_some, hcache, Option.any_some]
    constructor
    · intro hcontains
      exact ⟨entry, hslot, hcontains⟩
    · intro ⟨entry', hslot', hcontains⟩
      rw [hslot] at hslot'
      obtain rfl := Option.some.inj (Option.some.inj hslot')
      exact hcontains

theorem candidateIds_eq_none (needle : String) :
    ix.candidateIds unicode needle normalized = none ↔
      (normalizeText unicode needle).length < 3 := by
  unfold candidateIds
  dsimp only
  split_ifs with hempty
  · rw [isEmpty_textTrigrams, decide_eq_true_iff] at hempty
    exact iff_of_true rfl hempty
  · have hlong := hempty
    rw [isEmpty_textTrigrams, decide_eq_true_iff] at hlong
    refine iff_of_false ?_ hlong
    split
    · nofun
    · next postings hpostings =>
      split
      · next hsorted =>
        have hlength := congrArg List.length hsorted
        rw [List.length_mergeSort, lookupPostings_eq_some hpostings, List.length_map] at hlength
        exact absurd (List.isEmpty_iff.mpr (List.length_eq_zero_iff.mp hlength)) hempty
      · nofun

/-- The candidates are the ids whose text has the needle: no id is lost to a trigram it
does not have, and the last check takes out the others. -/
theorem Holds.mem_candidateIds (h : Holds unicode ix normalized text) {needle : String}
    {ids : Finset Nat} (hids : ix.candidateIds unicode needle normalized = some ids) {id : Nat} :
    id ∈ ids ↔ ∃ entry, ix.entries[id]? = some (some entry) ∧
      containsText (normalizeText unicode entry.value) (normalizeText unicode needle) = true := by
  have hposted {entry : TextEntry} (hslot : ix.entries[id]? = some (some entry))
      (hcontains : containsText (normalizeText unicode entry.value)
        (normalizeText unicode needle) = true) {t : Trigram}
      (ht : t ∈ (textTrigrams (normalizeText unicode needle)).toList) : ix.postings.Mem t id :=
    (h.postings t id).mpr ⟨entry, hslot, textTrigrams_of_contains hcontains ht⟩
  unfold candidateIds at hids
  dsimp only at hids
  split_ifs at hids
  split at hids
  · next hnone =>
    obtain rfl := Option.some.inj hids
    obtain ⟨t, ht, hno⟩ := lookupPostings_eq_none hnone
    refine iff_of_false (Finset.notMem_empty id) ?_
    intro ⟨entry, hslot, hcontains⟩
    exact hno id (hposted hslot hcontains ht)
  · next postings hpostings =>
    split at hids
    · cases hids
    · next first rest hsorted =>
      obtain rfl := Option.some.inj hids
      rw [Finset.mem_filter, mem_intersectPostings, h.matchesText_iff]
      refine and_iff_right_of_imp ?_
      intro ⟨entry, hslot, hcontains⟩
      have hall : ∀ posting ∈ first :: rest, id ∈ posting := by
        intro posting hmem
        rw [← hsorted, List.mem_mergeSort, lookupPostings_eq_some hpostings] at hmem
        obtain ⟨t, ht, rfl⟩ := List.mem_map.mp hmem
        exact hposted hslot hcontains ht
      exact List.forall_mem_cons.mp hall

theorem Holds.mem_candidates (h : Holds unicode ix normalized text) {needle : String}
    {subjects : List String} (hs : ix.candidates unicode needle normalized = some subjects) :
    subjects.Nodup ∧ ∀ s, s ∈ subjects ↔ ∃ value, text s = some value ∧
      containsText (normalizeText unicode value) (normalizeText unicode needle) = true := by
  obtain ⟨ids, hids, rfl⟩ := Option.map_eq_some_iff.mp hs
  have hsubject {id : Nat} {s : String} : ix.subject id = some s ↔
      ∃ v, ix.entries[id]? = some (some ⟨s, v⟩) := by
    unfold TextIndex.subject
    rw [Option.map_eq_some_iff]
    constructor
    · rintro ⟨⟨s, v⟩, hslot, rfl⟩
      exact ⟨v, Option.join_eq_some_iff.mp hslot⟩
    · intro ⟨v, hslot⟩
      exact ⟨⟨s, v⟩, Option.join_eq_some_iff.mpr hslot, rfl⟩
  constructor
  · refine List.Nodup.filterMap ?_ (Finset.sort_nodup ids _)
    intro i j s hi hj
    obtain ⟨v, hv⟩ := hsubject.mp hi
    obtain ⟨w, hw⟩ := hsubject.mp hj
    exact h.subject_unique hv hw rfl
  · intro s
    rw [List.mem_filterMap]
    constructor
    · intro ⟨id, hid, hs⟩
      obtain ⟨v, hv⟩ := hsubject.mp hs
      obtain ⟨entry, hslot, hcontains⟩ := (h.mem_candidateIds hids).mp (Finset.mem_sort .. |>.mp hid)
      rw [hv] at hslot
      obtain rfl := Option.some.inj (Option.some.inj hslot)
      exact ⟨v, (h.content s v).mpr ⟨id, hv⟩, hcontains⟩
    · intro ⟨v, htext, hcontains⟩
      obtain ⟨id, hid⟩ := (h.content s v).mp htext
      refine ⟨id, Finset.mem_sort .. |>.mpr ?_, hsubject.mpr ⟨v, hid⟩⟩
      exact (h.mem_candidateIds hids).mpr ⟨⟨s, v⟩, hid, hcontains⟩

/-! ## Runs -/

inductive Op where
  | insert (subject value : String)
  | remove (subject : String)
  deriving Repr, DecidableEq

/-- An operation on the index; an insertion that finds no id has removed the old text. -/
def step (unicode : Unicode) (state : TextIndex × NormalizedText) : Op → TextIndex × NormalizedText
  | .insert subject value =>
    match state.1.insert unicode subject value state.2 with
    | .ok state => state
    | .error _ => state.1.remove subject state.2
  | .remove subject => state.1.remove subject state.2

def run (unicode : Unicode) (ops : List Op) : TextIndex × NormalizedText :=
  ops.foldl (step unicode) (empty, ∅)

/-- The texts of the subjects, of which there are at most as many as ids. -/
abbrev Texts := HashMap String String

namespace Texts

def step (live : Texts) : Op → Texts
  | .insert subject value =>
    if (live.erase subject).keys.card < 4294967296 then (live.erase subject).insert subject value
    else live.erase subject
  | .remove subject => live.erase subject

def after (ops : List Op) : Texts := ops.foldl step ∅

end Texts

/-- The index holds the live texts, in slots that ids of 32 bits reach. -/
structure Mirrors (unicode : Unicode) (state : TextIndex × NormalizedText) (live : Texts) : Prop where
  holds : Holds unicode state.1 state.2 live.lookup
  slots : state.1.entries.length ≤ 4294967296

theorem lookup_erase_eq (live : Texts) (s : String) :
    (live.erase s).lookup = fun k => if k = s then none else live.lookup k := by
  funext k
  by_cases hk : k = s
  · subst hk
    rw [Finmap.lookup_erase, if_pos rfl]
  · rw [Finmap.lookup_erase_ne hk, if_neg hk]

theorem length_entries_remove (ix : TextIndex) (s : String) (normalized : NormalizedText) :
    (ix.remove s normalized).1.entries.length = ix.entries.length := by
  unfold remove
  cases ix.bySubject.lookup s with
  | none => rfl
  | some id =>
    cases hslot : (ix.entries[id]?).join with
    | none => simp only [hslot]
    | some entry =>
      simp only [hslot]
      exact List.length_set

theorem Mirrors.remove {state : TextIndex × NormalizedText} {live : Texts}
    (h : Mirrors unicode state live) (s : String) :
    Mirrors unicode (state.1.remove s state.2) (live.erase s) where
  holds := by
    rw [lookup_erase_eq]
    exact h.holds.remove s
  slots := by
    rw [length_entries_remove]
    exact h.slots

/-- A live subject has a slot that is not free. -/
theorem Mirrors.card_le {state : TextIndex × NormalizedText} {live : Texts}
    (h : Mirrors unicode state live) :
    live.keys.card ≤ state.1.entries.length - state.1.freeIds.length := by
  have hfree : state.1.freeIds.toFinset ⊆ Finset.range state.1.entries.length := by
    intro id hid
    have hslot := (h.holds.free id).mp (List.mem_toFinset.mp hid)
    exact Finset.mem_range.mpr (List.getElem?_eq_some_iff.mp hslot).1
  have hcard : (Finset.range state.1.entries.length \ state.1.freeIds.toFinset).card =
      state.1.entries.length - state.1.freeIds.length := by
    rw [Finset.card_sdiff_of_subset hfree, Finset.card_range,
      List.toFinset_card_of_nodup h.holds.free_nodup]
  rw [← hcard]
  refine (Finset.card_le_card ?_).trans
    (Finset.card_image_le (f := fun id => (state.1.subject id).getD ""))
  intro s hs
  obtain ⟨v, hv⟩ := Finmap.mem_iff.mp (Finmap.mem_keys.mp hs)
  obtain ⟨id, hid⟩ := (h.holds.content s v).mp hv
  refine Finset.mem_image.mpr ⟨id, Finset.mem_sdiff.mpr ⟨?_, ?_⟩, ?_⟩
  · exact Finset.mem_range.mpr (List.getElem?_eq_some_iff.mp hid).1
  · intro hfree
    have hslot := (h.holds.free id).mp (List.mem_toFinset.mp hfree)
    rw [hid] at hslot
    cases hslot
  · simp [subject, hid]

/-- There is an id left exactly where there are fewer live subjects than ids. -/
theorem Mirrors.room_iff {state : TextIndex × NormalizedText} {live : Texts}
    (h : Mirrors unicode state live) :
    (state.1.freeIds ≠ [] ∨ state.1.entries.length < 4294967296) ↔
      live.keys.card < 4294967296 := by
  constructor
  · intro hroom
    have hcard := h.card_le
    have hslots := h.slots
    rcases hroom with hfree | hlt
    · have hpos := List.length_pos_iff.mpr hfree
      omega
    · omega
  · intro hcard
    refine h.holds.room (fun k hk => ?_) hcard
    obtain ⟨v, hv⟩ := Option.ne_none_iff_exists'.mp hk
    exact Finmap.mem_keys.mpr (Finmap.mem_iff.mpr ⟨v, hv⟩)

theorem length_entries_insert {ix ix' : TextIndex} {s v : String}
    {normalized normalized' : NormalizedText} (hslots : ix.entries.length ≤ 4294967296)
    (h : ix.insert unicode s v normalized = .ok (ix', normalized')) :
    ix'.entries.length ≤ 4294967296 := by
  have hremove := length_entries_remove ix s normalized
  unfold insert at h
  generalize ix.remove s normalized = removed at h hremove
  obtain ⟨jx, cache⟩ := removed
  obtain ⟨⟨id, entries, freeIds⟩, halloc, h⟩ := bind_eq_ok.mp h
  obtain ⟨rfl, -⟩ := Prod.mk.inj (Except.ok.inj h)
  rw [List.length_set]
  unfold allocate at halloc
  split at halloc
  · next rest =>
    obtain ⟨-, rfl, -⟩ := by simpa using halloc
    exact hremove.trans_le hslots
  · split_ifs at halloc with hlt
    obtain ⟨-, rfl, -⟩ := by simpa using halloc
    rw [List.length_append, List.length_singleton]
    exact hlt

theorem insert_of_full {ix : TextIndex} {s v : String} {normalized : NormalizedText}
    (hfree : (ix.remove s normalized).1.freeIds = [])
    (hslots : ¬(ix.remove s normalized).1.entries.length < 4294967296) :
    ix.insert unicode s v normalized = .error (.index "text subject id overflow") := by
  unfold insert
  generalize ix.remove s normalized = removed at hfree hslots ⊢
  obtain ⟨jx, cache⟩ := removed
  have halloc : allocate jx.entries jx.freeIds = .error (.index "text subject id overflow") := by
    rw [show jx.freeIds = [] from hfree]
    exact if_neg hslots
  simp only [halloc, bind, Except.bind]

theorem Mirrors.step {state : TextIndex × NormalizedText} {live : Texts}
    (h : Mirrors unicode state live) (op : Op) :
    Mirrors unicode (step unicode state op) (Texts.step live op) := by
  cases op with
  | remove s => exact h.remove s
  | insert s v =>
    have hremoved := h.remove s
    unfold TextIndex.step Texts.step
    dsimp only
    by_cases hroom : (live.erase s).keys.card < 4294967296
    · obtain ⟨ix', normalized', hinsert, hholds⟩ :=
        h.holds.insert_of_room s v (hremoved.room_iff.mpr hroom)
      rw [if_pos hroom, hinsert]
      refine ⟨?_, length_entries_insert h.slots hinsert⟩
      have hlookup : ((live.erase s).insert s v).lookup =
          fun k => if k = s then some v else live.lookup k := by
        funext k
        by_cases hk : k = s
        · subst hk
          rw [Finmap.lookup_insert, if_pos rfl]
        · rw [Finmap.lookup_insert_of_ne _ hk, Finmap.lookup_erase_ne hk, if_neg hk]
      rw [hlookup]
      exact hholds
    · have hfull := mt hremoved.room_iff.mp hroom
      rw [not_or, not_not] at hfull
      rw [if_neg hroom, insert_of_full hfull.1 hfull.2]
      exact hremoved

theorem mirrors_run (ops : List Op) : Mirrors unicode (run unicode ops) (Texts.after ops) := by
  have hempty : Mirrors unicode (empty, ∅) ∅ := by
    refine ⟨?_, Nat.zero_le _⟩
    have hlookup : (∅ : Texts).lookup = fun _ => none := funext fun k => Finmap.lookup_empty k
    rw [hlookup]
    exact holds_empty
  unfold run Texts.after
  generalize (empty, (∅ : NormalizedText)) = state at hempty ⊢
  generalize (∅ : Texts) = live at hempty ⊢
  induction ops generalizing state live with
  | nil => exact hempty
  | cons op ops ih => exact ih _ _ (hempty.step op)

theorem uses_pos_iff {entries : List (Option TextEntry)} {v : String} :
    0 < uses entries v ↔ ∃ (id : Nat) (s : String), entries[id]? = some (some ⟨s, v⟩) := by
  unfold uses
  rw [List.countP_pos_iff]
  constructor
  · rintro ⟨e, hmem, he⟩
    obtain ⟨id, hid⟩ := List.mem_iff_getElem?.mp hmem
    obtain ⟨⟨s, w⟩, rfl, rfl⟩ := Option.map_eq_some_iff.mp (of_decide_eq_true he)
    exact ⟨id, s, hid⟩
  · rintro ⟨id, s, hid⟩
    exact ⟨_, List.mem_of_getElem? hid, by simp⟩

/-- After any insertions and removals a needle of three characters finds exactly the live
subjects whose text has it, each once; the postings and the cache are those of the live
texts. -/
theorem candidates_run (unicode : Unicode) (ops : List Op) (needle : String) :
    ((run unicode ops).1.candidates unicode needle (run unicode ops).2 = none ↔
      (normalizeText unicode needle).length < 3) ∧
    (∀ subjects, (run unicode ops).1.candidates unicode needle (run unicode ops).2 = some subjects →
      subjects.Nodup ∧ ∀ s, s ∈ subjects ↔ ∃ value, (Texts.after ops).lookup s = some value ∧
        containsText (normalizeText unicode value) (normalizeText unicode needle) = true) ∧
    (∀ s value, (Texts.after ops).lookup s = some value ↔
      ∃ id : Nat, (run unicode ops).1.entries[id]? = some (some ⟨s, value⟩)) ∧
    (∀ trigram id, (run unicode ops).1.postings.Mem trigram id ↔
      ∃ entry, (run unicode ops).1.entries[id]? = some (some entry) ∧
        trigram ∈ textTrigrams (normalizeText unicode entry.value)) ∧
    ∀ value text, (run unicode ops).2.lookup value = some text ↔
      text = normalizeText unicode value ∧ ∃ s, (Texts.after ops).lookup s = some value := by
  have h : Mirrors unicode (run unicode ops) (Texts.after ops) := mirrors_run ops
  refine ⟨?_, fun subjects hs => h.holds.mem_candidates hs, h.holds.content, h.holds.postings, ?_⟩
  · rw [candidates, Option.map_eq_none_iff, candidateIds_eq_none]
  · intro value text
    have hlive : (∃ s, (Texts.after ops).lookup s = some value) ↔
        0 < uses (run unicode ops).1.entries value := by
      rw [uses_pos_iff, exists_comm]
      exact exists_congr fun s => h.holds.content s value
    rw [h.holds.cached, hlive]
    unfold positive
    split_ifs with hzero
    · simp [hzero]
    · simp [Nat.pos_of_ne_zero hzero, eq_comm]

end TextIndex

end Neoseq.Query
