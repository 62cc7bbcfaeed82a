import Neoseq.Entities.Names
import Neoseq.Entities.Ordering

/-! How tags are filed and arranged: groups that are names of their tags, in an order that is that
of the tags in them. -/

namespace Neoseq.Entities

open Collections (Precedes StrictWeakOn sortBy)

/-- A tag as the manager reads it: the text of its group and its position. -/
structure TagSnapshot where
  id : String
  name : String
  group : Option String
  order : Option Rat
  deriving DecidableEq

/-- The group a tag is filed under, or `none` for the ungrouped; white space is no group. -/
def tagGroup (tag : TagSnapshot) : Option String :=
  (tag.group.map fun value => String.ofList (trim value.toList)).filter (· ≠ "")

def arrangedTags : Arranged TagSnapshot where
  id := TagSnapshot.id
  name := TagSnapshot.name
  order := TagSnapshot.order
  setOrder position tag := { tag with order := some position }
  id_setOrder _ _ := rfl
  name_setOrder _ _ := rfl
  order_setOrder _ _ := rfl

def orderWrites (ordered : List TagSnapshot) (movedId : String) : List Placement :=
  moveWrites (ordered.map arrangedTags.placed) movedId

/-- `none` is the ungrouped section, which is always last. -/
structure TagGroupView where
  name : Option String
  tags : List TagSnapshot

def groupOrderWrites (groups : List TagGroupView) (movedIndex : Nat) : List Placement :=
  runWrites (groups.map fun group => group.tags.map arrangedTags.placed) movedIndex

/-! ## Groups -/

/-- A member is put behind the others of its group, or in a group behind the others. -/
def pushMember : List (String × List TagSnapshot) → String → TagSnapshot →
    List (String × List TagSnapshot)
  | [], group, tag => [(group, [tag])]
  | (name, members) :: groups, group, tag =>
    if name = group then (name, members ++ [tag]) :: groups
    else (name, members) :: pushMember groups group tag

/-- One round of the loop that collects the groups and the ungrouped. -/
def collect (collected : List (String × List TagSnapshot) × List TagSnapshot)
    (tag : TagSnapshot) : List (String × List TagSnapshot) × List TagSnapshot :=
  match tagGroup tag with
  | none => (collected.1, collected.2 ++ [tag])
  | some group => (pushMember collected.1 group tag, collected.2)

def rank (members : List TagSnapshot) : Option Rat := lowest TagSnapshot.order members

section
variable (compare : String → String → Ordering)

def byOrder : TagSnapshot → TagSnapshot → Ordering := arrangedTags.byPlace compare

/-- A group sorts by the lowest position its members carry, then by its name. -/
def byRank (left right : TagGroupView) : Ordering :=
  (place (rank left.tags) (rank right.tags)).then
    (compare (left.name.getD "") (right.name.getD ""))

/-- The tags as the manager shows them. -/
def groupedTags (tags : List TagSnapshot) : List TagGroupView :=
  let collected := tags.foldl collect ([], [])
  let ordered := sortBy (byRank compare)
    (collected.1.map fun entry => ⟨some entry.1, sortBy (byOrder compare) entry.2⟩)
  if collected.2 = [] then ordered
  else ordered ++ [⟨none, sortBy (byOrder compare) collected.2⟩]

end

/-! ## Gestures -/

/-- What the view writes to a tag: its group, or its position. -/
inductive TagCommand where
  | setGroup (tagId : String) (group : String)
  | removeGroup (tagId : String)
  | setOrder (tagId : String) (order : Rat)

def runCommand (tag : TagSnapshot) : TagCommand → TagSnapshot
  | .setGroup id group => if id = tag.id then { tag with group := some group } else tag
  | .removeGroup id => if id = tag.id then { tag with group := none } else tag
  | .setOrder id order => if id = tag.id then { tag with order := some order } else tag

/-- Every tag after a batch of commands. -/
def runCommands (commands : List TagCommand) (tags : List TagSnapshot) : List TagSnapshot :=
  tags.map fun tag => commands.foldl runCommand tag

def orderCommands (writes : List Placement) : List TagCommand :=
  writes.map fun write => .setOrder write.id write.order

def sectionOf (groups : List TagGroupView) (group : Option String) : List TagSnapshot :=
  ((groups.find? fun item => item.name = group).map TagGroupView.tags).getD []

/-- The members of a group as a tag is put among them, before one of them or last. -/
def rearranged (groups : List TagGroupView) (tag : TagSnapshot) (group beforeId : Option String) :
    List TagSnapshot :=
  let members := (sectionOf groups group).filter fun item => item.id ≠ tag.id
  let index := (beforeId.bind fun id => members.findIdx? fun item => item.id = id).getD
    members.length
  members.take index ++ tag :: members.drop index

def filing (tag : TagSnapshot) (group : Option String) : List TagCommand :=
  if tagGroup tag = group then []
  else
    match group with
    | none => [.removeGroup tag.id]
    | some group => [.setGroup tag.id group]

def placeTag (groups : List TagGroupView) (tag : TagSnapshot) (group beforeId : Option String) :
    List TagCommand :=
  filing tag group ++ orderCommands (orderWrites (rearranged groups tag group beforeId) tag.id)

def placeGroup (groups : List TagGroupView) (name : String) (index : Nat) : List TagCommand :=
  let real := groups.filter fun group => group.name ≠ none
  match real.findIdx? fun group => group.name = some name with
  | none => []
  | some start =>
    let rest := real.eraseIdx start
    let slot := min rest.length (if index > start then index - 1 else index)
    if slot = start then []
    else
      match real[start]? with
      | none => []
      | some moved =>
        orderCommands (groupOrderWrites (rest.take slot ++ moved :: rest.drop slot) slot)

/-! ## Names in the order they come first -/

def addFirst (names : List String) (name : String) : List String :=
  if name ∈ names then names else names ++ [name]

def firsts (names : List String) : List String := names.foldl addFirst []

theorem firsts_concat (names : List String) (name : String) :
    firsts (names ++ [name]) = addFirst (firsts names) name := by
  unfold firsts
  rw [List.foldl_append]
  rfl

theorem mem_firsts {names : List String} {name : String} : name ∈ firsts names ↔ name ∈ names := by
  induction names using List.reverseRecOn generalizing name with
  | nil => rfl
  | append_singleton names last ih =>
    rw [firsts_concat, addFirst]
    split
    · next hmem =>
      rw [ih] at hmem ⊢
      simp only [List.mem_append, List.mem_singleton]
      exact ⟨.inl, fun h => h.elim id fun heq => heq ▸ hmem⟩
    · rw [List.mem_append, List.mem_append, ih]

theorem nodup_firsts (names : List String) : (firsts names).Nodup := by
  induction names using List.reverseRecOn with
  | nil => exact List.nodup_nil
  | append_singleton names last ih =>
    rw [firsts_concat, addFirst]
    split
    · exact ih
    · next hmem => exact List.nodup_append.mpr ⟨ih, List.nodup_singleton _, by
        intro a ha b hb
        rw [List.mem_singleton.mp hb]
        exact fun heq => hmem (heq ▸ ha)⟩

theorem filter_firsts (p : String → Bool) (names : List String) :
    (firsts names).filter p = firsts (names.filter p) := by
  induction names using List.reverseRecOn with
  | nil => rfl
  | append_singleton names last ih =>
    rw [firsts_concat, addFirst, List.filter_append]
    cases hlast : p last with
    | false =>
      have hnone : [last].filter p = [] := by simp [hlast]
      rw [hnone, List.append_nil, ← ih]
      split
      · rfl
      · rw [List.filter_append, hnone, List.append_nil]
    | true =>
      have hsome : [last].filter p = [last] := by simp [hlast]
      rw [hsome, firsts_concat, addFirst, ← ih]
      by_cases hmem : last ∈ firsts names
      · rw [if_pos hmem, if_pos (List.mem_filter.mpr ⟨hmem, hlast⟩)]
      · rw [if_neg hmem, if_neg fun h => hmem (List.mem_filter.mp h).1, List.filter_append, hsome]

/-! ## What is collected -/

def groupNames (tags : List TagSnapshot) : List String := firsts (tags.filterMap tagGroup)

def members (tags : List TagSnapshot) (group : Option String) : List TagSnapshot :=
  tags.filter fun tag => tagGroup tag = group

theorem mem_members {tags : List TagSnapshot} {group : Option String} {tag : TagSnapshot} :
    tag ∈ members tags group ↔ tag ∈ tags ∧ tagGroup tag = group := by
  unfold members
  rw [List.mem_filter, decide_eq_true_iff]

theorem mem_groupNames {tags : List TagSnapshot} {group : String} :
    group ∈ groupNames tags ↔ ∃ tag ∈ tags, tagGroup tag = some group := by
  unfold groupNames
  rw [mem_firsts, List.mem_filterMap]

theorem members_ne_nil {tags : List TagSnapshot} {group : String} (h : group ∈ groupNames tags) :
    members tags (some group) ≠ [] := by
  obtain ⟨tag, htag, hgroup⟩ := mem_groupNames.mp h
  exact List.ne_nil_of_mem (mem_members.mpr ⟨htag, hgroup⟩)

theorem pushMember_map {names : List String} (hn : names.Nodup)
    (entry : String → List TagSnapshot) (group : String) (tag : TagSnapshot) :
    pushMember (names.map fun name => (name, entry name)) group tag =
      if group ∈ names then
        names.map fun name => (name, if name = group then entry name ++ [tag] else entry name)
      else names.map (fun name => (name, entry name)) ++ [(group, [tag])] := by
  induction names with
  | nil => rfl
  | cons name names ih =>
    obtain ⟨hname, hn⟩ := List.nodup_cons.mp hn
    rw [List.map_cons, pushMember]
    by_cases heq : name = group
    · subst heq
      rw [if_pos rfl, if_pos List.mem_cons_self, List.map_cons, if_pos rfl]
      congr 1
      refine List.map_congr_left fun other hother => ?_
      rw [if_neg fun h : other = name => hname (h ▸ hother)]
    · rw [if_neg heq, ih hn]
      by_cases hmem : group ∈ names
      · rw [if_pos hmem, if_pos (List.mem_cons_of_mem _ hmem), List.map_cons, if_neg heq]
      · rw [if_neg hmem, if_neg fun h => (List.mem_cons.mp h).elim (fun h => heq h.symm) hmem]
        rfl

theorem foldl_collect (tags : List TagSnapshot) :
    tags.foldl collect ([], []) =
      ((groupNames tags).map fun group => (group, members tags (some group)),
        members tags none) := by
  induction tags using List.reverseRecOn with
  | nil => rfl
  | append_singleton tags tag ih =>
    rw [List.foldl_append, ih, List.foldl_cons, List.foldl_nil, collect]
    have hmembers (group : Option String) : members (tags ++ [tag]) group =
        if tagGroup tag = group then members tags group ++ [tag] else members tags group := by
      unfold members
      rw [List.filter_append]
      by_cases heq : tagGroup tag = group <;> simp [heq]
    cases htag : tagGroup tag with
    | none =>
      have hnames : groupNames (tags ++ [tag]) = groupNames tags := by
        unfold groupNames
        rw [List.filterMap_append, List.filterMap_cons_none htag, List.filterMap_nil,
          List.append_nil]
      simp only [hnames, hmembers, htag, if_true, reduceCtorEq, if_false]
    | some group =>
      have hnames : groupNames (tags ++ [tag]) = addFirst (groupNames tags) group := by
        unfold groupNames
        rw [List.filterMap_append, List.filterMap_cons_some htag, List.filterMap_nil, firsts_concat]
      simp only [hnames, hmembers, htag, reduceCtorEq, if_false, Option.some.injEq]
      have hn : (groupNames tags).Nodup := nodup_firsts _
      rw [pushMember_map hn, addFirst]
      congr 1
      by_cases hmem : group ∈ groupNames tags
      · rw [if_pos hmem, if_pos hmem]
        refine List.map_congr_left fun name _ => ?_
        by_cases heq : name = group
        · rw [if_pos heq, if_pos heq.symm]
        · rw [if_neg heq, if_neg (Ne.symm heq)]
      · have hempty : members tags (some group) = [] := by
          unfold members
          rw [List.filter_eq_nil_iff]
          intro other hother hgroup
          exact hmem (mem_groupNames.mpr ⟨other, hother, of_decide_eq_true hgroup⟩)
        rw [if_neg hmem, if_neg hmem, List.map_append, List.map_singleton, if_pos rfl, hempty]
        congr 1
        refine List.map_congr_left fun name hname => ?_
        rw [if_neg fun heq : group = name => hmem (heq ▸ hname)]

/-! ## What is shown -/

section
variable (compare : String → String → Ordering)

/-- A section of the manager. -/
def view (tags : List TagSnapshot) (group : Option String) : TagGroupView :=
  ⟨group, sortBy (byOrder compare) (members tags group)⟩

/-- The groups in their order, without the ungrouped. -/
def namedGroups (tags : List TagSnapshot) : List TagGroupView :=
  sortBy (byRank compare) ((groupNames tags).map fun group => view compare tags (some group))

def ungrouped (tags : List TagSnapshot) : List TagGroupView :=
  if members tags none = [] then [] else [view compare tags none]

theorem groupedTags_eq (tags : List TagSnapshot) :
    groupedTags compare tags = namedGroups compare tags ++ ungrouped compare tags := by
  unfold groupedTags namedGroups ungrouped
  rw [foldl_collect]
  dsimp only
  rw [List.map_map]
  split
  · rw [List.append_nil]
    rfl
  · rfl

theorem mem_namedGroups {tags : List TagSnapshot} {group : TagGroupView} :
    group ∈ namedGroups compare tags ↔
      ∃ name ∈ groupNames tags, view compare tags (some name) = group := by
  unfold namedGroups
  rw [(Collections.sortBy_perm _ _).mem_iff, List.mem_map]

theorem rank_view (tags : List TagSnapshot) (group : Option String) :
    rank (view compare tags group).tags = rank (members tags group) := by
  have hperm := Collections.sortBy_perm (byOrder compare) (members tags group)
  refine Option.ext fun p => ?_
  unfold rank view
  rw [lowest_eq_some_iff, lowest_eq_some_iff]
  simp only [hperm.mem_iff]

end

section
variable {compare : String → String → Ordering} (hcompare : StrictWeakOn (fun _ => True) compare)
include hcompare

theorem weak_byOrder {tags : List TagSnapshot} :
    StrictWeakOn (· ∈ tags) (byOrder compare) :=
  (arrangedTags.weak_byPlace hcompare).mono fun _ _ => trivial

theorem weak_byRank {groups : List TagGroupView} :
    StrictWeakOn (· ∈ groups) (byRank compare) :=
  (((weak_place fun group : TagGroupView => rank group.tags).andThen
    (hcompare.comap fun group : TagGroupView => group.name.getD "")).mono fun _ _ => trivial)

end

theorem byRank_lt {compare : String → String → Ordering} {left right : TagGroupView}
    (h : place (rank left.tags) (rank right.tags) = .lt) : byRank compare left right = .lt := by
  unfold byRank
  rw [h]
  rfl

theorem place_isLE_of_byRank {compare : String → String → Ordering} {left right : TagGroupView}
    (h : (byRank compare left right).isLE = true) :
    (place (rank left.tags) (rank right.tags)).isLE = true := by
  unfold byRank at h
  rw [StrictWeakOn.isLE_then] at h
  rcases h with h | ⟨h, -⟩ <;> rw [h] <;> rfl

/-- Where everything in one group stands before everything in another, the first one ranks
before it. -/
theorem rank_lt {left right : List TagSnapshot} (hleft : left ≠ []) (hright : right ≠ [])
    (h : ∀ a ∈ left, ∀ b ∈ right, place a.order b.order = .lt) :
    place (rank left) (rank right) = .lt := by
  have hplaced : ∀ a ∈ left, ∃ p, a.order = some p := by
    intro a ha
    obtain ⟨b, hb⟩ := List.exists_mem_of_ne_nil _ hright
    have hlt := h a ha b hb
    cases horder : a.order with
    | some p => exact ⟨p, rfl⟩
    | none =>
      rw [horder] at hlt
      cases hb' : b.order <;> rw [hb'] at hlt <;> cases hlt
  cases hrank : rank left with
  | none =>
    obtain ⟨a, ha⟩ := List.exists_mem_of_ne_nil _ hleft
    obtain ⟨p, hp⟩ := hplaced a ha
    have hnil := List.min?_eq_none_iff.mp hrank
    rw [List.filterMap_eq_nil_iff] at hnil
    have hnone : a.order = none := hnil a ha
    rw [hp] at hnone
    cases hnone
  | some p =>
    obtain ⟨⟨a, ha, hp⟩, -⟩ := lowest_eq_some_iff.mp hrank
    cases hrank' : rank right with
    | none => rfl
    | some q =>
      obtain ⟨⟨b, hb, hq⟩, -⟩ := lowest_eq_some_iff.mp hrank'
      exact hp ▸ hq ▸ h a ha b hb

/-! ## After some writes -/

abbrev written (writes : List Placement) : TagSnapshot → TagSnapshot := arrangedTags.written writes

/-- A section whose tags have been written to. -/
def writtenView (writes : List Placement) (group : TagGroupView) : TagGroupView :=
  { group with tags := group.tags.map (written writes) }

theorem runCommands_orderCommands (writes : List Placement) (tags : List TagSnapshot) :
    runCommands (orderCommands writes) tags = tags.map (written writes) := by
  unfold runCommands
  refine List.map_congr_left fun tag _ => ?_
  unfold orderCommands written Arranged.written
  rw [List.foldl_map]
  rfl

@[simp] theorem tagGroup_written (writes : List Placement) (tag : TagSnapshot) :
    tagGroup (written writes tag) = tagGroup tag := by
  have hgroup : (written writes tag).group = tag.group :=
    arrangedTags.written_keeps (fun _ _ => rfl) writes tag
  unfold tagGroup
  rw [hgroup]

@[simp] theorem id_written (writes : List Placement) (tag : TagSnapshot) :
    (written writes tag).id = tag.id :=
  arrangedTags.written_keeps arrangedTags.id_setOrder writes tag

theorem members_map_written (writes : List Placement) (tags : List TagSnapshot)
    (group : Option String) :
    members (tags.map (written writes)) group = (members tags group).map (written writes) := by
  unfold members
  rw [List.filter_map]
  congr 2
  funext tag
  simp

theorem groupNames_map_written (writes : List Placement) (tags : List TagSnapshot) :
    groupNames (tags.map (written writes)) = groupNames tags := by
  unfold groupNames
  rw [List.filterMap_map]
  congr 1
  refine List.filterMap_congr fun tag _ => ?_
  exact tagGroup_written writes tag

section
variable {compare : String → String → Ordering} (hcompare : StrictWeakOn (fun _ => True) compare)
include hcompare

/-- A section keeps its order where its tags are placed anew in it, or not written to. -/
theorem view_map_written {tags : List TagSnapshot} (hids : (tags.map TagSnapshot.id).Nodup)
    {writes : List Placement} {group : Option String}
    (h : (view compare tags group).tags.Pairwise fun a b =>
      place (written writes a).order (written writes b).order = .lt ∨
        (written writes a = a ∧ written writes b = b)) :
    view compare (tags.map (written writes)) group =
      writtenView writes (view compare tags group) := by
  unfold writtenView view
  rw [members_map_written]
  congr 1
  have hids' : ((members tags group).map TagSnapshot.id).Nodup :=
    hids.sublist (List.filter_sublist.map _)
  refine Collections.sortBy_map_eq (weak_byOrder hcompare) (weak_byOrder hcompare)
    (arrangedTags.nodup_map_written hids' _) (Collections.sortBy_perm _ _) ?_
  refine (h.and (Collections.pairwise_precedes _)).imp fun {a b} hab => ?_
  rcases hab with ⟨hlt | ⟨ha, hb⟩, hprecedes⟩
  · exact .inl (arrangedTags.byPlace_lt hlt)
  · refine .inr ⟨?_, hprecedes⟩
    show byOrder compare (written writes a) (written writes b) = _
    rw [ha, hb]

/-- The groups sort as they are asked to, where writes keep the order in each. -/
theorem groupedTags_map_written {tags : List TagSnapshot} (hids : (tags.map TagSnapshot.id).Nodup)
    {writes : List Placement} {groups : List TagGroupView}
    (hperm : groups.Perm (namedGroups compare tags))
    (hinside : ∀ group, (view compare tags group).tags.Pairwise fun a b =>
      place (written writes a).order (written writes b).order = .lt ∨
        (written writes a = a ∧ written writes b = b))
    (hgroups : groups.Pairwise fun a b =>
      byRank compare (writtenView writes a) (writtenView writes b) = .lt ∨
        byRank compare (writtenView writes a) (writtenView writes b) = byRank compare a b ∧
          Precedes (namedGroups compare tags) a b) :
    groupedTags compare (tags.map (written writes)) =
      groups.map (writtenView writes) ++ (ungrouped compare tags).map (writtenView writes) := by
  rw [groupedTags_eq]
  congr 1
  · unfold namedGroups
    rw [groupNames_map_written]
    have hviews : (groupNames tags).map (fun group =>
        view compare (tags.map (written writes)) (some group)) =
        ((groupNames tags).map fun group => view compare tags (some group)).map
          (writtenView writes) := by
      rw [List.map_map]
      exact List.map_congr_left fun group _ => view_map_written hcompare hids (hinside _)
    rw [hviews]
    refine Collections.sortBy_map_eq (weak_byRank hcompare) (weak_byRank hcompare) ?_
      (hperm.trans (Collections.sortBy_perm _ _)) hgroups
    refine List.Nodup.of_map TagGroupView.name ?_
    rw [List.map_map, List.map_map]
    exact (nodup_firsts _).map (Option.some_injective _)
  · unfold ungrouped
    rw [members_map_written]
    by_cases hnil : members tags none = []
    · rw [if_pos hnil, if_pos (by rw [hnil]; rfl)]
      rfl
    · rw [if_neg hnil, if_neg (by rwa [List.map_eq_nil_iff]), List.map_singleton,
        view_map_written hcompare hids (hinside none)]

end

/-! ## A group that is moved -/

/-- A tag that no write is for is not written to. -/
theorem written_outside {tags inside : List TagSnapshot} (hids : (tags.map TagSnapshot.id).Nodup)
    (hinside : ∀ tag ∈ inside, tag ∈ tags) {writes : List Placement}
    (hwrites : writes.map Placement.id = inside.map TagSnapshot.id) {tag : TagSnapshot}
    (htag : tag ∈ tags) (houtside : tag ∉ inside) : written writes tag = tag := by
  refine arrangedTags.written_of_not_mem fun hmem => houtside ?_
  rw [hwrites] at hmem
  obtain ⟨other, hother, hid⟩ := List.mem_map.mp hmem
  rwa [← List.inj_on_of_nodup_map hids (hinside other hother) htag hid]

theorem map_id_mapIdx {members : List TagSnapshot} {position : Nat → Rat} :
    (members.mapIdx fun index tag => (⟨tag.id, position index⟩ : Placement)).map Placement.id =
      members.map TagSnapshot.id := by
  rw [List.mapIdx_eq_zipIdx_map, List.map_map]
  conv_rhs => rw [← List.zipIdx_map_fst 0 members, List.map_map]
  rfl

/-- A group whose members get these positions ranks by one of them. -/
theorem rank_mapIdx {members : List TagSnapshot} (hids : (members.map TagSnapshot.id).Nodup)
    (hne : members ≠ []) {position : Nat → Rat} {writes : List Placement}
    (hwrites : writes = members.mapIdx fun index tag => ⟨tag.id, position index⟩) :
    ∃ index < members.length,
      rank (members.map (written writes)) = some (position index) := by
  have horder {i : Nat} (hi : i < members.length) :
      (written writes members[i]).order = some (position i) := by
    rw [hwrites]
    exact arrangedTags.order_written_mapIdx hids hi
  cases hrank : rank (members.map (written writes)) with
  | none =>
    have hnil := List.filterMap_eq_nil_iff.mp (List.min?_eq_none_iff.mp hrank)
    have hpos := List.length_pos_of_ne_nil hne
    have hnone := hnil _ (List.mem_map_of_mem (List.getElem_mem hpos))
    rw [horder hpos] at hnone
    cases hnone
  | some p =>
    obtain ⟨⟨tag, htag, hp⟩, -⟩ := lowest_eq_some_iff.mp hrank
    obtain ⟨other, hother, rfl⟩ := List.mem_map.mp htag
    obtain ⟨i, hi, rfl⟩ := List.getElem_of_mem hother
    exact ⟨i, hi, by rw [← hp, horder hi]⟩

section
variable {compare : String → String → Ordering} {tags : List TagSnapshot}

theorem nodup_names (compare : String → String → Ordering) (tags : List TagSnapshot) :
    ((namedGroups compare tags).map TagGroupView.name).Nodup := by
  have hperm := Collections.sortBy_perm (byRank compare)
    ((groupNames tags).map fun group => view compare tags (some group))
  refine (hperm.map TagGroupView.name).nodup_iff.mpr ?_
  rw [List.map_map]
  exact (nodup_firsts _).map (Option.some_injective _)

/-- A named group is the section of its name. -/
theorem view_of_mem {group : TagGroupView} (h : group ∈ namedGroups compare tags) :
    view compare tags group.name = group ∧ group.tags ≠ [] ∧
      ∀ tag, tag ∈ group.tags ↔ tag ∈ tags ∧ tagGroup tag = group.name := by
  obtain ⟨name, hname, rfl⟩ := (mem_namedGroups compare).mp h
  have hperm := Collections.sortBy_perm (byOrder compare) (members tags (some name))
  refine ⟨rfl, fun hnil => members_ne_nil hname ?_, fun tag => ?_⟩
  · exact List.perm_nil.mp (hnil ▸ hperm.symm)
  · exact hperm.mem_iff.trans mem_members

/-- The tags of a section are either all among those that are written to, or none is. -/
theorem inside_or_kept (hids : (tags.map TagSnapshot.id).Nodup) {groups : List TagGroupView}
    (hgroups : ∀ group ∈ groups, group ∈ namedGroups compare tags) {writes : List Placement}
    (hwrites : writes.map Placement.id = (groups.flatMap TagGroupView.tags).map TagSnapshot.id)
    (hinside : ∀ group ∈ groups, group.tags.Pairwise fun a b =>
      place (written writes a).order (written writes b).order = .lt)
    (group : Option String) :
    (view compare tags group).tags.Pairwise fun a b =>
      place (written writes a).order (written writes b).order = .lt ∨
        (written writes a = a ∧ written writes b = b) := by
  by_cases hmem : view compare tags group ∈ groups
  · exact (hinside _ hmem).imp .inl
  · have hkept : ∀ tag ∈ (view compare tags group).tags, written writes tag = tag := by
      intro tag htag
      obtain ⟨htags, hgroup⟩ := mem_members.mp ((Collections.sortBy_perm _ _).mem_iff.mp htag)
      refine written_outside hids (fun other hother => ?_) hwrites htags fun hin => hmem ?_
      · obtain ⟨g, hg, hother⟩ := List.mem_flatMap.mp hother
        exact ((view_of_mem (hgroups g hg)).2.2 other |>.mp hother).1
      · obtain ⟨g, hg, htag⟩ := List.mem_flatMap.mp hin
        obtain ⟨hview, -, hiff⟩ := view_of_mem (hgroups g hg)
        have hname : g.name = group := ((hiff tag).mp htag).2.symm.trans hgroup
        rwa [← hname, hview]
    exact List.Pairwise.imp_of_mem
      (fun ha hb _ => .inr ⟨hkept _ ha, hkept _ hb⟩) (Collections.pairwise_precedes _)

theorem nodup_ids_of_mem (hids : (tags.map TagSnapshot.id).Nodup) {group : TagGroupView}
    (h : group ∈ namedGroups compare tags) : (group.tags.map TagSnapshot.id).Nodup := by
  obtain ⟨name, -, rfl⟩ := (mem_namedGroups compare).mp h
  have hperm := Collections.sortBy_perm (byOrder compare) (members tags (some name))
  exact (hperm.map _).nodup_iff.mpr (hids.sublist (List.filter_sublist.map _))

/-- No tag is in two groups, and none is there twice. -/
theorem nodup_ids_flatMap (hids : (tags.map TagSnapshot.id).Nodup) {groups : List TagGroupView}
    (hperm : groups.Perm (namedGroups compare tags)) :
    ((groups.flatMap TagGroupView.tags).map TagSnapshot.id).Nodup := by
  have hmem {group : TagGroupView} (h : group ∈ groups) : group ∈ namedGroups compare tags :=
    hperm.mem_iff.mp h
  have hnames : (groups.map TagGroupView.name).Nodup :=
    (hperm.map _).nodup_iff.mpr (nodup_names compare tags)
  have hn : (groups.flatMap TagGroupView.tags).Nodup := by
    rw [List.nodup_flatMap]
    refine ⟨fun group hgroup => (nodup_ids_of_mem hids (hmem hgroup)).of_map, ?_⟩
    refine (List.pairwise_map.mp hnames).imp_of_mem fun {a b} ha hb hne tag htag htag' => hne ?_
    exact (((view_of_mem (hmem ha)).2.2 tag).mp htag).2.symm.trans
      (((view_of_mem (hmem hb)).2.2 tag).mp htag').2
  refine hn.map_on fun a ha b hb heq => ?_
  obtain ⟨g, hg, ha⟩ := List.mem_flatMap.mp ha
  obtain ⟨g', hg', hb⟩ := List.mem_flatMap.mp hb
  exact List.inj_on_of_nodup_map hids (((view_of_mem (hmem hg)).2.2 a).mp ha).1
    (((view_of_mem (hmem hg')).2.2 b).mp hb).1 heq

theorem positions_map {members : List TagSnapshot} {pick : List Rat → Option Rat} {p : Rat}
    (h : (positions (members.map arrangedTags.placed)).bind pick = some p) :
    pick (members.filterMap TagSnapshot.order) = some p := by
  obtain ⟨values, hvalues, hpick⟩ := Option.bind_eq_some_iff.mp h
  have heq := positions_eq hvalues
  rw [List.filterMap_map] at heq
  rw [← hpick, ← heq]
  rfl

/-- A group that no write of another group reaches is shown as it was. -/
theorem writtenView_other (hids : (tags.map TagSnapshot.id).Nodup) {moved group : TagGroupView}
    (hmoved : moved ∈ namedGroups compare tags) (hgroup : group ∈ namedGroups compare tags)
    (hname : group.name ≠ moved.name) {writes : List Placement}
    (hwrites : writes.map Placement.id = moved.tags.map TagSnapshot.id) :
    writtenView writes group = group := by
  have hsame : group.tags.map (written writes) = group.tags := by
    refine (List.map_congr_left fun tag htag => ?_).trans (List.map_id _)
    obtain ⟨htags, hin⟩ := ((view_of_mem hgroup).2.2 tag).mp htag
    refine written_outside hids (fun other hother => ?_) hwrites htags fun htag' => ?_
    · exact (((view_of_mem hmoved).2.2 other).mp hother).1
    · exact hname (hin.symm.trans (((view_of_mem hmoved).2.2 tag).mp htag').2)
  unfold writtenView
  rw [hsame]

/-- A group ranks no later than the greatest position in it. -/
theorem exists_rank_le {group : TagGroupView} {low : Rat}
    (h : (positions (group.tags.map arrangedTags.placed)).bind List.max? = some low) :
    ∃ p, rank group.tags = some p ∧ p ≤ low := by
  obtain ⟨hmem, hle⟩ := List.max?_eq_some_iff.mp (positions_map h)
  cases hmin : (group.tags.filterMap TagSnapshot.order).min? with
  | none =>
    rw [List.min?_eq_none_iff.mp hmin] at hmem
    cases hmem
  | some p => exact ⟨p, hmin, hle p (List.min?_eq_some_iff.mp hmin).1⟩

theorem strictMono_stride {low stride : Rat} (hstride : 0 < stride) :
    StrictMono fun offset : Nat => low + stride * (offset + 1) := by
  refine strictMono_nat_of_lt_succ fun offset => ?_
  push_cast
  linarith

theorem low_lt_stride {low stride : Rat} (hstride : 0 < stride) (offset : Nat) :
    low < low + stride * (offset + 1) := by
  have : 0 < stride * ((offset : Rat) + 1) := by positivity
  linarith

variable (hcompare : StrictWeakOn (fun _ => True) compare)
include hcompare

/-- All the tags of the groups respaced in the order of the groups: they are shown in that order. -/
theorem groupedTags_respace (hids : (tags.map TagSnapshot.id).Nodup) {groups : List TagGroupView}
    (hperm : groups.Perm (namedGroups compare tags)) {writes : List Placement}
    (hwrites : writes = respace ((groups.flatMap TagGroupView.tags).map arrangedTags.placed)) :
    groupedTags compare (tags.map (written writes)) =
      groups.map (writtenView writes) ++ (ungrouped compare tags).map (writtenView writes) := by
  have hpairs := arrangedTags.pairwise_written_respace (nodup_ids_flatMap hids hperm)
  rw [← hwrites, List.flatMap_def, List.pairwise_flatten, List.pairwise_map] at hpairs
  have hids' : writes.map Placement.id =
      (groups.flatMap TagGroupView.tags).map TagSnapshot.id := by
    rw [hwrites, arrangedTags.respace_map_placed]
    exact map_id_mapIdx
  have hfilled {group : TagGroupView} (h : group ∈ groups) :
      (writtenView writes group).tags ≠ [] := by
    simpa [writtenView] using (view_of_mem (hperm.mem_iff.mp h)).2.1
  refine groupedTags_map_written hcompare hids hperm
    (inside_or_kept hids (fun group hgroup => hperm.mem_iff.mp hgroup) hids'
      fun group hgroup => hpairs.1 _ (List.mem_map_of_mem hgroup)) ?_
  refine hpairs.2.imp_of_mem fun {a b} ha hb hab =>
    .inl (byRank_lt (rank_lt (hfilled ha) (hfilled hb) fun x hx y hy => ?_))
  obtain ⟨x', hx', rfl⟩ := List.mem_map.mp hx
  obtain ⟨y', hy', rfl⟩ := List.mem_map.mp hy
  exact hab x' hx' y' hy'

/-- Only the tags of the moved group written, between its neighbours: the group is shown between
them, and the others stay as they stood. -/
theorem groupedTags_between (hids : (tags.map TagSnapshot.id).Nodup) {moved : TagGroupView}
    (hmoved : moved ∈ namedGroups compare tags) {pre post : List TagGroupView}
    (hsplit : pre ++ post =
      (namedGroups compare tags).filter fun group => group.name ≠ moved.name)
    {writes : List Placement} {position : Nat → Rat} (hmono : StrictMono position)
    (hwrites : writes = moved.tags.mapIdx fun offset tag => ⟨tag.id, position offset⟩)
    (hprevious : ∀ group, pre.getLast? = some group →
      ∃ p, rank group.tags = some p ∧ ∀ offset, p < position offset)
    (hnext : ∀ group, post.head? = some group →
      ∃ q, rank group.tags = some q ∧ ∀ offset < moved.tags.length, position offset < q) :
    groupedTags compare (tags.map (written writes)) =
      (pre ++ moved :: post).map (writtenView writes) ++
        (ungrouped compare tags).map (writtenView writes) := by
  obtain ⟨-, hne, -⟩ := view_of_mem hmoved
  have hids' := nodup_ids_of_mem hids hmoved
  have hids'' : writes.map Placement.id = moved.tags.map TagSnapshot.id :=
    hwrites ▸ map_id_mapIdx
  obtain ⟨offset, hoffset, hrank⟩ := rank_mapIdx hids' hne hwrites
  have hstand : (pre ++ post).Pairwise (Precedes (namedGroups compare tags)) := by
    rw [hsplit]
    exact (Collections.pairwise_precedes _).imp fun hab => hab.trans List.filter_sublist
  have hkept : ∀ group ∈ pre ++ post, writtenView writes group = group := by
    intro group hgroup
    rw [hsplit] at hgroup
    obtain ⟨hgroup, hname⟩ := List.mem_filter.mp hgroup
    exact writtenView_other hids hmoved hgroup (of_decide_eq_true hname) hids''
  obtain ⟨hbefore, hbehind⟩ := place_moved hstand
    (fun hab => place_isLE_of_byRank (List.pairwise_iff_forall_sublist.mp
      (weak_byRank hcompare).pairwise_sortBy hab))
    (fun group hgroup => (hprevious group hgroup).imp fun _ h => ⟨h.1, h.2 offset⟩)
    (fun group hgroup => (hnext group hgroup).imp fun _ h => ⟨h.1, h.2 offset hoffset⟩)
  refine groupedTags_map_written hcompare hids (perm_of_split (nodup_names compare tags) hmoved
    hsplit) (inside_or_kept hids (fun group hgroup => List.mem_singleton.mp hgroup ▸ hmoved)
      (List.flatMap_singleton TagGroupView.tags moved ▸ hids'') fun group hgroup => ?_)
      (pairwise_moved hstand (fun a ha b hb hab => .inr ?_)
        (fun a ha => .inl (byRank_lt ?_)) fun b hb => .inl (byRank_lt ?_))
  · rw [List.mem_singleton.mp hgroup, hwrites]
    exact arrangedTags.pairwise_written_mapIdx hids' hmono
  · rw [hkept a ha, hkept b hb]
    exact ⟨rfl, hab⟩
  · rw [hkept a (List.mem_append_left _ ha)]
    unfold writtenView
    rw [hrank]
    exact hbefore a ha
  · rw [hkept b (List.mem_append_right _ hb)]
    unfold writtenView
    rw [hrank]
    exact hbehind b hb

/-- After a group has been moved the groups are shown where they were asked for, each with its
tags as they were. -/
theorem groupedTags_groupOrderWrites (hids : (tags.map TagSnapshot.id).Nodup)
    {moved : TagGroupView} (hmoved : moved ∈ namedGroups compare tags)
    {pre post : List TagGroupView}
    (hsplit : pre ++ post =
      (namedGroups compare tags).filter fun group => group.name ≠ moved.name) :
    groupedTags compare
        (tags.map (written (groupOrderWrites (pre ++ moved :: post) pre.length))) =
      (pre ++ moved :: post).map
          (writtenView (groupOrderWrites (pre ++ moved :: post) pre.length)) ++
        (ungrouped compare tags).map
          (writtenView (groupOrderWrites (pre ++ moved :: post) pre.length)) := by
  have hne : moved.tags.map arrangedTags.placed ≠ [] := by
    rw [Ne, List.map_eq_nil_iff]
    exact (view_of_mem hmoved).2.1
  have hcases := @runWrites_cases (pre.map fun group => group.tags.map arrangedTags.placed)
    (post.map fun group => group.tags.map arrangedTags.placed) _ hne
  have hruns : (pre.map fun group => group.tags.map arrangedTags.placed) ++
      moved.tags.map arrangedTags.placed :: (post.map fun group =>
        group.tags.map arrangedTags.placed) =
      (pre ++ moved :: post).map fun group => group.tags.map arrangedTags.placed := by
    rw [List.map_append, List.map_cons]
  rw [hruns, List.length_map] at hcases
  rcases hcases with heq | ⟨low, stride, hstride, heq, hprevious, hnext⟩
  · refine groupedTags_respace hcompare hids
      (perm_of_split (nodup_names compare tags) hmoved hsplit) ?_
    rw [List.map_flatMap]
    exact heq
  · refine groupedTags_between hcompare hids hmoved hsplit (strictMono_stride hstride)
      (heq.trans (arrangedTags.mapIdx_map_placed moved.tags _)) (fun group hgroup => ?_)
      fun group hgroup => ?_
    · obtain ⟨p, hrank, hle⟩ :=
        exists_rank_le (hprevious _ (by rw [List.getLast?_map, hgroup]; rfl))
      exact ⟨p, hrank, fun offset => lt_of_le_of_lt hle (low_lt_stride hstride offset)⟩
    · have hmin := positions_map (hnext _ (by rw [List.head?_map, hgroup]; rfl))
      refine ⟨_, hmin, fun offset hoffset => ?_⟩
      rw [List.length_map]
      exact strictMono_stride hstride hoffset

end

/-! ## A group that is dropped -/

theorem eraseIdx_eq_filter {γ ι : Type} [DecidableEq ι] {key : γ → ι} {l : List γ}
    (hkeys : (l.map key).Nodup) {index : Nat} {x : γ} (hx : l[index]? = some x) :
    l.eraseIdx index = l.filter fun a => key a ≠ key x := by
  induction l generalizing index with
  | nil => cases hx
  | cons a l ih =>
    obtain ⟨ha, hl⟩ := List.nodup_cons.mp hkeys
    cases index with
    | zero =>
      obtain rfl : a = x := Option.some.inj hx
      rw [List.eraseIdx_cons_zero, List.filter_cons_of_neg (by simp)]
      refine (List.filter_eq_self.mpr fun b hb => ?_).symm
      have hne : key b ≠ key a := fun heq => ha (heq ▸ List.mem_map_of_mem hb)
      exact decide_eq_true hne
    | succ index =>
      have hmem : x ∈ l := List.mem_of_getElem? hx
      have hne : key a ≠ key x := fun heq => ha (heq ▸ List.mem_map_of_mem hmem)
      rw [List.eraseIdx_cons_succ, ih hl hx]
      exact (List.filter_cons_of_pos (p := fun a => decide (key a ≠ key x))
        (decide_eq_true hne)).symm

theorem filter_groupedTags (compare : String → String → Ordering) (tags : List TagSnapshot) :
    (groupedTags compare tags).filter (fun group => group.name ≠ none) =
      namedGroups compare tags := by
  have hnamed : (namedGroups compare tags).filter (fun group => group.name ≠ none) =
      namedGroups compare tags := by
    refine List.filter_eq_self.mpr fun group hgroup => ?_
    obtain ⟨name, -, rfl⟩ := (mem_namedGroups compare).mp hgroup
    rfl
  have hungrouped : (ungrouped compare tags).filter (fun group => group.name ≠ none) = [] := by
    unfold ungrouped
    split <;> rfl
  rw [groupedTags_eq, List.filter_append, hnamed, hungrouped, List.append_nil]

/-- A group that is dropped asks for an order in which the others stand as they stood. -/
theorem placeGroup_cases (compare : String → String → Ordering) (tags : List TagSnapshot)
    (name : String) (index : Nat) :
    placeGroup (groupedTags compare tags) name index = [] ∨
      ∃ moved ∈ namedGroups compare tags, ∃ pre post : List TagGroupView,
        moved.name = some name ∧
        pre ++ post = (namedGroups compare tags).filter (fun group => group.name ≠ moved.name) ∧
        placeGroup (groupedTags compare tags) name index =
          orderCommands (groupOrderWrites (pre ++ moved :: post) pre.length) := by
  unfold placeGroup
  rw [filter_groupedTags]
  dsimp only
  cases hstart : (namedGroups compare tags).findIdx? fun group => group.name = some name with
  | none => exact .inl rfl
  | some start =>
    obtain ⟨hlt, hname, -⟩ := List.findIdx?_eq_some_iff_getElem.mp hstart
    have hmoved : (namedGroups compare tags)[start]? = some (namedGroups compare tags)[start] :=
      List.getElem?_eq_getElem hlt
    dsimp only
    rw [hmoved]
    generalize (namedGroups compare tags)[start] = moved at hmoved hname
    generalize hslot : min ((namedGroups compare tags).eraseIdx start).length
      (if index > start then index - 1 else index) = slot
    have hle : slot ≤ ((namedGroups compare tags).eraseIdx start).length :=
      hslot ▸ Nat.min_le_left _ _
    split
    · exact .inl rfl
    · refine .inr ⟨moved, List.mem_of_getElem? hmoved,
        ((namedGroups compare tags).eraseIdx start).take slot,
        ((namedGroups compare tags).eraseIdx start).drop slot, of_decide_eq_true hname, ?_, ?_⟩
      · rw [List.take_append_drop, eraseIdx_eq_filter (nodup_names compare tags) hmoved]
      · rw [List.length_take_of_le hle]

/-- It is shown where it was dropped. -/
theorem groupedTags_placeGroup {compare : String → String → Ordering}
    (hcompare : StrictWeakOn (fun _ => True) compare) {tags : List TagSnapshot}
    (hids : (tags.map TagSnapshot.id).Nodup) {name : String} {index : Nat}
    (hplaces : placeGroup (groupedTags compare tags) name index ≠ []) :
    ∃ moved ∈ namedGroups compare tags, ∃ (pre post : List TagGroupView) (writes : List Placement),
      moved.name = some name ∧
      pre ++ post = (namedGroups compare tags).filter (fun group => group.name ≠ moved.name) ∧
      groupedTags compare
          (runCommands (placeGroup (groupedTags compare tags) name index) tags) =
        (pre ++ moved :: post).map (writtenView writes) ++
          (ungrouped compare tags).map (writtenView writes) := by
  obtain ⟨moved, hmoved, pre, post, hname, hsplit, heq⟩ :=
    (placeGroup_cases compare tags name index).resolve_left hplaces
  refine ⟨moved, hmoved, pre, post, groupOrderWrites (pre ++ moved :: post) pre.length, hname,
    hsplit, ?_⟩
  rw [heq, runCommands_orderCommands]
  exact groupedTags_groupOrderWrites hcompare hids hmoved hsplit

end Neoseq.Entities
