import Neoseq.Entities.TagIdentity

/-! Tags that are filed: what a tag's new place leaves as it was. -/

namespace Neoseq.Entities

open Collections (Precedes StrictWeakOn sortBy)

theorem trim_of_clean {text : List Char} (hhead : text.head?.any isJsWhitespace = false)
    (hlast : EndsClean text) : trim text = text := by
  have hkeep {l : List Char} (h : l.head?.any isJsWhitespace = false) :
      l.dropWhile isJsWhitespace = l := by
    cases l with
    | nil => rfl
    | cons c l => rw [List.dropWhile_cons_of_neg (by simpa using h)]
  unfold trim
  rw [hkeep hhead, hkeep, List.reverse_reverse]
  rw [List.head?_reverse]
  cases hc : text.getLast? with
  | none => rfl
  | some c => simpa using hlast c hc

theorem trim_trim (text : List Char) : trim (trim text) = trim text :=
  trim_of_clean (head_trim text) (endsClean_trim text)

/-- The name of a group is the text that files a tag in it. -/
theorem tagGroup_of_name {tag filed : TagSnapshot} {group : String}
    (h : tagGroup tag = some group) (hfiled : filed.group = some group) :
    tagGroup filed = some group := by
  unfold tagGroup at h ⊢
  obtain ⟨hmap, hne⟩ := Option.filter_eq_some_iff.mp h
  obtain ⟨value, -, rfl⟩ := Option.map_eq_some_iff.mp hmap
  rw [hfiled, Option.map_some, String.toList_ofList, trim_trim]
  exact Option.filter_eq_some_iff.mpr ⟨rfl, hne⟩

theorem runCommands_append (commands commands' : List TagCommand) (tags : List TagSnapshot) :
    runCommands (commands ++ commands') tags =
      runCommands commands' (runCommands commands tags) := by
  unfold runCommands
  rw [List.map_map]
  refine List.map_congr_left fun tag _ => ?_
  rw [List.foldl_append]
  rfl

/-- Filing a tag changes its group, and no other tag. -/
theorem runCommands_filing {tags : List TagSnapshot} (hids : (tags.map TagSnapshot.id).Nodup)
    {tag : TagSnapshot} (htag : tag ∈ tags) {group : Option String}
    (hgroup : ∀ name, group = some name → name ∈ groupNames tags) :
    ∃ filed : TagSnapshot, filed.id = tag.id ∧ filed.order = tag.order ∧ tagGroup filed = group ∧
      runCommands (filing tag group) tags =
        tags.map fun other => if other.id = tag.id then filed else other := by
  have hsame {other : TagSnapshot} (hother : other ∈ tags) (hid : other.id = tag.id) :
      other = tag := List.inj_on_of_nodup_map hids hother htag hid
  unfold runCommands filing
  split
  · next heq =>
    refine ⟨tag, rfl, rfl, heq, List.map_congr_left fun other hother => ?_⟩
    split
    · next hid => rw [hsame hother hid]; rfl
    · rfl
  · cases group with
    | none =>
      refine ⟨{ tag with group := none }, rfl, rfl, rfl, List.map_congr_left fun other hother => ?_⟩
      by_cases hid : other.id = tag.id
      · rw [if_pos hid, hsame hother hid]
        simp [runCommand]
      · rw [if_neg hid]
        simp [runCommand, Ne.symm hid]
    | some name =>
      obtain ⟨member, -, hmember⟩ := mem_groupNames.mp (hgroup name rfl)
      refine ⟨{ tag with group := some name }, rfl, rfl, tagGroup_of_name hmember rfl,
        List.map_congr_left fun other hother => ?_⟩
      by_cases hid : other.id = tag.id
      · rw [if_pos hid, hsame hother hid]
        simp [runCommand]
      · rw [if_neg hid]
        simp [runCommand, Ne.symm hid]

theorem sectionOf_groupedTags (compare : String → String → Ordering) (tags : List TagSnapshot)
    (group : Option String) :
    sectionOf (groupedTags compare tags) group = (view compare tags group).tags := by
  have hnil (hempty : members tags group = []) : (view compare tags group).tags = [] := by
    unfold view
    rw [hempty]
    exact (Collections.sortBy_perm _ []).eq_nil
  have hfind {name : String} (hname : group = some name) (hmem : name ∈ groupNames tags) :
      (namedGroups compare tags).find? (fun item => item.name = group) =
        some (view compare tags group) := by
    have hview : view compare tags group ∈ namedGroups compare tags :=
      (mem_namedGroups compare).mpr ⟨name, hmem, by rw [hname]⟩
    cases hfound : (namedGroups compare tags).find? fun item => item.name = group with
    | none => simpa [view] using List.find?_eq_none.mp hfound _ hview
    | some found =>
      have hfound' := List.mem_of_find?_eq_some hfound
      have hname' : found.name = group := by simpa using List.find?_some hfound
      rw [← hname', (view_of_mem hfound').1]
  have hnone (hmem : ∀ name, group = some name → name ∉ groupNames tags) :
      (namedGroups compare tags).find? (fun item => item.name = group) = none := by
    rw [List.find?_eq_none]
    intro item hitem
    obtain ⟨name, hname, rfl⟩ := (mem_namedGroups compare).mp hitem
    intro heq
    exact hmem name (of_decide_eq_true heq).symm hname
  unfold sectionOf
  rw [groupedTags_eq, List.find?_append]
  cases group with
  | none =>
    rw [hnone nofun, Option.none_or]
    unfold ungrouped
    split
    · next hempty =>
      rw [hnil hempty]
      rfl
    · rfl
  | some name =>
    by_cases hmem : name ∈ groupNames tags
    · rw [hfind rfl hmem]
      rfl
    · rw [hnone fun other hother => Option.some.inj hother ▸ hmem, Option.none_or]
      have hempty : members tags (some name) = [] := by
        unfold members
        rw [List.filter_eq_nil_iff]
        intro other hother hgroup
        exact hmem (mem_groupNames.mpr ⟨other, hother, of_decide_eq_true hgroup⟩)
      rw [hnil hempty]
      unfold ungrouped
      split <;> simp [view]

/-- A tag in place of the one with its id. -/
def refiled (filed : TagSnapshot) (tags : List TagSnapshot) : List TagSnapshot :=
  tags.map fun other => if other.id = filed.id then filed else other

section
variable {tags : List TagSnapshot} {filed : TagSnapshot}

theorem map_id_refiled (filed : TagSnapshot) (tags : List TagSnapshot) :
    (refiled filed tags).map TagSnapshot.id = tags.map TagSnapshot.id := by
  unfold refiled
  rw [List.map_map]
  refine List.map_congr_left fun other _ => ?_
  dsimp only [Function.comp]
  split
  · next heq => exact heq.symm
  · rfl

/-- Apart from the tag the groups are as they were. -/
theorem filter_members_refiled (filed : TagSnapshot) (tags : List TagSnapshot)
    (group : Option String) :
    (members (refiled filed tags) group).filter (fun item => item.id ≠ filed.id) =
      (members tags group).filter fun item => item.id ≠ filed.id := by
  unfold members refiled
  rw [List.filter_filter, List.filter_filter, List.filter_map]
  have hsame : tags.filter ((fun other : TagSnapshot => decide (other.id ≠ filed.id) &&
        decide (tagGroup other = group)) ∘
          fun other => if other.id = filed.id then filed else other) = tags.filter fun other => decide (other.id ≠ filed.id) &&
        decide (tagGroup other = group) := by
    refine List.filter_congr fun other _ => ?_
    by_cases hid : other.id = filed.id <;> simp [hid]
  rw [hsame]
  refine (List.map_congr_left fun other hother => ?_).trans (List.map_id _)
  have hne : other.id ≠ filed.id := by
    have hand := (List.mem_filter.mp hother).2
    exact of_decide_eq_true (Bool.and_eq_true_iff.mp hand).1
  rw [if_neg hne]
  rfl

theorem members_refiled_of_ne (hids : (tags.map TagSnapshot.id).Nodup) {group : Option String}
    (hne : group ≠ tagGroup filed) (hfiled : filed ∈ refiled filed tags) :
    members (refiled filed tags) group =
      (members tags group).filter fun item => item.id ≠ filed.id := by
  rw [← filter_members_refiled]
  refine (List.filter_eq_self.mpr fun other hother => ?_).symm
  rw [decide_eq_true_iff]
  intro hid
  obtain ⟨hmem, hgroup⟩ := mem_members.mp hother
  refine hne ?_
  rw [← map_id_refiled filed] at hids
  rw [← hgroup, List.inj_on_of_nodup_map hids hmem hfiled hid]

end

section
variable {compare : String → String → Ordering} {tags : List TagSnapshot}

theorem mem_rearranged {tag : TagSnapshot} {group beforeId : Option String} {item : TagSnapshot}
    (h : item ∈ rearranged (groupedTags compare tags) tag group beforeId) :
    item = tag ∨ item ∈ members tags group := by
  unfold rearranged at h
  dsimp only at h
  rw [sectionOf_groupedTags] at h
  have hsection {other : TagSnapshot} (hother : other ∈ (view compare tags group).tags.filter
      fun item => item.id ≠ tag.id) : other ∈ members tags group :=
    (Collections.sortBy_perm _ _).mem_iff.mp (List.mem_filter.mp hother).1
  rcases List.mem_append.mp h with h | h
  · exact .inr (hsection (List.mem_of_mem_take h))
  · rcases List.mem_cons.mp h with h | h
    · exact .inl h
    · exact .inr (hsection (List.mem_of_mem_drop h))

variable (hcompare : StrictWeakOn (fun _ => True) compare)

/-- What a tag's new place does: its group is as it was asked for, and the others lack the tag at
most. -/
structure PlacedIn (compare : String → String → Ordering) (tags after : List TagSnapshot)
    (tag : TagSnapshot) (group beforeId : Option String) : Prop where
  section_eq : (sectionOf (groupedTags compare after) group).map TagSnapshot.id =
    (rearranged (groupedTags compare tags) tag group beforeId).map TagSnapshot.id
  members_eq : ∀ other, other ≠ group →
    members after other = (members tags other).filter fun item => item.id ≠ tag.id
  group_eq : ∀ item ∈ after, item.id = tag.id → tagGroup item = group
  tags_eq : after.map (fun item => (item.id, if item.id = tag.id then none else tagGroup item)) =
    tags.map fun item => (item.id, if item.id = tag.id then none else tagGroup item)

include hcompare

theorem placedIn_placeTag (hids : (tags.map TagSnapshot.id).Nodup) {tag : TagSnapshot}
    (htag : tag ∈ tags) {group : Option String}
    (hgroup : ∀ name, group = some name → name ∈ groupNames tags) (beforeId : Option String) :
    PlacedIn compare tags
      (runCommands (placeTag (groupedTags compare tags) tag group beforeId) tags) tag group
      beforeId := by
  obtain ⟨filed, hid, horder, hin, hfiling⟩ := runCommands_filing hids htag hgroup
  have hrefiled : runCommands (filing tag group) tags = refiled filed tags := by
    rw [hfiling, ← hid]
    rfl
  have hfiled : filed ∈ refiled filed tags :=
    List.mem_map.mpr ⟨tag, htag, if_pos hid.symm⟩
  unfold placeTag
  rw [runCommands_append, hrefiled, runCommands_orderCommands]
  obtain ⟨writes, hwrites⟩ : ∃ writes, writes =
      orderWrites (rearranged (groupedTags compare tags) tag group beforeId) tag.id := ⟨_, rfl⟩
  rw [← hwrites]
  have hids' : ((refiled filed tags).map TagSnapshot.id).Nodup := by rwa [map_id_refiled]
  have hidsIn : ((members (refiled filed tags) group).map TagSnapshot.id).Nodup :=
    hids'.sublist (List.filter_sublist.map _)
  have hsection : (sectionOf (groupedTags compare tags) group).filter
      (fun item => item.id ≠ tag.id) =
        (sortBy (byOrder compare) (members (refiled filed tags) group)).filter
          fun item => item.id ≠ filed.id := by
    rw [sectionOf_groupedTags, ← hid, (weak_byOrder hcompare).filter_sortBy hidsIn.of_map,
      filter_members_refiled]
    have hn : (members tags group).Nodup := hids.of_map.filter _
    exact (weak_byOrder hcompare).filter_sortBy hn _
  obtain ⟨pre, post, hsplit, hrearranged⟩ : ∃ pre post : List TagSnapshot,
      pre ++ post = (sortBy (byOrder compare) (members (refiled filed tags) group)).filter
        (fun item => item.id ≠ filed.id) ∧
      rearranged (groupedTags compare tags) tag group beforeId = pre ++ tag :: post := by
    refine ⟨_, _, ?_, rfl⟩
    rw [List.take_append_drop]
    exact hsection
  have hplaced : (pre ++ tag :: post).map arrangedTags.placed =
      (pre ++ filed :: post).map arrangedTags.placed := by
    have hsame : arrangedTags.placed tag = arrangedTags.placed filed := by
      show (⟨tag.id, tag.order⟩ : Placed) = ⟨filed.id, filed.order⟩
      rw [hid, horder]
    rw [List.map_append, List.map_append, List.map_cons, List.map_cons, hsame]
  have hmoved : sortBy (byOrder compare) ((members (refiled filed tags) group).map
      (written writes)) = (pre ++ filed :: post).map (written writes) := by
    rw [hwrites, hrearranged]
    unfold orderWrites
    rw [hplaced, ← hid]
    exact arrangedTags.sortBy_moveWrites hcompare hidsIn (mem_members.mpr ⟨hfiled, hin⟩) hsplit
  refine ⟨?_, fun other hne => ?_, fun item hitem hitemId => ?_, ?_⟩
  · rw [sectionOf_groupedTags, hrearranged]
    unfold view
    rw [members_map_written, hmoved, List.map_map, List.map_append, List.map_append, List.map_cons,
      List.map_cons]
    simp [Function.comp_def, hid]
  · rw [members_map_written, members_refiled_of_ne hids (hin ▸ hne) hfiled, ← hid]
    refine (List.map_congr_left fun item hitem => ?_).trans (List.map_id _)
    refine arrangedTags.written_of_not_mem fun hmem => ?_
    obtain ⟨write, hwrite, hwriteId⟩ := List.mem_map.mp hmem
    obtain ⟨hmember, hneId⟩ := List.mem_filter.mp hitem
    rw [decide_eq_true_iff] at hneId
    obtain ⟨htags, hother⟩ := mem_members.mp hmember
    rw [hwrites] at hwrite
    obtain ⟨place, hplace, hplaceId⟩ := List.mem_map.mp (mem_id_moveWrites hwrite)
    obtain ⟨found, hfound, rfl⟩ := List.mem_map.mp hplace
    have hfoundId : found.id = item.id := hplaceId.trans hwriteId
    rcases mem_rearranged hfound with rfl | hfound
    · exact hneId (hid ▸ hfoundId.symm)
    · obtain ⟨hfoundTags, hfoundGroup⟩ := mem_members.mp hfound
      rw [List.inj_on_of_nodup_map hids hfoundTags htags hfoundId] at hfoundGroup
      exact hne (hother.symm.trans hfoundGroup)
  · obtain ⟨other, hother, rfl⟩ := List.mem_map.mp hitem
    rw [id_written] at hitemId
    rw [tagGroup_written,
      List.inj_on_of_nodup_map hids' hother hfiled (hitemId.trans hid.symm), hin]
  · rw [List.map_map]
    unfold refiled
    rw [List.map_map]
    refine List.map_congr_left fun other _ => ?_
    dsimp only [Function.comp]
    rw [id_written, tagGroup_written]
    by_cases heq : other.id = filed.id
    · rw [if_pos heq, if_pos hid, if_pos (heq.trans hid), heq]
    · rw [if_neg heq]

end

section
variable {compare : String → String → Ordering} {tags after : List TagSnapshot} {tag : TagSnapshot}
  {group beforeId : Option String} (hids : (tags.map TagSnapshot.id).Nodup) (htag : tag ∈ tags)
  (h : PlacedIn compare tags after tag group beforeId)
include hids htag h

/-- A group that the tag neither leaves nor enters has the tags it had. -/
theorem PlacedIn.members_same {other : Option String} (hgroup : other ≠ group)
    (hsource : other ≠ tagGroup tag) : members after other = members tags other := by
  rw [h.members_eq other hgroup]
  refine List.filter_eq_self.mpr fun item hitem => ?_
  rw [decide_eq_true_iff]
  intro hid
  obtain ⟨hmem, hin⟩ := mem_members.mp hitem
  refine hsource ?_
  rw [← hin, List.inj_on_of_nodup_map hids hmem htag hid]

/-- Only the group that the tag leaves and the one that it enters can rank otherwise. -/
theorem PlacedIn.rank_same {name : String}
    (hranks : some name ∈ [group, tagGroup tag] →
      rank (members after (some name)) = rank (members tags (some name))) :
    rank (members after (some name)) = rank (members tags (some name)) := by
  by_cases hmem : some name ∈ [group, tagGroup tag]
  · exact hranks hmem
  · simp only [List.mem_cons, List.not_mem_nil, or_false, not_or] at hmem
    rw [h.members_same hids htag hmem.1 hmem.2]

theorem PlacedIn.groupNames_same {p : String → Bool}
    (hgroup : ∀ name, p name = true → some name ≠ group)
    (hsource : ∀ name, p name = true → some name ≠ tagGroup tag) :
    (groupNames after).filter p = (groupNames tags).filter p := by
  have hmasked {l : List TagSnapshot} (hl : ∀ item ∈ l, item.id = tag.id →
      tagGroup item = group ∨ tagGroup item = tagGroup tag) :
      (l.filterMap tagGroup).filter p =
        (l.map fun item => (item.id, if item.id = tag.id then none else tagGroup item)).filterMap
          fun entry => entry.2.filter p := by
    rw [List.filter_filterMap, List.filterMap_map]
    refine List.filterMap_congr fun item hitem => ?_
    dsimp only [Function.comp]
    by_cases hid : item.id = tag.id
    · rw [if_pos hid, Option.filter_none, Option.filter_eq_none_iff]
      intro name hname hp
      rcases hl item hitem hid with hin | hin
      · exact hgroup name hp (hname.symm.trans hin)
      · exact hsource name hp (hname.symm.trans hin)
    · rw [if_neg hid]
  unfold groupNames
  rw [filter_firsts, filter_firsts, hmasked fun item hitem hid => .inl (h.group_eq item hitem hid),
    h.tags_eq, ← hmasked fun item hitem hid => .inr ?_]
  rw [List.inj_on_of_nodup_map hids hitem htag hid]

end

section
variable {compare : String → String → Ordering} (hcompare : StrictWeakOn (fun _ => True) compare)
  {tags after : List TagSnapshot} {tag : TagSnapshot} {group beforeId : Option String}
  (hids : (tags.map TagSnapshot.id).Nodup) (h : PlacedIn compare tags after tag group beforeId)
include hcompare hids h

/-- In every group the other tags stand as they stood. -/
theorem PlacedIn.others_eq (other : Option String) :
    ((sectionOf (groupedTags compare after) other).map TagSnapshot.id).filter (· ≠ tag.id) =
      ((sectionOf (groupedTags compare tags) other).map TagSnapshot.id).filter (· ≠ tag.id) := by
  by_cases hother : other = group
  · rw [hother, h.section_eq]
    unfold rearranged
    dsimp only
    generalize hmembers : (sectionOf (groupedTags compare tags) group).filter
      (fun item => item.id ≠ tag.id) = members
    have hkept : (members.map TagSnapshot.id).filter (· ≠ tag.id) = members.map TagSnapshot.id := by
      refine List.filter_eq_self.mpr fun id hid => ?_
      obtain ⟨item, hitem, rfl⟩ := List.mem_map.mp hid
      rw [← hmembers] at hitem
      exact (List.mem_filter.mp hitem).2
    have hsection : ((sectionOf (groupedTags compare tags) group).map TagSnapshot.id).filter
        (· ≠ tag.id) = members.map TagSnapshot.id := by
      rw [List.filter_map, ← hmembers]
      rfl
    rw [hsection, ← hkept, List.map_append, List.map_cons, List.filter_append,
      List.filter_cons_of_neg (by simp), ← List.filter_append, ← List.map_append,
      List.take_append_drop]
  · rw [sectionOf_groupedTags, sectionOf_groupedTags]
    unfold view
    have hn : (members tags other).Nodup := hids.of_map.filter _
    rw [h.members_eq other hother, ← (weak_byOrder hcompare).filter_sortBy hn, List.filter_map,
      List.filter_map, List.filter_filter]
    congr 2
    funext item
    simp

variable (htag : tag ∈ tags)
include htag

/-- The other groups are shown in the order they were shown in. -/
theorem PlacedIn.names_same :
    ((groupedTags compare after).map TagGroupView.name).filter
        (fun name => name ≠ group ∧ name ≠ tagGroup tag) =
      ((groupedTags compare tags).map TagGroupView.name).filter
        fun name => name ≠ group ∧ name ≠ tagGroup tag := by
  have hnamed (l : List TagSnapshot) :
      ((namedGroups compare l).map TagGroupView.name).filter
          (fun name => decide (name ≠ group ∧ name ≠ tagGroup tag)) =
        (sortBy (byRank compare) (((groupNames l).filter fun name =>
          decide (some name ≠ group ∧ some name ≠ tagGroup tag)).map fun name =>
            view compare l (some name))).map TagGroupView.name := by
    have hn : ((groupNames l).map fun name => view compare l (some name)).Nodup := by
      refine List.Nodup.of_map TagGroupView.name ?_
      rw [List.map_map]
      exact (nodup_firsts _).map (Option.some_injective _)
    unfold namedGroups
    rw [List.filter_map, (weak_byRank hcompare).filter_sortBy hn, List.filter_map]
    rfl
  have hviews : (((groupNames after).filter fun name =>
      decide (some name ≠ group ∧ some name ≠ tagGroup tag)).map fun name =>
        view compare after (some name)) =
      ((groupNames tags).filter fun name =>
        decide (some name ≠ group ∧ some name ≠ tagGroup tag)).map fun name =>
          view compare tags (some name) := by
    rw [h.groupNames_same hids htag (fun name hname => (of_decide_eq_true hname).1)
      fun name hname => (of_decide_eq_true hname).2]
    refine List.map_congr_left fun name hname => ?_
    obtain ⟨hgroup, hsource⟩ := of_decide_eq_true (List.mem_filter.mp hname).2
    unfold view
    rw [h.members_same hids htag hgroup hsource]
  have hungrouped : ((ungrouped compare after).map TagGroupView.name).filter
      (fun name => decide (name ≠ group ∧ name ≠ tagGroup tag)) =
      ((ungrouped compare tags).map TagGroupView.name).filter
        fun name => decide (name ≠ group ∧ name ≠ tagGroup tag) := by
    by_cases hnone : none ≠ group ∧ none ≠ tagGroup tag
    · unfold ungrouped
      rw [h.members_same hids htag hnone.1 hnone.2]
      split <;> rfl
    · have hempty (l : List TagSnapshot) : ((ungrouped compare l).map TagGroupView.name).filter
          (fun name => decide (name ≠ group ∧ name ≠ tagGroup tag)) = [] := by
        unfold ungrouped
        split
        · rfl
        · rw [List.map_singleton]
          exact List.filter_cons_of_neg fun hname => hnone (of_decide_eq_true hname)
      rw [hempty, hempty]
  rw [groupedTags_eq, groupedTags_eq, List.map_append, List.map_append, List.filter_append,
    List.filter_append, hungrouped, hnamed, hnamed, hviews]

end

/-- A group that ranks before another one is shown before it. -/
theorem precedes_of_byRank {compare : String → String → Ordering}
    (hcompare : StrictWeakOn (fun _ => True) compare) {tags : List TagSnapshot}
    {left right : String}
    (hleft : left ∈ groupNames tags) (hright : right ∈ groupNames tags)
    (hlt : byRank compare (view compare tags (some left)) (view compare tags (some right)) = .lt) :
    Precedes ((groupedTags compare tags).map TagGroupView.name) (some left) (some right) := by
  have hweak : StrictWeakOn (fun _ => True) (byRank compare) :=
    (weak_place fun group : TagGroupView => rank group.tags).andThen
      (hcompare.comap fun group : TagGroupView => group.name.getD "")
  have hmem := (mem_namedGroups compare).mpr ⟨left, hleft, rfl⟩
  have hmem' := (mem_namedGroups compare).mpr ⟨right, hright, rfl⟩
  have hne : view compare tags (some left) ≠ view compare tags (some right) := by
    intro heq
    rw [heq, hweak.refl trivial] at hlt
    cases hlt
  have hprecedes := (Collections.precedes_or hmem hmem' hne).resolve_right fun hback => by
    have hle := List.pairwise_iff_forall_sublist.mp (weak_byRank hcompare).pairwise_sortBy hback
    rw [(hweak.lt_iff_gt trivial trivial).mp hlt] at hle
    cases hle
  rw [groupedTags_eq, List.map_append]
  exact (hprecedes.map TagGroupView.name).trans (List.sublist_append_left _ _)

/-- Moving an item, moving a group and filing a tag do what was asked for. Only the group that a tag
leaves may move among the others, to where the lowest position that is left in it puts it. -/
theorem moves_what_was_dragged {compare : String → String → Ordering}
    (hcompare : StrictWeakOn (fun _ => True) compare) :
    (∀ (α : Type) (A : Arranged α) (items : List α), (items.map A.id).Nodup →
      ∀ x ∈ items, ∀ pre post : List α,
      pre ++ post = (sortBy (A.byPlace compare) items).filter (fun a => A.id a ≠ A.id x) →
      sortBy (A.byPlace compare)
          (items.map (A.written (moveWrites ((pre ++ x :: post).map A.placed) (A.id x)))) =
        (pre ++ x :: post).map
          (A.written (moveWrites ((pre ++ x :: post).map A.placed) (A.id x)))) ∧
    (∀ tags : List TagSnapshot, (tags.map TagSnapshot.id).Nodup →
      ∀ moved ∈ namedGroups compare tags, ∀ pre post : List TagGroupView,
      pre ++ post = (namedGroups compare tags).filter (fun group => group.name ≠ moved.name) →
      groupedTags compare
          (tags.map (written (groupOrderWrites (pre ++ moved :: post) pre.length))) =
        (pre ++ moved :: post).map
            (writtenView (groupOrderWrites (pre ++ moved :: post) pre.length)) ++
          (ungrouped compare tags).map
            (writtenView (groupOrderWrites (pre ++ moved :: post) pre.length))) ∧
    ∀ tags : List TagSnapshot, (tags.map TagSnapshot.id).Nodup →
      ∀ tag ∈ tags, ∀ group : Option String,
      (∀ name, group = some name → name ∈ groupNames tags) → ∀ beforeId : Option String,
      let after := runCommands (placeTag (groupedTags compare tags) tag group beforeId) tags
      (∀ other, ((sectionOf (groupedTags compare after) other).map TagSnapshot.id).filter
          (· ≠ tag.id) =
        ((sectionOf (groupedTags compare tags) other).map TagSnapshot.id).filter (· ≠ tag.id)) ∧
      ((groupedTags compare after).map TagGroupView.name).filter
          (fun name => name ≠ group ∧ name ≠ tagGroup tag) =
        ((groupedTags compare tags).map TagGroupView.name).filter
          (fun name => name ≠ group ∧ name ≠ tagGroup tag) ∧
      (∀ left ∈ groupNames tags, ∀ right ∈ groupNames tags,
        left ∈ groupNames after → right ∈ groupNames after →
        (∀ name ∈ [left, right], some name ∈ [group, tagGroup tag] →
          rank (members after (some name)) = rank (members tags (some name))) →
        byRank compare (view compare tags (some left)) (view compare tags (some right)) = .lt →
        Precedes ((groupedTags compare tags).map TagGroupView.name) (some left) (some right) ∧
          Precedes ((groupedTags compare after).map TagGroupView.name)
            (some left) (some right)) ∧
      (∀ other, other ≠ group →
        members after other = (members tags other).filter fun item => item.id ≠ tag.id) ∧
      ∀ left ∈ groupNames after, ∀ right ∈ groupNames after,
        byRank compare (view compare after (some left)) (view compare after (some right)) = .lt →
        Precedes ((groupedTags compare after).map TagGroupView.name) (some left) (some right) := by
  refine ⟨fun α A items hids x hx pre post hsplit => A.sortBy_moveWrites hcompare hids hx hsplit,
    fun tags hids moved hmoved pre post hsplit =>
      groupedTags_groupOrderWrites hcompare hids hmoved hsplit,
    fun tags hids tag htag group hgroup beforeId => ?_⟩
  intro after
  have hplaced : PlacedIn compare tags after tag group beforeId :=
    placedIn_placeTag hcompare hids htag hgroup beforeId
  refine ⟨hplaced.others_eq hcompare hids, hplaced.names_same hcompare hids htag,
    fun left hleft right hright hleft' hright' hranks hlt => ⟨?_, ?_⟩, hplaced.members_eq,
    fun left hleft right hright hlt => precedes_of_byRank hcompare hleft hright hlt⟩
  · exact precedes_of_byRank hcompare hleft hright hlt
  · refine precedes_of_byRank hcompare hleft' hright' ?_
    unfold byRank at hlt ⊢
    rw [rank_view, rank_view] at hlt ⊢
    rw [hplaced.rank_same hids htag (hranks left (by simp)),
      hplaced.rank_same hids htag (hranks right (by simp))]
    exact hlt

theorem nodup_sections (compare : String → String → Ordering) (tags : List TagSnapshot) :
    ((groupedTags compare tags).map TagGroupView.name).Nodup := by
  have hnone : none ∉ (namedGroups compare tags).map TagGroupView.name := by
    intro hmem
    obtain ⟨group, hgroup, hname⟩ := List.mem_map.mp hmem
    obtain ⟨name, -, rfl⟩ := (mem_namedGroups compare).mp hgroup
    cases hname
  rw [groupedTags_eq, List.map_append]
  unfold ungrouped
  split
  · rw [List.map_nil, List.append_nil]
    exact nodup_names compare tags
  · refine List.nodup_append.mpr ⟨nodup_names compare tags, List.nodup_singleton _, ?_⟩
    intro a ha b hb
    rw [List.mem_singleton.mp hb]
    rintro (heq : a = none)
    exact hnone (heq ▸ ha)

/-- Names by their characters. -/
def byText (left right : String) : Ordering := cmp left right

theorem weak_byText : StrictWeakOn (fun _ => True) byText :=
  (Collections.weak_compare id).congr fun left right _ _ => cmp_eq_compare left right

def filedTag : TagSnapshot := ⟨"x", "x", some "A", some 0⟩

/-- Two tags in a first group, one in each of two others. -/
def filedTags : List TagSnapshot :=
  [filedTag, ⟨"a", "a", some "A", some 2000⟩, ⟨"c", "c", some "C", some 1000⟩,
    ⟨"b", "b", some "B", some 5000⟩]

theorem section_filedTags : sectionOf (groupedTags byText filedTags) (some "B") =
    [⟨"b", "b", some "B", some 5000⟩] := by
  have hmembers : members filedTags (some "B") = [⟨"b", "b", some "B", some 5000⟩] := by
    decide +kernel
  rw [sectionOf_groupedTags]
  unfold view
  rw [hmembers]
  exact List.mergeSort_singleton _

/-- The tag with the lowest position of its group is filed. -/
theorem filed_lowest :
    runCommands (placeTag (groupedTags byText filedTags) filedTag (some "B") none) filedTags =
      [⟨"x", "x", some "B", some 6024⟩, ⟨"a", "a", some "A", some 2000⟩,
        ⟨"c", "c", some "C", some 1000⟩, ⟨"b", "b", some "B", some 5000⟩] := by
  unfold placeTag rearranged
  rw [section_filedTags]
  decide +kernel

/-- Another tag of its group is. -/
theorem filed_other :
    runCommands (placeTag (groupedTags byText filedTags) ⟨"a", "a", some "A", some 2000⟩
        (some "B") none) filedTags =
      [filedTag, ⟨"a", "a", some "B", some 6024⟩, ⟨"c", "c", some "C", some 1000⟩,
        ⟨"b", "b", some "B", some 5000⟩] := by
  unfold placeTag rearranged
  rw [section_filedTags]
  decide +kernel

/-- The group stays before a third one while its lowest position is left in it, and moves behind
it once that has gone. -/
theorem moves_filedTags :
    (Precedes ((groupedTags byText filedTags).map TagGroupView.name) (some "A") (some "C") ∧
      Precedes ((groupedTags byText (runCommands (placeTag (groupedTags byText filedTags)
        ⟨"a", "a", some "A", some 2000⟩ (some "B") none) filedTags)).map TagGroupView.name)
          (some "A") (some "C")) ∧
    ((groupedTags byText (runCommands (placeTag (groupedTags byText filedTags) filedTag (some "B")
      none) filedTags)).map TagGroupView.name).filter
        (fun name => name ≠ some "B" ∧ name ≠ tagGroup filedTag) =
      ((groupedTags byText filedTags).map TagGroupView.name).filter
        (fun name => name ≠ some "B" ∧ name ≠ tagGroup filedTag) ∧
    Precedes ((groupedTags byText (runCommands (placeTag (groupedTags byText filedTags)
      filedTag (some "B") none) filedTags)).map TagGroupView.name) (some "C") (some "A") := by
  have hgroup (name : String) (hname : some "B" = some name) : name ∈ groupNames filedTags :=
    Option.some.inj hname ▸ by decide +kernel
  have hother := ((moves_what_was_dragged weak_byText).2.2 filedTags (by decide)
    ⟨"a", "a", some "A", some 2000⟩ (by decide +kernel) (some "B") hgroup none).2.2.1
  have hlowest := ((moves_what_was_dragged weak_byText).2.2 filedTags (by decide) filedTag
    List.mem_cons_self (some "B") hgroup none).2
  rw [filed_other] at hother ⊢
  rw [filed_lowest] at hlowest ⊢
  refine ⟨hother "A" (by decide +kernel) "C" (by decide +kernel) (by decide +kernel)
    (by decide +kernel) (by decide +kernel) (byRank_lt ?_), hlowest.1,
    hlowest.2.2.2 "C" (by decide +kernel) "A" (by decide +kernel) (byRank_lt ?_)⟩ <;>
  · rw [rank_view, rank_view]
    decide +kernel

/-- The tag with the lowest position of its group is filed in another one: its group moves behind
a third. -/
theorem filing_moves_source :
    ((groupedTags byText (runCommands (placeTag (groupedTags byText filedTags) filedTag (some "B")
      none) filedTags)).map TagGroupView.name).filter (· ≠ some "B") ≠
      ((groupedTags byText filedTags).map TagGroupView.name).filter (· ≠ some "B") := by
  rw [filed_lowest]
  intro heq
  have hbefore : Precedes ((groupedTags byText filedTags).map TagGroupView.name)
      (some "A") (some "C") := by
    refine precedes_of_byRank weak_byText (by decide +kernel) (by decide +kernel) (byRank_lt ?_)
    rw [rank_view, rank_view]
    decide +kernel
  have hbehind : Precedes ((groupedTags byText [⟨"x", "x", some "B", some 6024⟩,
      ⟨"a", "a", some "A", some 2000⟩, ⟨"c", "c", some "C", some 1000⟩,
      ⟨"b", "b", some "B", some 5000⟩]).map TagGroupView.name) (some "C") (some "A") := by
    refine precedes_of_byRank weak_byText (by decide +kernel) (by decide +kernel) (byRank_lt ?_)
    rw [rank_view, rank_view]
    decide +kernel
  have hkept := List.Sublist.filter (· ≠ some "B") hbefore
  have hkept' := List.Sublist.filter (· ≠ some "B") hbehind
  rw [heq] at hkept'
  exact Precedes.asymm ((nodup_sections byText filedTags).filter _) hkept hkept'

end Neoseq.Entities
