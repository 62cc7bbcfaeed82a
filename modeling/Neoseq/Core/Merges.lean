import Neoseq.Core.Outlines
import Neoseq.Forest.Spine
import Neoseq.Outline.Represents

/-! Backward merges. The plan finds the line above a block, and applying it puts the text of the
block after the text of that line and the children of the block after its children. -/

namespace Neoseq.Core
open Domain Document Collections Content Forest

variable {owner : OutlineOwner} {d : GraphDoc} {record : Record} {b x : BlockId}

/-! ## The line above -/

/-- `s` comes right before `b` in a row. -/
def PreviousSibling (f : Forest BlockId) (s b : BlockId) : Prop :=
  ∃ p l r, row p f = some (l ++ s :: b :: r)

/-- The previous sibling, or what is requested of the last children below it. -/
def LineAbove (f : Forest BlockId) (b : BlockId) (requested : Option BlockId)
    (target : BlockId) : Prop :=
  ∃ previous, PreviousSibling f previous b ∧
    match requested with
    | none => target = previous
    | some block => target = block ∧ Relation.ReflTransGen (LastChild f) previous block

/-- The loop of `plan_merge_block_backward` from `target` on, with what it ends in. -/
inductive LineWalk (before : Outline.OutlineState BlockId) (requested : BlockId) :
    BlockId → Except CoreError BlockId → Prop where
  | found : LineWalk before requested requested (.ok requested)
  | down {target next : BlockId} {result : Except CoreError BlockId} (hne : target ≠ requested)
      (hnext : (before.children (some target)).bind List.getLast? = some next)
      (hrest : LineWalk before requested next result) : LineWalk before requested target result
  | stuck {target : BlockId} (hne : target ≠ requested)
      (hnone : (before.children (some target)).bind List.getLast? = none) :
      LineWalk before requested target (invalid "merge target is not the line above")

variable {before : Outline.OutlineState BlockId} {f : Forest BlockId} {requested : BlockId}

/-- With as much fuel as the spine is long the loop comes to its end. -/
theorem lastChildChain_walks (hs : Outline.Represents before f) {fuel : Nat}
    (hx : x ∈ f.labels) (hfuel : (spine (under x f)).length < fuel) :
    LineWalk before requested x (lastChildChain before requested fuel x) := by
  induction fuel generalizing x with
  | zero => omega
  | succ fuel ih =>
    rw [lastChildChain]
    by_cases hreq : x = requested
    · rw [if_pos hreq, hreq]
      exact .found
    · rw [if_neg hreq]
      cases hlast : (before.children (some x)).bind List.getLast? with
      | none => exact .stuck hreq hlast
      | some next =>
        have hnext : LastChild f x next := by
          unfold LastChild
          rw [← hs.children, hlast]
        obtain ⟨hmem, hspine⟩ := (lastChild_iff hs.nodup hx).mp hnext
        rw [hspine, List.length_cons] at hfuel
        exact .down hreq hlast (ih hmem (by omega))

/-- The loop finds what is on the chain and nothing else. -/
theorem LineWalk.result {result : Except CoreError BlockId} (hs : Outline.Represents before f)
    (h : LineWalk before requested x result) :
    (Relation.ReflTransGen (LastChild f) x requested ∧ result = .ok requested) ∨
      (¬Relation.ReflTransGen (LastChild f) x requested ∧
        result = invalid "merge target is not the line above") := by
  induction h with
  | found => exact .inl ⟨.refl, rfl⟩
  | @down target next result hne hnext _ ih =>
    have hstep : LastChild f target next := by
      unfold LastChild
      rw [← hs.children, hnext]
    refine ih.imp (fun h => ⟨.head hstep h.1, h.2⟩) fun h => ⟨fun hreach => h.1 ?_, h.2⟩
    rcases Relation.ReflTransGen.cases_head hreach with rfl | ⟨next', hstep', hrest⟩
    · exact absurd rfl hne
    · obtain rfl : next' = next := Option.some.inj (hstep'.symm.trans hstep)
      exact hrest
  | @stuck target hne hnone =>
    refine .inr ⟨fun hreach => ?_, rfl⟩
    rcases Relation.ReflTransGen.cases_head hreach with rfl | ⟨next, hstep, _⟩
    · exact hne rfl
    · unfold LastChild at hstep
      rw [← hs.children, hnone] at hstep
      cases hstep

/-- There are as many labels as the loop needs fuel. -/
theorem spine_under_lt (hs : Outline.Represents before f) (hx : x ∈ f.labels) :
    (spine (under x f)).length < before.documentOrder.length + 1 := by
  obtain ⟨z, l, k, r, rfl⟩ := exists_plug hx
  rw [under_split hs.nodup, hs.order, labels_plug]
  have hspine := spine_length_le k
  simp only [labels_append, labels_node, List.length_append, List.length_cons]
  omega

/-! ## Previous siblings -/

/-- A list cut where its only `b` is. -/
theorem idxOf?_append_cons {l r : List BlockId} (hb : b ∉ l) :
    (l ++ b :: r).idxOf? b = some l.length := by
  refine List.idxOf?_eq_some_iff.mpr ⟨by simp, by simp, fun j hj he => ?_⟩
  rw [List.getElem_append_left hj] at he
  exact hb (he ▸ List.getElem_mem hj)

theorem nodup_around {l r : List BlockId} (hn : (l ++ b :: r).Nodup) : b ∉ l ∧ b ∉ r := by
  obtain ⟨_, hr, hd⟩ := List.nodup_append.mp hn
  exact ⟨fun hm => hd b hm b (List.mem_cons_self ..) rfl, (List.nodup_cons.mp hr).1⟩

theorem getLast_iff_of_around {u v : List BlockId} (hn : (u ++ b :: v).Nodup) {s : BlockId} :
    u.getLast? = some s ↔ ∃ m r, u ++ b :: v = m ++ s :: b :: r := by
  obtain ⟨hu, hv⟩ := nodup_around hn
  rw [List.getLast?_eq_some_iff]
  constructor
  · rintro ⟨m, rfl⟩
    exact ⟨m, v, by simp⟩
  · rintro ⟨m, r, he⟩
    have he' : (m ++ [s]) ++ b :: r = u ++ b :: v := by simpa using he.symm
    have hn' := he' ▸ hn
    obtain ⟨hm, hr⟩ := nodup_around hn'
    exact ⟨m, ((List.append_cons_inj_of_notMem hm hr).mp he').1.symm⟩

theorem PreviousSibling.iff_of_represents (hs : Outline.Represents before f) {s : BlockId} :
    PreviousSibling f s b ↔ ∃ p l i, before.parents b = some p ∧ before.children p = some l ∧
      l.idxOf? b = some i ∧ (l.take i).getLast? = some s := by
  constructor
  · rintro ⟨p, m, r, hrow⟩
    have hparent := (mem_row_iff (b := b) hs.nodup).mp ⟨_, hrow, by simp⟩
    have he : m ++ s :: b :: r = (m ++ [s]) ++ b :: r := by simp
    have hb := (nodup_around (he ▸ nodup_row hs.nodup hrow)).1
    refine ⟨p, _, (m ++ [s]).length, (hs.parents b).trans hparent, (hs.children p).trans hrow,
      ?_, ?_⟩
    · rw [he, idxOf?_append_cons hb]
    · rw [he, List.take_left, List.getLast?_append]
      rfl
  · rintro ⟨p, l, i, -, hl, hi, hlast⟩
    have hrow : row p f = some l := (hs.children p).symm.trans hl
    obtain ⟨u, v, rfl⟩ := List.append_of_mem (List.isSome_idxOf?.mp (by rw [hi]; rfl))
    have hn := nodup_row hs.nodup hrow
    rw [idxOf?_append_cons (nodup_around hn).1] at hi
    obtain rfl := Option.some.inj hi
    rw [List.take_left] at hlast
    obtain ⟨m, r, he⟩ := (getLast_iff_of_around hn).mp hlast
    exact ⟨p, m, r, hrow.trans (congrArg some he)⟩

theorem PreviousSibling.mem {s : BlockId} (hn : f.labels.Nodup) (h : PreviousSibling f s b) :
    s ∈ f.labels := by
  obtain ⟨p, m, r, hrow⟩ := h
  have hparent := (mem_row_iff (b := s) hn).mp ⟨_, hrow, by simp⟩
  exact parentIn_isSome.mp (by rw [hparent]; rfl)

/-- The forest around a block and its previous sibling. -/
theorem PreviousSibling.exists_split {s : BlockId} (hn : f.labels.Nodup)
    (h : PreviousSibling f s b) :
    ∃ z l k r, f = plug z (l ++ node b k r) ∧ spine l = s :: spine (under s f) := by
  obtain ⟨p, m, r, hrow⟩ := h
  obtain ⟨z, g, rfl, rfl⟩ := exists_row (mem_of_row hrow)
  have hnr := nodup_row hn hrow
  rw [row_owner hn] at hrow
  have hroots := Option.some.inj hrow
  obtain ⟨l, k, r', rfl, -⟩ := Forest.exists_split (b := b) (by rw [hroots]; simp)
  refine ⟨z, l, k, r', rfl, ?_⟩
  rw [roots_append, roots_node] at hroots
  have hl := (getLast_iff_of_around (hroots.symm ▸ hnr)).mpr ⟨m, r, hroots⟩
  obtain ⟨l', ks, rfl⟩ := exists_last hl
  have hsplit : l' ++ node s ks nil ++ node b k r' = l' ++ node s ks (node b k r') := by simp
  rw [hsplit] at hn ⊢
  rw [spine_append_node, under_split hn]

/-- The line above a block is on the spine of what comes before it. -/
theorem LineAbove.exists_split {request : Option BlockId} {target : BlockId}
    (hn : f.labels.Nodup) (h : LineAbove f b request target) :
    ∃ z l k r, f = plug z (l ++ node b k r) ∧ target ∈ spine l := by
  obtain ⟨previous, hprevious, htarget⟩ := h
  obtain ⟨z, l, k, r, he, hspine⟩ := hprevious.exists_split hn
  refine ⟨z, l, k, r, he, ?_⟩
  rw [hspine]
  cases request with
  | none =>
    rw [htarget]
    exact List.mem_cons_self ..
  | some block =>
    obtain ⟨rfl, hreach⟩ := htarget
    exact (reach_lastChild_iff hn (hprevious.mem hn)).mp hreach

theorem PreviousSibling.unique {s s' : BlockId} (hn : f.labels.Nodup)
    (h : PreviousSibling f s b) (h' : PreviousSibling f s' b) : s = s' := by
  have hs := Outline.represents_fromTree hn
  obtain ⟨p, l, i, hp, hl, hi, hlast⟩ := (PreviousSibling.iff_of_represents hs).mp h
  obtain ⟨p', l', i', hp', hl', hi', hlast'⟩ := (PreviousSibling.iff_of_represents hs).mp h'
  obtain rfl := Option.some.inj (hp.symm.trans hp')
  obtain rfl := Option.some.inj (hl.symm.trans hl')
  obtain rfl := Option.some.inj (hi.symm.trans hi')
  exact Option.some.inj (hlast.symm.trans hlast')

theorem LineAbove.unique {request : Option BlockId} {target target' : BlockId}
    (hn : f.labels.Nodup) (h : LineAbove f b request target)
    (h' : LineAbove f b request target') : target = target' := by
  obtain ⟨s, hs, htarget⟩ := h
  obtain ⟨s', hs', htarget'⟩ := h'
  cases request with
  | none => exact htarget.trans ((hs.unique hn hs').trans htarget'.symm)
  | some block => exact htarget.1.trans htarget'.1.symm

/-! ## The plan -/

theorem GraphDoc.outline_of_requireLive (h : d.requireLiveOutlineOwner owner = .ok record) :
    d.outline owner = .ok record.outline := by
  have hpage (id : PageId) (h : d.requireLivePage id = .ok record) :
      d.entities.get id = some record := by
    obtain ⟨page, hpage, hlive⟩ := bind_eq_ok.mp h
    split at hlive
    · cases hlive
    · rw [← pure_eq_ok.mp hlive]
      exact orElse_eq_ok.mp hpage
  cases owner with
  | page id => exact outline_ok.mpr ⟨record, hpage id h, rfl⟩
  | tag id => exact outline_ok.mpr ⟨record, hpage id.cast h, rfl⟩

variable {request : Option BlockId} {target : BlockId}

/-- The loop as the planner starts it. -/
theorem lastChildChain_eq (hs : Outline.Represents before f) (hx : x ∈ f.labels) :
    (Relation.ReflTransGen (LastChild f) x requested ∧
        lastChildChain before requested (before.documentOrder.length + 1) x = .ok requested) ∨
      (¬Relation.ReflTransGen (LastChild f) x requested ∧
        lastChildChain before requested (before.documentOrder.length + 1) x =
          invalid "merge target is not the line above") :=
  (lastChildChain_walks hs hx (spine_under_lt hs hx)).result hs

theorem planMergeBlockBackward_of_line (hlive : d.requireLiveOutlineOwner owner = .ok record)
    (h : LineAbove record.outline.tree b request target) :
    planMergeBlockBackward d owner b request =
      if storedBytes (record.outline.metas target).content +
          storedBytes (record.outline.metas b).content > maxBlockTextBytes then
        .error .textTooLong
      else .ok ⟨b, target⟩ := by
  have hs := Outline.represents_fromTree record.outline.nodup
  have ho := GraphDoc.outline_of_requireLive hlive
  obtain ⟨z, l, k, r, he, hspine⟩ := h.exists_split record.outline.nodup
  have hb : b ∈ record.outline.tree.labels := by
    rw [he]
    simp [labels_plug]
  have ht : target ∈ record.outline.tree.labels := by
    rw [he]
    simp [labels_plug, spine_subset l hspine]
  obtain ⟨previous, hprevious, htarget⟩ := h
  obtain ⟨p, row, i, hparent, hchildren, hi, hlast⟩ :=
    (PreviousSibling.iff_of_represents hs).mp hprevious
  have hstate : outlineState d owner = .ok (.fromTree record.outline.tree) := by
    unfold outlineState
    rw [hlive, ho]
    rfl
  have htext (x : BlockId) (hx : x ∈ record.outline.tree.labels) :
      d.blockText owner x = .ok (record.outline.metas x).content :=
    (GraphDoc.blockText_ok ho).mpr ⟨hx, rfl⟩
  unfold planMergeBlockBackward
  simp only [hstate, hparent, hchildren, hi, hlast, orElse, bind, Except.bind]
  cases request with
  | none =>
    obtain rfl : target = previous := htarget
    simp only [pure, Except.pure, htext _ ht, htext _ hb]
    rfl
  | some block =>
    obtain ⟨rfl, hreach⟩ := htarget
    have hmem := hprevious.mem record.outline.nodup
    have hchain := (lastChildChain_eq hs hmem).elim (fun h => h.2) fun h => absurd hreach h.1
    simp only [hchain, htext _ ht, htext _ hb]
    rfl

/-- Where no line is above, the plan fails, and not for the length of the text. -/
theorem planMergeBlockBackward_of_not_line
    (hlive : d.requireLiveOutlineOwner owner = .ok record)
    (h : ∀ target, ¬LineAbove record.outline.tree b request target) :
    ∃ e, e ≠ .textTooLong ∧ planMergeBlockBackward d owner b request = .error e := by
  have hs := Outline.represents_fromTree record.outline.nodup
  have ho := GraphDoc.outline_of_requireLive hlive
  have hstate : outlineState d owner = .ok (.fromTree record.outline.tree) := by
    unfold outlineState
    rw [hlive, ho]
    rfl
  unfold planMergeBlockBackward
  cases hparent : (Outline.OutlineState.fromTree record.outline.tree).parents b with
  | none =>
    simp only [hstate, hparent, orElse, bind, Except.bind]
    refine ⟨_, ?_, rfl⟩
    intro htext
    cases htext
  | some p =>
  cases hchildren : (Outline.OutlineState.fromTree record.outline.tree).children p with
  | none =>
    simp only [hstate, hparent, hchildren, orElse, bind, Except.bind]
    refine ⟨_, ?_, rfl⟩
    intro htext
    cases htext
  | some row =>
  cases hi : row.idxOf? b with
  | none =>
    simp only [hstate, hparent, hchildren, hi, orElse, bind, Except.bind]
    refine ⟨_, ?_, rfl⟩
    intro htext
    cases htext
  | some i =>
  cases hlast : (row.take i).getLast? with
  | none =>
    simp only [hstate, hparent, hchildren, hi, hlast, orElse, bind, Except.bind]
    refine ⟨_, ?_, rfl⟩
    intro htext
    cases htext
  | some previous =>
  have hprevious : PreviousSibling record.outline.tree previous b :=
    (PreviousSibling.iff_of_represents hs).mpr ⟨p, row, i, hparent, hchildren, hi, hlast⟩
  cases request with
  | none => exact absurd ⟨previous, hprevious, rfl⟩ (h previous)
  | some block =>
    rcases (lastChildChain_eq hs (hprevious.mem record.outline.nodup) :
        (Relation.ReflTransGen (LastChild record.outline.tree) previous block ∧ _) ∨ _)
      with ⟨hreach, -⟩ | ⟨-, hchain⟩
    · exact absurd ⟨previous, hprevious, rfl, hreach⟩ (h block)
    · simp only [hstate, hparent, hchildren, hi, hlast, hchain, orElse, bind, Except.bind]
      refine ⟨_, ?_, rfl⟩
      intro htext
      cases htext

/-! ## The merge -/

/-- What a merge of `source` into `target` does to an outline. -/
structure Merged (o o' : Outline) (source target : BlockId) : Prop where
  /-- The blocks that are left are in their order. -/
  labels : o'.tree.labels = o.tree.labels.erase source
  children : row (some target) o'.tree = some
    (((row (some target) o.tree).getD []) ++ ((row (some source) o.tree).getD []))
  parent : ∀ x ∈ o'.tree.labels, parentIn none x o'.tree =
    if x ∈ (row (some source) o.tree).getD [] then some (some target)
    else parentIn none x o.tree
  content : (o'.metas target).content = (o.metas target).content ++ (o.metas source).content
  others : ∀ x, x ≠ target → (o'.metas x).content = (o.metas x).content

/-- The children of a block move, one after the other, to a row before it. -/
theorem adopt_children {z : List (Frame BlockId)} {k r : Forest BlockId} {t : BlockId}
    {l : Forest BlockId} {o : Outline} (he : o.tree = plug z (l ++ node b k r))
    (ht : t ∈ l.labels) :
    ∃ o', k.roots.foldlM (fun (o : Outline) child => o.movTo child (some t) (o.count (some t))) o =
        Except.ok o' ∧
      o'.tree = plug z (graft t k l ++ node b nil r) ∧ o'.metas = o.metas ∧
      o'.known = o.known := by
  induction k generalizing l o with
  | nil => exact ⟨o, rfl, by rw [graft_nil, he], rfl, rfl⟩
  | node c kc k' _ ih =>
    have hn := he ▸ o.nodup
    have hl : l.labels.Nodup := by
      have h := nodup_of_plug hn
      rw [labels_append] at h
      exact (List.nodup_append.mp h).1
    have hcount : (under t l).roots.length ≤ o.count (some t) := by
      unfold Outline.count
      rw [he, row_before hn ht]
      exact Nat.le_refl _
    obtain ⟨hmovable, hmoved⟩ := moveAt_graft hn ht hcount
    rw [← he] at hmovable hmoved
    have hmov : o.movTo c (some t) (o.count (some t)) =
        .ok (o.rearrange (moveAt c (some t) (o.count (some t)) o.tree)
          (labels_perm_moveAt hmovable o.nodup)) :=
      dif_pos ⟨hmovable.mem, fun p hp => hmovable.parent p hp⟩
    obtain ⟨o', hfold, htree, hmetas, hknown⟩ := ih (o := o.rearrange _ _) hmoved
      ((labels_perm_graft _ ht hl).mem_iff.mpr (List.mem_append_right _ ht))
    refine ⟨o', ?_, ?_, hmetas, hknown⟩
    · rw [roots_node, List.foldlM_cons, hmov]
      exact hfold
    · rw [htree, ← graft_append]
      rfl

/-- A block that is there can be touched. -/
theorem run_touchBlock (now : Timestamp) {o : Outline} (h : d.outline owner = .ok o)
    (hb : b ∈ o.tree.labels) :
    ∃ bag, (touchBlock now owner b).run d = (.ok (), d.putOutline owner
        (o.setMeta b { o.metas b with properties := bag })) ∧
      (o.metas b).properties.SameBut updatedAtKey bag := by
  obtain ⟨bag, hstamp, hbag, -⟩ := run_stamp now textKey_updatedAt (o.metas b).properties
  refine ⟨bag, ?_, hbag⟩
  unfold touchBlock
  rw [run_inBag_block h hb, hstamp]

section Forests
variable {z : List (Frame BlockId)} {l k r : Forest BlockId} {t : BlockId}

/-- Without the block, and with its children after those of `t`, the order is the same. -/
theorem labels_merge (hn : (plug z (l ++ node b k r)).labels.Nodup) (ht : t ∈ spine l) :
    (plug z (graft t k l ++ r)).labels = (plug z (l ++ node b k r)).labels.erase b := by
  obtain ⟨_, _, _, hl⟩ := not_mem_of_before hn (spine_subset l ht)
  obtain ⟨hb, _, hbl, _⟩ := split_not_mem hn (List.mem_cons_self ..)
  have hleft : b ∉ before z ++ l.labels := by
    rw [List.mem_append, not_or]
    exact ⟨hb, hbl⟩
  have hold : (plug z (l ++ node b k r)).labels =
      (before z ++ l.labels) ++ b :: (k.labels ++ (r.labels ++ after z)) := by
    simp [labels_plug]
  rw [hold, List.erase_append_right _ hleft, List.erase_cons_head, labels_plug, labels_append,
    labels_graft k ht hl]
  simp only [List.append_assoc]

theorem parentIn_merge (hn : (plug z (l ++ node b k r)).labels.Nodup) (ht : t ∈ l.labels)
    (hx : x ≠ b) :
    parentIn none x (plug z (graft t k l ++ r)) =
      if x ∈ k.roots then some (some t) else parentIn none x (plug z (l ++ node b k r)) := by
  obtain ⟨_, _, _, hl⟩ := not_mem_of_before hn ht
  by_cases hk : x ∈ k.labels
  · obtain ⟨hbefore, _, hxl, hxr⟩ := split_not_mem hn (List.mem_cons_of_mem _ hk)
    have hgraft (p : Option BlockId) :
        parentIn p x (graft t k l ++ r) = parentIn (some t) x k := by
      rw [parentIn_append, parentIn_of_not_mem hxr, Option.or_none,
        parentIn_graft k ht hl (.inr hxl), parentIn_of_not_mem hxl, Option.none_or]
    have hnk : k.labels.Nodup := nodup_of_plug (z := ⟨l, b, r⟩ :: z) hn
    have hmem : x ∈ (graft t k l ++ r).labels :=
      parentIn_isSome.mp ((hgraft none).symm ▸ parentIn_isSome.mpr hk)
    have hin : x ∈ (l ++ node b k r).labels := by simp [hk]
    rw [parentIn_plug hbefore hmem, hgraft, parentIn_plug hbefore hin, parentIn_append,
      parentIn_of_not_mem hxl, Option.none_or, parentIn, if_neg (Ne.symm hx),
      parentIn_of_not_mem hxr, Option.or_none]
    exact parentIn_owner hnk _ _
  · rw [if_neg fun h => hk (mem_labels_of_mem_roots h)]
    refine parentIn_plug_congr (fun p => ?_) none
    rw [parentIn_append, parentIn_append, parentIn_graft k ht hl (.inl hk),
      parentIn_of_not_mem hk, Option.or_none, parentIn, if_neg (Ne.symm hx),
      parentIn_of_not_mem hk, Option.none_or]

/-- The merge on the forest around the block and the line above it. -/
theorem merged_of_split {o o' : Outline} (he : o.tree = plug z (l ++ node b k r))
    (ht : t ∈ spine l) (htree : o'.tree = plug z (graft t k l ++ r))
    (hcontent : ∀ x, (o'.metas x).content = if x = t then
      (o.metas t).content ++ (o.metas b).content else (o.metas x).content) :
    Merged o o' b t := by
  have hn := he ▸ o.nodup
  have hn' := htree ▸ o'.nodup
  have hmem := spine_subset l ht
  obtain ⟨_, _, _, hl⟩ := not_mem_of_before hn hmem
  have hkids : (row (some b) o.tree).getD [] = k.roots := by
    rw [he, row, if_pos (by simp [labels_plug]), under_split hn]
    rfl
  have hlabels : o'.tree.labels = o.tree.labels.erase b := by
    rw [htree, he]
    exact labels_merge hn ht
  refine ⟨hlabels, ?_, ?_, ?_, ?_⟩
  · have hgraft : t ∈ (graft t k l).labels :=
      (labels_perm_graft k hmem hl).mem_iff.mpr (List.mem_append_right _ hmem)
    rw [hkids, htree, row_before hn' hgraft, under_graft k hmem hl, he, row_before hn hmem,
      roots_append]
    rfl
  · intro x hx
    have hne : x ≠ b := by
      intro h
      rw [hlabels, h] at hx
      exact o.nodup.not_mem_erase hx
    rw [hkids, htree, he]
    exact parentIn_merge hn hmem hne
  · rw [hcontent, if_pos rfl]
  · intro x hx
    rw [hcontent, if_neg hx]

end Forests

/-- Applied, a plan puts the children of the block after those of the line above it. -/
theorem run_applyMergeBlock_split (now : Timestamp) {o : Outline} {z : List (Frame BlockId)}
    {l k r : Forest BlockId} (ho : d.outline owner = .ok o)
    (he : o.tree = plug z (l ++ node b k r)) (ht : target ∈ spine l) :
    ∃ o', (applyMergeBlock now owner ⟨b, target⟩).run d = (.ok (), d.putOutline owner o') ∧
      o'.tree = plug z (graft target k l ++ r) ∧ o'.known = o.known ∧
      ∀ x, (o'.metas x).content = if x = target then
        (o.metas target).content ++ (o.metas b).content else (o.metas x).content := by
  have hmem := spine_subset l ht
  have hb : b ∈ o.tree.labels := by
    rw [he]
    simp [labels_plug]
  have htarget : target ∈ o.tree.labels := by
    rw [he]
    simp [labels_plug, hmem]
  have hread (x : BlockId) (hx : x ∈ o.tree.labels) :
      (Edit.read fun d : GraphDoc => d.blockText owner x).run d = (.ok (o.metas x).content, d) :=
    Edit.run_read ((GraphDoc.blockText_ok ho).mpr ⟨hx, rfl⟩)
  have hkids : (row (some b) o.tree).getD [] = k.roots := by
    rw [he, row, if_pos (by simp [labels_plug]), under_split (he ▸ o.nodup)]
    rfl
  -- the text
  obtain ⟨o₁, ho₁⟩ : ∃ o₁, o₁ = o.setContent target
      ((o.metas target).content ++ (o.metas b).content) := ⟨_, rfl⟩
  have hrun₁ : (inText owner target fun content => .ok (content ++ (o.metas b).content)).run d =
      (.ok (), d.putOutline owner o₁) := ho₁ ▸ run_inText ho htarget rfl
  have h₁ : (d.putOutline owner o₁).outline owner = .ok o₁ := GraphDoc.outline_putOutline ho
  -- the children
  have htree₁ : o₁.tree = plug z (l ++ node b k r) := by
    rw [ho₁]
    exact he
  obtain ⟨o₂, hfold, htree₂, hmetas₂, hknown₂⟩ := adopt_children htree₁ hmem
  have hadopt : adoptChildren b target o₁ = .ok o₂ := by
    unfold adoptChildren
    rw [ho₁, Outline.tree_setContent, hkids, ← ho₁, hfold]
  have hrun₂ := run_inOutline h₁ hadopt
  rw [GraphDoc.putOutline_putOutline] at hrun₂
  have h₂ : (d.putOutline owner o₂).outline owner = .ok o₂ := GraphDoc.outline_putOutline ho
  have hgraft : target ∈ (graft target k l).labels := by
    obtain ⟨_, _, _, hl⟩ := not_mem_of_before (he ▸ o.nodup) hmem
    exact (labels_perm_graft k hmem hl).mem_iff.mpr (List.mem_append_right _ hmem)
  have hb₂ : b ∈ o₂.tree.labels := by
    rw [htree₂]
    simp [labels_plug]
  have htarget₂ : target ∈ o₂.tree.labels := by
    rw [htree₂]
    simp [labels_plug, hgraft]
  -- the stamps
  obtain ⟨bag₃, hrun₃, -⟩ := run_touchBlock now h₂ htarget₂
  obtain ⟨o₃, ho₃⟩ : ∃ o₃, o₃ = o₂.setMeta target
      { o₂.metas target with properties := bag₃ } := ⟨_, rfl⟩
  rw [← ho₃, GraphDoc.putOutline_putOutline] at hrun₃
  have h₃ : (d.putOutline owner o₃).outline owner = .ok o₃ := GraphDoc.outline_putOutline ho
  have hb₃ : b ∈ o₃.tree.labels := by
    rw [ho₃]
    exact hb₂
  obtain ⟨bag₄, hrun₄, -⟩ := run_touchBlock now h₃ hb₃
  obtain ⟨o₄, ho₄⟩ : ∃ o₄, o₄ = o₃.setMeta b { o₃.metas b with properties := bag₄ } := ⟨_, rfl⟩
  rw [← ho₄, GraphDoc.putOutline_putOutline] at hrun₄
  have h₄ : (d.putOutline owner o₄).outline owner = .ok o₄ := GraphDoc.outline_putOutline ho
  have htree₄ : o₄.tree = plug z (graft target k l ++ node b nil r) := by
    rw [ho₄, ho₃]
    exact htree₂
  -- the block
  obtain ⟨o', hdelete, htree', hmetas', hknown'⟩ : ∃ o', o₄.delete b = .ok o' ∧
      o'.tree = prune b o₄.tree ∧ o'.metas = o₄.metas ∧ o'.known = o₄.known := by
    unfold Outline.delete
    rw [if_pos (by rw [htree₄]; simp [labels_plug])]
    exact ⟨_, rfl, rfl, rfl, rfl⟩
  have hrun₅ := run_inOutline (f := (Outline.delete · b)) h₄ hdelete
  rw [GraphDoc.putOutline_putOutline] at hrun₅
  refine ⟨o', ?_, ?_, ?_, fun x => ?_⟩
  · unfold applyMergeBlock
    rw [Edit.run_bind_ok (hread target htarget), Edit.run_bind_ok (hread b hb),
      Edit.run_bind_ok hrun₁, Edit.run_bind_ok hrun₂, Edit.run_bind_ok hrun₃,
      Edit.run_bind_ok hrun₄]
    exact hrun₅
  · rw [htree', htree₄, prune_split (htree₄ ▸ o₄.nodup)]
  · rw [hknown', ho₄, Outline.known_setMeta, ho₃, Outline.known_setMeta, hknown₂, ho₁,
      Outline.known_setContent]
  · have hcontent₃ (y : BlockId) : (o₃.metas y).content = (o₁.metas y).content := by
      rw [ho₃, ← hmetas₂, Outline.metas_setMeta]
      split_ifs with h
      · rw [h]
      · rfl
    have hcontent₄ : (o₄.metas x).content = (o₃.metas x).content := by
      rw [ho₄, Outline.metas_setMeta]
      split_ifs with h
      · rw [h]
      · rfl
    rw [hmetas', hcontent₄, hcontent₃, ho₁, Outline.content_setContent]

/-- Applied, a plan merges the block into the line above it. -/
theorem run_applyMergeBlock {now : Timestamp} {o : Outline} (ho : d.outline owner = .ok o)
    (h : LineAbove o.tree b request target) :
    ∃ o', (applyMergeBlock now owner ⟨b, target⟩).run d = (.ok (), d.putOutline owner o') ∧
      Merged o o' b target := by
  obtain ⟨z, l, k, r, he, ht⟩ := h.exists_split o.nodup
  obtain ⟨o', hrun, htree, -, hcontent⟩ := run_applyMergeBlock_split now ho he ht
  exact ⟨o', hrun, merged_of_split he ht htree hcontent⟩

/-! ## Backward merges -/

/-- The loop of the plan comes to its end, a plan is made exactly where there is a line above
and the two texts fit in one block, and applied it merges the block into that line. -/
theorem mergeBlock_backward (now : Timestamp) (hlive : d.requireLiveOutlineOwner owner = .ok record)
    (b : BlockId) (request : Option BlockId) :
    (∀ previous ∈ record.outline.tree.labels, ∀ requested,
      LineWalk (.fromTree record.outline.tree) requested previous
        (lastChildChain (.fromTree record.outline.tree) requested
          ((Outline.OutlineState.fromTree record.outline.tree).documentOrder.length + 1)
          previous)) ∧
    (∀ plan, planMergeBlockBackward d owner b request = .ok plan ↔
      plan.source = b ∧ LineAbove record.outline.tree b request plan.target ∧
        storedBytes (record.outline.metas plan.target).content +
          storedBytes (record.outline.metas b).content ≤ maxBlockTextBytes) ∧
    (planMergeBlockBackward d owner b request = .error .textTooLong ↔
      ∃ target, LineAbove record.outline.tree b request target ∧
        maxBlockTextBytes < storedBytes (record.outline.metas target).content +
          storedBytes (record.outline.metas b).content) ∧
    ∀ plan, planMergeBlockBackward d owner b request = .ok plan →
      ∃ o', (applyMergeBlock now owner plan).run d = (.ok (), d.putOutline owner o') ∧
        Merged record.outline o' b plan.target := by
  have hs := Outline.represents_fromTree record.outline.nodup
  have hplan (plan : MergePlan) : planMergeBlockBackward d owner b request = .ok plan ↔
      plan.source = b ∧ LineAbove record.outline.tree b request plan.target ∧
        storedBytes (record.outline.metas plan.target).content +
          storedBytes (record.outline.metas b).content ≤ maxBlockTextBytes := by
    by_cases h : ∃ target, LineAbove record.outline.tree b request target
    · obtain ⟨target, hline⟩ := h
      rw [planMergeBlockBackward_of_line hlive hline]
      split_ifs with hlong
      · refine iff_of_false nofun fun ⟨_, hline', hfits⟩ => ?_
        rw [hline'.unique record.outline.nodup hline] at hfits
        omega
      · constructor
        · intro he
          obtain rfl := Except.ok.inj he
          exact ⟨rfl, hline, Nat.le_of_not_lt hlong⟩
        · rintro ⟨hsource, hline', -⟩
          rw [← hline'.unique record.outline.nodup hline, ← hsource]
    · obtain ⟨e, -, he⟩ := planMergeBlockBackward_of_not_line hlive (not_exists.mp h)
      rw [he]
      exact iff_of_false nofun fun ⟨_, hline, _⟩ => h ⟨_, hline⟩
  refine ⟨fun previous hmem requested => ?_, hplan, ?_, fun plan h => ?_⟩
  · exact lastChildChain_walks hs hmem (spine_under_lt hs hmem)
  · constructor
    · intro htoo
      by_cases h : ∃ target, LineAbove record.outline.tree b request target
      · obtain ⟨target, hline⟩ := h
        rw [planMergeBlockBackward_of_line hlive hline] at htoo
        split_ifs at htoo with hlong
        exact ⟨target, hline, hlong⟩
      · obtain ⟨e, hne, he⟩ := planMergeBlockBackward_of_not_line hlive (not_exists.mp h)
        exact absurd (Except.error.inj (he.symm.trans htoo)) hne
    · rintro ⟨target, hline, hlong⟩
      rw [planMergeBlockBackward_of_line hlive hline, if_pos hlong]
  · obtain ⟨hsource, hline, -⟩ := (hplan plan).mp h
    obtain ⟨source, target⟩ := plan
    obtain rfl : source = b := hsource
    exact run_applyMergeBlock (GraphDoc.outline_of_requireLive hlive) hline

/-- A block with a child, and after it a block with a reference for its text. -/
def sampleLines : Outline where
  tree := node ⟨"a", by decide⟩ (single ⟨"b", by decide⟩ nil)
    (single ⟨"c", by decide⟩ (single ⟨"d", by decide⟩ nil))
  known := [⟨"a", by decide⟩, ⟨"b", by decide⟩, ⟨"c", by decide⟩, ⟨"d", by decide⟩]
  metas block := {
    content := if block = ⟨"b", by decide⟩ then [.inl 'x'] else
      if block = ⟨"c", by decide⟩ then [.inr samplePage] else [] }
  nodup := by decide
  issued := by decide

theorem mergeBlock_backward_sample :
    planMergeBlockBackward (pageWith sampleLines) (.page samplePage) ⟨"c", by decide⟩
      (some ⟨"b", by decide⟩) = .ok ⟨⟨"c", by decide⟩, ⟨"b", by decide⟩⟩ ∧
    ∃ o', (applyMergeBlock ⟨"now", by decide⟩ (.page samplePage)
        ⟨⟨"c", by decide⟩, ⟨"b", by decide⟩⟩).run (pageWith sampleLines) =
          (.ok (), (pageWith sampleLines).putOutline (.page samplePage) o') ∧
      o'.tree.labels = [⟨"a", by decide⟩, ⟨"b", by decide⟩, ⟨"d", by decide⟩] ∧
      (o'.metas ⟨"b", by decide⟩).content = [.inl 'x', .inr samplePage] := by
  have hlive : (pageWith sampleLines).requireLiveOutlineOwner (.page samplePage) =
      .ok { freshRecord "Page" with outline := sampleLines } := rfl
  have hplan : planMergeBlockBackward (pageWith sampleLines) (.page samplePage)
      ⟨"c", by decide⟩ (some ⟨"b", by decide⟩) = .ok ⟨⟨"c", by decide⟩, ⟨"b", by decide⟩⟩ := rfl
  obtain ⟨-, -, -, happly⟩ := mergeBlock_backward ⟨"now", by decide⟩ hlive ⟨"c", by decide⟩
    (some ⟨"b", by decide⟩)
  obtain ⟨o', hrun, hmerged⟩ := happly _ hplan
  exact ⟨hplan, o', hrun, hmerged.labels.trans (by decide), hmerged.content.trans (by decide)⟩

end Neoseq.Core
