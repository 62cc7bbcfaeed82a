import Neoseq.Causal.Bare

/-! Scoped validation against the validation of the whole document. What the update did
not touch was valid before it; the blocks that are deleted are out of its sight. -/

namespace Neoseq.Causal
open Domain Document Neoseq.Core Content

variable {host : Storage}

/-! ## The whole document -/

theorem validateDocument_outline {doc : LoroDoc} {home : Home} {rawId : String} {u : Unit} :
    validateDocument host doc home rawId true = .ok u ↔
      ∃ header, validateHeader host home rawId (doc.records home) = .ok header ∧
        ∀ n ∈ header.1, validateOutlineNode host doc header.1 header.2 n.id = .ok () := by
  unfold validateDocument
  rw [bind_eq_ok]
  refine exists_congr fun header => and_congr_right fun _ => ?_
  show checkAll _ _ = _ ↔ _
  rw [checkAll_eq_ok, List.forall_mem_map]

theorem validateDocument_header {doc : LoroDoc} {home : Home} {rawId : String} {u : Unit} :
    validateDocument host doc home rawId false = .ok u ↔
      ∃ header, validateHeader host home rawId (doc.records home) = .ok header := by
  unfold validateDocument
  rw [bind_eq_ok]
  exact exists_congr fun header => and_iff_left rfl

theorem validateCausalDocument_eq_ok {doc : LoroDoc} {graphId : GraphId} {u : Unit} :
    validateCausalDocument host doc graphId = .ok u ↔
      validateMetadata doc graphId = .ok () ∧
        (∀ home, ∀ rawId ∈ keys (doc.records home), requireSingle doc rawId = .ok () ∧
          validateDocument host doc home rawId true = .ok ()) ∧
        validateGraphSettings host doc = .ok () := by
  unfold validateCausalDocument
  rw [bind_eq_ok]
  constructor
  · rintro ⟨_, hmetadata, h⟩
    obtain ⟨_, hhomes, hsettings⟩ := bind_eq_ok.mp h
    refine ⟨hmetadata, fun home rawId hid => ?_, hsettings⟩
    have hhome := checkAll_eq_ok.mp hhomes home (mem_homes home)
    obtain ⟨_, hsingle, hdocument⟩ := bind_eq_ok.mp (checkAll_eq_ok.mp hhome rawId hid)
    exact ⟨hsingle, hdocument⟩
  · rintro ⟨hmetadata, hhomes, hsettings⟩
    refine ⟨(), hmetadata, bind_eq_ok.mpr ⟨(), checkAll_eq_ok.mpr fun home _ => ?_, hsettings⟩⟩
    refine checkAll_eq_ok.mpr fun rawId hid => ?_
    obtain ⟨hsingle, hdocument⟩ := hhomes home rawId hid
    exact bind_eq_ok.mpr ⟨(), hsingle, hdocument⟩

/-! ## What an update shows -/

/-- Every rule holds but those of blocks that are deleted, in documents that are not
validated completely. -/
structure ShownValid (host : Storage) (doc : LoroDoc) (graphId : GraphId)
    (changes : CausalChanges) : Prop where
  metadata : validateMetadata doc graphId = .ok ()
  settings : validateGraphSettings host doc = .ok ()
  single : ∀ home, ∀ rawId ∈ keys (doc.records home), requireSingle doc rawId = .ok ()
  documents : ∀ home, ∀ rawId ∈ keys (doc.records home), ∃ header,
    validateHeader host home rawId (doc.records home) = .ok header ∧
      ∀ n ∈ header.1, n.deleted = false ∨ (home, rawId) ∈ changes.documents →
        validateOutlineNode host doc header.1 header.2 n.id = .ok ()

/-- The rules of blocks hold for those that are deleted too. -/
def HiddenValid (host : Storage) (doc : LoroDoc) (changes : CausalChanges) : Prop :=
  ∀ home rawId record nodes, (home, rawId) ∉ changes.documents →
    (doc.records home).get rawId = some (.map record) →
      LoroMap.get record "outline" = some (.tree nodes) →
        ∀ n ∈ nodes, n.deleted = true →
          validateOutlineNode host doc nodes (ownerLabel home rawId) n.id = .ok ()

theorem validateCausalDocument_iff {doc : LoroDoc} {graphId : GraphId} {changes : CausalChanges} :
    validateCausalDocument host doc graphId = .ok () ↔
      ShownValid host doc graphId changes ∧ HiddenValid host doc changes := by
  rw [validateCausalDocument_eq_ok]
  constructor
  · rintro ⟨hmetadata, hhomes, hsettings⟩
    refine ⟨⟨hmetadata, hsettings, fun home rawId hid => (hhomes home rawId hid).1, ?_⟩, ?_⟩
    · intro home rawId hid
      obtain ⟨header, hheader, hnodes⟩ := validateDocument_outline.mp (hhomes home rawId hid).2
      exact ⟨header, hheader, fun n hn _ => hnodes n hn⟩
    · intro home rawId record nodes _ hrecord houtline n hn _
      obtain ⟨header, hheader, hnodes⟩ :=
        validateDocument_outline.mp (hhomes home rawId (mem_keys hrecord)).2
      obtain ⟨howner, record', hrecord', houtline'⟩ := outline_of_header host hheader
      rw [hrecord] at hrecord'
      obtain rfl := Stored.map.inj (Option.some.inj hrecord')
      rw [houtline] at houtline'
      obtain rfl := Stored.tree.inj (Option.some.inj houtline')
      rw [← howner]
      exact hnodes n hn
  · rintro ⟨hshown, hhidden⟩
    refine ⟨hshown.metadata, fun home rawId hid => ⟨hshown.single home rawId hid, ?_⟩,
      hshown.settings⟩
    obtain ⟨header, hheader, hnodes⟩ := hshown.documents home rawId hid
    refine validateDocument_outline.mpr ⟨header, hheader, fun n hn => ?_⟩
    by_cases hvisible : n.deleted = false ∨ (home, rawId) ∈ changes.documents
    · exact hnodes n hn hvisible
    · push Not at hvisible
      obtain ⟨howner, record, hrecord, houtline⟩ := outline_of_header host hheader
      rw [howner]
      exact hhidden home rawId record header.1 hvisible.2 hrecord houtline n hn
        (Bool.not_eq_false _ ▸ hvisible.1)

/-! ## Where the units of a diff come from -/

section

variable {events : List ContainerDiff}

theorem find_home (home : Home) : homes.find? (fun h => h.asStr = home.asStr) = some home := by
  cases home <;> decide

theorem home_ne (home : Home) : home.asStr ≠ "meta" ∧ home.asStr ≠ "graph_settings" := by
  cases home <;> decide

theorem unitsOf_home {e : ContainerDiff} {home : Home} {rest : Path}
    (hp : e.path = .key home.asStr :: rest) (hsome : (unitsOf e).isSome = true) :
    unitsOf e = homeUnits home e.diff rest := by
  unfold unitsOf at hsome ⊢
  split at hsome
  · cases hsome
  · next hknown =>
    rw [if_neg hknown, hp]
    dsimp only
    rw [if_neg (home_ne home).1, if_neg (home_ne home).2, find_home, Option.bind_some]

theorem has_of_mem (hfull : (record events).full = false) {e : ContainerDiff} (he : e ∈ events)
    {units : List ValidationUnit} (hu : unitsOf e = some units) {u : ValidationUnit}
    (hmem : u ∈ units) : (record events).Has u :=
  ((record_spec hfull).2 u).mpr ⟨e, he, units, hu, hmem⟩

theorem path_ne_nil (hfull : (record events).full = false) {e : ContainerDiff} (he : e ∈ events) :
    e.path ≠ [] := by
  intro hp
  have hsome := (record_spec hfull).1 e he
  unfold unitsOf at hsome
  rw [hp] at hsome
  split at hsome <;> cases hsome

theorem not_fresh_root (hfull : (record events).full = false) (i : Index) :
    ¬Fresh events [i] := by
  rintro ⟨parent, j, hpath, e, he, hparent, _⟩
  have hnil : parent = [] := by
    have hlen := congrArg List.length hpath
    rw [List.length_append, List.length_singleton, List.length_singleton] at hlen
    exact List.eq_nil_of_length_eq_zero (by omega)
  exact path_ne_nil hfull he (hparent.trans hnil)

/-- A diff of a home lists the documents that are new in it. -/
theorem home_event (hfull : (record events).full = false) {e : ContainerDiff} (he : e ∈ events)
    {home : Home} (hp : e.path = [.key home.asStr]) :
    ∃ updated, e.diff = .map updated ∧ ∀ u ∈ updated, u.2.isSome = true ∧
      (home, u.1) ∈ (record events).documents := by
  have hsome := (record_spec hfull).1 e he
  have hunits := unitsOf_home hp hsome
  unfold homeUnits at hunits
  cases hd : e.diff with
  | map updated =>
    rw [hd] at hunits
    dsimp only at hunits
    by_cases hall : ∀ u ∈ updated, u.2.isSome = true
    · rw [if_pos hall] at hunits
      refine ⟨updated, rfl, fun u hu => ⟨hall u hu, ?_⟩⟩
      exact has_of_mem hfull he hunits (List.mem_map_of_mem hu)
    · rw [if_neg hall] at hunits
      rw [hunits] at hsome
      cases hsome
  | _ =>
    rw [hd] at hunits
    rw [hunits] at hsome
    cases hsome

/-- A diff within a document. -/
theorem document_event (hfull : (record events).full = false) {e : ContainerDiff} (he : e ∈ events)
    {home : Home} {id : String} {rest : Path} (hp : e.path = .key home.asStr :: .key id :: rest) :
    (home, id) ∈ (record events).documents ∨
      (∃ field deeper, rest = .key field :: deeper ∧ field ≠ "outline" ∧
        (home, id) ∈ (record events).headers) ∨
      (rest = [.key "outline"] ∧ ∃ items, e.diff = .tree items ∧
        ∀ item ∈ items, item.action = .create →
          (home, id, item.target) ∈ (record events).blocks) ∨
      ∃ node deeper, rest = .key "outline" :: .node node :: deeper ∧
        (home, id, node) ∈ (record events).blocks := by
  have hsome := (record_spec hfull).1 e he
  have hunits := unitsOf_home hp hsome
  rw [hunits] at hsome
  match rest with
  | [] => exact .inl (has_of_mem hfull he hunits (List.mem_singleton_self _))
  | .node _ :: _ => exact .inl (has_of_mem hfull he hunits (List.mem_singleton_self _))
  | .seq _ :: _ => exact .inl (has_of_mem hfull he hunits (List.mem_singleton_self _))
  | .key field :: deeper =>
    unfold homeUnits at hunits hsome
    dsimp only at hunits hsome
    by_cases hf : field = "outline"
    · rw [if_pos hf] at hunits hsome
      subst hf
      match deeper with
      | [] =>
        cases hd : e.diff with
        | tree items =>
          rw [hd] at hunits
          refine .inr (.inr (.inl ⟨rfl, items, rfl, fun item hi hcreate => ?_⟩))
          refine has_of_mem hfull he hunits (List.mem_map.mpr ⟨item, ?_, rfl⟩)
          exact List.mem_filter.mpr ⟨hi, decide_eq_true hcreate⟩
        | _ =>
          rw [hd] at hsome
          cases hsome
      | .node node :: deeper =>
        exact .inr (.inr (.inr ⟨node, deeper, rfl,
          has_of_mem hfull he hunits (List.mem_singleton_self _)⟩))
      | .key _ :: _ => cases hsome
      | .seq _ :: _ => cases hsome
    · rw [if_neg hf] at hunits
      exact .inr (.inl ⟨field, deeper, rfl, hf,
        has_of_mem hfull he hunits (List.mem_singleton_self _)⟩)

/-- The diff that a unit comes from. -/
def Origin (e : ContainerDiff) : ValidationUnit → Prop
  | .metadata => True
  | .settings => True
  | .header home id => ∃ rest, e.path = .key home.asStr :: .key id :: rest
  | .document home id => (∃ rest, e.path = .key home.asStr :: .key id :: rest) ∨
      ∃ rest updated, e.path = .key home.asStr :: rest ∧ (∀ id deeper, rest ≠ .key id :: deeper) ∧
        e.diff = .map updated ∧ ∃ value, (id, some value) ∈ updated
  | .block home id node => ∃ rest, e.path = .key home.asStr :: .key id :: .key "outline" :: rest ∧
      ((rest = [] ∧ ∃ items, e.diff = .tree items ∧ ⟨node, .create⟩ ∈ items) ∨
        ∃ deeper, rest = .node node :: deeper)

theorem origin_home {e : ContainerDiff} {home : Home} {rest : Path}
    (hp : e.path = .key home.asStr :: rest) {units : List ValidationUnit}
    (hu : homeUnits home e.diff rest = some units) {u : ValidationUnit} (hmem : u ∈ units) :
    Origin e u := by
  have hroot : (∀ id deeper, rest ≠ .key id :: deeper) →
      homeUnits home e.diff [] = some units → Origin e u := by
    intro hrest hu
    cases hd : e.diff with
    | map updated =>
      rw [hd] at hu
      unfold homeUnits at hu
      dsimp only at hu
      split at hu
      · next hall =>
        obtain rfl := Option.some.inj hu
        obtain ⟨entry, hentry, rfl⟩ := List.mem_map.mp hmem
        obtain ⟨value, hvalue⟩ := Option.isSome_iff_exists.mp (hall entry hentry)
        exact .inr ⟨rest, updated, hp, hrest, hd, value, hvalue ▸ hentry⟩
      · cases hu
    | _ =>
      rw [hd] at hu
      cases hu
  match rest, hp, hu, hroot with
  | [], _, hu, hroot => exact hroot (fun _ _ h => nomatch h) hu
  | .node _ :: _, _, hu, hroot => exact hroot (fun _ _ h => nomatch h) hu
  | .seq _ :: _, _, hu, hroot => exact hroot (fun _ _ h => nomatch h) hu
  | [.key id], hp, hu, _ =>
    obtain rfl := Option.some.inj hu
    obtain rfl := List.mem_singleton.mp hmem
    exact .inl ⟨_, hp⟩
  | .key id :: .node _ :: _, hp, hu, _ =>
    obtain rfl := Option.some.inj hu
    obtain rfl := List.mem_singleton.mp hmem
    exact .inl ⟨_, hp⟩
  | .key id :: .seq _ :: _, hp, hu, _ =>
    obtain rfl := Option.some.inj hu
    obtain rfl := List.mem_singleton.mp hmem
    exact .inl ⟨_, hp⟩
  | .key id :: .key field :: deeper, hp, hu, _ =>
    unfold homeUnits at hu
    dsimp only at hu
    by_cases hf : field = "outline"
    · rw [if_pos hf] at hu
      subst hf
      match deeper, hp, hu with
      | [], hp, hu =>
        cases hd : e.diff with
        | tree items =>
          rw [hd] at hu
          obtain rfl := Option.some.inj hu
          obtain ⟨item, hitem, rfl⟩ := List.mem_map.mp hmem
          obtain ⟨hitem, hcreate⟩ := List.mem_filter.mp hitem
          have hcreate : item.action = .create := of_decide_eq_true hcreate
          exact ⟨[], hp, .inl ⟨rfl, items, hd, hcreate ▸ hitem⟩⟩
        | _ =>
          rw [hd] at hu
          cases hu
      | .node node :: deeper, hp, hu =>
        obtain rfl := Option.some.inj hu
        obtain rfl := List.mem_singleton.mp hmem
        exact ⟨_, hp, .inr ⟨deeper, rfl⟩⟩
      | .key _ :: _, _, hu => cases hu
      | .seq _ :: _, _, hu => cases hu
    · rw [if_neg hf] at hu
      obtain rfl := Option.some.inj hu
      obtain rfl := List.mem_singleton.mp hmem
      exact ⟨_, hp⟩

theorem origin {e : ContainerDiff} {units : List ValidationUnit} (hu : unitsOf e = some units)
    {u : ValidationUnit} (hmem : u ∈ units) : Origin e u := by
  unfold unitsOf at hu
  split at hu
  · cases hu
  split at hu
  · next root rest hp =>
    split at hu
    · obtain rfl := Option.some.inj hu
      obtain rfl := List.mem_singleton.mp hmem
      trivial
    split at hu
    · obtain rfl := Option.some.inj hu
      obtain rfl := List.mem_singleton.mp hmem
      trivial
    obtain ⟨home, hhome, hunits⟩ := Option.bind_eq_some_iff.mp hu
    have hname : home.asStr = root := of_decide_eq_true
      (List.find?_some (p := fun h : Home => decide (h.asStr = root)) hhome)
    subst hname
    exact origin_home hp hunits hmem
  · cases hu

/-! ## What is found at the paths of a home -/

theorem resolve_home (doc : LoroDoc) (home : Home) :
    doc.resolve [.key home.asStr] = some (.map (doc.records home)) := by
  show Stored.walk (rootContainer doc home.asStr) [] = _
  unfold rootContainer
  rw [walk_nil, if_neg (home_ne home).1, if_neg (home_ne home).2, find_home]

theorem resolve_record (doc : LoroDoc) (home : Home) (id : String) :
    doc.resolve [.key home.asStr, .key id] = (doc.records home).get id :=
  resolve_snoc (resolve_home doc home) (.key id)

theorem resolve_outline {doc : LoroDoc} {home : Home} {id : String} {record : LoroMap}
    (hr : (doc.records home).get id = some (.map record)) :
    doc.resolve [.key home.asStr, .key id, .key "outline"] = record.get "outline" := by
  have hrecord : doc.resolve [.key home.asStr, .key id] = some (.map record) :=
    (resolve_record doc home id).trans hr
  exact resolve_snoc hrecord (.key "outline")

theorem resolve_node {doc : LoroDoc} {home : Home} {id : String} {record : LoroMap}
    {nodes : List (TreeNode LoroMap)} (hr : (doc.records home).get id = some (.map record))
    (ho : record.get "outline" = some (.tree nodes)) {node : TreeId} {n : TreeNode LoroMap}
    (hn : nodes.find? (fun n => n.id = node) = some n) (hd : n.deleted = false) :
    doc.resolve [.key home.asStr, .key id, .key "outline", .node node] = some (.map n.data) := by
  have houtline : doc.resolve [.key home.asStr, .key id, .key "outline"] = some (.tree nodes) :=
    (resolve_outline hr).trans ho
  refine (resolve_snoc houtline (.node node)).trans ?_
  show (nodes.find? fun n => n.id = node).bind _ = _
  rw [hn, Option.bind_some, hd]
  rfl

/-- What is below a path can be reached only through it. -/
theorem isSome_of_below {doc : LoroDoc} {path rest : Path} (hp : path ≠ [])
    (h : (doc.resolve (path ++ rest)).isSome = true) : (doc.resolve path).isSome = true := by
  rw [resolve_append hp] at h
  cases hr : doc.resolve path with
  | none =>
    rw [hr] at h
    cases h
  | some v => rfl

/-! ## What the units say about the new document -/

section

variable {old new : LoroDoc}

theorem walk_cons_isSome {v : Stored} {i : Index} {rest : Path}
    (h : (Stored.walk v (i :: rest)).isSome = true) : (Stored.step v i).isSome = true := by
  rw [walk_cons] at h
  cases hs : Stored.step v i with
  | none =>
    rw [hs] at h
    cases h
  | some w => rfl

theorem record_isSome {e : ContainerDiff} {home : Home} {id : String} {rest : Path}
    (hp : e.path = .key home.asStr :: .key id :: rest) {v : Stored}
    (hv : new.resolve e.path = some v) : ((new.records home).get id).isSome = true := by
  have hbelow : (new.resolve ([.key home.asStr, .key id] ++ rest)).isSome = true := by
    show (new.resolve (.key home.asStr :: .key id :: rest)).isSome = true
    rw [← hp, hv]
    rfl
  rw [← resolve_record]
  exact isSome_of_below (List.cons_ne_nil _ _) hbelow

/-- A document that is to be validated is there. -/
theorem present_of_document (h : Reports old new events) (hfull : (record events).full = false)
    {home : Home} {id : String} (hd : (home, id) ∈ (record events).documents) :
    ((new.records home).get id).isSome = true := by
  obtain ⟨e, he, units, hu, hmem⟩ := ((record_spec hfull).2 (.document home id)).mp hd
  obtain ⟨v, hv, hfits⟩ := h.reachable e he
  rcases origin hu hmem with ⟨rest, hp⟩ | ⟨rest, updated, hp, hrest, hdiff, value, hvalue⟩
  · exact record_isSome hp hv
  · rw [hp] at hv
    have hroot : Stored.walk (rootContainer new home.asStr) rest = some v := hv
    have hcontainer := resolve_home new home
    have hcontainer : rootContainer new home.asStr = .map (new.records home) :=
      Option.some.inj hcontainer
    rw [hcontainer] at hroot
    match rest, hrest, hroot with
    | [], _, hroot =>
      obtain rfl := Option.some.inj hroot
      rw [hdiff] at hfits
      exact (hfits _ hvalue).symm
    | .key name :: deeper, hrest, _ => exact absurd rfl (hrest name deeper)
    | .node _ :: _, _, hroot => cases hroot
    | .seq _ :: _, _, hroot => cases hroot

theorem present_of_header (h : Reports old new events) (hfull : (record events).full = false)
    {home : Home} {id : String} (hd : (home, id) ∈ (record events).headers) :
    ((new.records home).get id).isSome = true := by
  obtain ⟨e, he, units, hu, hmem⟩ := ((record_spec hfull).2 (.header home id)).mp hd
  obtain ⟨v, hv, _⟩ := h.reachable e he
  obtain ⟨rest, hp⟩ := origin hu hmem
  exact record_isSome hp hv

/-- A block that is to be validated is there. -/
theorem present_of_block (h : Reports old new events) (hfull : (record events).full = false)
    {home : Home} {id : String} {node : TreeId}
    (hd : (home, id, node) ∈ (record events).blocks) :
    ((new.records home).get id).isSome = true ∧ ∀ record nodes,
      (new.records home).get id = some (.map record) →
        LoroMap.get record "outline" = some (.tree nodes) → Visible nodes node := by
  obtain ⟨e, he, units, hu, hmem⟩ := ((record_spec hfull).2 (.block home id node)).mp hd
  obtain ⟨v, hv, hfits⟩ := h.reachable e he
  obtain ⟨rest, hp, hrest⟩ := origin hu hmem
  refine ⟨record_isSome hp hv, fun record nodes hrecord houtline => ?_⟩
  have htree := (resolve_outline hrecord).trans houtline
  rcases hrest with ⟨rfl, items, hdiff, hitem⟩ | ⟨deeper, rfl⟩
  · rw [hp, htree] at hv
    obtain rfl := Option.some.inj hv
    rw [hdiff] at hfits
    exact hfits _ hitem rfl
  · have hbelow : (new.resolve ([.key home.asStr, .key id, .key "outline"] ++
        (.node node :: deeper))).isSome = true := by
      show (new.resolve (.key home.asStr :: .key id :: .key "outline" :: .node node :: deeper)).isSome
        = true
      rw [← hp, hv]
      rfl
    rw [resolve_append (List.cons_ne_nil _ _), htree, Option.bind_some] at hbelow
    have hstep := walk_cons_isSome hbelow
    obtain ⟨data, hdata⟩ := Option.isSome_iff_exists.mp hstep
    obtain ⟨n, hn, hvisible⟩ := Option.bind_eq_some_iff.mp hdata
    refine ⟨n, hn, ?_⟩
    cases hdeleted : n.deleted with
    | false => rfl
    | true =>
      rw [hdeleted] at hvisible
      cases hvisible

/-! ## What was there before -/

/-- A document that is not to be validated completely is of the same type as before. -/
theorem shell_record (h : Reports old new events) (hfull : (record events).full = false)
    {home : Home} {id : String} (hd : (home, id) ∉ (record events).documents) :
    ((old.records home).get id).map Stored.shell = ((new.records home).get id).map Stored.shell := by
  obtain ⟨before, hbefore, hkeys, _⟩ :=
    h.maps _ _ (resolve_home new home) (not_fresh_root hfull _)
  rw [resolve_home] at hbefore
  obtain rfl := Stored.map.inj (Option.some.inj hbefore)
  refine hkeys id fun e he hp updated hdiff hmem => ?_
  obtain ⟨updated', hdiff', hall⟩ := home_event hfull he hp
  rw [hdiff] at hdiff'
  obtain rfl := Diff.map.inj hdiff'
  obtain ⟨u, hu, rfl⟩ := List.mem_map.mp hmem
  exact hd (hall u hu).2

theorem isSome_old (h : Reports old new events) (hfull : (record events).full = false)
    {home : Home} {id : String} (hd : (home, id) ∉ (record events).documents) :
    ((old.records home).get id).isSome = ((new.records home).get id).isSome := by
  have hshell := congrArg Option.isSome (shell_record h hfull hd)
  rwa [Option.isSome_map, Option.isSome_map] at hshell

/-- No document is removed. -/
theorem contains_mono (h : Reports old new events) (hfull : (record events).full = false)
    (id : PageId) (hc : old.contains id = true) : new.contains id = true := by
  unfold LoroDoc.contains at hc ⊢
  obtain ⟨home, hhome, hthere⟩ := List.any_eq_true.mp hc
  refine List.any_eq_true.mpr ⟨home, hhome, ?_⟩
  by_cases hd : (home, id.asStr) ∈ (record events).documents
  · exact present_of_document h hfull hd
  · rw [← isSome_old h hfull hd]
    exact hthere

/-- An id is in no more homes than before, unless a document with it was added. -/
theorem requireSingle_of_old (h : Reports old new events) (hfull : (record events).full = false)
    {id : String} (hnone : ∀ home, (home, id) ∉ (record events).documents)
    (hold : requireSingle old id = .ok ()) : requireSingle new id = .ok () := by
  have hsame : ∀ home, ((old.records home).get id).isSome = ((new.records home).get id).isSome :=
    fun home => isSome_old h hfull (hnone home)
  unfold requireSingle at hold ⊢
  simpa only [hsame] using hold

/-! ## Roots -/

/-- A root container of which nothing is reported. -/
theorem bare_root (h : Reports old new events) (hfull : (record events).full = false)
    {name : String} {before after : LoroMap} (hk : Keyed (.map after))
    (hnew : new.resolve [.key name] = some (.map after))
    (hold : old.resolve [.key name] = some (.map before))
    (hnone : ∀ e ∈ events, keyAt e.path 0 ≠ some name) : bareMap before = bareMap after := by
  have hquiet : Quiet new events [.key name] := by
    intro e he hstart
    obtain ⟨rest, hrest⟩ := hstart
    refine absurd ?_ (hnone e he)
    rw [← hrest]
    rfl
  obtain ⟨w, hw, hbare⟩ :=
    bare_of_quiet h hk _ hnew (.inl ⟨after, rfl⟩) (not_fresh_root hfull _) hquiet
  rw [hold] at hw
  obtain rfl := Option.some.inj hw
  exact Stored.map.inj hbare

/-- A diff of the metadata or of the settings is a unit. -/
theorem has_root (hfull : (record events).full = false) {name : String} {u : ValidationUnit}
    (hroot : name = "meta" ∧ u = .metadata ∨ name = "graph_settings" ∧ u = .settings)
    {e : ContainerDiff} (he : e ∈ events) (hkey : keyAt e.path 0 = some name) :
    (record events).Has u := by
  have hsome := (record_spec hfull).1 e he
  have hunits : unitsOf e = some [u] := by
    unfold unitsOf at hsome ⊢
    split at hsome
    · cases hsome
    · next hknown =>
      rw [if_neg hknown]
      match hp : e.path with
      | [] =>
        rw [hp] at hkey
        cases hkey
      | .node _ :: _ =>
        rw [hp] at hkey
        cases hkey
      | .seq _ :: _ =>
        rw [hp] at hkey
        cases hkey
      | .key root :: rest =>
        rw [hp] at hkey
        obtain rfl := Option.some.inj hkey
        rcases hroot with ⟨rfl, rfl⟩ | ⟨rfl, rfl⟩ <;> rfl
  exact has_of_mem hfull he hunits (List.mem_singleton_self _)

/-! ## Documents that were not added -/

/-- A record that the update leaves in its place. -/
structure Standing (host : Storage) (old new : LoroDoc) (home : Home) (id : String)
    (before after : LoroMap) (nodes : List (TreeNode LoroMap)) : Prop where
  stood : (old.records home).get id = some (.map before)
  stands : (new.records home).get id = some (.map after)
  header : validateHeader host home id (old.records home) = .ok (nodes, ownerLabel home id)
  outline : LoroMap.get before "outline" = some (.tree nodes)
  blocks : ∀ n ∈ nodes,
    validateOutlineNode host old nodes (ownerLabel home id) n.id = .ok ()

theorem standing (h : Reports old new events) (hfull : (record events).full = false)
    {graphId : GraphId} (hold : validateCausalDocument host old graphId = .ok ()) {home : Home}
    {id : String} (hd : (home, id) ∉ (record events).documents)
    (hid : id ∈ keys (new.records home)) :
    ∃ before after nodes, Standing host old new home id before after nodes := by
  have hshell := shell_record h hfull hd
  obtain ⟨v, hv⟩ := Option.isSome_iff_exists.mp (get_isSome_of_mem_keys hid)
  rw [hv, Option.map_some] at hshell
  obtain ⟨w, hw, hwv⟩ := Option.map_eq_some_iff.mp hshell
  obtain ⟨_, hdocument⟩ := (validateCausalDocument_eq_ok.mp hold).2.1 home id (mem_keys hw)
  obtain ⟨header, hheader, hnodes⟩ := validateDocument_outline.mp hdocument
  obtain ⟨howner, before, hbefore, houtline⟩ := outline_of_header host hheader
  rw [hw] at hbefore
  obtain rfl := Option.some.inj hbefore
  have hmap : ∃ after, v = .map after := by
    cases v with
    | map after => exact ⟨after, rfl⟩
    | _ => cases hwv
  obtain ⟨after, rfl⟩ := hmap
  refine ⟨before, after, header.1, hw, hv, ?_, houtline, ?_⟩
  · rw [hheader, ← howner]
  · rw [← howner]
    exact hnodes

/-- No diff of the home says that a standing record is new. -/
theorem not_fresh_record (hfull : (record events).full = false) {home : Home} {id : String}
    (hd : (home, id) ∉ (record events).documents) :
    ¬Fresh events [.key home.asStr, .key id] := by
  rintro ⟨parent, i, hpath, e, he, hparent, hmentions⟩
  have hsplit : [Index.key home.asStr] ++ [Index.key id] = parent ++ [i] := hpath
  obtain ⟨rfl, hi⟩ := List.append_inj' hsplit rfl
  obtain rfl := List.singleton_inj.mp hi
  obtain ⟨updated, hdiff, hall⟩ := home_event hfull he hparent
  rw [hdiff] at hmentions
  obtain ⟨value, hvalue⟩ := hmentions
  exact hd (hall _ hvalue).2

/-- Nor is a diff of the record itself reported, so its outline is the one it had. -/
theorem not_fresh_outline (hfull : (record events).full = false) {home : Home} {id : String}
    (hd : (home, id) ∉ (record events).documents) :
    ¬Fresh events [.key home.asStr, .key id, .key "outline"] := by
  rintro ⟨parent, i, hpath, e, he, hparent, _⟩
  have hsplit : [Index.key home.asStr, .key id] ++ [Index.key "outline"] = parent ++ [i] := hpath
  obtain ⟨rfl, _⟩ := List.append_inj' hsplit rfl
  rcases document_event hfull he hparent with hin | ⟨_, _, hrest, _⟩ | ⟨hrest, _⟩ | ⟨_, _, hrest, _⟩
  · exact hd hin
  · cases hrest
  · cases hrest
  · cases hrest

/-- The fields of a record of which no header is to be validated. -/
theorem bare_record (h : Reports old new events) (hfull : (record events).full = false)
    (hk : new.Keyed) {home : Home} {id : String} (hd : (home, id) ∉ (record events).documents)
    (hh : (home, id) ∉ (record events).headers) {before after : LoroMap}
    (hbefore : (old.records home).get id = some (.map before))
    (hafter : (new.records home).get id = some (.map after)) : bareMap before = bareMap after := by
  have hresolve : new.resolve [.key home.asStr, .key id] = some (.map after) :=
    (resolve_record new home id).trans hafter
  have hquiet : Quiet new events [.key home.asStr, .key id] := by
    intro e he hstart
    obtain ⟨rest, hrest⟩ := hstart
    have hp : e.path = .key home.asStr :: .key id :: rest := hrest.symm
    obtain ⟨v, hv, hfits⟩ := h.reachable e he
    rcases document_event hfull he hp with hin | ⟨_, _, _, _, hin⟩ | ⟨rfl, items, hdiff, _⟩ |
        ⟨node, deeper, rfl, _⟩
    · exact absurd hin hd
    · exact absurd hin hh
    · -- the diff is about the outline itself
      refine ⟨e.path, v, ⟨[.key "outline"], hrest⟩, List.prefix_refl _, hv, ?_⟩
      rw [hdiff] at hfits
      cases v with
      | tree nodes => exact ⟨fun _ h => (nomatch h), fun h => nomatch h⟩
      | _ => exact False.elim hfits
    · -- the diff is about a block, which is below the outline
      have hpath : e.path =
          [.key home.asStr, .key id, .key "outline"] ++ (.node node :: deeper) := hp
      have hbelow : (new.resolve ([.key home.asStr, .key id, .key "outline"] ++
          (.node node :: deeper))).isSome = true := by
        rw [← hpath, hv]
        rfl
      obtain ⟨w, hw⟩ :=
        Option.isSome_iff_exists.mp (isSome_of_below (List.cons_ne_nil _ _) hbelow)
      rw [resolve_append (List.cons_ne_nil _ _), hw, Option.bind_some] at hbelow
      refine ⟨_, w, ⟨[.key "outline"], rfl⟩, ⟨.node node :: deeper, hpath.symm⟩, hw, ?_⟩
      have hstep := walk_cons_isSome hbelow
      cases w with
      | tree nodes => exact ⟨fun _ h => (nomatch h), fun h => nomatch h⟩
      | other => exact ⟨fun _ h => (nomatch h), fun h => nomatch h⟩
      | _ => cases hstep
  obtain ⟨w, hw, hbare⟩ := bare_of_quiet h ((hk.records home).get hafter) _ hresolve
    (.inl ⟨after, rfl⟩) (not_fresh_record hfull hd) hquiet
  rw [resolve_record, hbefore] at hw
  obtain rfl := Option.some.inj hw
  exact Stored.map.inj hbare

/-- The header of a document that was not added holds as it did. -/
theorem header_of_scoped (h : Reports old new events) (hfull : (record events).full = false)
    (hk : new.Keyed) {home : Home} {id : String} (hd : (home, id) ∉ (record events).documents)
    {before after : LoroMap} {nodes : List (TreeNode LoroMap)}
    (hs : Standing host old new home id before after nodes)
    (hheaders : (home, id) ∈ (record events).headers →
      validateDocument host new home id false = .ok ()) :
    ∃ header, validateHeader host home id (new.records home) = .ok header := by
  by_cases hh : (home, id) ∈ (record events).headers
  · exact validateDocument_header.mp (hheaders hh)
  · have hbare := bare_record h hfull hk hd hh hs.stood hs.stands
    have hget : ((old.records home).get id).map bare = ((new.records home).get id).map bare := by
      rw [hs.stood, hs.stands]
      exact congrArg (some ∘ Stored.map) hbare
    obtain ⟨outline, hheader⟩ := validateHeader_congr host hget hs.header
    exact ⟨_, hheader⟩

/-- A block that is shown and was not touched holds as it did. -/
theorem block_of_scoped (h : Reports old new events) (hfull : (record events).full = false)
    (hk : new.Keyed) {home : Home} {id : String} (hd : (home, id) ∉ (record events).documents)
    {before after : LoroMap} {nodes outline : List (TreeNode LoroMap)}
    (hs : Standing host old new home id before after nodes)
    (houtline : LoroMap.get after "outline" = some (.tree outline)) {n : TreeNode LoroMap}
    (hn : outline.find? (fun m => m.id = n.id) = some n) (hvisible : n.deleted = false)
    (hb : (home, id, n.id) ∉ (record events).blocks) :
    validateOutlineNode host new outline (ownerLabel home id) n.id = .ok () := by
  have htree := (resolve_outline hs.stands).trans houtline
  have hfresh : ¬Fresh events [.key home.asStr, .key id, .key "outline"] :=
    not_fresh_outline hfull hd
  have hnotCreated :
      ¬Fresh events ([.key home.asStr, .key id, .key "outline"] ++ [.node n.id]) := by
    rintro ⟨parent, i, hpath, e, he, hparent, hmentions⟩
    obtain ⟨rfl, hi⟩ := List.append_inj' hpath rfl
    obtain rfl := List.singleton_inj.mp hi
    rcases document_event hfull he hparent with hin | ⟨_, _, hrest, hne, _⟩ |
        ⟨_, items, hdiff, hitems⟩ | ⟨_, _, hrest, _⟩
    · exact hd hin
    · obtain ⟨hfield, _⟩ := List.cons.inj hrest
      exact hne (Index.key.inj hfield).symm
    · rw [hdiff] at hmentions
      exact hb (hitems _ hmentions rfl)
    · cases hrest
  obtain ⟨nodes', hnodes', m, hm, hmvisible⟩ :=
    h.trees _ outline n.id htree ⟨n, hn, hvisible⟩ hfresh hnotCreated
  -- the outline is the one of the record before
  rw [resolve_outline hs.stood, hs.outline] at hnodes'
  obtain rfl := Stored.tree.inj (Option.some.inj hnodes')
  have hdata := resolve_node hs.stands houtline hn hvisible
  have hquiet : Quiet new events [.key home.asStr, .key id, .key "outline", .node n.id] := by
    intro e he hstart
    obtain ⟨rest, hrest⟩ := hstart
    have hp : e.path = .key home.asStr :: .key id :: .key "outline" :: .node n.id :: rest :=
      hrest.symm
    rcases document_event hfull he hp with hin | ⟨_, _, hrest, hne, _⟩ | ⟨hrest, _⟩ |
        ⟨node, _, hrest, hin⟩
    · exact absurd hin hd
    · obtain ⟨hfield, _⟩ := List.cons.inj hrest
      exact absurd (Index.key.inj hfield).symm hne
    · cases hrest
    · obtain ⟨_, hrest⟩ := List.cons.inj hrest
      obtain ⟨hnode, _⟩ := List.cons.inj hrest
      rw [← Index.node.inj hnode] at hin
      exact absurd hin hb
  have hkeyed : Keyed (.map n.data) := by
    have htreeKeyed := ((hk.records home).get hs.stands).get houtline
    cases htreeKeyed with
    | tree _ _ hdata => exact hdata n (List.mem_of_find?_eq_some hn)
  obtain ⟨w, hw, hbare⟩ := bare_of_quiet h hkeyed _ hdata (.inl ⟨_, rfl⟩) hnotCreated hquiet
  rw [resolve_node hs.stood hs.outline hm hmvisible] at hw
  obtain rfl := Option.some.inj hw
  have hbare : bareMap m.data = bareMap n.data := Stored.map.inj hbare
  have hid : m.id = n.id := of_decide_eq_true
    (List.find?_some (p := fun k : TreeNode LoroMap => decide (k.id = n.id)) hm)
  have hbefore := hs.blocks m (List.mem_of_find?_eq_some hm)
  rw [hid, validateOutlineNode_eq host hm, hmvisible, Bool.and_false,
    if_neg Bool.false_ne_true, ← validateNodeData_bareMap, hbare, validateNodeData_bareMap] at hbefore
  rw [validateOutlineNode_eq host hn, hvisible, Bool.and_false, if_neg Bool.false_ne_true]
  exact validateNodeData_mono host (contains_mono h hfull) hbefore

end

end

/-! ## Scoped validation -/

/-- What the scoped validation checks of the units. -/
structure UnitsValid (host : Storage) (doc : LoroDoc) (graphId : GraphId)
    (changes : CausalChanges) : Prop where
  metadata : changes.metadata = true → validateMetadata doc graphId = .ok ()
  settings : changes.settings = true → validateGraphSettings host doc = .ok ()
  documents : ∀ home id, (home, id) ∈ changes.documents → requireSingle doc id = .ok () ∧
    validateDocument host doc home id true = .ok ()
  headers : ∀ home id, (home, id) ∈ changes.headers → (home, id) ∉ changes.documents →
    validateDocument host doc home id false = .ok ()
  blocks : ∀ home id node, (home, id, node) ∈ changes.blocks → (home, id) ∉ changes.documents →
    validateBlock host doc home id node = .ok ()

theorem validateIf_eq_ok {b : Bool} {x : Except CoreError Unit} {u : Unit} :
    validateIf b x = .ok u ↔ (b = true → x = .ok ()) := by
  cases b with
  | false => exact iff_of_true rfl fun h => nomatch h
  | true => exact ⟨fun h _ => h, fun h => h rfl⟩

theorem validateUnits_eq_ok {doc : LoroDoc} {changes : CausalChanges} {u : Unit} :
    validateUnits host doc changes = .ok u ↔
      (∀ d ∈ changes.documents, requireSingle doc d.2 = .ok () ∧
        validateDocument host doc d.1 d.2 true = .ok ()) ∧
      (∀ d ∈ changes.headers, d ∉ changes.documents →
        validateDocument host doc d.1 d.2 false = .ok ()) ∧
      ∀ b ∈ changes.blocks, (b.1, b.2.1) ∉ changes.documents →
        validateBlock host doc b.1 b.2.1 b.2.2 = .ok () := by
  have hskip : ∀ (c : Prop) [Decidable c] (x : Except CoreError Unit),
      (if c then .ok () else x) = .ok () ↔ (¬c → x = .ok ()) := by
    intro c _ x
    split
    · next hc => exact iff_of_true rfl fun hn => absurd hc hn
    · next hc => exact ⟨fun hx _ => hx, fun hx => hx hc⟩
  have hthen : ∀ x y : Except CoreError Unit, (x >>= fun _ => y) = .ok () ↔
      x = .ok () ∧ y = .ok () := by
    intro x y
    rw [bind_eq_ok]
    exact ⟨fun ⟨_, hx, hy⟩ => ⟨hx, hy⟩, fun ⟨hx, hy⟩ => ⟨(), hx, hy⟩⟩
  unfold validateUnits
  simp only [hthen, checkAll_eq_ok, hskip]

theorem validateCausalChanges_eq_ok {doc : LoroDoc} {graphId : GraphId} {changes : CausalChanges}
    (hfull : changes.full = false) {u : Unit} :
    validateCausalChanges host doc graphId changes = .ok u ↔
      UnitsValid host doc graphId changes := by
  unfold validateCausalChanges
  rw [hfull, if_neg Bool.false_ne_true]
  constructor
  · intro h
    obtain ⟨_, hmetadata, h⟩ := bind_eq_ok.mp h
    obtain ⟨_, hsettings, h⟩ := bind_eq_ok.mp h
    obtain ⟨hdocuments, hheaders, hblocks⟩ := validateUnits_eq_ok.mp h
    exact ⟨validateIf_eq_ok.mp hmetadata, validateIf_eq_ok.mp hsettings,
      fun home id hd => hdocuments (home, id) hd, fun home id hh => hheaders (home, id) hh,
      fun home id node hb => hblocks (home, id, node) hb⟩
  · intro h
    refine bind_eq_ok.mpr ⟨(), validateIf_eq_ok.mpr h.metadata, bind_eq_ok.mpr
      ⟨(), validateIf_eq_ok.mpr h.settings, validateUnits_eq_ok.mpr ⟨?_, ?_, ?_⟩⟩⟩
    · exact fun d hd => h.documents d.1 d.2 hd
    · exact fun d hd => h.headers d.1 d.2 hd
    · exact fun b hb => h.blocks b.1 b.2.1 b.2.2 hb

theorem validateBlock_eq_ok {doc : LoroDoc} {home : Home} {id : String} {node : TreeId} {u : Unit} :
    validateBlock host doc home id node = .ok u ↔ ∃ record nodes,
      (doc.records home).get id = some (.map record) ∧
        LoroMap.get record "outline" = some (.tree nodes) ∧
          validateOutlineNode host doc nodes (ownerLabel home id) node = .ok () := by
  unfold validateBlock
  constructor
  · intro h
    obtain ⟨record, hrecord, h⟩ := bind_eq_ok.mp h
    obtain ⟨nodes, hnodes, h⟩ := bind_eq_ok.mp h
    exact ⟨record, nodes, child_eq_some.mp (orElse_eq_ok.mp hrecord), tree_of_required hnodes, h⟩
  · rintro ⟨record, nodes, hrecord, hnodes, h⟩
    refine bind_eq_ok.mpr ⟨record, orElse_eq_ok.mpr (child_eq_some.mpr hrecord),
      bind_eq_ok.mpr ⟨nodes, ?_, h⟩⟩
    unfold requiredChildTree
    rw [hnodes]
    rfl

variable {old new : LoroDoc} {events : List ContainerDiff} {graphId : GraphId}

theorem find_of_mem {nodes : List (TreeNode LoroMap)} (hn : (nodes.map TreeNode.id).Nodup)
    {n : TreeNode LoroMap} (h : n ∈ nodes) : nodes.find? (fun m => m.id = n.id) = some n := by
  cases hf : nodes.find? fun m => m.id = n.id with
  | none => exact absurd (decide_eq_true rfl) (List.find?_eq_none.mp hf n h)
  | some m =>
    have hid : m.id = n.id := of_decide_eq_true
      (List.find?_some (p := fun k : TreeNode LoroMap => decide (k.id = n.id)) hf)
    rw [List.inj_on_of_nodup_map hn (List.mem_of_find?_eq_some hf) h hid]

/-- Where the units are valid, everything is that the update shows. -/
theorem shown_of_units (h : Reports old new events) (hfull : (record events).full = false)
    (hk : new.Keyed) (hold : validateCausalDocument host old graphId = .ok ())
    (hu : UnitsValid host new graphId (record events)) :
    ShownValid host new graphId (record events) := by
  obtain ⟨hmetadata, hhomes, hsettings⟩ := validateCausalDocument_eq_ok.mp hold
  refine ⟨?_, ?_, ?_, ?_⟩
  · cases hm : (record events).metadata with
    | true => exact hu.metadata hm
    | false =>
      have hnone : ∀ e ∈ events, keyAt e.path 0 ≠ some "meta" := by
        intro e he hkey
        have hhas := has_root hfull (.inl ⟨rfl, rfl⟩) he hkey
        rw [show (record events).metadata = true from hhas] at hm
        cases hm
      rw [← hmetadata]
      exact (validateMetadata_congr (bare_root h hfull hk.metadata rfl rfl hnone) graphId).symm
  · cases hs : (record events).settings with
    | true => exact hu.settings hs
    | false =>
      have hnone : ∀ e ∈ events, keyAt e.path 0 ≠ some "graph_settings" := by
        intro e he hkey
        have hhas := has_root hfull (.inr ⟨rfl, rfl⟩) he hkey
        rw [show (record events).settings = true from hhas] at hs
        cases hs
      rw [← hsettings]
      exact (validateGraphSettings_congr host
        (bare_root h hfull hk.graphSettings rfl rfl hnone)).symm
  · intro home id hid
    by_cases hnone : ∀ home, (home, id) ∉ (record events).documents
    · obtain ⟨before, _, _, hs⟩ := standing h hfull hold (hnone home) hid
      exact requireSingle_of_old h hfull hnone (hhomes home id (mem_keys hs.stood)).1
    · push Not at hnone
      obtain ⟨home', hd⟩ := hnone
      exact (hu.documents home' id hd).1
  · intro home id hid
    by_cases hd : (home, id) ∈ (record events).documents
    · obtain ⟨header, hheader, hnodes⟩ := validateDocument_outline.mp (hu.documents home id hd).2
      exact ⟨header, hheader, fun n hn _ => hnodes n hn⟩
    · obtain ⟨before, after, nodes, hs⟩ := standing h hfull hold hd hid
      obtain ⟨header, hheader⟩ := header_of_scoped h hfull hk hd hs fun hh => hu.headers home id hh hd
      obtain ⟨howner, after', hafter, houtline⟩ := outline_of_header host hheader
      rw [hs.stands] at hafter
      obtain rfl := Stored.map.inj (Option.some.inj hafter)
      refine ⟨header, hheader, fun n hn hvisible => ?_⟩
      have hvisible : n.deleted = false := hvisible.resolve_right hd
      rw [howner]
      by_cases hb : (home, id, n.id) ∈ (record events).blocks
      · obtain ⟨record, outline, hrecord, houtline', hblock⟩ :=
          validateBlock_eq_ok.mp (hu.blocks home id n.id hb hd)
        rw [hs.stands] at hrecord
        obtain rfl := Stored.map.inj (Option.some.inj hrecord)
        rw [houtline] at houtline'
        obtain rfl := Stored.tree.inj (Option.some.inj houtline')
        exact hblock
      · have hkeyed := ((hk.records home).get hs.stands).get houtline
        have hfind : header.1.find? (fun m => m.id = n.id) = some n := by
          cases hkeyed with
          | tree _ hnodup _ => exact find_of_mem hnodup hn
        exact block_of_scoped h hfull hk hd hs houtline hfind hvisible hb

/-- Where everything is valid that the update shows, the units are. -/
theorem units_of_shown (h : Reports old new events) (hfull : (record events).full = false)
    (hs : ShownValid host new graphId (record events)) :
    UnitsValid host new graphId (record events) := by
  have hkey : ∀ home id, ((new.records home).get id).isSome = true → id ∈ keys (new.records home) := by
    intro home id hthere
    obtain ⟨v, hv⟩ := Option.isSome_iff_exists.mp hthere
    exact mem_keys hv
  refine ⟨fun _ => hs.metadata, fun _ => hs.settings, ?_, ?_, ?_⟩
  · intro home id hd
    have hid := hkey home id (present_of_document h hfull hd)
    obtain ⟨header, hheader, hnodes⟩ := hs.documents home id hid
    exact ⟨hs.single home id hid,
      validateDocument_outline.mpr ⟨header, hheader, fun n hn => hnodes n hn (.inr hd)⟩⟩
  · intro home id hh _
    obtain ⟨header, hheader, _⟩ := hs.documents home id (hkey home id (present_of_header h hfull hh))
    exact validateDocument_header.mpr ⟨header, hheader⟩
  · intro home id node hb _
    obtain ⟨hthere, hvisible⟩ := present_of_block h hfull hb
    obtain ⟨header, hheader, hnodes⟩ := hs.documents home id (hkey home id hthere)
    obtain ⟨howner, record, hrecord, houtline⟩ := outline_of_header host hheader
    obtain ⟨n, hn, hdeleted⟩ := hvisible record header.1 hrecord houtline
    have hid : n.id = node := of_decide_eq_true
      (List.find?_some (p := fun k : TreeNode LoroMap => decide (k.id = node)) hn)
    refine validateBlock_eq_ok.mpr ⟨record, header.1, hrecord, houtline, ?_⟩
    rw [← howner, ← hid]
    exact hnodes n (List.mem_of_find?_eq_some hn) (.inl hdeleted)

theorem validateCausalChanges_iff (h : Reports old new events)
    (hfull : (record events).full = false) (hk : new.Keyed)
    (hold : validateCausalDocument host old graphId = .ok ()) :
    validateCausalChanges host new graphId (record events) = .ok () ↔
      ShownValid host new graphId (record events) :=
  (validateCausalChanges_eq_ok hfull).trans
    ⟨shown_of_units h hfull hk hold, units_of_shown h hfull⟩

end Neoseq.Causal
