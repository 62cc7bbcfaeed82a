import Neoseq.Causal.Changes

/-! What the diffs of an import say about the document before it and after it. A
container that is still reachable and is not reported is as it was, deletions of tree
nodes hide what is below them. -/

namespace Neoseq.Causal
open Domain Document Neoseq.Core Content

/-! ## Paths -/

/-- One step down. A deleted node is out of reach; what stands in a container that no
reader looks into is not told apart. -/
def Stored.step : Stored → Index → Option Stored
  | .map entries, .key name => LoroMap.get entries name
  | .tree nodes, .node id =>
    (nodes.find? fun n => n.id = id).bind fun n => if n.deleted then none else some (.map n.data)
  | .other, _ => some .other
  | _, _ => none

def Stored.walk (v : Stored) (path : Path) : Option Stored := path.foldlM Stored.step v

def rootContainer (doc : LoroDoc) (name : String) : Stored :=
  if name = "meta" then .map doc.metadata
  else if name = "graph_settings" then .map doc.graphSettings
  else match homes.find? fun home => home.asStr = name with
  | some home => .map (doc.records home)
  | none => .other

/-- The value or container at a path. -/
def LoroDoc.resolve (doc : LoroDoc) : Path → Option Stored
  | .key root :: rest => Stored.walk (rootContainer doc root) rest
  | _ => none

theorem walk_nil (v : Stored) : Stored.walk v [] = some v := rfl

theorem walk_cons (v : Stored) (i : Index) (path : Path) :
    Stored.walk v (i :: path) = (Stored.step v i).bind fun w => Stored.walk w path := rfl

theorem walk_append (v : Stored) (path path' : Path) :
    Stored.walk v (path ++ path') = (Stored.walk v path).bind fun w => Stored.walk w path' := by
  unfold Stored.walk
  rw [List.foldlM_append]
  rfl

theorem resolve_append {doc : LoroDoc} {path : Path} (hp : path ≠ []) (path' : Path) :
    doc.resolve (path ++ path') = (doc.resolve path).bind fun w => Stored.walk w path' := by
  cases path with
  | nil => exact absurd rfl hp
  | cons i rest =>
    cases i with
    | key root => exact walk_append ..
    | node _ => rfl
    | seq _ => rfl

theorem resolve_ne_nil {doc : LoroDoc} {path : Path} {v : Stored} (h : doc.resolve path = some v) :
    path ≠ [] := by
  rintro rfl
  cases h

theorem resolve_snoc {doc : LoroDoc} {path : Path} {v : Stored} (h : doc.resolve path = some v)
    (i : Index) : doc.resolve (path ++ [i]) = Stored.step v i := by
  rw [resolve_append (resolve_ne_nil h), h, Option.bind_some, walk_cons]
  cases Stored.step v i <;> rfl

/-! ## Contents -/

/-- A value, or of a container its type. -/
def Stored.shell : Stored → Stored
  | .map _ => .map []
  | .text _ => .text ""
  | .markedText _ => .text ""
  | .tree _ => .tree []
  | s => s

/-- The node is there and not deleted. -/
def Visible (nodes : List (TreeNode LoroMap)) (id : TreeId) : Prop :=
  ∃ n, nodes.find? (fun n => n.id = id) = some n ∧ n.deleted = false

/-! ## Reports -/

/-- A diff says which child is new in the container. -/
def Diff.mentions : Diff → Index → Prop
  | .map updated, .key name => ∃ value, (name, some value) ∈ updated
  | .tree items, .node id => ⟨id, .create⟩ ∈ items
  | _, _ => False

/-- The container at the path is another one than before. -/
def Fresh (events : List ContainerDiff) (path : Path) : Prop :=
  ∃ parent i, path = parent ++ [i] ∧ ∃ e ∈ events, e.path = parent ∧ e.diff.mentions i

/-- The diff is one of the container: the keys of a map have the values it has now, and
nodes that are created are there. -/
def Diff.Fits : Diff → Stored → Prop
  | .map updated, .map entries => ∀ u ∈ updated, u.2.isSome = (LoroMap.get entries u.1).isSome
  | .tree items, .tree nodes => ∀ item ∈ items, item.action = .create → Visible nodes item.target
  | .text, .text _ => True
  | .text, .markedText _ => True
  | .other, .other => True
  | _, _ => False

/-- An import turns one document into another and reports these diffs: of containers
that are reachable in the new document, and of each whose contents changed. -/
structure Reports (old new : LoroDoc) (events : List ContainerDiff) : Prop where
  reachable : ∀ e ∈ events, ∃ v, new.resolve e.path = some v ∧ e.diff.Fits v
  maps : ∀ path entries, new.resolve path = some (.map entries) → ¬Fresh events path →
    ∃ before, old.resolve path = some (.map before) ∧
      (∀ key, (∀ e ∈ events, e.path = path → ∀ updated, e.diff = .map updated →
          key ∉ updated.map Prod.fst) →
        (LoroMap.get before key).map Stored.shell = (LoroMap.get entries key).map Stored.shell) ∧
      ((∀ e ∈ events, e.path ≠ path) → before.map (fun e => (e.1, Stored.shell e.2)) =
        entries.map fun e => (e.1, Stored.shell e.2))
  texts : ∀ path v, new.resolve path = some v → Stored.shell v = .text "" → ¬Fresh events path →
    (∀ e ∈ events, e.path ≠ path) → old.resolve path = some v
  trees : ∀ path nodes id, new.resolve path = some (.tree nodes) → Visible nodes id →
    ¬Fresh events path → ¬Fresh events (path ++ [.node id]) →
      ∃ before, old.resolve path = some (.tree before) ∧ Visible before id

/-! ## Without the trees -/

mutual

/-- A value with every tree emptied. -/
def bare : Stored → Stored
  | .map entries => .map (bareMap entries)
  | .tree _ => .tree []
  | s => s

def bareMap : List (String × Stored) → List (String × Stored)
  | [] => []
  | e :: rest => bareEntry e :: bareMap rest

def bareEntry : String × Stored → String × Stored
  | (key, value) => (key, bare value)

end

theorem bareMap_eq (m : LoroMap) : bareMap m = m.map fun e => (e.1, bare e.2) := by
  induction m with
  | nil => rfl
  | cons e rest ih =>
    obtain ⟨key, value⟩ := e
    rw [bareMap, bareEntry, ih, List.map_cons]

@[simp] theorem get_bareMap (m : LoroMap) (key : String) :
    LoroMap.get (bareMap m) key = (m.get key).map bare := by
  rw [bareMap_eq]
  unfold LoroMap.get
  induction m with
  | nil => rfl
  | cons e rest ih =>
    rw [List.map_cons, List.lookup_cons, List.lookup_cons, ih]
    cases key == e.1 <;> rfl

@[simp] theorem keys_bareMap (m : LoroMap) : keys (bareMap m) = keys m := by
  rw [bareMap_eq]
  unfold keys
  rw [List.map_map]
  rfl

/-- Values that look alike from outside are alike without the trees, unless they are
maps or texts. -/
theorem bare_eq_of_shell {v w : Stored} (h : Stored.shell w = Stored.shell v)
    (hmap : ∀ entries, v ≠ .map entries) (htext : Stored.shell v ≠ .text "") : bare w = bare v := by
  cases v with
  | map entries => exact absurd rfl (hmap entries)
  | text value => exact absurd rfl htext
  | markedText segments => exact absurd rfl htext
  | bool value =>
    cases w <;> cases h
    rfl
  | i64 value =>
    cases w <;> cases h
    rfl
  | string value =>
    cases w <;> cases h
    rfl
  | tree nodes =>
    cases w <;> cases h
    rfl
  | other =>
    cases w <;> cases h
    rfl

/-- Maps with the same keys in the same order, compared entry by entry. -/
theorem bareMap_congr {before entries : LoroMap}
    (hshell : before.map (fun e => (e.1, Stored.shell e.2)) =
      entries.map fun e => (e.1, Stored.shell e.2))
    (hbare : ∀ e ∈ before, ∀ f ∈ entries, e.1 = f.1 → Stored.shell e.2 = Stored.shell f.2 →
      bare e.2 = bare f.2) : bareMap before = bareMap entries := by
  induction entries generalizing before with
  | nil =>
    rw [List.map_eq_nil_iff.mp hshell]
  | cons f rest ih =>
    cases before with
    | nil => cases hshell
    | cons e before =>
      rw [List.map_cons, List.map_cons] at hshell
      obtain ⟨hfirst, hrest⟩ := List.cons.inj hshell
      obtain ⟨hkey, hvalue⟩ := Prod.mk.inj hfirst
      have hentry : (e.1, bare e.2) = (f.1, bare f.2) := Prod.ext hkey
        (hbare e (List.mem_cons_self ..) f (List.mem_cons_self ..) hkey hvalue)
      have htail : bareMap before = bareMap rest := ih hrest fun a ha b hb =>
        hbare a (List.mem_cons_of_mem _ ha) b (List.mem_cons_of_mem _ hb)
      rw [bareMap_eq, bareMap_eq] at htail ⊢
      rw [List.map_cons, List.map_cons, hentry, htail]

/-! ## What is not reported -/

/-- Every diff at or below the path is about a container that is neither a map nor a
text, or about what is below one. -/
def Quiet (new : LoroDoc) (events : List ContainerDiff) (path : Path) : Prop :=
  ∀ e ∈ events, path <+: e.path → ∃ q v, path <+: q ∧ q <+: e.path ∧ new.resolve q = some v ∧
    (∀ entries, v ≠ .map entries) ∧ Stored.shell v ≠ .text ""

theorem Quiet.unreported {new : LoroDoc} {events : List ContainerDiff} {path : Path}
    (h : Quiet new events path) {v : Stored} (hv : new.resolve path = some v)
    (hkind : (∃ entries, v = .map entries) ∨ Stored.shell v = .text "") :
    ∀ e ∈ events, e.path ≠ path := by
  intro e he hpath
  obtain ⟨q, w, hpq, hqe, hw, hmap, htext⟩ := h e he (hpath ▸ List.prefix_refl _)
  have hq : q = path := List.IsPrefix.eq_of_length hqe
    (le_antisymm hqe.length_le (hpath ▸ hpq.length_le)) |>.trans hpath
  rw [hq, hv] at hw
  obtain rfl := Option.some.inj hw
  rcases hkind with ⟨entries, rfl⟩ | hshell
  · exact hmap entries rfl
  · exact htext hshell

theorem Quiet.snoc {new : LoroDoc} {events : List ContainerDiff} {path : Path}
    (h : Quiet new events path) {entries : LoroMap}
    (hv : new.resolve path = some (.map entries)) (i : Index) :
    Quiet new events (path ++ [i]) := by
  intro e he hstart
  obtain ⟨q, w, hpq, hqe, hw, hmap, htext⟩ :=
    h e he ((List.prefix_append path [i]).trans hstart)
  refine ⟨q, w, ?_, hqe, hw, hmap, htext⟩
  have hne : path.length ≠ q.length := by
    intro hlen
    have hq : path = q := hpq.eq_of_length hlen
    rw [← hq, hv] at hw
    exact hmap entries (Option.some.inj hw).symm
  have hlen := hpq.length_le
  refine List.prefix_of_prefix_length_le hstart hqe ?_
  rw [List.length_append, List.length_singleton]
  omega

/-- What nothing is reported of is as it was, but for the trees in it. -/
theorem bare_of_quiet {old new : LoroDoc} {events : List ContainerDiff}
    (h : Reports old new events) {v : Stored} (hk : Keyed v) :
    ∀ path, new.resolve path = some v → (∃ entries, v = .map entries) ∨ Stored.shell v = .text "" →
      ¬Fresh events path → Quiet new events path →
        ∃ before, old.resolve path = some before ∧ bare before = bare v := by
  induction hk with
  | map entries hn _ ih =>
    intro path hv _ hfresh hquiet
    have hnone := hquiet.unreported hv (.inl ⟨entries, rfl⟩)
    obtain ⟨before, hbefore, _, hshell⟩ := h.maps path entries hv hfresh
    have hshell := hshell hnone
    refine ⟨.map before, hbefore, congrArg Stored.map (bareMap_congr hshell ?_)⟩
    intro e he f hf hkey hvalue
    -- the entry as it is found in either document
    have hkeys : keys before = keys entries := by
      have hfst := congrArg (List.map Prod.fst) hshell
      rwa [List.map_map, List.map_map] at hfst
    have hold : old.resolve (path ++ [.key e.1]) = some e.2 := by
      rw [resolve_snoc hbefore]
      exact get_of_mem (hkeys ▸ hn) he
    have hnew : new.resolve (path ++ [.key e.1]) = some f.2 := by
      rw [resolve_snoc hv, hkey]
      exact get_of_mem hn hf
    by_cases hkind : (∃ entries, f.2 = .map entries) ∨ Stored.shell f.2 = .text ""
    · have hnotFresh : ¬Fresh events (path ++ [.key e.1]) := by
        rintro ⟨parent, i, hpath, event, hevent, hparent, _⟩
        obtain ⟨rfl, _⟩ := List.append_inj' hpath rfl
        exact hnone event hevent hparent
      obtain ⟨w, hw, hbare⟩ := ih f hf _ hnew hkind hnotFresh (hquiet.snoc hv _)
      rw [hold] at hw
      rw [Option.some.inj hw, hbare]
    · push Not at hkind
      exact bare_eq_of_shell hvalue hkind.1 hkind.2
  | text value =>
    intro path hv _ hfresh hquiet
    exact ⟨_, h.texts path _ hv rfl hfresh (hquiet.unreported hv (.inr rfl)), rfl⟩
  | markedText segments =>
    intro path hv _ hfresh hquiet
    exact ⟨_, h.texts path _ hv rfl hfresh (hquiet.unreported hv (.inr rfl)), rfl⟩
  | bool _ => exact fun _ _ hkind => hkind.elim (fun ⟨_, he⟩ => nomatch he) fun he => nomatch he
  | i64 _ => exact fun _ _ hkind => hkind.elim (fun ⟨_, he⟩ => nomatch he) fun he => nomatch he
  | string _ => exact fun _ _ hkind => hkind.elim (fun ⟨_, he⟩ => nomatch he) fun he => nomatch he
  | tree _ => exact fun _ _ hkind => hkind.elim (fun ⟨_, he⟩ => nomatch he) fun he => nomatch he
  | other => exact fun _ _ hkind => hkind.elim (fun ⟨_, he⟩ => nomatch he) fun he => nomatch he

end Neoseq.Causal
