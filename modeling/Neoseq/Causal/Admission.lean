import Neoseq.Causal.Scoped

/-! Admission of updates at the server. Each import is validated by what it changed;
a reload of the room validates the whole document again. -/

namespace Neoseq.Causal
open Domain Document Neoseq.Core Content

variable (host : Storage) (graphId : GraphId)

/-- `admit_update`, on the document that the import leaves and the diffs it reports. -/
def admitUpdate (doc : LoroDoc) (events : List ContainerDiff) : Except CoreError Unit :=
  validateCausalChanges host doc graphId (record events)

/-- `from_checkpoint`, then the staged updates up to the last document, then
`finish_recovery`. -/
def reload (checkpoint last : LoroDoc) : Except CoreError Unit := do
  validateCausalDocument host checkpoint graphId
  validateCausalDocument host last graphId

/-- The update leaves nothing in sight that breaks a rule and a deleted block that does. -/
def Settled (doc : LoroDoc) (events : List ContainerDiff) : Prop :=
  (record events).full = false → ShownValid host doc graphId (record events) →
    HiddenValid host doc (record events)

/-- Updates admitted one after another, each of them settled. -/
inductive SettledRun (first : LoroDoc) : LoroDoc → Prop
  | refl : SettledRun first first
  | step {old new : LoroDoc} {events : List ContainerDiff} (run : SettledRun first old)
    (keyed : new.Keyed) (reports : Reports old new events)
    (admitted : admitUpdate host graphId new events = .ok ())
    (settled : Settled host graphId new events) : SettledRun first new

variable {host} {graphId} {old new : LoroDoc} {events : List ContainerDiff}

/-- On one update the scoped validation and that of the whole document agree exactly
where the update is settled. -/
theorem admit_agrees_iff (hk : new.Keyed) (h : Reports old new events)
    (hold : validateCausalDocument host old graphId = .ok ()) :
    (admitUpdate host graphId new events = .ok () ↔
        validateCausalDocument host new graphId = .ok ()) ↔ Settled host graphId new events := by
  unfold Settled admitUpdate
  cases hfull : (record events).full with
  | true =>
    refine iff_of_true ?_ fun h => nomatch h
    unfold validateCausalChanges
    rw [hfull, if_pos rfl]
  | false =>
    have hwhole : validateCausalDocument host new graphId = .ok () ↔
        ShownValid host new graphId (record events) ∧ HiddenValid host new (record events) :=
      validateCausalDocument_iff
    rw [validateCausalChanges_iff h hfull hk hold, hwhole]
    exact ⟨fun hiff _ hshown => (hiff.mp hshown).2,
      fun hsettled => ⟨fun hshown => ⟨hshown, hsettled rfl hshown⟩, fun hboth => hboth.1⟩⟩

theorem valid_of_run {first last : LoroDoc}
    (hfirst : validateCausalDocument host first graphId = .ok ())
    (hrun : SettledRun host graphId first last) :
    validateCausalDocument host last graphId = .ok () := by
  induction hrun with
  | refl => exact hfirst
  | step _ hkeyed hreports hadmitted hsettled ih =>
    exact ((admit_agrees_iff hkeyed hreports ih).mpr hsettled).mp hadmitted

/-- After a run of settled updates the room reloads from the document it began with,
and on the next update scoped admission and full validation agree exactly where that
update is settled too. -/
theorem admission_agrees_iff (host : Storage) (graphId : GraphId) (first old new : LoroDoc)
    (events : List ContainerDiff) (hfirst : validateCausalDocument host first graphId = .ok ())
    (hrun : SettledRun host graphId first old) (hk : new.Keyed) (h : Reports old new events) :
    reload host graphId first old = .ok () ∧
      ((admitUpdate host graphId new events = .ok () ↔
          validateCausalDocument host new graphId = .ok ()) ↔
        Settled host graphId new events) :=
  ⟨bind_eq_ok.mpr ⟨(), hfirst, valid_of_run hfirst hrun⟩,
    admit_agrees_iff hk h (valid_of_run hfirst hrun)⟩

/-! ## Updates that show nothing new -/

/-- A value looks as it did from outside and from one level inside. -/
structure Alike (before after : Stored) : Prop where
  map : ∀ entries, after = .map entries → ∃ entries', before = .map entries' ∧
    entries'.map (fun e => (e.1, Stored.shell e.2)) = entries.map fun e => (e.1, Stored.shell e.2)
  text : Stored.shell after = .text "" → before = after
  tree : ∀ nodes, after = .tree nodes → ∃ nodes', before = .tree nodes' ∧
    ∀ id, Visible nodes id → Visible nodes' id

/-- What can be reached in a value could be reached before, and was alike. -/
def Covers (before after : Stored) : Prop :=
  ∀ path v, Stored.walk after path = some v → ∃ w, Stored.walk before path = some w ∧ Alike w v

theorem covers_refl (v : Stored) : Covers v v :=
  fun _ w hw => ⟨w, hw, fun entries he => ⟨entries, he, rfl⟩, fun _ => rfl,
    fun nodes hn => ⟨nodes, hn, fun _ hv => hv⟩⟩

/-- It is enough to look at a value and at what is one step down. -/
theorem covers_of_step {before after : Stored} (ha : Alike before after)
    (hs : ∀ i v, Stored.step after i = some v → ∃ w, Stored.step before i = some w ∧ Covers w v) :
    Covers before after := by
  intro path v hv
  cases path with
  | nil =>
    obtain rfl := Option.some.inj hv
    exact ⟨before, rfl, ha⟩
  | cons i rest =>
    rw [walk_cons] at hv
    obtain ⟨child, hchild, hv⟩ := Option.bind_eq_some_iff.mp hv
    obtain ⟨w, hw, hcovers⟩ := hs i child hchild
    rw [walk_cons, hw]
    exact hcovers rest v hv

/-- Entries that look alike and cover each other, in the same order. -/
abbrev EntriesCover (before after : LoroMap) : Prop :=
  List.Forall₂ (fun e f => e.1 = f.1 ∧ Stored.shell e.2 = Stored.shell f.2 ∧ Covers e.2 f.2)
    before after

theorem shells_of_entries {before after : LoroMap} (h : EntriesCover before after) :
    before.map (fun e => (e.1, Stored.shell e.2)) = after.map fun e => (e.1, Stored.shell e.2) := by
  induction h with
  | nil => rfl
  | cons he _ ih => rw [List.map_cons, List.map_cons, he.1, he.2.1, ih]

theorem get_of_entries {before after : LoroMap} (h : EntriesCover before after) {key : String}
    {v : Stored} (hv : after.get key = some v) : ∃ w, before.get key = some w ∧ Covers w v := by
  induction h with
  | nil => cases hv
  | @cons e f before after he _ ih =>
    unfold LoroMap.get at hv ih ⊢
    rw [List.lookup_cons] at hv ⊢
    rw [he.1]
    cases hkey : key == f.1 with
    | true =>
      rw [hkey] at hv
      obtain rfl := Option.some.inj hv
      exact ⟨e.2, rfl, he.2.2⟩
    | false =>
      rw [hkey] at hv
      exact ih hv

theorem covers_map {before after : LoroMap} (h : EntriesCover before after) :
    Covers (.map before) (.map after) := by
  refine covers_of_step ⟨fun entries he => ?_, fun he => (nomatch he), fun _ he => (nomatch he)⟩ ?_
  · obtain rfl := Stored.map.inj he
    exact ⟨before, rfl, shells_of_entries h⟩
  · intro i v hv
    cases i with
    | key key => exact get_of_entries h hv
    | node _ => cases hv
    | seq _ => cases hv

/-- A tree that shows nothing. -/
theorem covers_hidden {before after : List (TreeNode LoroMap)}
    (h : ∀ n ∈ after, n.deleted = true) : Covers (.tree before) (.tree after) := by
  have hnone : ∀ id n, after.find? (fun n => n.id = id) = some n → n.deleted = true :=
    fun id n hn => h n (List.mem_of_find?_eq_some hn)
  refine covers_of_step ⟨fun _ he => (nomatch he), fun he => (nomatch he), fun nodes he => ?_⟩ ?_
  · obtain rfl := Stored.tree.inj he
    refine ⟨before, rfl, fun id hid => ?_⟩
    obtain ⟨n, hn, hvisible⟩ := hid
    rw [hnone id n hn] at hvisible
    cases hvisible
  · intro i v hv
    cases i with
    | key _ => cases hv
    | seq _ => cases hv
    | node id =>
      obtain ⟨n, hn, hvisible⟩ := Option.bind_eq_some_iff.mp hv
      rw [hnone id n hn] at hvisible
      cases hvisible

/-- An update after which every root is covered may report whatever is there. -/
theorem reports_of_covers (hroots : ∀ root, Covers (rootContainer old root) (rootContainer new root))
    (hevents : ∀ e ∈ events, ∃ v, new.resolve e.path = some v ∧ e.diff.Fits v) :
    Reports old new events := by
  have hresolve : ∀ path v, new.resolve path = some v →
      ∃ w, old.resolve path = some w ∧ Alike w v := by
    intro path v hv
    match path with
    | .key root :: rest => exact hroots root rest v hv
    | [] => cases hv
    | .node _ :: _ => cases hv
    | .seq _ :: _ => cases hv
  refine ⟨hevents, ?_, ?_, ?_⟩
  · intro path entries hv _
    obtain ⟨w, hw, halike⟩ := hresolve path _ hv
    obtain ⟨before, rfl, hshell⟩ := halike.map entries rfl
    refine ⟨before, hw, fun key _ => ?_, fun _ => hshell⟩
    have hmap : ∀ m : LoroMap, (LoroMap.get m key).map Stored.shell =
        LoroMap.get (m.map fun e => (e.1, Stored.shell e.2)) key := by
      intro m
      unfold LoroMap.get
      induction m with
      | nil => rfl
      | cons e rest ih =>
        rw [List.map_cons, List.lookup_cons, List.lookup_cons, ← ih]
        cases key == e.1 <;> rfl
    rw [hmap, hmap, hshell]
  · intro path v hv htext _ _
    obtain ⟨w, hw, halike⟩ := hresolve path v hv
    rw [hw, halike.text htext]
  · intro path nodes id hv hvisible _ _
    obtain ⟨w, hw, halike⟩ := hresolve path _ hv
    obtain ⟨before, rfl, hshown⟩ := halike.tree nodes rfl
    exact ⟨before, hw, hshown id hvisible⟩

/-! ## A block deleted with a broken text -/

def sampleField (value : String) : Stored :=
  .map [("shape", .string "string"), ("single", .string value)]

def sampleLifecycle : LoroMap :=
  [("builtin.created-at", sampleField "t0"), ("builtin.updated-at", sampleField "t0")]

def sampleRoot : LoroMap :=
  [("content", .text "Page"),
    ("properties", .map (("builtin.page-kind", sampleField "regular") :: sampleLifecycle)),
    ("tag_refs", .map [])]

def sampleNode (deleted : Bool) (content : String) : TreeNode LoroMap :=
  ⟨⟨0, 1⟩, deleted, [("content", .text content), ("properties", .map sampleLifecycle),
    ("tag_refs", .map [])]⟩

/-- A graph with one page and one block. -/
def sampleGraph (node : TreeNode LoroMap) : LoroDoc where
  metadata := [("graph_id", .string "g"), ("schema_version", .i64 9)]
  graphSettings := [("schema_version", .i64 1), ("default_queries", .map [])]
  entities := []
  pages := [("p", .map [("root", .map sampleRoot), ("outline", .tree [node])])]
  tags := []

def sampleDeletion : List ContainerDiff :=
  [⟨[.key "pages", .key "p", .key "outline"], .tree [⟨⟨0, 1⟩, .delete⟩], false⟩]

theorem reports_sampleDeletion (content content' : String) :
    Reports (sampleGraph (sampleNode false content)) (sampleGraph (sampleNode true content'))
      sampleDeletion := by
  have houtline : Covers (.tree [sampleNode false content]) (.tree [sampleNode true content']) :=
    covers_hidden (List.forall_mem_singleton.mpr rfl)
  have hpage : Covers (.map [("root", .map sampleRoot), ("outline", .tree [sampleNode false content])])
      (.map [("root", .map sampleRoot), ("outline", .tree [sampleNode true content'])]) :=
    covers_map (.cons ⟨rfl, rfl, covers_refl _⟩ (.cons ⟨rfl, rfl, houtline⟩ .nil))
  refine reports_of_covers (fun root => ?_) (List.forall_mem_singleton.mpr ⟨_, rfl, ?_⟩)
  · unfold rootContainer
    split
    · exact covers_refl _
    split
    · exact covers_refl _
    split
    · next home _ =>
      cases home with
      | entities => exact covers_refl _
      | pages => exact covers_map (.cons ⟨rfl, rfl, hpage⟩ .nil)
      | tags => exact covers_refl _
    · exact covers_refl _
  · exact List.forall_mem_singleton.mpr fun h => nomatch h

theorem keyed_sampleField (value : String) : Keyed (sampleField value) := by
  refine .map _ (show ["shape", "single"].Nodup by decide) ?_
  simp only [List.forall_mem_cons]
  exact ⟨.string _, .string _, nofun⟩

theorem keyed_sampleLifecycle : Keyed (.map sampleLifecycle) := by
  refine .map _ (show ["builtin.created-at", "builtin.updated-at"].Nodup by decide) ?_
  unfold sampleLifecycle
  simp only [List.forall_mem_cons]
  exact ⟨keyed_sampleField _, keyed_sampleField _, nofun⟩

theorem keyed_sampleNode (deleted : Bool) (content : String) :
    Keyed (.map (sampleNode deleted content).data) := by
  refine .map _ (show ["content", "properties", "tag_refs"].Nodup by decide) ?_
  unfold sampleNode
  simp only [List.forall_mem_cons]
  exact ⟨.text _, keyed_sampleLifecycle, .map _ List.nodup_nil nofun, nofun⟩

theorem keyed_sampleRoot : Keyed (.map sampleRoot) := by
  have hproperties :
      Keyed (.map (("builtin.page-kind", sampleField "regular") :: sampleLifecycle)) := by
    refine .map _ (show ["builtin.page-kind", "builtin.created-at", "builtin.updated-at"].Nodup
      by decide) ?_
    unfold sampleLifecycle
    simp only [List.forall_mem_cons]
    exact ⟨keyed_sampleField _, keyed_sampleField _, keyed_sampleField _, nofun⟩
  refine .map _ (show ["content", "properties", "tag_refs"].Nodup by decide) ?_
  unfold sampleRoot
  simp only [List.forall_mem_cons]
  exact ⟨.text _, hproperties, .map _ List.nodup_nil nofun, nofun⟩

theorem keyed_sampleGraph (deleted : Bool) (content : String) :
    (sampleGraph (sampleNode deleted content)).Keyed := by
  have hnil : Keyed (.map []) := .map _ List.nodup_nil nofun
  have hpage : Keyed (.map [("root", .map sampleRoot),
      ("outline", .tree [sampleNode deleted content])]) := by
    refine .map _ (show ["root", "outline"].Nodup by decide) ?_
    simp only [List.forall_mem_cons]
    exact ⟨keyed_sampleRoot, .tree _ (List.nodup_singleton _)
      (List.forall_mem_singleton.mpr (keyed_sampleNode deleted content)), nofun⟩
  refine ⟨.map _ ?_ ?_, .map _ ?_ ?_, fun home => ?_⟩
  · show ["graph_id", "schema_version"].Nodup
    decide
  · unfold sampleGraph
    simp only [List.forall_mem_cons]
    exact ⟨.string _, .i64 _, nofun⟩
  · show ["schema_version", "default_queries"].Nodup
    decide
  · unfold sampleGraph
    simp only [List.forall_mem_cons]
    exact ⟨.i64 _, hnil, nofun⟩
  · cases home with
    | entities => exact hnil
    | pages => exact .map _ (List.nodup_singleton _) (List.forall_mem_singleton.mpr hpage)
    | tags => exact hnil

/-- A deletion that leaves the text of the block as it was. -/
theorem admission_agrees_sample :
    reload sampleStorage ⟨"g", by decide⟩ (sampleGraph (sampleNode false "text"))
        (sampleGraph (sampleNode false "text")) = .ok () ∧
      ((admitUpdate sampleStorage ⟨"g", by decide⟩ (sampleGraph (sampleNode true "text"))
            sampleDeletion = .ok () ↔
          validateCausalDocument sampleStorage (sampleGraph (sampleNode true "text"))
            ⟨"g", by decide⟩ = .ok ()) ↔
        Settled sampleStorage ⟨"g", by decide⟩ (sampleGraph (sampleNode true "text"))
          sampleDeletion) :=
  admission_agrees_iff sampleStorage ⟨"g", by decide⟩ (sampleGraph (sampleNode false "text"))
    (sampleGraph (sampleNode false "text")) (sampleGraph (sampleNode true "text")) sampleDeletion
    rfl .refl (keyed_sampleGraph true "text") (reports_sampleDeletion "text" "text")

/-- A deletion that leaves a reserved character without its mark in the text of the
block: it is admitted, and the graph does not load again. -/
theorem deleted_block_admitted :
    ∃ old new events, validateCausalDocument sampleStorage old ⟨"g", by decide⟩ = .ok () ∧
      new.Keyed ∧ Reports old new events ∧
      admitUpdate sampleStorage ⟨"g", by decide⟩ new events = .ok () ∧
      validateCausalDocument sampleStorage new ⟨"g", by decide⟩ ≠ .ok () ∧
      reload sampleStorage ⟨"g", by decide⟩ old new ≠ .ok () := by
  have hinvalid : validateCausalDocument sampleStorage
      (sampleGraph (sampleNode true (String.singleton pageReferenceChar))) ⟨"g", by decide⟩ =
        .error (.invalidHierarchy "page:p: unmarked page reference atom") := rfl
  refine ⟨sampleGraph (sampleNode false "text"),
    sampleGraph (sampleNode true (String.singleton pageReferenceChar)), sampleDeletion, rfl,
    keyed_sampleGraph true _, reports_sampleDeletion _ _, rfl, ?_, ?_⟩
  · rw [hinvalid]
    exact fun h => nomatch h
  · intro h
    obtain ⟨_, _, h⟩ := bind_eq_ok.mp h
    rw [hinvalid] at h
    cases h

end Neoseq.Causal
