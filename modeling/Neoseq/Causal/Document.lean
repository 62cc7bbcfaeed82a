import Neoseq.Core.Entities

/-! The stored form of a graph: its root containers, and the records of entities as
their three storage homes hold them. Every replica and the server read the same
containers, each with its own readers. -/

namespace Neoseq.Causal
open Domain Document Neoseq.Core Content

/-- What the readers of stored strings ask of the JSON and digest libraries. -/
structure Storage extends Host where
  decodeShape : String → Option StoredPropertyShape
  decodeValue : String → Option PropertyValue
  /-- The digest of the JSON text of a value, under which a set holds it. -/
  memberSlot : PropertyValue → String

/-- A storage in which every value is a string. -/
def sampleStorage : Storage where
  codec := sampleCodec
  encode _ := ""
  encodeColumns _ := "[]"
  encodeOptions _ := "\x7b\x7d"
  encodePlanState _ := "raw"
  planError _ := ""
  toLowercase s := s
  isWhitespace c := c == ' '
  journalId _ _ := ⟨"journal", by decide⟩
  fragmentEntityId _ _ _ id := id
  fragmentSize _ := 0
  isTreeId _ := true
  decodeShape s := if s = "string" then some ⟨.string, .single⟩ else none
  decodeValue s := some (.string s)
  memberSlot _ := ""

/-! ## Root containers -/

inductive Home where
  | entities | pages | tags
  deriving Repr, DecidableEq

def Home.asStr : Home → String
  | .entities => "entities"
  | .pages => "pages"
  | .tags => "tags"

def homes : List Home := [.entities, .pages, .tags]

theorem mem_homes (home : Home) : home ∈ homes := by
  cases home <;> decide

structure LoroDoc where
  metadata : LoroMap
  graphSettings : LoroMap
  entities : LoroMap
  pages : LoroMap
  tags : LoroMap

namespace LoroDoc

/-- `get_map` of a home. -/
def records (doc : LoroDoc) : Home → LoroMap
  | .entities => doc.entities
  | .pages => doc.pages
  | .tags => doc.tags

/-- `Homes::contains`. -/
def contains (doc : LoroDoc) (id : PageId) : Bool :=
  homes.any fun home => ((doc.records home).get id.asStr).isSome

end LoroDoc

def keys (m : LoroMap) : List String := m.map Prod.fst

theorem mem_keys {m : LoroMap} {key : String} {value : Stored} (h : m.get key = some value) :
    key ∈ keys m := by
  unfold LoroMap.get at h
  induction m with
  | nil => cases h
  | cons e rest ih =>
    rw [List.lookup_cons] at h
    split at h
    · next he =>
      rw [eq_of_beq he]
      exact List.mem_cons_self ..
    · exact List.mem_cons_of_mem _ (ih h)

theorem get_isSome_of_mem_keys {m : LoroMap} {key : String} (h : key ∈ keys m) :
    (m.get key).isSome = true := by
  unfold LoroMap.get
  induction m with
  | nil => cases h
  | cons e rest ih =>
    rw [List.lookup_cons]
    split
    · rfl
    · next he =>
      rcases List.mem_cons.mp h with h | h
      · rw [h] at he
        simp at he
      · exact ih h

/-- The keys of every map are distinct, and so are the ids of tree nodes. -/
inductive Keyed : Stored → Prop
  | bool (value : Bool) : Keyed (.bool value)
  | i64 (value : Int) : Keyed (.i64 value)
  | string (value : String) : Keyed (.string value)
  | text (value : String) : Keyed (.text value)
  | markedText (segments : List TextDelta) : Keyed (.markedText segments)
  | map (entries : LoroMap) (nodup : (keys entries).Nodup) (values : ∀ e ∈ entries, Keyed e.2) :
    Keyed (.map entries)
  | tree (nodes : List (TreeNode LoroMap)) (nodup : (nodes.map TreeNode.id).Nodup)
    (data : ∀ n ∈ nodes, Keyed (.map n.data)) : Keyed (.tree nodes)
  | other : Keyed .other

/-- What holds of the maps of every document. -/
structure LoroDoc.Keyed (doc : LoroDoc) : Prop where
  metadata : Causal.Keyed (.map doc.metadata)
  graphSettings : Causal.Keyed (.map doc.graphSettings)
  records : ∀ home, Causal.Keyed (.map (doc.records home))

theorem mem_of_get {m : LoroMap} {key : String} {value : Stored} (h : m.get key = some value) :
    (key, value) ∈ m := by
  unfold LoroMap.get at h
  induction m with
  | nil => cases h
  | cons e rest ih =>
    rw [List.lookup_cons] at h
    split at h
    · next he =>
      obtain rfl := Option.some.inj h
      rw [eq_of_beq he]
      exact List.mem_cons_self ..
    · exact List.mem_cons_of_mem _ (ih h)

/-- In a map with distinct keys every entry is found. -/
theorem get_of_mem {m : LoroMap} (hn : (keys m).Nodup) {key : String} {value : Stored}
    (h : (key, value) ∈ m) : m.get key = some value := by
  unfold LoroMap.get
  induction m with
  | nil => cases h
  | cons e rest ih =>
    obtain ⟨hfirst, hrest⟩ := List.nodup_cons.mp hn
    rw [List.lookup_cons]
    rcases List.mem_cons.mp h with rfl | h
    · simp
    · have hne : key ≠ e.1 := by
        rintro rfl
        exact hfirst (List.mem_map.mpr ⟨_, h, rfl⟩)
      rw [beq_false_of_ne hne]
      exact ih hrest h

namespace Keyed

theorem nodup {m : LoroMap} (h : Keyed (.map m)) : (keys m).Nodup := by
  cases h with
  | map _ hn _ => exact hn

theorem get {m : LoroMap} (h : Keyed (.map m)) {key : String} {value : Stored}
    (hv : m.get key = some value) : Keyed value := by
  cases h with
  | map _ _ hvalues => exact hvalues _ (mem_of_get hv)

end Keyed

/-- The child map under a key. -/
def child (m : LoroMap) (key : String) : Option LoroMap := (m.get key).bind Stored.intoMap

theorem child_eq_some {m : LoroMap} {key : String} {c : LoroMap} :
    child m key = some c ↔ m.get key = some (.map c) := by
  unfold child
  constructor
  · intro h
    obtain ⟨value, hv, hc⟩ := Option.bind_eq_some_iff.mp h
    cases value with
    | map entries => rw [hv, Option.some.inj hc]
    | bool _ => cases hc
    | i64 _ => cases hc
    | string _ => cases hc
    | text _ => cases hc
    | markedText _ => cases hc
    | tree _ => cases hc
    | other => cases hc
  · intro h
    rw [h]
    rfl

theorem Keyed.child {m c : LoroMap} (h : Keyed (.map m)) {key : String}
    (hc : Causal.child m key = some c) : Keyed (.map c) := h.get (child_eq_some.mp hc)

theorem asStr_of_new {label raw : String} {id : OpaqueString label}
    (h : OpaqueString.new raw = Except.ok id) : id.asStr = raw := by
  unfold OpaqueString.new at h
  split at h
  · rw [← Except.ok.inj h]
  · cases h

/-! ## Required children -/

def requiredMap (value : Option Stored) (label : String) : Except CoreError LoroMap :=
  orElse (value.bind Stored.intoMap) (.invalidHierarchy (label ++ " is missing or not a map"))

def requiredChildMap (parent : LoroMap) (key label : String) : Except CoreError LoroMap :=
  requiredMap (parent.get key) label

def requiredChildTree (parent : LoroMap) (key label : String) :
    Except CoreError (List (TreeNode LoroMap)) :=
  orElse ((parent.get key).bind Stored.intoTree)
    (.invalidHierarchy (label ++ " is missing or not a tree"))

def requiredChildText (parent : LoroMap) (key label : String) : Except CoreError Stored :=
  orElse ((parent.get key).filter fun value => value.intoText.isSome)
    (.invalidHierarchy (label ++ " is missing or not text"))

/-! ## Entities -/

/-- The map with the fields of an entity: a tag of the oldest schema holds them
itself. -/
def root (record : LoroMap) : LoroMap := ((record.get "root").bind Stored.intoMap).getD record

def kind (record : LoroMap) : EntityKind :=
  match mapString record "kind" with
  | some "tag" => .tag
  | some "page" => .page
  | _ => if (record.get "root").isNone then .tag else .page

/-- The register of the name, and before it the text of the root. -/
def name (record : LoroMap) : Option String :=
  (mapString record "name").or (((root record).get "content").bind Stored.intoText)

end Neoseq.Causal
