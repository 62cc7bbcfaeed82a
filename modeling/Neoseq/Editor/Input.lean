import Neoseq.Editor.Edited

/-! The history of what a user typed into a block: over any run each typed atom is shown once,
until the user deletes it or a change from elsewhere does. -/

namespace Neoseq.Editor
open Domain
open Content (InlineContent)

/-- What became of the atoms that were typed, which are numbered in the order they came. -/
structure Inputs where
  typed : List ContentAtom
  /-- Of each atom that is shown, which typed one it is. -/
  places : List (Option Nat)
  /-- Deleted by the user. -/
  deleted : List Nat
  /-- Deleted by changes from elsewhere. -/
  dropped : List Nat

namespace Inputs

def none (shown : List ContentAtom) : Inputs :=
  ⟨[], List.replicate shown.length .none, [], []⟩

def edit (inputs : Inputs) (index remove : Nat) (atoms : List ContentAtom) : Inputs :=
  { inputs with
    typed := inputs.typed ++ atoms
    places := inputs.places.take index ++
      (List.range' inputs.typed.length atoms.length).map some ++
      inputs.places.drop (index + remove)
    deleted := inputs.deleted ++ ((inputs.places.drop index).take remove).filterMap id }

/-- The typed atom shown at a place. -/
def at? (inputs : Inputs) (place : Nat) : Option Nat :=
  inputs.places[place]?.join

def carry (inputs : Inputs) (places : Origins) : Inputs :=
  { inputs with
    places := places.map fun place => place.bind inputs.at?
    dropped := inputs.dropped ++
      ((List.range inputs.places.length).filter fun i => decide (some i ∉ places)).filterMap
        inputs.at? }

/-- Each typed atom is in one place, and it is what is shown there. -/
structure Accounted (inputs : Inputs) (shown : List ContentAtom) : Prop where
  length : inputs.places.length = shown.length
  same : ∀ (place number : Nat), inputs.places[place]? = some (some number) →
    shown[place]? = inputs.typed[number]?
  once : (inputs.places.filterMap id ++ (inputs.deleted ++ inputs.dropped)).Perm
    (List.range inputs.typed.length)

end Inputs

/-! ## Runs -/

inductive Run (owner : OutlineOwner) (blockId : BlockId) (start : EditedBlock) :
    List BlockAction → EditedBlock → Prop
  | start : Run owner blockId start [] start
  | step {actions : List BlockAction} {action : BlockAction} {block block' : EditedBlock} :
    Run owner blockId start actions block → block.step owner blockId action = some block' →
    Run owner blockId start (actions ++ [action]) block'

/-- A run in which no change waits for the end of a composition while the draft is sent. -/
inductive ClearRun (owner : OutlineOwner) (blockId : BlockId) (start : EditedBlock) :
    List BlockAction → EditedBlock → Prop
  | start : ClearRun owner blockId start [] start
  | step {actions : List BlockAction} {action : BlockAction} {block block' : EditedBlock} :
    ClearRun owner blockId start actions block → block.Clear action →
    block.step owner blockId action = some block' →
    ClearRun owner blockId start (actions ++ [action]) block'

/-- A run in which what is shown changes by input and by the changes from elsewhere only, with
what became of the input. -/
inductive Written (owner : OutlineOwner) (blockId : BlockId) (start : EditedBlock) :
    List BlockAction → EditedBlock → Inputs → Prop
  | start : Written owner blockId start [] start (.none start.shows)
  | edit {actions : List BlockAction} {block block' : EditedBlock} {inputs : Inputs}
      {index remove : Nat} {insert : List InlineContent} :
    Written owner blockId start actions block inputs →
    block.step owner blockId (.edit index remove insert) = some block' →
    index + remove ≤ block.shows.length →
    block'.shows = block.shows.take index ++ contentAtoms insert ++
      block.shows.drop (index + remove) →
    Written owner blockId start (actions ++ [.edit index remove insert]) block'
      (inputs.edit index remove (contentAtoms insert))
  | same {actions : List BlockAction} {action : BlockAction} {block block' : EditedBlock}
      {inputs : Inputs} :
    Written owner blockId start actions block inputs →
    block.step owner blockId action = some block' →
    block'.shows = block.shows → Written owner blockId start (actions ++ [action]) block' inputs
  | moved {actions : List BlockAction} {action : BlockAction} {block block' : EditedBlock}
      {inputs : Inputs} {places : Origins} :
    Written owner blockId start actions block inputs →
    block.step owner blockId action = some block' →
    (action = .endComposing ∨ ∃ update, action = .publish update) →
    Moved (block.announced action) block.draft block'.published block'.draft places →
    Written owner blockId start (actions ++ [action]) block' (inputs.carry places)

/-- A block that is opened with a content. -/
def EditedBlock.opened (content : List ContentAtom) : EditedBlock :=
  ⟨content, content, {}, .idle, false⟩

theorem coherent_opened (content : List ContentAtom) :
    (EditedBlock.opened content).Coherent :=
  ⟨increasing_create _, nofun, fun _ => ⟨⟨rfl, rfl, fun _ => canonicalBuffer_source content⟩, rfl⟩,
    nofun, nofun, nofun⟩

/-! ## What becomes of the input -/

theorem filterMap_places (inputs : Inputs) :
    (List.range inputs.places.length).filterMap inputs.at? = inputs.places.filterMap id := by
  have hmap : (List.range inputs.places.length).map inputs.at? = inputs.places := by
    refine List.ext_getElem (by rw [List.length_map, List.length_range]) fun i hi hi' => ?_
    rw [List.getElem_map, List.getElem_range]
    unfold Inputs.at?
    rw [List.getElem?_eq_getElem hi']
    rfl
  conv_rhs => rw [← hmap]
  rw [List.filterMap_map]
  rfl

theorem Inputs.Accounted.lt {inputs : Inputs} {shown : List ContentAtom}
    (h : inputs.Accounted shown) {place number : Nat}
    (hplace : inputs.places[place]? = some (some number)) : number < inputs.typed.length := by
  have hmem : number ∈ inputs.places.filterMap id :=
    List.mem_filterMap.mpr ⟨some number, List.mem_of_getElem? hplace, rfl⟩
  exact List.mem_range.mp (h.once.subset (List.mem_append_left _ hmem))

theorem Inputs.Accounted.edit {inputs : Inputs} {shown : List ContentAtom}
    (h : inputs.Accounted shown) {index remove : Nat} (atoms : List ContentAtom)
    (hrange : index + remove ≤ shown.length) :
    (inputs.edit index remove atoms).Accounted
      (shown.take index ++ atoms ++ shown.drop (index + remove)) := by
  have hlength := h.length
  refine ⟨?_, fun place number hplace => ?_, ?_⟩
  · unfold Inputs.edit
    simp only [List.length_append, List.length_take, List.length_map, List.length_range',
      List.length_drop]
    omega
  · have hold {place : Nat} (hplace : inputs.places[place]? = some (some number)) :
        shown[place]? = (inputs.typed ++ atoms)[number]? := by
      rw [List.getElem?_append_left (h.lt hplace)]
      exact h.same place number hplace
    unfold Inputs.edit at hplace ⊢
    dsimp only at hplace ⊢
    rw [List.getElem?_append, List.getElem?_append] at hplace ⊢
    simp only [List.length_append, List.length_take, List.length_map,
      List.length_range'] at hplace ⊢
    rw [show min index inputs.places.length = index by omega] at hplace
    rw [show min index shown.length = index by omega]
    split_ifs at hplace ⊢ with hbefore hinside
    · rw [List.getElem?_take_of_lt hinside] at hplace ⊢
      exact hold hplace
    · rw [List.getElem?_map, Option.map_eq_some_iff] at hplace
      obtain ⟨n, hn, hnumber⟩ := hplace
      cases hnumber
      rw [List.getElem?_range' (by omega)] at hn
      cases hn
      rw [List.getElem?_append_right (by omega)]
      congr 1
      omega
    · rw [List.getElem?_drop] at hplace ⊢
      exact hold hplace
  · have hsplit : inputs.places = inputs.places.take index ++
        ((inputs.places.drop index).take remove ++ inputs.places.drop (index + remove)) := by
      rw [← List.drop_drop, List.take_append_drop, List.take_append_drop]
    have honce := h.once
    rw [hsplit, List.filterMap_append, List.filterMap_append] at honce
    have hrange' : List.range (inputs.typed ++ atoms).length =
        List.range inputs.typed.length ++ List.range' inputs.typed.length atoms.length := by
      rw [List.length_append, List.range_eq_range', List.range_eq_range']
      have happend := List.range'_append_1 (s := 0) (m := inputs.typed.length) (n := atoms.length)
      rw [Nat.zero_add] at happend
      exact happend.symm
    unfold Inputs.edit
    dsimp only
    rw [hrange', List.filterMap_append, List.filterMap_append, List.filterMap_map,
      show (id ∘ some : Nat → Option Nat) = some from rfl, List.filterMap_some]
    rw [List.perm_iff_count] at honce ⊢
    intro number
    have hcount := honce number
    simp only [List.count_append] at hcount ⊢
    omega

theorem Inputs.Accounted.carry {inputs : Inputs} {before after : ContentBuffer}
    {announced : List ContentRangeChange} {content : List ContentAtom} {places : Origins}
    (h : inputs.Accounted (bufferAtoms before))
    (hinc : Increasing before.source.length 0 before.pieces)
    (hmoved : Moved announced before content after places) :
    (inputs.carry places).Accounted (bufferAtoms after) := by
  have htraces := hmoved.traces
  rw [← h.length] at htraces
  refine ⟨?_, fun place number hplace => ?_, ?_⟩
  · show (places.map _).length = _
    rw [List.length_map, hmoved.length]
  · have hplace : (places.map fun place => place.bind inputs.at?)[place]? = some (some number) :=
      hplace
    rw [List.getElem?_map, Option.map_eq_some_iff] at hplace
    obtain ⟨origin, horigin, hat⟩ := hplace
    obtain ⟨i, rfl, hi⟩ := Option.bind_eq_some_iff.mp hat
    rw [hmoved.same hinc horigin]
    exact h.same i number (Option.join_eq_some_iff.mp hi)
  · -- the places that are left and those that are lost are all that were there
    have hkept : (places.filterMap id).Perm
        ((List.range inputs.places.length).filter fun i => decide (some i ∈ places)) := by
      refine (List.perm_ext_iff_of_nodup (List.nodup_range.sublist htraces)
        (List.nodup_range.filter _)).mpr fun i => ?_
      rw [List.mem_filter, List.mem_range, decide_eq_true_iff]
      constructor
      · intro hi
        obtain ⟨origin, horigin, rfl⟩ := List.mem_filterMap.mp hi
        exact ⟨htraces.lt horigin, horigin⟩
      · intro ⟨_, hi⟩
        exact List.mem_filterMap.mpr ⟨some i, hi, rfl⟩
    have hall : (List.range inputs.places.length).Perm (places.filterMap id ++
        (List.range inputs.places.length).filter fun i => decide (some i ∉ places)) := by
      have hsplit := List.filter_append_perm (fun i => decide (some i ∈ places))
        (List.range inputs.places.length)
      refine hsplit.symm.trans (List.Perm.append hkept.symm ?_)
      refine List.Perm.of_eq (List.filter_congr fun i _ => ?_)
      rw [decide_not]
    have htyped := (hall.filterMap inputs.at?).symm
    rw [filterMap_places, List.filterMap_append, List.filterMap_filterMap] at htyped
    have honce := h.once
    show ((places.map fun place => place.bind inputs.at?).filterMap id ++ (inputs.deleted ++
      (inputs.dropped ++ _))).Perm (List.range inputs.typed.length)
    rw [List.filterMap_map, show (id ∘ fun place : Option Nat => place.bind inputs.at?) =
      fun place => (id place).bind inputs.at? from rfl]
    rw [List.perm_iff_count] at honce htyped ⊢
    intro number
    have hcount := honce number
    have hplaces := htyped number
    simp only [List.count_append] at hcount hplaces ⊢
    omega

/-! ## Runs -/

variable {owner : OutlineOwner} {blockId : BlockId} {start block : EditedBlock}
  {actions : List BlockAction}

theorem coherent_of_run (hstart : start.Coherent)
    (h : ClearRun owner blockId start actions block) : block.Coherent := by
  induction h with
  | start => exact hstart
  | step _ hclear hstep ih => exact (ih.step hclear hstep).1

theorem accounted_none (shown : List ContentAtom) : (Inputs.none shown).Accounted shown := by
  refine ⟨List.length_replicate, fun place number hplace => ?_, ?_⟩
  · cases List.eq_of_mem_replicate (List.mem_of_getElem? hplace)
  · have hnone : (List.replicate shown.length (none : Option Nat)).filterMap id = [] :=
      List.filterMap_eq_nil_iff.mpr fun place hplace => List.eq_of_mem_replicate hplace
    show ((List.replicate shown.length (none : Option Nat)).filterMap id ++ ([] ++ [])).Perm []
    rw [hnone]
    rfl

/-- Along a run what is shown changes by input and by moves only, and every typed atom is
accounted for. -/
theorem written_of_run (hstart : start.Coherent)
    (h : ClearRun owner blockId start actions block) :
    ∃ inputs, Written owner blockId start actions block inputs ∧ inputs.Accounted block.shows := by
  induction h with
  | start => exact ⟨_, .start, accounted_none _⟩
  | step hrun hclear hstep ih =>
    obtain ⟨inputs, hwritten, haccounted⟩ := ih
    have hcoherent := coherent_of_run hstart hrun
    obtain ⟨-, heffect⟩ := hcoherent.step hclear hstep
    cases heffect with
    | edit hrange hshows =>
      refine ⟨_, .edit hwritten hstep hrange hshows, ?_⟩
      rw [hshows]
      exact haccounted.edit _ hrange
    | same _ hshows => exact ⟨inputs, .same hwritten hstep hshows, hshows ▸ haccounted⟩
    | moved haction hmoved =>
      exact ⟨_, .moved hwritten hstep haction hmoved,
        haccounted.carry hcoherent.increasing hmoved⟩

def sampleOwner : OutlineOwner := .page ⟨"page", rfl⟩

def sampleBlock : BlockId := ⟨"block", rfl⟩

end Neoseq.Editor
