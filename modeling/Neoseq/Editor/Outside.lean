import Neoseq.Collections.Line
import Neoseq.Editor.Resume

/-! Content edits that are lowered outside a submission: the word edits of the vim keys, and an
edit that is staged for a property picker. Both are lowered when they are made, and wait: a word
edit behind the jobs of the session, a staged edit until the picker sends it. The model is of one
block; what a command does to others shows here in that it may be refused. -/

namespace Neoseq.Editor
open Domain
open Collections (Fits)
open Content (InlineContent)
open Neoseq.Core (Command BlockContentSplice)

inductive WriteKind where
  | word
  /-- Kept by a picker that is open. -/
  | staged
  /-- Sent with the property that was chosen; the picker keeps it until that is done. -/
  | chosen
  /-- Sent alone by a picker that was dismissed. -/
  | dismissed
  deriving DecidableEq

structure Write where
  kind : WriteKind
  splices : List BlockContentSplice
  /-- Its turn among the jobs, once it is sent. -/
  turn : Nat
  /-- History: the content that it was lowered from. -/
  source : List ContentAtom
  /-- History: what the draft showed then, with what was typed since. -/
  shown : List ContentAtom
  /-- History: the draft may have been moved onto another content since. -/
  moved : Bool

structure OutsideBlock where
  block : EditedBlock
  /-- The writes that were lowered and not executed, oldest first. -/
  writes : List Write
  turns : Nat
  /-- History: how many of the writes had been lowered when the last submission was. -/
  ahead : Nat

inductive OutsideAction where
  | block (action : BlockAction)
  | word
  | stage
  | choose (i : Nat)
  | dismiss (i : Nat)
  | execute (i : Nat)
  | reject (i : Nat)

/-- What a step of the block does to the history of a write that waits. -/
def Write.note (write : Write) (block : EditedBlock) : BlockAction → Write
  | .edit index remove insert => { write with
      shown := write.shown.take index ++ contentAtoms insert ++ write.shown.drop (index + remove) }
  | .publish _ => { write with moved := write.moved || block.target.composition.isNone }
  | .settle _ | .refuse => { write with moved := true }
  | .endComposing => { write with moved := write.moved || block.keptBack.isSome }
  | .unobserve => { write with
      moved := write.moved || (block.target.composition.isNone && bufferIsClean block.draft) }
  | _ => write

def Write.lowered (write : Write) : Option (List ContentAtom) × List BlockContentSplice :=
  (some write.source, write.splices)

/-- Gives up a draft, for what is published. -/
def Target.reset (target : Target) (canonical : List ContentAtom) : Target :=
  { target with
    retryActions := []
    buffer := if target.observed then some (canonicalBuffer canonical) else none }

namespace OutsideBlock

/-- The draft's changes are lowered and the draft settled. -/
def lower (state : OutsideBlock) (kind : WriteKind) (buffer : ContentBuffer)
    (splices : List BlockContentSplice) : OutsideBlock :=
  { state with
    block := { state.block with target := state.block.target.replace (settleBuffer buffer) }
    writes := if splices.length = 0 then state.writes
      else state.writes ++ [⟨kind, splices, state.turns, buffer.source, bufferAtoms buffer, false⟩]
    turns := state.turns + 1 }

def send (state : OutsideBlock) (kind : WriteKind) (i : Nat) : Option OutsideBlock :=
  (state.writes[i]?.filter fun write => decide (write.kind = .staged)).map fun write =>
    { state with
      writes := state.writes.set i { write with kind, turn := state.turns }
      turns := state.turns + 1 }

/-- The write whose turn it is. -/
def next (state : OutsideBlock) (i : Nat) : Option Write :=
  match state.block.job with
  | .idle => state.writes[i]?.filter fun write => decide (write.kind ≠ .staged) &&
      state.writes.all fun other => decide (other.kind = .staged ∨ write.turn ≤ other.turn)
  | _ => none

/-- The block has taken a step of its own. -/
def after (state : OutsideBlock) (action : BlockAction) (block : EditedBlock) : OutsideBlock :=
  { state with
    block
    writes := state.writes.map fun write => write.note state.block action
    ahead := match action with
      | .prepare _ => state.writes.length
      | _ => state.ahead }

def step (owner : OutlineOwner) (blockId : BlockId) (state : OutsideBlock) :
    OutsideAction → Option OutsideBlock
  | .block action => (state.block.step owner blockId action).map (state.after action)
  | .word => state.block.target.buffer.map fun buffer =>
      state.lower .word buffer (bufferSplices buffer blockId)
  | .stage => state.block.target.buffer.bind fun buffer =>
      (bufferCommand buffer owner blockId).map fun command =>
        state.lower .staged buffer (contentSplices command)
  | .choose i => state.send .chosen i
  | .dismiss i => state.send .dismissed i
  | .execute i => (state.next i).bind fun write =>
      (spliceContents state.block.stored write.splices).bind fun content =>
        (state.block.step owner blockId (.change content)).map fun block =>
          { state with block, writes := state.writes.eraseIdx i }
  | .reject i => (state.next i).map fun write => match write.kind with
      | .word => { state with
          block := { state.block with target := state.block.target.reset state.block.published }
          writes := state.writes.eraseIdx i }
      | .chosen => { state with writes := state.writes.set i { write with kind := .staged } }
      | _ => { state with writes := state.writes.eraseIdx i }

/-! ## What a write waits for -/

/-- The splices of the submission that is in flight. -/
def sentSplices (state : OutsideBlock) : List BlockContentSplice :=
  match state.block.job with
  | .sending submission => (submission.content.map contentSplices).getD []
  | _ => []

/-- The splices that have been lowered and not executed, in the order they were lowered, with
the content that each was lowered from where it was outside a submission. -/
def line (state : OutsideBlock) :
    List (Option (List ContentAtom) × List BlockContentSplice) :=
  match state.block.job with
  | .sending _ => (state.writes.map Write.lowered).take state.ahead ++
      (none, state.sentSplices) :: (state.writes.map Write.lowered).drop state.ahead
  | _ => state.writes.map Write.lowered

/-- What the block will hold once all that was lowered has been executed in its order. -/
def expected (state : OutsideBlock) : Option (List ContentAtom) :=
  state.line.foldlM (fun content write => spliceContents content write.2) state.block.stored

/-- An edit is lowered from the content that the block will hold once all that was lowered before
has been executed; that is executed in this order, and nothing else changes the block meanwhile;
and no word edit is refused, nor anything that a later write was lowered behind, nor a staged
edit whose draft has been moved since. -/
def Clear (blockId : BlockId) (state : OutsideBlock) : OutsideAction → Prop
  | .block (.change content) => content = state.block.stored ∨ state.writes = []
  | .block .execute => state.ahead = 0 ∨ state.sentSplices = []
  | .block .refuse => state.ahead = state.writes.length ∨ state.sentSplices = []
  | .word | .stage => bufferSplices state.block.draft blockId = [] ∨
      state.expected = some state.block.draft.source
  | .execute i => i = 0
  | .reject i => ∀ write, state.writes[i]? = some write → write.kind ≠ .word ∧
      write.moved = false ∧ (write.kind = .dismissed → i + 1 = state.writes.length)
  | _ => True

/-- A write that is executed meets the content that it was lowered from; and when one is refused
the draft shows what it showed when the write was lowered, with what was typed since. -/
def Met (state : OutsideBlock) (action : OutsideAction) (state' : OutsideBlock) : Prop :=
  match action with
  | .execute i => ∀ write, state.writes[i]? = some write → state.block.stored = write.source
  | .reject i => ∀ write, state.writes[i]? = some write → state'.block.shows = write.shown
  | _ => True

/-- The invariant of a run. -/
structure Lined (state : OutsideBlock) : Prop where
  drafted : state.block.Drafted
  ahead : ∀ submission, state.block.job = .sending submission → state.ahead ≤ state.writes.length
  fits : Fits (fun content write => spliceContents content write.2)
    (fun write content => ∀ source, write.1 = some source → content = source)
    state.block.stored state.line
  shown : ∀ write ∈ state.writes, write.moved = false →
    state.block.target.buffer.isSome = true ∧ state.block.shows = write.shown

variable {owner : OutlineOwner} {blockId : BlockId} {state state' : OutsideBlock}

/-! ## The line -/

@[simp] theorem lowered_note (write : Write) (block : EditedBlock) (action : BlockAction) :
    (write.note block action).lowered = write.lowered := by
  cases action <;> rfl

theorem line_idle (state : OutsideBlock)
    (h : ∀ submission, state.block.job ≠ .sending submission) :
    state.line = state.writes.map Write.lowered := by
  unfold line
  split
  · next submission hjob => exact absurd hjob (h submission)
  · rfl

theorem line_sending (state : OutsideBlock) {submission : Submission}
    (h : state.block.job = .sending submission) :
    state.line = (state.writes.map Write.lowered).take state.ahead ++
      (none, (submission.content.map contentSplices).getD []) ::
        (state.writes.map Write.lowered).drop state.ahead := by
  unfold line sentSplices
  rw [h]

/-- Only what is lowered of the writes is in the line. -/
theorem line_congr (hjob : state'.block.job = state.block.job) (hahead : state'.ahead = state.ahead)
    (hwrites : state'.writes.map Write.lowered = state.writes.map Write.lowered) :
    state'.line = state.line := by
  unfold line sentSplices
  rw [hjob, hahead, hwrites]

theorem map_lowered_set {writes : List Write} {i : Nat} {write write' : Write}
    (hwrite : writes[i]? = some write) (hsame : write'.lowered = write.lowered) :
    (writes.set i write').map Write.lowered = writes.map Write.lowered := by
  rw [List.map_set, hsame]
  refine List.ext_getElem? fun j => ?_
  rw [List.getElem?_set]
  split_ifs with heq hlt
  · rw [← heq, List.getElem?_map, hwrite]
    rfl
  · rw [← heq, List.getElem?_eq_none (by omega)]
  · rfl

/-! ## What is shown -/

theorem shows_congr {block block' : EditedBlock}
    (hbuffer : block'.target.buffer = block.target.buffer)
    (hsome : block.target.buffer.isSome = true) : block'.shows = block.shows := by
  obtain ⟨buffer, hbefore⟩ := Option.isSome_iff_exists.mp hsome
  unfold EditedBlock.shows EditedBlock.draft Target.current
  rw [hbuffer, hbefore]
  rfl

/-- A draft that a write has not been moved with shows what it did, with the input. -/
theorem shown_note {block block' : EditedBlock} {action : BlockAction} {write : Write}
    (hdrafted : block.Drafted) (hstep : block.step owner blockId action = some block')
    (hmoved : (write.note block action).moved = false)
    (h : write.moved = false →
      block.target.buffer.isSome = true ∧ block.shows = write.shown) :
    block'.target.buffer.isSome = true ∧ block'.shows = (write.note block action).shown := by
  have hsame (hbuffer : block'.target.buffer = block.target.buffer) (hmoved : write.moved = false) :
      block'.target.buffer.isSome = true ∧ block'.shows = write.shown := by
    obtain ⟨hsome, hshown⟩ := h hmoved
    exact ⟨hbuffer ▸ hsome, (shows_congr hbuffer hsome).trans hshown⟩
  cases action with
  | edit index remove insert =>
    obtain ⟨target, htarget, rfl⟩ := Option.map_eq_some_iff.mp hstep
    have hsplice := toOption_eq_some htarget
    unfold Target.splice at hsplice
    cases hnext : spliceBuffer (block.target.current block.published) index remove insert with
    | error e =>
      rw [hnext] at hsplice
      cases hsplice
    | ok next =>
      rw [hnext] at hsplice
      cases hsplice
      refine ⟨rfl, ?_⟩
      show bufferAtoms next = write.shown.take index ++ contentAtoms insert ++
        write.shown.drop (index + remove)
      rw [← (h hmoved).2]
      exact (spliceBuffer_ok hdrafted.increasing hnext).2.2.2
  | observe =>
    cases hstep
    exact ⟨rfl, (h hmoved).2⟩
  | unobserve =>
    cases hstep
    obtain ⟨hkept, hclean⟩ := Bool.or_eq_false_iff.mp hmoved
    rcases Target.release_cases { block.target with observed := false } with
      heq | ⟨-, hnone, -, hsource⟩
    · have hbuffer : block.target.unobserve.buffer = block.target.buffer := by
        unfold Target.unobserve
        rw [heq]
      exact hsame hbuffer hkept
    · obtain ⟨buffer, hbuffer⟩ := Option.isSome_iff_exists.mp (h hkept).1
      have hdraft : block.draft = buffer := by
        unfold EditedBlock.draft Target.current
        rw [hbuffer]
        rfl
      rw [show block.target.composition = none from hnone, hdraft] at hclean
      exact absurd (decide_eq_true (hsource buffer hbuffer)) (Bool.not_eq_true _ ▸ hclean)
  | startComposing =>
    cases hstep
    exact hsame rfl hmoved
  | endComposing =>
    obtain ⟨target, htarget, rfl⟩ := Option.map_eq_some_iff.mp hstep
    obtain ⟨hkept, hnone⟩ := Bool.or_eq_false_iff.mp hmoved
    have hend := toOption_eq_some htarget
    unfold Target.endComposing at hend
    rw [show block.target.composition.bind Composition.content = none from
      Option.not_isSome_iff_eq_none.mp (Bool.not_eq_true _ ▸ hnone)] at hend
    cases hend
    exact hsame rfl hkept
  | prepare actions =>
    dsimp only [EditedBlock.step] at hstep
    split at hstep
    · obtain ⟨⟨target, prepared⟩, hprepare, rfl⟩ := Option.map_eq_some_iff.mp hstep
      unfold Target.prepare at hprepare
      dsimp only at hprepare
      split_ifs at hprepare
      cases hprepare
      exact ⟨rfl, (bufferAtoms_settle block.draft).trans (h hmoved).2⟩
    · cases hstep
  | execute =>
    dsimp only [EditedBlock.step] at hstep
    split at hstep
    · obtain ⟨stored, -, rfl⟩ := Option.map_eq_some_iff.mp hstep
      exact hsame rfl hmoved
    · cases hstep
  | refuse | settle => cases hmoved
  | change content =>
    dsimp only [EditedBlock.step] at hstep
    split at hstep
    · cases hstep
      exact hsame rfl hmoved
    · cases hstep
  | publish update =>
    dsimp only [EditedBlock.step] at hstep
    split at hstep
    · obtain ⟨target, htarget, rfl⟩ := Option.map_eq_some_iff.mp hstep
      obtain ⟨hkept, hcomposing⟩ := Bool.or_eq_false_iff.mp hmoved
      obtain ⟨hsome, -⟩ := h hkept
      obtain ⟨buffer, hbuffer⟩ := Option.isSome_iff_exists.mp hsome
      have hpublish := toOption_eq_some htarget
      unfold Target.publish at hpublish
      cases hcomposition : block.target.composition with
      | none =>
        rw [hcomposition] at hcomposing
        cases hcomposing
      | some composition =>
        rw [hbuffer, hcomposition] at hpublish
        cases hpublish
        exact hsame hbuffer.symm hkept
    · cases hstep

/-! ## The steps -/

theorem after_writes (state : OutsideBlock) (action : BlockAction) (block : EditedBlock) :
    (state.after action block).writes.map Write.lowered = state.writes.map Write.lowered := by
  unfold after
  dsimp only
  rw [List.map_map]
  exact List.map_congr_left fun write _ => lowered_note write state.block action

theorem Lined.fits_after (h : state.Lined) {action : BlockAction} {block : EditedBlock}
    (hclear : state.Clear blockId (.block action))
    (hstep : state.block.step owner blockId action = some block) :
    Fits (fun content write => spliceContents content write.2)
      (fun write content => ∀ source, write.1 = some source → content = source)
      block.stored (state.after action block).line := by
  have hwrites := after_writes state action block
  have hsame (hjob : block.job = state.block.job)
      (hahead : (state.after action block).ahead = state.ahead) :
      (state.after action block).line = state.line :=
    line_congr hjob hahead hwrites
  have hdone (hafter : ∀ submission, block.job ≠ .sending submission) :
      (state.after action block).line = state.writes.map Write.lowered := by
    rw [← hwrites]
    exact line_idle _ hafter
  cases action with
  | edit | endComposing =>
    obtain ⟨target, -, rfl⟩ := Option.map_eq_some_iff.mp hstep
    rw [hsame rfl rfl]
    exact h.fits
  | observe | unobserve | startComposing =>
    cases hstep
    rw [hsame rfl rfl]
    exact h.fits
  | prepare actions =>
    dsimp only [EditedBlock.step] at hstep
    split at hstep
    · next hjob =>
      obtain ⟨⟨target, prepared⟩, -, rfl⟩ := Option.map_eq_some_iff.mp hstep
      rw [@line_sending (state.after _ _) prepared rfl, hwrites,
        ← line_idle state (by rw [hjob]; nofun)]
      have hlength : state.line.length = state.writes.length := by
        rw [line_idle _ (by rw [hjob]; nofun), List.length_map]
      show Fits _ _ _ (state.line.take state.writes.length ++
        (none, (prepared.content.map contentSplices).getD []) ::
          state.line.drop state.writes.length)
      rw [List.take_of_length_le hlength.le, List.drop_of_length_le hlength.le]
      exact h.fits.push nofun
    · cases hstep
  | execute =>
    dsimp only [EditedBlock.step] at hstep
    split at hstep
    · next submission hjob =>
      obtain ⟨stored, hstored, rfl⟩ := Option.map_eq_some_iff.mp hstep
      have hfits := h.fits
      rw [line_sending _ hjob] at hfits
      rw [hdone nofun]
      have hsent : state.sentSplices = (submission.content.map contentSplices).getD [] := by
        unfold sentSplices
        rw [hjob]
      rcases hclear with hahead | hempty
      · rw [hahead] at hfits
        exact hfits.2 stored hstored
      · rw [← hsent, hempty] at hstored hfits
        cases hstored
        have hrest := hfits.skip fun content => rfl
        rwa [List.take_append_drop] at hrest
    · cases hstep
  | refuse =>
    dsimp only [EditedBlock.step] at hstep
    split at hstep
    · next submission hjob =>
      cases hstep
      have hfits := h.fits
      rw [line_sending _ hjob] at hfits
      rw [hdone nofun]
      have hsent : state.sentSplices = (submission.content.map contentSplices).getD [] := by
        unfold sentSplices
        rw [hjob]
      rcases hclear with hahead | hempty
      · have hbefore := (Collections.fits_append.mp hfits).1
        rwa [hahead, List.take_of_length_le (by rw [List.length_map])] at hbefore
      · rw [← hsent, hempty] at hfits
        have hrest := hfits.skip fun content => rfl
        rwa [List.take_append_drop] at hrest
    · cases hstep
  | settle update =>
    dsimp only [EditedBlock.step] at hstep
    split at hstep
    · next submission hjob =>
      obtain ⟨target, -, rfl⟩ := Option.map_eq_some_iff.mp hstep
      rw [hdone nofun, ← line_idle state (by rw [hjob]; nofun)]
      exact h.fits
    · cases hstep
  | change content =>
    dsimp only [EditedBlock.step] at hstep
    split at hstep
    · next hjob =>
      cases hstep
      rw [hdone nofun, ← line_idle state (by rw [hjob]; nofun)]
      rcases hclear with hsame | hempty
      · rw [hsame]
        exact h.fits
      · rw [line_idle _ (by rw [hjob]; nofun), hempty]
        trivial
    · cases hstep
  | publish update =>
    dsimp only [EditedBlock.step] at hstep
    split at hstep
    · next hjob =>
      obtain ⟨target, -, rfl⟩ := Option.map_eq_some_iff.mp hstep
      rw [hdone nofun, ← line_idle state (by rw [hjob]; nofun)]
      exact h.fits
    · cases hstep

theorem Lined.after (h : state.Lined) {action : BlockAction} {block : EditedBlock}
    (hclear : state.Clear blockId (.block action))
    (hstep : state.block.step owner blockId action = some block) :
    (state.after action block).Lined := by
  refine ⟨h.drafted.step hstep, fun submission hjob => ?_, h.fits_after hclear hstep,
    fun write hwrite hmoved => ?_⟩
  · have hlength : (state.after action block).writes.length = state.writes.length :=
      List.length_map _
    rw [hlength]
    cases action with
    | prepare => exact Nat.le_refl _
    | edit | endComposing =>
      obtain ⟨target, -, rfl⟩ := Option.map_eq_some_iff.mp hstep
      exact h.ahead submission hjob
    | observe | unobserve | startComposing =>
      cases hstep
      exact h.ahead submission hjob
    | execute | refuse | settle | change | publish =>
      dsimp only [EditedBlock.step] at hstep
      split at hstep
      · first
        | obtain ⟨target, -, rfl⟩ := Option.map_eq_some_iff.mp hstep
          cases hjob
        | cases hstep
          cases hjob
      · cases hstep
  · obtain ⟨before, hbefore, rfl⟩ := List.mem_map.mp hwrite
    exact shown_note h.drafted hstep hmoved (h.shown before hbefore)

/-- The draft is lowered from what the line leaves. -/
theorem Lined.lower (h : state.Lined) {kind : WriteKind} {buffer : ContentBuffer}
    {splices : List BlockContentSplice} (hbuffer : state.block.target.buffer = some buffer)
    (hclear : splices = [] ∨ state.expected = some buffer.source) :
    (state.lower kind buffer splices).Lined := by
  have hdraft : state.block.draft = buffer := by
    unfold EditedBlock.draft Target.current
    rw [hbuffer]
    rfl
  have hshows : (state.lower kind buffer splices).block.shows = state.block.shows := by
    show bufferAtoms (settleBuffer buffer) = bufferAtoms state.block.draft
    rw [bufferAtoms_settle, hdraft]
  refine ⟨h.drafted.same (increasing_create _) rfl rfl, fun submission hjob => ?_, ?_,
    fun write hwrite hmoved => ⟨rfl, ?_⟩⟩
  · refine Nat.le_trans (h.ahead submission hjob) ?_
    unfold OutsideBlock.lower
    dsimp only
    split_ifs
    · exact Nat.le_refl _
    · rw [List.length_append]
      exact Nat.le_add_right _ _
  · by_cases hempty : splices.length = 0
    · have hline : (state.lower kind buffer splices).line = state.line :=
        line_congr rfl rfl (by
          unfold OutsideBlock.lower
          dsimp only
          rw [if_pos hempty])
      rw [hline]
      exact h.fits
    · have hwrites : (state.lower kind buffer splices).writes.map Write.lowered =
          state.writes.map Write.lowered ++ [(some buffer.source, splices)] := by
        unfold OutsideBlock.lower
        dsimp only
        rw [if_neg hempty, List.map_append]
        rfl
      have hline : (state.lower kind buffer splices).line =
          state.line ++ [(some buffer.source, splices)] := by
        cases hjob : state.block.job with
        | sending submission =>
          have hahead : state.ahead ≤ (state.writes.map Write.lowered).length := by
            rw [List.length_map]
            exact h.ahead submission hjob
          rw [line_sending (state.lower kind buffer splices) hjob, line_sending _ hjob,
            hwrites]
          show (_ ++ [_]).take state.ahead ++ _ :: (_ ++ [_]).drop state.ahead = _
          rw [List.take_append_of_le_length hahead, List.drop_append_of_le_length hahead,
            List.append_assoc, List.cons_append]
        | idle | sent | changed =>
          rw [line_idle (state.lower kind buffer splices)
            (fun _ h => by cases hjob.symm.trans h), hwrites, line_idle _ (by rw [hjob]; nofun)]
      rw [hline]
      refine h.fits.push fun next hnext source hsource => ?_
      cases hsource
      rcases hclear with hnone | hexpected
      · exact absurd (congrArg List.length hnone) hempty
      · exact Option.some.inj (hnext.symm.trans hexpected)
  · rw [hshows]
    unfold OutsideBlock.lower at hwrite
    dsimp only at hwrite
    split_ifs at hwrite
    · exact (h.shown write hwrite hmoved).2
    · rcases List.mem_append.mp hwrite with hold | hnew
      · exact (h.shown write hold hmoved).2
      · rw [List.mem_singleton.mp hnew]
        exact congrArg bufferAtoms hdraft

/-- Where a write is kept changes nothing of the line. -/
theorem Lined.set (h : state.Lined) {i turns : Nat} {write write' : Write}
    (hwrite : state.writes[i]? = some write) (hlowered : write'.lowered = write.lowered)
    (hshown : write'.shown = write.shown) (hmoved : write'.moved = write.moved) :
    Lined { state with writes := state.writes.set i write', turns } := by
  refine ⟨h.drafted, fun submission hjob => ?_, ?_, fun other hother hunmoved => ?_⟩
  · dsimp only
    rw [List.length_set]
    exact h.ahead submission hjob
  · have hline : OutsideBlock.line { state with writes := state.writes.set i write', turns } =
        state.line := line_congr rfl rfl (map_lowered_set hwrite hlowered)
    rw [hline]
    exact h.fits
  · rcases List.mem_or_eq_of_mem_set hother with hold | rfl
    · exact h.shown other hold hunmoved
    · rw [hshown]
      exact h.shown write (List.mem_of_getElem? hwrite) (hmoved ▸ hunmoved)

/-- A write that is no longer in the line, which fits without it. -/
theorem Lined.erase (h : state.Lined) {i : Nat} {block : EditedBlock}
    (hdrafted : block.Drafted) (htarget : block.target = state.block.target)
    (hjob : ∀ submission, block.job ≠ .sending submission)
    (hfits : Fits (fun content write => spliceContents content write.2)
      (fun write content => ∀ source, write.1 = some source → content = source)
      block.stored ((state.writes.map Write.lowered).eraseIdx i)) :
    Lined { state with block, writes := state.writes.eraseIdx i } := by
  refine ⟨hdrafted, fun submission hsending => absurd hsending (hjob submission), ?_,
    fun write hwrite hmoved => ?_⟩
  · rw [line_idle _ hjob]
    dsimp only
    rw [List.eraseIdx_eq_take_drop_succ] at hfits ⊢
    rw [List.map_append, List.map_take, List.map_drop]
    exact hfits
  · obtain ⟨hsome, hshown⟩ := h.shown write (List.mem_of_mem_eraseIdx hwrite) hmoved
    refine ⟨htarget ▸ hsome, (shows_congr (by rw [htarget]) hsome).trans hshown⟩

theorem next_eq_some {i : Nat} {write : Write} (h : state.next i = some write) :
    state.block.job = .idle ∧ state.writes[i]? = some write ∧ write.kind ≠ .staged := by
  unfold OutsideBlock.next at h
  split at h
  · next hjob =>
    obtain ⟨hwrite, hturn⟩ := Option.filter_eq_some_iff.mp h
    exact ⟨hjob, hwrite, of_decide_eq_true (Bool.and_eq_true_iff.mp hturn).1⟩
  · cases h

/-- Every step keeps the line, and meets what it is to meet. -/
theorem Lined.step (h : state.Lined) {action : OutsideAction} (hclear : state.Clear blockId action)
    (hstep : state.step owner blockId action = some state') :
    state'.Lined ∧ state.Met action state' := by
  cases action with
  | block action =>
    obtain ⟨block, hblock, rfl⟩ := Option.map_eq_some_iff.mp hstep
    exact ⟨h.after hclear hblock, trivial⟩
  | word =>
    obtain ⟨buffer, hbuffer, rfl⟩ := Option.map_eq_some_iff.mp hstep
    have hdraft : state.block.draft = buffer := by
      unfold EditedBlock.draft Target.current
      rw [hbuffer]
      rfl
    exact ⟨h.lower hbuffer (hdraft ▸ hclear), trivial⟩
  | stage =>
    obtain ⟨buffer, hbuffer, hlower⟩ := Option.bind_eq_some_iff.mp hstep
    obtain ⟨command, hcommand, rfl⟩ := Option.map_eq_some_iff.mp hlower
    have hdraft : state.block.draft = buffer := by
      unfold EditedBlock.draft Target.current
      rw [hbuffer]
      rfl
    rw [contentSplices_bufferCommand hcommand]
    exact ⟨h.lower hbuffer (hdraft ▸ hclear), trivial⟩
  | choose i | dismiss i =>
    obtain ⟨write, hwrite, rfl⟩ := Option.map_eq_some_iff.mp hstep
    exact ⟨h.set (Option.filter_eq_some_iff.mp hwrite).1 rfl rfl rfl, trivial⟩
  | execute i =>
    obtain rfl : i = 0 := hclear
    obtain ⟨write, hnext, hstep⟩ := Option.bind_eq_some_iff.mp hstep
    obtain ⟨content, hcontent, hstep⟩ := Option.bind_eq_some_iff.mp hstep
    obtain ⟨block, hblock, rfl⟩ := Option.map_eq_some_iff.mp hstep
    obtain ⟨hjob, hwrite, -⟩ := next_eq_some hnext
    have hdrafted := h.drafted.step hblock
    dsimp only [EditedBlock.step] at hblock
    rw [hjob] at hblock
    cases hblock
    have hfits := h.fits
    rw [line_idle _ (by rw [hjob]; nofun)] at hfits
    cases hwrites : state.writes with
    | nil =>
      rw [hwrites] at hwrite
      cases hwrite
    | cons first rest =>
      rw [hwrites] at hwrite hfits
      cases hwrite
      refine ⟨?_, fun other hother => ?_⟩
      · rw [← hwrites]
        refine h.erase hdrafted rfl nofun ?_
        rw [hwrites]
        exact hfits.2 content hcontent
      · rw [hwrites] at hother
        cases hother
        exact hfits.1 _ rfl
  | reject i =>
    obtain ⟨write, hnext, rfl⟩ := Option.map_eq_some_iff.mp hstep
    obtain ⟨hjob, hwrite, hsent⟩ := next_eq_some hnext
    obtain ⟨hword, hmoved, hlast⟩ := hclear write hwrite
    have hshown := (h.shown write (List.mem_of_getElem? hwrite) hmoved).2
    have hmet {state' : OutsideBlock} (hshows : state'.block.shows = state.block.shows) :
        state.Met (.reject i) state' := by
      intro other hother
      cases hwrite.symm.trans hother
      exact hshows.trans hshown
    cases hkind : write.kind with
    | word => exact absurd hkind hword
    | staged => exact absurd hkind hsent
    | chosen => exact ⟨h.set hwrite rfl rfl rfl, hmet rfl⟩
    | dismissed =>
      refine ⟨h.erase h.drafted rfl (by rw [hjob]; nofun) ?_, hmet rfl⟩
      have hfits := h.fits
      rw [line_idle _ (by rw [hjob]; nofun)] at hfits
      have hne : state.writes.map Write.lowered ≠ [] := by
        rw [ne_eq, List.map_eq_nil_iff]
        intro hnil
        rw [hnil] at hwrite
        cases hwrite
      rw [← List.dropLast_concat_getLast hne] at hfits
      rw [List.eraseIdx_eq_dropLast (by rw [List.length_map]; exact hlast hkind)]
      exact (Collections.fits_append.mp hfits).1

/-! ## Runs -/

/-- A block that is opened with a content. -/
def opened (content : List ContentAtom) : OutsideBlock :=
  ⟨.opened content, [], 0, 0⟩

theorem lined_opened (content : List ContentAtom) : (opened content).Lined :=
  ⟨drafted_opened content, nofun, trivial, nofun⟩

inductive Run (owner : OutlineOwner) (blockId : BlockId) (start : OutsideBlock) :
    List OutsideAction → OutsideBlock → Prop
  | start : Run owner blockId start [] start
  | step {actions : List OutsideAction} {action : OutsideAction} {state state' : OutsideBlock} :
    Run owner blockId start actions state → state.step owner blockId action = some state' →
    Run owner blockId start (actions ++ [action]) state'

inductive ClearRun (owner : OutlineOwner) (blockId : BlockId) (start : OutsideBlock) :
    List OutsideAction → OutsideBlock → Prop
  | start : ClearRun owner blockId start [] start
  | step {actions : List OutsideAction} {action : OutsideAction} {state state' : OutsideBlock} :
    ClearRun owner blockId start actions state → state.Clear blockId action →
    state.step owner blockId action = some state' →
    ClearRun owner blockId start (actions ++ [action]) state'

theorem lined_of_run {start : OutsideBlock} {actions : List OutsideAction} (hstart : start.Lined)
    (h : ClearRun owner blockId start actions state) : state.Lined := by
  induction h with
  | start => exact hstart
  | step _ hclear hstep ih => exact (ih.step hclear hstep).1

/-- In a run of clear steps every edit that was lowered outside a submission is executed on the
content that it was lowered from; and where one is refused, the draft shows what it showed, with
what was typed since. -/
theorem met_of_run (content : List ContentAtom) {actions : List OutsideAction}
    {action : OutsideAction} (h : ClearRun owner blockId (opened content) actions state)
    (hclear : state.Clear blockId action) (hstep : state.step owner blockId action = some state') :
    state.Met action state' :=
  ((lined_of_run (lined_opened content) h).step hclear hstep).2

/-- A word is deleted before `b`, and the edit executed when its turn comes. -/
theorem met_of_run_word :
    ∃ actions state state', ClearRun sampleOwner sampleBlock (opened [.scalar 'a', .scalar 'b'])
        actions state ∧ state.step sampleOwner sampleBlock (.execute 0) = some state' ∧
      state'.block.stored = [.scalar 'b'] ∧ state.Met (.execute 0) state' := by
  have hstart : ClearRun sampleOwner sampleBlock (opened [.scalar 'a', .scalar 'b']) [] _ := .start
  have hobserved := @ClearRun.step _ _ _ _ (.block .observe) _ _ hstart trivial rfl
  have hdeleted := @ClearRun.step _ _ _ _ (.block (.edit 0 1 [])) _ _ hobserved trivial rfl
  have hlowered := @ClearRun.step _ _ _ _ .word _ _ hdeleted (.inr rfl) rfl
  exact ⟨_, _, _, hlowered, rfl, by decide +kernel,
    met_of_run [.scalar 'a', .scalar 'b'] hlowered rfl rfl⟩

/-- `x` is staged before `a`; another replica writes `q` there, and the picker is dismissed. -/
theorem not_met_staged :
    ¬∀ (actions : List OutsideAction) (action : OutsideAction) (state state' : OutsideBlock),
      Run sampleOwner sampleBlock (opened [.scalar 'a']) actions state →
      state.step sampleOwner sampleBlock action = some state' → state.Met action state' := by
  intro h
  have hstart : Run sampleOwner sampleBlock (opened [.scalar 'a']) [] _ := .start
  have hobserved := @Run.step _ _ _ _ (.block .observe) _ _ hstart rfl
  have htyped := @Run.step _ _ _ _ (.block (.edit 0 0 [.markdown ['x']])) _ _ hobserved rfl
  have hstaged := @Run.step _ _ _ _ .stage _ _ htyped rfl
  have hchanged := @Run.step _ _ _ _ (.block (.change [.scalar 'q', .scalar 'a'])) _ _ hstaged rfl
  have hpublished := @Run.step _ _ _ _ (.block (.publish none)) _ _ hchanged rfl
  have hsent := @Run.step _ _ _ _ (.dismiss 0) _ _ hpublished rfl
  have hmet := h _ (.execute 0) _ _ hsent rfl _ rfl
  exact absurd hmet (by decide +kernel)

end OutsideBlock

end Neoseq.Editor
