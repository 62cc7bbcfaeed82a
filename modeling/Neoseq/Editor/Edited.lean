import Neoseq.Editor.Moved

/-! A block that is edited while its session works. The session runs one job at a time: a
submission of the draft, or a change from elsewhere. In between there may be input. -/

namespace Neoseq.Editor
open Domain
open Content (InlineContent)
open Neoseq.Core (Command)

inductive BlockJob where
  | idle
  /-- A submission was prepared; its command has not reached the core. -/
  | sending (submission : Submission)
  /-- The command was executed; its result is not published. -/
  | sent (submission : Submission)
  /-- The content was changed from elsewhere; the change is not published. -/
  | changed

structure EditedBlock where
  /-- What the core has. -/
  stored : List ContentAtom
  /-- What the client snapshot has. -/
  published : List ContentAtom
  target : Target
  job : BlockJob
  /-- History: the composition keeps back a change that the draft itself was sent as. -/
  keepsOwn : Bool

inductive BlockAction where
  | edit (index remove : Nat) (insert : List InlineContent)
  | observe
  | unobserve
  | startComposing
  | endComposing
  | prepare (actions : List Command)
  | execute
  | refuse
  | settle (update : Option ContentUpdate)
  | change (content : List ContentAtom)
  | publish (update : Option ContentUpdate)

namespace EditedBlock

def step (owner : OutlineOwner) (blockId : BlockId) (block : EditedBlock) :
    BlockAction → Option EditedBlock
  | .edit index remove insert =>
    (block.target.splice block.published index remove insert).toOption.map fun target =>
      { block with target }
  | .observe => some { block with target := block.target.observe block.published }
  | .unobserve => some { block with target := block.target.unobserve }
  | .startComposing =>
    some { block with target := block.target.startComposing, keepsOwn := false }
  | .endComposing => (block.target.endComposing block.published).toOption.map fun target =>
      { block with target, keepsOwn := false }
  | .prepare actions => match block.job with
    | .idle => (block.target.prepare block.published owner blockId actions).map
        fun (target, submission) => { block with target, job := .sending submission }
    | _ => none
  | .execute => match block.job with
    | .sending submission =>
      (spliceContents block.stored ((submission.content.map contentSplices).getD [])).map
        fun stored => { block with stored, job := .sent submission }
    | _ => none
  | .refuse => match block.job with
    | .sending submission => some { block with
        target := block.target.failed block.published blockId submission
        job := .idle }
    | _ => none
  | .settle update => match block.job with
    | .sent submission =>
      ((block.target.publish block.stored update).toOption.bind fun target =>
        (target.completed block.stored submission).toOption).map fun target =>
          { block with
            published := block.stored
            target
            job := .idle
            keepsOwn := block.keepsOwn || block.target.composition.isSome }
    | _ => none
  | .change content => match block.job with
    | .idle => some { block with stored := content, job := .changed }
    | _ => none
  | .publish update => match block.job with
    | .changed => (block.target.publish block.stored update).toOption.map fun target =>
        { block with published := block.stored, target, job := .idle }
    | _ => none

def draft (block : EditedBlock) : ContentBuffer :=
  block.target.current block.published

def shows (block : EditedBlock) : List ContentAtom :=
  bufferAtoms block.draft

/-- The content that a composition keeps back. -/
def keptBack (block : EditedBlock) : Option (List ContentAtom) :=
  block.target.composition.bind Composition.content

def keptChanges (block : EditedBlock) : List ContentRangeChange :=
  (block.target.composition.map Composition.mapping).getD []

/-- The changes from elsewhere that an action names for moving the draft. -/
def announced (block : EditedBlock) : BlockAction → List ContentRangeChange
  | .publish update =>
    ((update.filter fun u => decide (u.content = block.stored)).map ContentUpdate.mapping).getD []
  | .endComposing => if block.keepsOwn then [] else block.keptChanges
  | _ => []

/-- No change waits for the end of a composition while the draft is sent or a composition
begins; and where the draft's own change waits, the changes that wait do not fit the draft that
it has already become, unless they leave all in place. -/
def Clear (block : EditedBlock) : BlockAction → Prop
  | .prepare _ | .startComposing => block.keptBack = none
  | .endComposing => block.keepsOwn = true → ∀ content origins, block.keptBack = some content →
      Turns block.draft.source block.keptChanges content origins →
      origins = Origins.identity block.draft.source.length
  | _ => True

/-! ## What holds between the steps -/

/-- A submission is in flight, and the draft has become what was sent. -/
structure InFlight (block : EditedBlock) (submission : Submission) : Prop where
  pending : block.target.pending = 1
  submitted : block.target.submitted = [submission.submitted]
  keptBack : block.keptBack = none
  base : submission.submitted.source = block.published
  increasing : Increasing submission.submitted.source.length 0 submission.submitted.pieces
  command : ∃ owner blockId, submission.content = bufferCommand submission.submitted owner blockId
  draft : ∃ buffer, block.target.buffer = some buffer ∧
    buffer.source = bufferAtoms submission.submitted

/-- Nothing is in flight, and the draft starts from what is published. -/
structure Settled (block : EditedBlock) : Prop where
  pending : block.target.pending = 0
  submitted : block.target.submitted = []
  source : block.keptBack = none → block.draft.source = block.published

structure Coherent (block : EditedBlock) : Prop where
  increasing : Increasing block.draft.source.length 0 block.draft.pieces
  kept : ∀ content, block.keptBack = some content →
    content = block.published ∧ block.target.buffer.isSome = true
  idle : block.job = .idle → block.Settled ∧ block.stored = block.published
  changed : block.job = .changed → block.Settled
  sending : ∀ submission, block.job = .sending submission →
    block.InFlight submission ∧ block.stored = block.published
  sent : ∀ submission, block.job = .sent submission →
    block.InFlight submission ∧ block.stored = bufferAtoms submission.submitted

/-- What a step does to what is shown. -/
inductive Effect (block block' : EditedBlock) : BlockAction → Prop
  | edit {index remove : Nat} {insert : List InlineContent} :
    index + remove ≤ block.shows.length →
    block'.shows = block.shows.take index ++ contentAtoms insert ++
      block.shows.drop (index + remove) →
    Effect block block' (.edit index remove insert)
  | same {action : BlockAction} :
    (∀ index remove insert, action ≠ .edit index remove insert) →
    block'.shows = block.shows → Effect block block' action
  | moved {action : BlockAction} {places : Origins} :
    (action = .endComposing ∨ ∃ update, action = .publish update) →
    Moved (block.announced action) block.draft block'.published block'.draft places →
    Effect block block' action

end EditedBlock

/-! ## The operations of a target -/

variable {target : Target} {canonical : List ContentAtom}

/-- A target lets go only of a draft that has nothing of its own. -/
theorem Target.release_cases (target : Target) :
    target.release = target ∨
      (target.pending = 0 ∧ target.composition = none ∧
        target.release = { target with buffer := none } ∧
        ∀ buffer, target.buffer = some buffer → buffer.source = bufferAtoms buffer) := by
  unfold Target.release
  split_ifs with hheld hown
  · exact .inl rfl
  · exact .inl rfl
  · rw [not_or, not_or] at hheld
    rw [not_or] at hown
    refine .inr ⟨by omega, Option.not_isSome_iff_eq_none.mp hheld.2.2, rfl, fun buffer hbuffer => ?_⟩
    by_contra hne
    refine hown.2 ?_
    rw [hbuffer]
    exact (Bool.not_eq_true' _).mpr (decide_eq_false hne)

theorem Target.release_current (target : Target)
    (hsource : (target.current canonical).source = canonical) :
    bufferAtoms (target.release.current canonical) = bufferAtoms (target.current canonical) ∧
      (target.release.current canonical).source = canonical := by
  rcases target.release_cases with heq | ⟨-, -, heq, hclean⟩
  · rw [heq]
    exact ⟨rfl, hsource⟩
  · rw [heq]
    refine ⟨?_, canonicalBuffer_source canonical⟩
    show bufferAtoms (canonicalBuffer canonical) = _
    rw [bufferAtoms_canonical]
    cases hbuffer : target.buffer with
    | none =>
      unfold Target.current
      rw [hbuffer]
      exact (bufferAtoms_canonical canonical).symm
    | some buffer =>
      unfold Target.current at hsource ⊢
      rw [hbuffer] at hsource ⊢
      exact hsource.symm.trans (hclean buffer hbuffer)

theorem Target.release_increasing (target : Target)
    (h : Increasing (target.current canonical).source.length 0 (target.current canonical).pieces) :
    Increasing (target.release.current canonical).source.length 0
      (target.release.current canonical).pieces := by
  rcases target.release_cases with heq | ⟨-, -, heq, -⟩
  · rwa [heq]
  · rw [heq]
    exact increasing_create _

@[simp] theorem Target.release_pending (target : Target) :
    target.release.pending = target.pending := by
  rcases target.release_cases with heq | ⟨-, -, heq, -⟩ <;> rw [heq]

@[simp] theorem Target.release_submitted (target : Target) :
    target.release.submitted = target.submitted := by
  rcases target.release_cases with heq | ⟨-, -, heq, -⟩ <;> rw [heq]

@[simp] theorem Target.release_composition (target : Target) :
    target.release.composition = target.composition := by
  rcases target.release_cases with heq | ⟨-, -, heq, -⟩ <;> rw [heq]

theorem toOption_eq_some {ε α : Type} {x : Except ε α} {a : α} (h : x.toOption = some a) :
    x = .ok a := by
  cases x with
  | error e => cases h
  | ok b =>
    cases h
    rfl

/-! ## The steps -/

namespace EditedBlock

variable {owner : OutlineOwner} {blockId : BlockId} {block block' : EditedBlock}

/-- A draft that starts from the same content takes the place of the one before. -/
theorem Coherent.replace (h : Coherent block) {target : Target} {buffer : ContentBuffer}
    (hbuffer : target.buffer = some buffer) (hpending : target.pending = block.target.pending)
    (hsubmitted : target.submitted = block.target.submitted)
    (hcomposition : target.composition = block.target.composition)
    (hinc : Increasing buffer.source.length 0 buffer.pieces)
    (hsource : buffer.source = block.draft.source) : Coherent { block with target } := by
  have hdraft : EditedBlock.draft { block with target } = buffer := by
    show target.buffer.getD _ = buffer
    rw [hbuffer]
    rfl
  have hkept : EditedBlock.keptBack { block with target } = block.keptBack := by
    show target.composition.bind _ = _
    rw [hcomposition]
    rfl
  have hsettled (hs : block.Settled) : Settled { block with target } := by
    refine ⟨hpending.trans hs.pending, hsubmitted.trans hs.submitted, fun hnone => ?_⟩
    rw [hdraft, hsource]
    exact hs.source (hkept ▸ hnone)
  have hinFlight {submission : Submission} (hf : block.InFlight submission) :
      InFlight { block with target } submission := by
    refine ⟨hpending.trans hf.pending, hsubmitted.trans hf.submitted, hkept.trans hf.keptBack,
      hf.base, hf.increasing, hf.command, buffer, hbuffer, ?_⟩
    obtain ⟨before, hbefore, hatoms⟩ := hf.draft
    have hcurrent : block.draft = before := by
      show block.target.buffer.getD _ = before
      rw [hbefore]
      rfl
    rw [hsource, hcurrent, hatoms]
  refine ⟨?_, fun content hcontent => ?_, ?_, ?_, ?_, ?_⟩
  · rw [hdraft]
    exact hinc
  · rw [hkept] at hcontent
    refine ⟨(h.kept content hcontent).1, ?_⟩
    show target.buffer.isSome = true
    rw [hbuffer]
    rfl
  · exact fun hjob => (h.idle hjob).imp_left hsettled
  · exact fun hjob => hsettled (h.changed hjob)
  · exact fun submission hjob => (h.sending submission hjob).imp_left hinFlight
  · exact fun submission hjob => (h.sent submission hjob).imp_left hinFlight

theorem Coherent.edit (h : Coherent block) {index remove : Nat} {insert : List InlineContent}
    {target : Target} (hsplice : block.target.splice block.published index remove insert =
      .ok target) :
    Coherent { block with target } ∧
      Effect block { block with target } (.edit index remove insert) := by
  unfold Target.splice at hsplice
  cases hnext : spliceBuffer (block.target.current block.published) index remove insert with
  | error e =>
    rw [hnext] at hsplice
    cases hsplice
  | ok next =>
    rw [hnext] at hsplice
    cases hsplice
    obtain ⟨hrange, hsource, hinc, hatoms⟩ := spliceBuffer_ok h.increasing hnext
    exact ⟨h.replace rfl rfl rfl rfl hinc hsource, .edit hrange hatoms⟩

theorem Coherent.observe (h : Coherent block) :
    Coherent { block with target := block.target.observe block.published } ∧
      Effect block { block with target := block.target.observe block.published } .observe :=
  ⟨h.replace rfl rfl rfl rfl h.increasing rfl, .same nofun rfl⟩

theorem Coherent.settled (h : Coherent block) (hpending : block.target.pending = 0) :
    block.Settled := by
  cases hjob : block.job with
  | idle => exact (h.idle hjob).1
  | changed => exact h.changed hjob
  | sending submission =>
    have hone := (h.sending submission hjob).1.pending
    omega
  | sent submission =>
    have hone := (h.sent submission hjob).1.pending
    omega

theorem Coherent.unobserve (h : Coherent block) :
    Coherent { block with target := block.target.unobserve } ∧
      Effect block { block with target := block.target.unobserve } .unobserve := by
  have ⟨target, htarget⟩ : ∃ target, target = { block.target with observed := false } := ⟨_, rfl⟩
  have hcurrent : target.current block.published = block.draft := by rw [htarget]; rfl
  have hrelease : block.target.unobserve = target.release := by rw [htarget]; rfl
  rw [hrelease]
  rcases target.release_cases with heq | ⟨hpending, hnone, heq, -⟩
  · rw [heq, htarget]
    refine ⟨⟨h.increasing, h.kept, ?_, ?_, ?_, ?_⟩, .same nofun rfl⟩
    · exact fun hjob => (h.idle hjob).imp_left fun hs => ⟨hs.pending, hs.submitted, hs.source⟩
    · exact fun hjob => ⟨(h.changed hjob).pending, (h.changed hjob).submitted,
        (h.changed hjob).source⟩
    · exact fun submission hjob => (h.sending submission hjob).imp_left fun hf =>
        ⟨hf.pending, hf.submitted, hf.keptBack, hf.base, hf.increasing, hf.command, hf.draft⟩
    · exact fun submission hjob => (h.sent submission hjob).imp_left fun hf =>
        ⟨hf.pending, hf.submitted, hf.keptBack, hf.base, hf.increasing, hf.command, hf.draft⟩
  · have hzero : block.target.pending = 0 := by rw [htarget] at hpending; exact hpending
    have hkeptNone : block.keptBack = none := by
      rw [htarget] at hnone
      show block.target.composition.bind _ = none
      rw [show block.target.composition = none from hnone]
      rfl
    have hs := h.settled hzero
    have hsource := hs.source hkeptNone
    obtain ⟨hatoms, hsource'⟩ := @Target.release_current block.published target
      (by rw [hcurrent]; exact hsource)
    have hsettled : Settled { block with target := target.release } := by
      refine ⟨?_, ?_, fun _ => hsource'⟩
      · show target.release.pending = 0
        rw [Target.release_pending, hpending]
      · show target.release.submitted = []
        rw [Target.release_submitted, htarget]
        exact hs.submitted
    refine ⟨⟨?_, fun content hcontent => ?_, ?_, ?_, ?_, ?_⟩, .same nofun ?_⟩
    · exact target.release_increasing (by rw [hcurrent]; exact h.increasing)
    · have hcomposition : target.release.composition.bind Composition.content = some content :=
        hcontent
      rw [Target.release_composition, hnone] at hcomposition
      cases hcomposition
    · exact fun hjob => ⟨hsettled, (h.idle hjob).2⟩
    · exact fun _ => hsettled
    · intro submission hjob
      have hone := (h.sending submission hjob).1.pending
      omega
    · intro submission hjob
      have hone := (h.sent submission hjob).1.pending
      omega
    · exact hatoms.trans (congrArg bufferAtoms hcurrent)

/-- A composition that keeps nothing back begins or ends. -/
theorem Coherent.compose (h : Coherent block) (hnone : block.keptBack = none)
    (composition : Option Composition)
    (hcontent : composition.bind Composition.content = none) :
    Coherent { block with target := { block.target with composition }, keepsOwn := false } := by
  have hsettled (hs : block.Settled) :
      Settled { block with target := { block.target with composition }, keepsOwn := false } :=
    ⟨hs.pending, hs.submitted, fun _ => hs.source hnone⟩
  have hinFlight {submission : Submission} (hf : block.InFlight submission) : InFlight
      { block with target := { block.target with composition }, keepsOwn := false } submission :=
    ⟨hf.pending, hf.submitted, hcontent, hf.base, hf.increasing, hf.command, hf.draft⟩
  refine ⟨h.increasing, fun content hkept => ?_, ?_, ?_, ?_, ?_⟩
  · have hkept : composition.bind Composition.content = some content := hkept
    rw [hcontent] at hkept
    cases hkept
  · exact fun hjob => (h.idle hjob).imp_left hsettled
  · exact fun hjob => hsettled (h.changed hjob)
  · exact fun submission hjob => (h.sending submission hjob).imp_left hinFlight
  · exact fun submission hjob => (h.sent submission hjob).imp_left hinFlight

/-- While a composition keeps a change back nothing is in flight. -/
theorem Coherent.settled_of_keptBack (h : Coherent block) {content : List ContentAtom}
    (hkept : block.keptBack = some content) : block.Settled := by
  cases hjob : block.job with
  | idle => exact (h.idle hjob).1
  | changed => exact h.changed hjob
  | sending submission =>
    have hnone := (h.sending submission hjob).1.keptBack
    rw [hkept] at hnone
    cases hnone
  | sent submission =>
    have hnone := (h.sent submission hjob).1.keptBack
    rw [hkept] at hnone
    cases hnone

theorem Coherent.endComposing (h : Coherent block) (hclear : block.Clear .endComposing)
    {target : Target} (hend : block.target.endComposing block.published = .ok target) :
    Coherent { block with target, keepsOwn := false } ∧
      Effect block { block with target, keepsOwn := false } .endComposing := by
  unfold Target.endComposing at hend
  cases hkept : block.target.composition.bind Composition.content with
  | none =>
    rw [hkept] at hend
    cases hend
    exact ⟨h.compose hkept none rfl, .same nofun rfl⟩
  | some content =>
    have hs := h.settled_of_keptBack hkept
    have hcontent : content = block.published := (h.kept content hkept).1
    rw [hkept] at hend
    dsimp only at hend
    cases hrebased : rebaseOnto (block.target.current block.published) (inlineContent content)
        (block.target.composition.map Composition.mapping) with
    | error e =>
      rw [hrebased] at hend
      cases hend
    | ok rebased =>
      obtain ⟨after, changes⟩ := rebased
      rw [hrebased] at hend
      cases hend
      obtain ⟨hsource, hinc, places, hmoved⟩ :=
        @rebaseOnto_moved _ _ content _ _ h.increasing hrebased
      rw [hcontent] at hsource
      have hsettled : Settled { block with
          target := { block.target with composition := none, buffer := some after }
          keepsOwn := false } := ⟨hs.pending, hs.submitted, fun _ => hsource⟩
      refine ⟨⟨hinc, nofun, fun hjob => ⟨hsettled, (h.idle hjob).2⟩, fun _ => hsettled, ?_, ?_⟩, ?_⟩
      · intro submission hjob
        have hnone := (h.sending submission hjob).1.keptBack
        rw [show block.keptBack = some content from hkept] at hnone
        cases hnone
      · intro submission hjob
        have hnone := (h.sent submission hjob).1.keptBack
        rw [show block.keptBack = some content from hkept] at hnone
        cases hnone
      · by_cases hown : block.keepsOwn = true
        · obtain ⟨mapping, origins, changes, marks, hmapping, hturns, hspec, rfl⟩ := hmoved
          rcases hmapping with rfl | hdiff
          · have hidentity := hclear hown content origins hkept hturns
            rw [hidentity] at hspec
            exact .same nofun (hspec.atoms_identity h.increasing)
          · refine .moved (.inl rfl) ⟨mapping, origins, changes, marks, .inr ?_, ?_, ?_, rfl⟩
            · rw [hdiff, hcontent]
            · rw [← hcontent]
              exact hturns
            · rw [← hcontent]
              exact hspec
        · refine @Effect.moved _ _ _ places (.inl rfl) ?_
          rw [hcontent] at hmoved
          show Moved (if block.keepsOwn then [] else block.keptChanges) _ _ _ _
          rw [if_neg hown]
          exact hmoved

/-- A block whose job ends with the target released. -/
theorem coherent_released (block : EditedBlock) {target : Target} (htarget : block.target = target.release)
    (hjob : block.job = .idle) (hstored : block.stored = block.published)
    (hpending : target.pending = 0) (hsubmitted : target.submitted = [])
    (hsource : (target.current block.published).source = block.published)
    (hinc : Increasing (target.current block.published).source.length 0
      (target.current block.published).pieces)
    (hkept : ∀ content, target.composition.bind Composition.content = some content →
      content = block.published ∧ target.buffer.isSome = true) :
    Coherent block ∧ block.shows = bufferAtoms (target.current block.published) := by
  obtain ⟨hatoms, hreleased⟩ := target.release_current hsource
  have hdraft : block.draft = target.release.current block.published := by
    unfold draft
    rw [htarget]
  have hsettled : block.Settled := by
    refine ⟨?_, ?_, fun _ => ?_⟩
    · rw [htarget, Target.release_pending, hpending]
    · rw [htarget, Target.release_submitted, hsubmitted]
    · rw [hdraft, hreleased]
  refine ⟨⟨?_, fun content hcontent => ?_, fun _ => ⟨hsettled, hstored⟩, fun _ => hsettled, ?_, ?_⟩,
    ?_⟩
  · rw [hdraft]
    exact target.release_increasing hinc
  · have hcomposition : target.release.composition.bind Composition.content = some content := by
      rw [← htarget]
      exact hcontent
    rw [Target.release_composition] at hcomposition
    refine ⟨(hkept content hcomposition).1, ?_⟩
    rcases target.release_cases with heq | ⟨-, hnone, -, -⟩
    · rw [htarget, heq]
      exact (hkept content hcomposition).2
    · rw [hnone] at hcomposition
      cases hcomposition
  · intro submission hsending
    rw [hjob] at hsending
    cases hsending
  · intro submission hsent
    rw [hjob] at hsent
    cases hsent
  · unfold shows
    rw [hdraft, hatoms]

theorem Coherent.prepare (h : Coherent block) {actions : List Command}
    (hclear : block.Clear (.prepare actions)) (hjob : block.job = .idle) {target : Target}
    {submission : Submission}
    (hprepare : block.target.prepare block.published owner blockId actions =
      some (target, submission)) :
    Coherent { block with target, job := .sending submission } ∧
      Effect block { block with target, job := .sending submission } (.prepare actions) := by
  have hnone : block.keptBack = none := hclear
  obtain ⟨hs, hstored⟩ := h.idle hjob
  unfold Target.prepare at hprepare
  dsimp only at hprepare
  split_ifs at hprepare
  cases hprepare
  have hsource : block.draft.source = block.published := hs.source hnone
  have hinFlight : ∀ sent : BlockJob, InFlight { block with
      target := { block.target with
        retryActions := []
        submitted := block.target.submitted ++ [block.draft]
        pending := block.target.pending + 1
        buffer := some (settleBuffer block.draft) }
      job := sent } ⟨block.draft, actionCommands (block.target.retryActions ++ actions),
        bufferCommand block.draft owner blockId⟩ := by
    intro sent
    refine ⟨?_, ?_, hnone, hsource, h.increasing, ⟨owner, blockId, rfl⟩, _, rfl,
      settleBuffer_source _⟩
    · show block.target.pending + 1 = 1
      rw [hs.pending]
    · show block.target.submitted ++ [block.draft] = [block.draft]
      rw [hs.submitted]
      rfl
  refine ⟨⟨increasing_create _, fun content hcontent => ?_, nofun, nofun, ?_, nofun⟩, .same nofun ?_⟩
  · have hkept : block.keptBack = some content := hcontent
    rw [hnone] at hkept
    cases hkept
  · intro submission hsubmission
    cases hsubmission
    exact ⟨hinFlight _, hstored⟩
  · exact bufferAtoms_settle block.draft

/-- The command of a submission makes the content it was lowered from what was sent. -/
theorem submission_executed {submission : Submission}
    (hinc : Increasing submission.submitted.source.length 0 submission.submitted.pieces)
    (hcommand : ∃ owner blockId, submission.content = bufferCommand submission.submitted owner blockId) :
    spliceContents submission.submitted.source
      ((submission.content.map contentSplices).getD []) =
        some (bufferAtoms submission.submitted) := by
  obtain ⟨owner, blockId, hcommand⟩ := hcommand
  cases hcontent : submission.content with
  | none =>
    rw [hcontent] at hcommand
    exact congrArg some (bufferCommand_eq_none.mp hcommand.symm)
  | some command =>
    rw [hcontent] at hcommand
    show spliceContents _ (contentSplices command) = _
    rw [contentSplices_bufferCommand hcommand.symm]
    exact spliceContents_bufferSplices blockId hinc

theorem InFlight.executed {submission : Submission} (hf : block.InFlight submission)
    (hstored : block.stored = block.published) {stored : List ContentAtom}
    (hexecute : spliceContents block.stored
      ((submission.content.map contentSplices).getD []) = some stored) :
    stored = bufferAtoms submission.submitted := by
  rw [hstored, ← hf.base, submission_executed hf.increasing hf.command] at hexecute
  exact (Option.some.inj hexecute).symm

theorem Coherent.execute (h : Coherent block) {submission : Submission}
    (hjob : block.job = .sending submission) {stored : List ContentAtom}
    (hexecute : spliceContents block.stored
      ((submission.content.map contentSplices).getD []) = some stored) :
    Coherent { block with stored, job := .sent submission } ∧
      Effect block { block with stored, job := .sent submission } .execute := by
  obtain ⟨hf, hstored⟩ := h.sending submission hjob
  refine ⟨⟨h.increasing, h.kept, nofun, nofun, nofun, ?_⟩, .same nofun rfl⟩
  intro other hother
  cases hother
  exact ⟨⟨hf.pending, hf.submitted, hf.keptBack, hf.base, hf.increasing, hf.command, hf.draft⟩,
    hf.executed hstored hexecute⟩

/-- While a submission is in flight its target has a draft. -/
theorem InFlight.current {submission : Submission} (hf : block.InFlight submission) :
    ∃ buffer, block.target.buffer = some buffer ∧ block.draft = buffer ∧
      ∀ canonical, block.target.current canonical = buffer := by
  obtain ⟨buffer, hbuffer, -⟩ := hf.draft
  have hcurrent (canonical : List ContentAtom) : block.target.current canonical = buffer := by
    unfold Target.current
    rw [hbuffer]
    rfl
  exact ⟨buffer, hbuffer, hcurrent _, hcurrent⟩

theorem Coherent.refuse (h : Coherent block) {submission : Submission}
    (hjob : block.job = .sending submission) :
    Coherent { block with
        target := block.target.failed block.published blockId submission
        job := .idle } ∧
      Effect block { block with
        target := block.target.failed block.published blockId submission
        job := .idle } .refuse := by
  obtain ⟨hf, hstored⟩ := h.sending submission hjob
  obtain ⟨buffer, hbuffer, hdraft, hcurrent⟩ := hf.current
  obtain ⟨before, hbefore, hatoms⟩ := hf.draft
  obtain rfl : buffer = before := Option.some.inj (hbuffer.symm.trans hbefore)
  obtain ⟨restored, hrestore, hsource, hinc, hshows⟩ := restoreBuffer_ok blockId hf.increasing
    (hdraft ▸ h.increasing) hatoms
  have ⟨target, htarget⟩ : ∃ target : Target, target = { block.target with
      retryActions := if submission.submittedActions.length = 0 then block.target.retryActions
        else submission.submittedActions
      buffer := some restored
      submitted := block.target.submitted.erase submission.submitted
      pending := block.target.pending - 1 } := ⟨_, rfl⟩
  have hfailed : block.target.failed block.published blockId submission = target.release := by
    unfold Target.failed Target.finish
    rw [hcurrent, hrestore, htarget]
  have hnow : target.current block.published = restored := by rw [htarget]; rfl
  rw [hfailed]
  obtain ⟨hcoherent, hshown⟩ := coherent_released
    { block with target := target.release, job := .idle } rfl rfl hstored
    (by rw [htarget]; dsimp only; rw [hf.pending])
    (by rw [htarget]; dsimp only; rw [hf.submitted, List.erase_cons_head])
    (by rw [hnow, hsource]; exact hf.base) (by rw [hnow]; exact hinc)
    (fun content hcontent => by
      have hkept : block.keptBack = some content := by rw [htarget] at hcontent; exact hcontent
      rw [hf.keptBack] at hkept
      cases hkept)
  refine ⟨hcoherent, .same nofun ?_⟩
  rw [hshown]
  show bufferAtoms (target.current block.published) = bufferAtoms block.draft
  rw [hnow, hshows, hdraft]

/-- A publication leaves a draft alone while what it was sent as is in flight. -/
theorem InFlight.publish {submission : Submission} (hf : block.InFlight submission)
    {update : Option ContentUpdate} {target : Target}
    (hpublish : block.target.publish canonical update = .ok target) :
    target.buffer = block.target.buffer ∧ target.pending = 1 ∧
      target.submitted = [submission.submitted] ∧
      ∀ content, target.composition.bind Composition.content = some content →
        content = canonical := by
  obtain ⟨buffer, hbuffer, -, -⟩ := hf.current
  have hpending := hf.pending
  have hnone : block.target.composition.bind Composition.content = none := hf.keptBack
  unfold Target.publish at hpublish
  rw [hbuffer] at hpublish
  cases hcomposition : block.target.composition with
  | some composition =>
    rw [hcomposition] at hpublish
    cases hpublish
    refine ⟨hbuffer.symm, hf.pending, hf.submitted, fun content hcontent => ?_⟩
    cases hcontent
    rfl
  | none =>
    rw [hcomposition] at hpublish
    have heq : target = block.target := by
      dsimp only at hpublish
      rw [if_pos (show 0 < block.target.pending by omega)] at hpublish
      split_ifs at hpublish <;> exact (Except.ok.inj hpublish).symm
    rw [heq]
    refine ⟨rfl, hf.pending, hf.submitted, fun content hcontent => ?_⟩
    rw [hnone] at hcontent
    cases hcontent

theorem Coherent.settle (h : Coherent block) {submission : Submission}
    (hjob : block.job = .sent submission) {update : Option ContentUpdate}
    {published target : Target} (keepsOwn : Bool)
    (hpublish : block.target.publish block.stored update = .ok published)
    (hcompleted : published.completed block.stored submission = .ok target) :
    Coherent { block with published := block.stored, target, job := .idle, keepsOwn } ∧
      Effect block { block with published := block.stored, target, job := .idle, keepsOwn }
        (.settle update) := by
  obtain ⟨hf, hstored⟩ := h.sent submission hjob
  obtain ⟨buffer, hbuffer, hdraft, -⟩ := hf.current
  obtain ⟨before, hbefore, hatoms⟩ := hf.draft
  obtain rfl : buffer = before := Option.some.inj (hbuffer.symm.trans hbefore)
  obtain ⟨hsame, hpending, hsubmitted, hkept⟩ := hf.publish hpublish
  have hcurrent : published.current block.stored = buffer := by
    unfold Target.current
    rw [hsame, hbuffer]
    rfl
  have hsource : buffer.source = block.stored := hatoms.trans hstored.symm
  -- the draft that is left shows the same and starts from what is stored
  have hleft : ∃ next : Target, target = next.finish submission ∧ next.pending = 1 ∧
      next.submitted = [submission.submitted] ∧ next.composition = published.composition ∧
      ∃ draft, next.buffer = some draft ∧ draft.source = block.stored ∧
        Increasing draft.source.length 0 draft.pieces ∧ bufferAtoms draft = bufferAtoms buffer := by
    unfold Target.completed at hcompleted
    dsimp only at hcompleted
    rw [hcurrent, if_neg (not_not.mpr hsource)] at hcompleted
    split_ifs at hcompleted with hinput
    · cases hcompleted
      refine ⟨_, rfl, hpending, hsubmitted, rfl, _, rfl, canonicalBuffer_source _,
        increasing_create _, ?_⟩
      rw [bufferAtoms_canonical, hstored, hinput]
    · cases hcompleted
      exact ⟨published, rfl, hpending, hsubmitted, rfl, buffer, hsame.trans hbuffer, hsource,
        hdraft ▸ h.increasing, rfl⟩
  obtain ⟨next, rfl, hone, hlist, hcomposition, draft, hnext, hdraftSource, hinc, hshows⟩ := hleft
  have ⟨last, hlast⟩ : ∃ last : Target, last = { next with
      submitted := next.submitted.erase submission.submitted
      pending := next.pending - 1 } := ⟨_, rfl⟩
  have hnow : last.current block.stored = draft := by
    unfold Target.current
    rw [hlast, hnext]
    rfl
  have hfinish : next.finish submission = last.release := by rw [hlast]; rfl
  rw [hfinish]
  obtain ⟨hcoherent, hshown⟩ := coherent_released
    { block with
      published := block.stored
      target := last.release
      job := .idle
      keepsOwn } rfl rfl rfl
    (by rw [hlast]; dsimp only; rw [hone])
    (by rw [hlast]; dsimp only; rw [hlist, List.erase_cons_head])
    (by rw [hnow]; exact hdraftSource) (by rw [hnow]; exact hinc)
    (fun content hcontent => by
      rw [hlast] at hcontent ⊢
      dsimp only at hcontent ⊢
      rw [hcomposition] at hcontent
      rw [hnext]
      exact ⟨hkept content hcontent, rfl⟩)
  refine ⟨hcoherent, .same nofun ?_⟩
  rw [hshown]
  show bufferAtoms (last.current block.stored) = bufferAtoms block.draft
  rw [hnow, hshows, hdraft]

theorem Coherent.publish (h : Coherent block) (hjob : block.job = .changed)
    {update : Option ContentUpdate} {target : Target}
    (hpublish : block.target.publish block.stored update = .ok target) :
    Coherent { block with published := block.stored, target, job := .idle } ∧
      Effect block { block with published := block.stored, target, job := .idle }
        (.publish update) := by
  have hs := h.changed hjob
  unfold Target.publish at hpublish
  cases hbuffer : block.target.buffer with
  | none =>
    rw [hbuffer] at hpublish
    cases hpublish
    have hdraft : block.draft = canonicalBuffer block.published := by
      unfold draft Target.current
      rw [hbuffer]
      rfl
    have hnow : EditedBlock.draft { block with published := block.stored, job := .idle } =
        canonicalBuffer block.stored := by
      unfold draft Target.current
      rw [hbuffer]
      rfl
    have hnone : block.keptBack = none := by
      cases hkept : block.keptBack with
      | none => rfl
      | some content =>
        have hsome := (h.kept content hkept).2
        rw [hbuffer] at hsome
        cases hsome
    refine ⟨⟨?_, fun content hcontent => ?_, fun _ => ⟨⟨hs.pending, hs.submitted, fun _ => ?_⟩, rfl⟩,
      nofun, nofun, nofun⟩, ?_⟩
    · rw [hnow]
      exact increasing_create _
    · have hkept : block.keptBack = some content := hcontent
      rw [hnone] at hkept
      cases hkept
    · rw [hnow]
      exact canonicalBuffer_source _
    · obtain ⟨places, hmoved⟩ := moved_canonical (block.announced (.publish update))
        block.published block.stored
      refine @Effect.moved _ _ _ places (.inr ⟨update, rfl⟩) ?_
      rw [hdraft, hnow]
      exact hmoved
  | some buffer =>
    have hdraft : block.draft = buffer := by
      unfold draft Target.current
      rw [hbuffer]
      rfl
    have hinc : Increasing buffer.source.length 0 buffer.pieces := hdraft ▸ h.increasing
    have hshows : block.shows = bufferAtoms buffer := congrArg bufferAtoms hdraft
    rw [hbuffer] at hpublish
    cases hcomposition : block.target.composition with
    | some composition =>
      rw [hcomposition] at hpublish
      cases hpublish
      refine ⟨⟨hinc, fun content hcontent => ?_, fun _ => ⟨⟨hs.pending, hs.submitted, nofun⟩, rfl⟩,
        nofun, nofun, nofun⟩, .same nofun hshows.symm⟩
      cases hcontent
      exact ⟨rfl, rfl⟩
    | none =>
      have hnone {content : List ContentAtom} {target : Target} (htarget : target.composition = none)
          (hcontent : target.composition.bind Composition.content = some content) : False := by
        rw [htarget] at hcontent
        cases hcontent
      rw [hcomposition] at hpublish
      dsimp only at hpublish
      rw [if_neg (show ¬0 < block.target.pending by rw [hs.pending]; omega)] at hpublish
      split_ifs at hpublish with hmoves
      · cases hrebased : rebaseOnto buffer (inlineContent block.stored)
            ((update.filter fun u => decide (u.content = block.stored)).map
              ContentUpdate.mapping) with
        | error e =>
          rw [hrebased] at hpublish
          cases hpublish
        | ok rebased =>
          obtain ⟨after, changes⟩ := rebased
          rw [hrebased] at hpublish
          cases hpublish
          obtain ⟨hsource, hincAfter, places, hmoved⟩ := rebaseOnto_moved hinc hrebased
          refine ⟨⟨hincAfter, fun content hcontent => (hnone hcomposition hcontent).elim,
            fun _ => ⟨⟨hs.pending, hs.submitted, fun _ => hsource⟩, rfl⟩, nofun, nofun, nofun⟩,
            @Effect.moved _ _ _ places (.inr ⟨update, rfl⟩) ?_⟩
          rw [hdraft]
          exact hmoved
      · cases hpublish
        have hsource : buffer.source = block.stored := by
          rw [not_or, not_not, not_not] at hmoves
          exact hmoves.2
        have hnow : EditedBlock.draft { block with published := block.stored, job := .idle } =
            buffer := by
          unfold draft Target.current
          rw [hbuffer]
          rfl
        refine ⟨⟨?_, fun content hcontent => (hnone hcomposition hcontent).elim,
          fun _ => ⟨⟨hs.pending, hs.submitted, fun _ => ?_⟩, rfl⟩, nofun, nofun, nofun⟩,
          .same nofun ?_⟩
        · rw [hnow]
          exact hinc
        · rw [hnow]
          exact hsource
        · unfold shows
          rw [hnow, hdraft]

theorem Coherent.change (h : Coherent block) (hjob : block.job = .idle)
    (content : List ContentAtom) :
    Coherent { block with stored := content, job := .changed } ∧
      Effect block { block with stored := content, job := .changed } (.change content) := by
  obtain ⟨hs, -⟩ := h.idle hjob
  exact ⟨⟨h.increasing, h.kept, nofun, fun _ => ⟨hs.pending, hs.submitted, hs.source⟩, nofun,
    nofun⟩, .same nofun rfl⟩

/-- Every step keeps the draft coherent, and what is shown is changed by input and by moves
only. -/
theorem Coherent.step {action : BlockAction} (h : Coherent block) (hclear : block.Clear action)
    (hstep : block.step owner blockId action = some block') :
    Coherent block' ∧ Effect block block' action := by
  cases action with
  | edit index remove insert =>
    obtain ⟨target, htarget, rfl⟩ := Option.map_eq_some_iff.mp hstep
    exact h.edit (toOption_eq_some htarget)
  | observe =>
    cases hstep
    exact h.observe
  | unobserve =>
    cases hstep
    exact h.unobserve
  | startComposing =>
    cases hstep
    exact ⟨h.compose hclear _ rfl, .same nofun rfl⟩
  | endComposing =>
    obtain ⟨target, htarget, rfl⟩ := Option.map_eq_some_iff.mp hstep
    exact h.endComposing hclear (toOption_eq_some htarget)
  | prepare actions =>
    dsimp only [EditedBlock.step] at hstep
    split at hstep
    · next hjob =>
      obtain ⟨⟨target, submission⟩, hprepare, rfl⟩ := Option.map_eq_some_iff.mp hstep
      exact h.prepare hclear hjob hprepare
    · cases hstep
  | execute =>
    dsimp only [EditedBlock.step] at hstep
    split at hstep
    · next submission hjob =>
      obtain ⟨stored, hexecute, rfl⟩ := Option.map_eq_some_iff.mp hstep
      exact h.execute hjob hexecute
    · cases hstep
  | refuse =>
    dsimp only [EditedBlock.step] at hstep
    split at hstep
    · next submission hjob =>
      cases hstep
      exact h.refuse hjob
    · cases hstep
  | settle update =>
    dsimp only [EditedBlock.step] at hstep
    split at hstep
    · next submission hjob =>
      obtain ⟨target, htarget, rfl⟩ := Option.map_eq_some_iff.mp hstep
      obtain ⟨published, hpublish, hcompleted⟩ := Option.bind_eq_some_iff.mp htarget
      exact h.settle hjob _ (toOption_eq_some hpublish) (toOption_eq_some hcompleted)
    · cases hstep
  | change content =>
    dsimp only [EditedBlock.step] at hstep
    split at hstep
    · next hjob =>
      cases hstep
      exact h.change hjob content
    · cases hstep
  | publish update =>
    dsimp only [EditedBlock.step] at hstep
    split at hstep
    · next hjob =>
      obtain ⟨target, hpublish, rfl⟩ := Option.map_eq_some_iff.mp hstep
      exact h.publish hjob (toOption_eq_some hpublish)
    · cases hstep

end EditedBlock

end Neoseq.Editor
