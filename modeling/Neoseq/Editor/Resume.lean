import Neoseq.Editor.Input

/-! Input that is kept when the page goes away, and what is made of it when the graph is opened
again. Meanwhile a submission that was in flight may have reached the store, and changes from
elsewhere may have come. -/

namespace Neoseq.Editor
open Domain
open Content (InlineContent)
open Neoseq.Core (Command BlockContentSplice)

/-- What the store may hold after the page went away: `landed` of the submissions in flight have
reached it, and with `foreign` there were other changes. -/
inductive Later (block : EditedBlock) : List ContentAtom → (landed : Nat) → (foreign : Bool) → Prop
  | closed {landed : Nat} : (landed = match block.job with | .sent _ => 1 | _ => 0) →
    Later block block.stored landed false
  | land {submission : Submission} {stored stored' : List ContentAtom} {foreign : Bool} :
    block.job = .sending submission → Later block stored 0 foreign →
    spliceContents stored ((submission.content.map contentSplices).getD []) = some stored' →
    Later block stored' 1 foreign
  | change {stored : List ContentAtom} {landed : Nat} {foreign : Bool} (content : List ContentAtom) :
    Later block stored landed foreign → Later block content landed true

/-- The store holds nothing that the draft, or what was sent of it, does not know. -/
def EditedBlock.Undisturbed (block : EditedBlock) : Prop :=
  match block.job with
  | .idle | .changed => block.stored = block.draft.source
  | .sending submission => block.stored = submission.submitted.source ∧
      block.draft.source = bufferAtoms submission.submitted
  | .sent submission => block.stored = bufferAtoms submission.submitted ∧
      block.draft.source = bufferAtoms submission.submitted

/-- A draft of the run started from the content. -/
def Passed (owner : OutlineOwner) (blockId : BlockId) (start : EditedBlock)
    (actions : List BlockAction) (content : List ContentAtom) : Prop :=
  ∃ done rest block, actions = done ++ rest ∧ Run owner blockId start done block ∧
    block.draft.source = content

/-- A kept edit is restored once or not at all. A command comes only for a content that the
editor has passed through, no earlier than what of its input has reached the store, and makes of
it what was shown; and where nothing else has changed the block, it then is what was shown. -/
def RestoredOnce (owner : OutlineOwner) (blockId : BlockId) (passed : List ContentAtom → Prop)
    (edit : UnsavedEdit) (stored : List ContentAtom) (landed : Nat) (alone : Prop) : Prop :=
  ∃ command, resumeContent owner blockId edit stored = .ok command ∧
    (∀ c, command = some c → passed stored ∧
      spliceContents stored (contentSplices c) = some edit.content ∧
      stored ∈ edit.bases.drop landed) ∧
    (alone → command = none → stored = edit.content)

def BlockJob.submission : BlockJob → Option Submission
  | .sending submission | .sent submission => some submission
  | _ => none

/-- What is in flight, whatever else has come in: the list of the store has it alone, and its
command is that of a draft. -/
structure EditedBlock.Drafted (block : EditedBlock) : Prop where
  increasing : Increasing block.draft.source.length 0 block.draft.pieces
  submitted : block.target.submitted = (block.job.submission.map Submission.submitted).toList
  lowered : ∀ submission, block.job.submission = some submission →
    Increasing submission.submitted.source.length 0 submission.submitted.pieces ∧
      ∃ owner blockId, submission.content = bufferCommand submission.submitted owner blockId

variable {owner : OutlineOwner} {blockId : BlockId} {start block block' : EditedBlock}
  {actions : List BlockAction} {edit : UnsavedEdit}

/-! ## What is in flight -/

theorem foldlM_spliceBuffer_increasing {splices : List BlockContentSplice}
    {buffer result : ContentBuffer} (hinc : Increasing buffer.source.length 0 buffer.pieces) :
    splices.foldlM
      (fun result splice => spliceBuffer result splice.index splice.delete splice.insert)
      buffer = .ok result → Increasing result.source.length 0 result.pieces := by
  intro h
  induction splices generalizing buffer with
  | nil =>
    cases h
    exact hinc
  | cons splice splices ih =>
    rw [List.foldlM_cons] at h
    cases hnext : spliceBuffer buffer splice.index splice.delete splice.insert with
    | error e =>
      rw [hnext] at h
      cases h
    | ok next =>
      rw [hnext] at h
      exact ih (spliceBuffer_ok hinc hnext).2.2.1 h

/-- A step that leaves the job to what it was. -/
theorem EditedBlock.Drafted.same (h : block.Drafted)
    (hinc : Increasing block'.draft.source.length 0 block'.draft.pieces)
    (hsubmitted : block'.target.submitted = block.target.submitted)
    (hjob : block'.job.submission = block.job.submission) : block'.Drafted := by
  refine ⟨hinc, ?_, fun submission hsubmission => h.lowered submission ?_⟩
  · rw [hsubmitted, hjob]
    exact h.submitted
  · rw [← hjob]
    exact hsubmission

/-- A step that ends the job. -/
theorem EditedBlock.Drafted.none
    (hinc : Increasing block.draft.source.length 0 block.draft.pieces)
    (hsubmitted : block.target.submitted = []) (hjob : block.job.submission = none) :
    block.Drafted := by
  refine ⟨hinc, ?_, fun submission hsubmission => ?_⟩
  · rw [hsubmitted, hjob]
    rfl
  · rw [hjob] at hsubmission
    cases hsubmission

theorem Target.endComposing_increasing {target next : Target} {canonical : List ContentAtom}
    (hinc : Increasing (target.current canonical).source.length 0
      (target.current canonical).pieces)
    (h : target.endComposing canonical = .ok next) :
    Increasing (next.current canonical).source.length 0 (next.current canonical).pieces ∧
      next.submitted = target.submitted := by
  unfold Target.endComposing at h
  cases hkept : target.composition.bind Composition.content with
  | none =>
    rw [hkept] at h
    cases h
    exact ⟨hinc, rfl⟩
  | some content =>
    rw [hkept] at h
    dsimp only at h
    cases hrebased : rebaseOnto (target.current canonical) (inlineContent content)
        (target.composition.map Composition.mapping) with
    | error e =>
      rw [hrebased] at h
      cases h
    | ok rebased =>
      rw [hrebased] at h
      cases h
      exact ⟨(rebaseOnto_moved hinc hrebased).2.1, rfl⟩

theorem Target.publish_increasing {target next : Target} {before canonical : List ContentAtom}
    {update : Option ContentUpdate}
    (hinc : Increasing (target.current before).source.length 0 (target.current before).pieces)
    (h : target.publish canonical update = .ok next) :
    Increasing (next.current canonical).source.length 0 (next.current canonical).pieces ∧
      next.submitted = target.submitted := by
  unfold Target.publish at h
  cases hbuffer : target.buffer with
  | none =>
    rw [hbuffer] at h
    cases h
    refine ⟨?_, rfl⟩
    unfold Target.current
    rw [hbuffer]
    exact increasing_create _
  | some buffer =>
    have hcurrent (content : List ContentAtom) : target.current content = buffer := by
      unfold Target.current
      rw [hbuffer]
      rfl
    rw [hcurrent] at hinc
    rw [hbuffer] at h
    cases hcomposition : target.composition with
    | some composition =>
      rw [hcomposition] at h
      cases h
      exact ⟨hinc, rfl⟩
    | none =>
      rw [hcomposition] at h
      dsimp only at h
      split_ifs at h
      · cases h
        exact ⟨hcurrent _ ▸ hinc, rfl⟩
      · cases hrebased : rebaseOnto buffer (inlineContent canonical)
            ((update.filter fun u => decide (u.content = canonical)).map
              ContentUpdate.mapping) with
        | error e =>
          rw [hrebased] at h
          cases h
        | ok rebased =>
          rw [hrebased] at h
          cases h
          exact ⟨(rebaseOnto_moved hinc hrebased).2.1, rfl⟩
      · cases h
        exact ⟨hcurrent _ ▸ hinc, rfl⟩

/-- The submission that ends was the only one. -/
theorem Target.finish_increasing {target : Target} {canonical : List ContentAtom}
    {submission : Submission}
    (hinc : Increasing (target.current canonical).source.length 0
      (target.current canonical).pieces)
    (hsubmitted : target.submitted = [submission.submitted]) :
    Increasing ((target.finish submission).current canonical).source.length 0
        ((target.finish submission).current canonical).pieces ∧
      (target.finish submission).submitted = [] := by
  unfold Target.finish
  refine ⟨Target.release_increasing _ hinc, ?_⟩
  rw [Target.release_submitted]
  dsimp only
  rw [hsubmitted, List.erase_cons_head]

theorem Target.completed_increasing {target next : Target} {canonical : List ContentAtom}
    {submission : Submission}
    (hinc : Increasing (target.current canonical).source.length 0
      (target.current canonical).pieces)
    (hsubmitted : target.submitted = [submission.submitted])
    (h : target.completed canonical submission = .ok next) :
    Increasing (next.current canonical).source.length 0 (next.current canonical).pieces ∧
      next.submitted = [] := by
  unfold Target.completed at h
  dsimp only at h
  split_ifs at h
  · cases h
    exact Target.finish_increasing (increasing_create _) hsubmitted
  · cases hrebased : rebaseOnto (target.current canonical) (inlineContent canonical) .none with
    | error e =>
      rw [hrebased] at h
      cases h
    | ok rebased =>
      rw [hrebased] at h
      cases h
      exact Target.finish_increasing (rebaseOnto_moved hinc hrebased).2.1 hsubmitted
  · cases h
    exact Target.finish_increasing hinc hsubmitted

theorem Target.failed_increasing (blockId : BlockId) {target : Target}
    {canonical : List ContentAtom} {submission : Submission}
    (hinc : Increasing (target.current canonical).source.length 0
      (target.current canonical).pieces)
    (hsubmitted : target.submitted = [submission.submitted])
    (hsent : Increasing submission.submitted.source.length 0 submission.submitted.pieces) :
    Increasing ((target.failed canonical blockId submission).current canonical).source.length 0
        ((target.failed canonical blockId submission).current canonical).pieces ∧
      (target.failed canonical blockId submission).submitted = [] := by
  unfold Target.failed
  dsimp only
  cases hrestored : restoreBuffer submission.submitted (target.current canonical) blockId with
  | error e => exact Target.finish_increasing hinc hsubmitted
  | ok restored =>
    exact Target.finish_increasing (foldlM_spliceBuffer_increasing hsent hrestored) hsubmitted

theorem EditedBlock.Drafted.step {action : BlockAction} (h : block.Drafted)
    (hstep : block.step owner blockId action = some block') : block'.Drafted := by
  cases action with
  | edit index remove insert =>
    obtain ⟨target, htarget, rfl⟩ := Option.map_eq_some_iff.mp hstep
    have hsplice := toOption_eq_some htarget
    unfold Target.splice at hsplice
    cases hnext : spliceBuffer (block.target.current block.published) index remove insert with
    | error e =>
      rw [hnext] at hsplice
      cases hsplice
    | ok next =>
      rw [hnext] at hsplice
      cases hsplice
      exact h.same (spliceBuffer_ok h.increasing hnext).2.2.1 rfl rfl
  | observe | startComposing =>
    cases hstep
    exact h.same h.increasing rfl rfl
  | unobserve =>
    cases hstep
    exact h.same (Target.release_increasing _ h.increasing) (Target.release_submitted _) rfl
  | endComposing =>
    obtain ⟨target, htarget, rfl⟩ := Option.map_eq_some_iff.mp hstep
    obtain ⟨hinc, hsubmitted⟩ :=
      Target.endComposing_increasing h.increasing (toOption_eq_some htarget)
    exact h.same hinc hsubmitted rfl
  | prepare actions =>
    dsimp only [EditedBlock.step] at hstep
    split at hstep
    · next hjob =>
      obtain ⟨⟨target, prepared⟩, hprepare, rfl⟩ := Option.map_eq_some_iff.mp hstep
      have hnone := h.submitted
      rw [hjob] at hnone
      unfold Target.prepare at hprepare
      dsimp only at hprepare
      split_ifs at hprepare
      cases hprepare
      refine ⟨increasing_create _, ?_, fun submission hsubmission => ?_⟩
      · show block.target.submitted ++ [_] = [_]
        rw [hnone]
        rfl
      · cases hsubmission
        exact ⟨h.increasing, owner, blockId, rfl⟩
    · cases hstep
  | execute =>
    dsimp only [EditedBlock.step] at hstep
    split at hstep
    · next submission hjob =>
      obtain ⟨stored, -, rfl⟩ := Option.map_eq_some_iff.mp hstep
      exact h.same h.increasing rfl (by rw [hjob]; rfl)
    · cases hstep
  | refuse =>
    dsimp only [EditedBlock.step] at hstep
    split at hstep
    · next submission hjob =>
      cases hstep
      have hsubmitted := h.submitted
      rw [hjob] at hsubmitted
      obtain ⟨hinc, hnone⟩ := Target.failed_increasing blockId h.increasing hsubmitted
        (h.lowered submission (by rw [hjob]; rfl)).1
      exact .none hinc hnone rfl
    · cases hstep
  | settle update =>
    dsimp only [EditedBlock.step] at hstep
    split at hstep
    · next submission hjob =>
      obtain ⟨target, htarget, rfl⟩ := Option.map_eq_some_iff.mp hstep
      obtain ⟨published, hpublish, hcompleted⟩ := Option.bind_eq_some_iff.mp htarget
      have hsubmitted := h.submitted
      rw [hjob] at hsubmitted
      obtain ⟨hinc, hsame⟩ :=
        Target.publish_increasing h.increasing (toOption_eq_some hpublish)
      obtain ⟨hinc', hnone⟩ := Target.completed_increasing hinc (hsame.trans hsubmitted)
        (toOption_eq_some hcompleted)
      exact .none hinc' hnone rfl
    · cases hstep
  | change content =>
    dsimp only [EditedBlock.step] at hstep
    split at hstep
    · next hjob =>
      cases hstep
      exact h.same h.increasing rfl (by rw [hjob]; rfl)
    · cases hstep
  | publish update =>
    dsimp only [EditedBlock.step] at hstep
    split at hstep
    · next hjob =>
      obtain ⟨target, hpublish, rfl⟩ := Option.map_eq_some_iff.mp hstep
      obtain ⟨hinc, hsame⟩ :=
        Target.publish_increasing h.increasing (toOption_eq_some hpublish)
      exact h.same hinc hsame (by rw [hjob]; rfl)
    · cases hstep

theorem drafted_of_run (hstart : start.Drafted) (h : Run owner blockId start actions block) :
    block.Drafted := by
  induction h with
  | start => exact hstart
  | step _ hstep ih => exact ih.step hstep

theorem drafted_opened (content : List ContentAtom) : (EditedBlock.opened content).Drafted :=
  .none (increasing_create _) rfl rfl

/-! ## The contents a draft starts from -/

/-- A submission that is in flight after a step was before, or is of the draft before. -/
theorem step_submission {action : BlockAction}
    (hstep : block.step owner blockId action = some block') {submission : Submission}
    (hjob : block'.job.submission = some submission) :
    block.job.submission = some submission ∨ submission.submitted = block.draft := by
  cases action with
  | edit index remove insert =>
    obtain ⟨target, -, rfl⟩ := Option.map_eq_some_iff.mp hstep
    exact .inl hjob
  | observe | unobserve | startComposing =>
    cases hstep
    exact .inl hjob
  | endComposing =>
    obtain ⟨target, -, rfl⟩ := Option.map_eq_some_iff.mp hstep
    exact .inl hjob
  | prepare actions =>
    dsimp only [EditedBlock.step] at hstep
    split at hstep
    · obtain ⟨⟨target, prepared⟩, hprepare, rfl⟩ := Option.map_eq_some_iff.mp hstep
      unfold Target.prepare at hprepare
      dsimp only at hprepare
      split_ifs at hprepare
      cases hprepare
      cases hjob
      exact .inr rfl
    · cases hstep
  | execute =>
    dsimp only [EditedBlock.step] at hstep
    split at hstep
    · next sent hsending =>
      obtain ⟨stored, -, rfl⟩ := Option.map_eq_some_iff.mp hstep
      rw [hsending]
      exact .inl hjob
    · cases hstep
  | refuse =>
    dsimp only [EditedBlock.step] at hstep
    split at hstep
    · cases hstep
      cases hjob
    · cases hstep
  | settle update =>
    dsimp only [EditedBlock.step] at hstep
    split at hstep
    · obtain ⟨target, -, rfl⟩ := Option.map_eq_some_iff.mp hstep
      cases hjob
    · cases hstep
  | change content =>
    dsimp only [EditedBlock.step] at hstep
    split at hstep
    · cases hstep
      cases hjob
    · cases hstep
  | publish update =>
    dsimp only [EditedBlock.step] at hstep
    split at hstep
    · obtain ⟨target, -, rfl⟩ := Option.map_eq_some_iff.mp hstep
      cases hjob
    · cases hstep

theorem Passed.later {content : List ContentAtom} {action : BlockAction}
    (h : Passed owner blockId start actions content) :
    Passed owner blockId start (actions ++ [action]) content := by
  obtain ⟨done, rest, block, rfl, hrun, hsource⟩ := h
  exact ⟨done, rest ++ [action], block, (List.append_assoc _ _ _).symm ▸ rfl, hrun, hsource⟩

theorem Passed.now (h : Run owner blockId start actions block) :
    Passed owner blockId start actions block.draft.source :=
  ⟨actions, [], block, (List.append_nil _).symm, h, rfl⟩

/-- What is in flight was lowered from a content that the editor has passed through. -/
theorem passed_submission (h : Run owner blockId start actions block)
    (hidle : start.job = .idle) {submission : Submission}
    (hjob : block.job.submission = some submission) :
    Passed owner blockId start actions submission.submitted.source := by
  induction h with
  | start =>
    rw [hidle] at hjob
    cases hjob
  | step hrun hstep ih =>
    rcases step_submission hstep hjob with hbefore | hdraft
    · exact (ih hbefore).later
    · rw [hdraft]
      exact (Passed.now hrun).later

/-- The bases of a kept edit: what the draft starts from, behind what is in flight. -/
theorem unsaved_bases (h : block.Drafted) (hunsaved : block.target.unsaved = some edit) :
    edit.content = block.shows ∧
      edit.bases = (block.job.submission.map fun submission =>
        submission.submitted.source).toList ++ [block.draft.source] := by
  obtain ⟨buffer, hbuffer, hedit⟩ := Option.bind_eq_some_iff.mp hunsaved
  split_ifs at hedit
  cases hedit
  have hdraft : block.draft = buffer := by
    unfold EditedBlock.draft Target.current
    rw [hbuffer]
    rfl
  refine ⟨congrArg bufferAtoms hdraft.symm, ?_⟩
  dsimp only
  rw [List.map_append, h.submitted, hdraft]
  cases block.job.submission <;> rfl

theorem passed_bases (h : Run owner blockId start actions block) (hstart : start.Drafted)
    (hidle : start.job = .idle) (hunsaved : block.target.unsaved = some edit)
    {content : List ContentAtom} (hbase : content ∈ edit.bases) :
    Passed owner blockId start actions content := by
  rw [(unsaved_bases (drafted_of_run hstart h) hunsaved).2, List.mem_append] at hbase
  rcases hbase with hbefore | hdraft
  · obtain ⟨submission, hjob, rfl⟩ := Option.map_eq_some_iff.mp (Option.mem_toList.mp hbefore)
    exact passed_submission h hidle hjob
  · rw [List.mem_singleton.mp hdraft]
    exact .now h

/-! ## What is made of it -/

/-- What has landed of an edit that nothing else disturbed, the kept edit knows. -/
theorem known_of_undisturbed (h : block.Drafted) (hunsaved : block.target.unsaved = some edit)
    (hblock : block.Undisturbed) {stored : List ContentAtom} {landed : Nat} {foreign : Bool}
    (hlater : Later block stored landed foreign) (halone : foreign = false) :
    stored ∈ edit.bases.drop landed := by
  rw [(unsaved_bases h hunsaved).2]
  unfold EditedBlock.Undisturbed at hblock
  cases hlater with
  | closed hlanded =>
    subst hlanded
    cases hjob : block.job with
    | idle | changed =>
      rw [hjob] at hblock
      exact List.mem_singleton.mpr hblock
    | sending submission =>
      rw [hjob] at hblock
      exact List.mem_cons.mpr (.inl hblock.1)
    | sent submission =>
      rw [hjob] at hblock
      exact List.mem_singleton.mpr (hblock.1.trans hblock.2.symm)
  | @land submission before _ _ hjob hbefore hexecute =>
    rw [hjob] at hblock
    cases hbefore with
    | closed =>
      obtain ⟨hinc, hcommand⟩ := h.lowered submission (by rw [hjob]; rfl)
      rw [hblock.1, EditedBlock.submission_executed hinc hcommand] at hexecute
      rw [hjob]
      exact List.mem_singleton.mpr ((Option.some.inj hexecute).symm.trans hblock.2.symm)
    | change => cases halone
  | change => cases halone

/-- Whatever became of a block after its input was kept, the input is restored once or not at
all if and only if the block has not been given back a content from before a submission that has
landed. -/
theorem restored_iff (content : List ContentAtom)
    (h : Run owner blockId (.opened content) actions block)
    (hunsaved : block.target.unsaved = some edit) {stored : List ContentAtom} {landed : Nat}
    {foreign : Bool} (hlater : Later block stored landed foreign) :
    RestoredOnce owner blockId (Passed owner blockId (.opened content) actions) edit stored landed
        (block.Undisturbed ∧ foreign = false) ↔
      (stored ∈ edit.bases.take landed →
        stored ∈ edit.bases.drop landed ∨ stored = edit.content) := by
  have hdrafted := drafted_of_run (drafted_opened content) h
  obtain ⟨command, hcommand, hnone, hsome⟩ :=
    contentEditCommand_ok owner blockId (inlineContent stored) (inlineContent edit.content)
  rw [contentAtoms_inlineContent, contentAtoms_inlineContent] at hnone
  have hsplit : stored ∈ edit.bases ↔
      stored ∈ edit.bases.take landed ∨ stored ∈ edit.bases.drop landed := by
    rw [← List.mem_append, List.take_append_drop]
  have hresume : resumeContent owner blockId edit stored =
      .ok (if stored ∈ edit.bases then command else none) := by
    unfold resumeContent
    by_cases hknown : stored ∈ edit.bases
    · rw [if_pos hknown, if_pos (List.any_eq_true.mpr ⟨stored, hknown, decide_eq_true rfl⟩), hcommand]
    · rw [if_neg hknown, if_neg]
      intro hany
      obtain ⟨base, hbase, heq⟩ := List.any_eq_true.mp hany
      exact hknown (of_decide_eq_true heq ▸ hbase)
  unfold RestoredOnce
  rw [hresume]
  by_cases hknown : stored ∈ edit.bases
  · rw [if_pos hknown]
    constructor
    · intro hrestored hbefore
      obtain ⟨other, hother, honce, -⟩ := hrestored
      cases hother
      by_cases hsame : stored = edit.content
      · exact .inr hsame
      · obtain ⟨c, hc⟩ := Option.ne_none_iff_exists'.mp fun hempty => hsame (hnone.mp hempty)
        exact .inl (honce c hc).2.2
    · intro hcondition
      refine ⟨command, rfl, fun c hc => ⟨passed_bases h (drafted_opened content) rfl hunsaved hknown,
        ?_, ?_⟩, fun _ hempty => hnone.mp hempty⟩
      · have happlied := hsome c hc
        rwa [contentAtoms_inlineContent, contentAtoms_inlineContent] at happlied
      · rcases hsplit.mp hknown with hbefore | hafter
        · refine (hcondition hbefore).resolve_right fun hsame => ?_
          rw [hnone.mpr hsame] at hc
          cases hc
        · exact hafter
  · rw [if_neg hknown]
    constructor
    · intro _ hbefore
      exact absurd (hsplit.mpr (.inl hbefore)) hknown
    · intro _
      refine ⟨none, rfl, nofun, fun halone _ => ?_⟩
      exact absurd (hsplit.mpr (.inr
        (known_of_undisturbed hdrafted hunsaved halone.1 hlater halone.2))) hknown

/-- `b` is typed behind `a` and sent; the page goes away before it has landed. -/
theorem restored_iff_unsent :
    ∃ actions block edit, Run sampleOwner sampleBlock (.opened [.scalar 'a']) actions block ∧
      block.target.unsaved = some edit ∧ edit.content = [.scalar 'a', .scalar 'b'] ∧
      RestoredOnce sampleOwner sampleBlock
        (Passed sampleOwner sampleBlock (.opened [.scalar 'a']) actions) edit [.scalar 'a'] 0
        (block.Undisturbed ∧ false = false) := by
  have hstart : Run sampleOwner sampleBlock (.opened [.scalar 'a']) [] _ := .start
  have htyped := @Run.step _ _ _ _ (.edit 1 0 [.markdown ['b']]) _ _ hstart rfl
  have hsent := @Run.step _ _ _ _ (.prepare []) _ _ htyped rfl
  exact ⟨_, _, _, hsent, rfl, by decide +kernel,
    (restored_iff [.scalar 'a'] hsent rfl (.closed rfl)).mpr fun h => by cases h⟩

/-- `b` is typed behind `a`, sent and saved, and the page goes away; then another replica deletes
`b`. The kept edit brings it back. -/
theorem not_restored_landed :
    ¬∀ (actions : List BlockAction) (block : EditedBlock) (edit : UnsavedEdit)
        (stored : List ContentAtom) (landed : Nat) (foreign : Bool),
      Run sampleOwner sampleBlock (.opened [.scalar 'a']) actions block →
      block.target.unsaved = some edit → Later block stored landed foreign →
      RestoredOnce sampleOwner sampleBlock
        (Passed sampleOwner sampleBlock (.opened [.scalar 'a']) actions) edit stored landed
        (block.Undisturbed ∧ foreign = false) := by
  intro h
  have hstart : Run sampleOwner sampleBlock (.opened [.scalar 'a']) [] _ := .start
  have htyped := @Run.step _ _ _ _ (.edit 1 0 [.markdown ['b']]) _ _ hstart rfl
  have hsent := @Run.step _ _ _ _ (.prepare []) _ _ htyped rfl
  have hsaved := @Run.step _ _ _ _ .execute _ _ hsent rfl
  obtain ⟨command, hcommand, honce, -⟩ := h _ _ _ _ _ _ hsaved rfl
    (.change [.scalar 'a'] (.closed rfl))
  cases command with
  | none =>
    have hsome := congrArg (fun result => result.toOption.join.isSome) hcommand
    exact absurd hsome (by decide +kernel)
  | some c => exact absurd (honce c rfl).2.2 (by decide +kernel)

end Neoseq.Editor
