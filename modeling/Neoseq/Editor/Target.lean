import Neoseq.Editor.Diff

/-! The edit target of a block: its draft, what of it was sent to the graph and not yet
acknowledged, and the changes kept back while the text is composed. -/

namespace Neoseq.Editor
open Domain
open Content (InlineContent)
open Neoseq.Core (Command)

/-- What is kept back while the text is composed: the last content that was published, and the
changes up to it. -/
structure Composition where
  content : Option (List ContentAtom) := none
  mapping : List ContentRangeChange := []
  deriving DecidableEq

structure Target where
  /-- The draft, while the store holds one. -/
  buffer : Option ContentBuffer := none
  observed : Bool := false
  retryActions : List Command := []
  pending : Nat := 0
  /-- Buffers sent to the graph and not yet acknowledged, oldest first. -/
  submitted : List ContentBuffer := []
  composition : Option Composition := none

/-- The content of a block and the changes that lead to it, as a change names them. -/
structure ContentUpdate where
  content : List ContentAtom
  mapping : List ContentRangeChange
  deriving DecidableEq

/-- What `submit` keeps while its job runs. -/
structure Submission where
  submitted : ContentBuffer
  submittedActions : List Command
  content : Option Command

def canonicalBuffer (canonical : List ContentAtom) : ContentBuffer :=
  createContentBuffer (inlineContent canonical)

def actionCommands (actions : List Command) : List Command :=
  actions.flatMap fun action => match action with
    | .batch commands => commands
    | action => [action]

namespace Target

def current (target : Target) (canonical : List ContentAtom) : ContentBuffer :=
  target.buffer.getD (canonicalBuffer canonical)

def replace (target : Target) (buffer : ContentBuffer) : Target :=
  { target with buffer := some buffer }

def splice (target : Target) (canonical : List ContentAtom) (index remove : Nat)
    (insert : List InlineContent) : Except ContentError Target := do
  return target.replace (← spliceBuffer (target.current canonical) index remove insert)

def release (target : Target) : Target :=
  if target.observed ∨ 0 < target.pending ∨ target.composition.isSome then target
  else if target.retryActions.length ≠ 0 ∨ target.buffer.any (fun b => !bufferIsClean b) then target
  else { target with buffer := none }

def observe (target : Target) (canonical : List ContentAtom) : Target :=
  { target.replace (target.current canonical) with observed := true }

def unobserve (target : Target) : Target :=
  release { target with observed := false }

/-! ## Composition and publications -/

def startComposing (target : Target) : Target :=
  { target with composition := some {} }

def endComposing (target : Target) (canonical : List ContentAtom) : Except ContentError Target :=
  match target.composition.bind Composition.content with
  | none => .ok { target with composition := none }
  | some content => do
    let mapping := target.composition.map Composition.mapping
    let rebased ← rebaseOnto (target.current canonical) (inlineContent content) mapping
    return { target with composition := none, buffer := some rebased.1 }

/-- What the subscription of the store does with a published content of the block. -/
def publish (target : Target) (canonical : List ContentAtom) (update : Option ContentUpdate) :
    Except ContentError Target :=
  let changes := (update.map ContentUpdate.mapping).getD []
  match target.buffer, target.composition with
  | none, _ => .ok target
  | some _, some composition =>
    .ok { target with composition := some ⟨some canonical, composition.mapping ++ changes⟩ }
  | some buffer, none =>
    if changes.length ≠ 0 ∨ buffer.source ≠ canonical then
      if 0 < target.pending then .ok target
      else do
        let mapping := (update.filter fun u => decide (u.content = canonical)).map
          ContentUpdate.mapping
        let rebased ← rebaseOnto buffer (inlineContent canonical) mapping
        return target.replace rebased.1
    else .ok target

/-! ## Submissions -/

/-- The work of a submission that starts; nothing is sent where there is nothing to send. -/
def prepare (target : Target) (canonical : List ContentAtom) (owner : OutlineOwner)
    (blockId : BlockId) (actions : List Command) : Option (Target × Submission) :=
  let buffer := target.current canonical
  let content := bufferCommand buffer owner blockId
  let submittedActions := actionCommands (target.retryActions ++ actions)
  if (submittedActions ++ content.toList).length = 0 then none
  else some ({ target with
      retryActions := []
      submitted := target.submitted ++ [buffer]
      pending := target.pending + 1
      buffer := some (settleBuffer buffer) }, ⟨buffer, submittedActions, content⟩)

/-- A submission is no longer in flight, whatever became of it. -/
def finish (target : Target) (submission : Submission) : Target :=
  release { target with
    submitted := target.submitted.erase submission.submitted
    pending := target.pending - 1 }

def completed (target : Target) (canonical : List ContentAtom) (submission : Submission) :
    Except ContentError Target :=
  let buffer := target.current canonical
  if bufferAtoms buffer = bufferAtoms submission.submitted then
    .ok (finish (target.replace (canonicalBuffer canonical)) submission)
  else if buffer.source ≠ canonical then do
    -- the graph merged something into the save
    let rebased ← rebaseOnto buffer (inlineContent canonical) none
    return finish (target.replace rebased.1) submission
  else .ok (finish target submission)

/-- A submission was not applied: newer input goes back onto what was sent. -/
def failed (target : Target) (canonical : List ContentAtom) (blockId : BlockId)
    (submission : Submission) : Target :=
  let retryActions := if submission.submittedActions.length = 0 then target.retryActions
    else submission.submittedActions
  let buffer := match restoreBuffer submission.submitted (target.current canonical) blockId with
    | .ok restored => some restored
    | .error _ => target.buffer
  finish { target with retryActions, buffer } submission

end Target

/-- Input that the graph has not acknowledged, as it is kept when the page goes away. -/
structure UnsavedEdit where
  bases : List (List ContentAtom)
  content : List ContentAtom
  deriving DecidableEq

def Target.unsaved (target : Target) : Option UnsavedEdit :=
  target.buffer.bind fun buffer =>
    if target.submitted.length = 0 ∧ bufferIsClean buffer then none
    else some ⟨(target.submitted ++ [buffer]).map ContentBuffer.source, bufferAtoms buffer⟩

/-- The command that brings a kept edit back onto what the block holds now. -/
def resumeContent (owner : OutlineOwner) (blockId : BlockId) (edit : UnsavedEdit)
    (current : List ContentAtom) : Except ContentError (Option Command) :=
  if edit.bases.any fun base => decide (base = current) then
    contentEditCommand owner blockId (inlineContent current) (inlineContent edit.content)
  else .ok none

end Neoseq.Editor
