import Neoseq.Editor.Splice
import Neoseq.Result

/-! Every draft that the editor can come to is lowered to splices that give what it shows. -/

namespace Neoseq.Editor
open Neoseq.Core (BlockContentSplice)
open Domain
open Content (InlineContent)

/-- The drafts that edits, changed contents, restored input and settled drafts lead to. -/
inductive Drafted : ContentBuffer → Prop
  | create (content : List InlineContent) : Drafted (createContentBuffer content)
  | splice {buffer next : ContentBuffer} {index remove : Nat} {insert : List InlineContent} :
    Drafted buffer → spliceBuffer buffer index remove insert = .ok next → Drafted next
  | rebase {buffer next : ContentBuffer} {content : List InlineContent}
      {mapping changes : List ContentRangeChange} :
    Drafted buffer → rebaseBuffer buffer content mapping = some (next, changes) → Drafted next
  | restore {original newer next : ContentBuffer} {blockId : BlockId} :
    Drafted original → Drafted newer → restoreBuffer original newer blockId = .ok next →
    Drafted next
  | settle {buffer : ContentBuffer} : Drafted buffer → Drafted (settleBuffer buffer)

theorem increasing_foldlM_splice {splices : List BlockContentSplice}
    {buffer next : ContentBuffer} (hinc : Increasing buffer.source.length 0 buffer.pieces)
    (h : splices.foldlM (fun result (splice : BlockContentSplice) =>
      spliceBuffer result splice.index splice.delete splice.insert) buffer = .ok next) :
    Increasing next.source.length 0 next.pieces := by
  induction splices generalizing buffer with
  | nil =>
    cases h
    exact hinc
  | cons splice splices ih =>
    rw [List.foldlM_cons] at h
    obtain ⟨middle, hmiddle, hrest⟩ := bind_eq_ok.mp h
    obtain ⟨-, -, hincreasing, -⟩ := spliceBuffer_ok hinc hmiddle
    exact ih hincreasing hrest

/-- The source pieces of a draft are ascending, whatever has happened to it. -/
theorem Drafted.increasing {buffer : ContentBuffer} (h : Drafted buffer) :
    Increasing buffer.source.length 0 buffer.pieces := by
  induction h with
  | create content => exact increasing_create content
  | splice _ hsplice ih => exact (spliceBuffer_ok ih hsplice).2.2.1
  | rebase _ hrebase _ => exact (rebaseBuffer_some hrebase).2
  | restore _ _ hrestore ih _ => exact increasing_foldlM_splice ih hrestore
  | settle _ _ => exact increasing_create _

/-- A draft is lowered to splices that give what it shows, to none where it shows its source;
two contents to the splices that turn the one into the other; and what was typed on what a
draft shows is restored on the draft. -/
theorem drafted_lowered (owner : OutlineOwner) (blockId : BlockId) :
    (∀ buffer, Drafted buffer →
      spliceContents buffer.source (bufferSplices buffer blockId) = some (bufferAtoms buffer) ∧
      (bufferCommand buffer owner blockId = none ↔ bufferAtoms buffer = buffer.source) ∧
      ∀ command, bufferCommand buffer owner blockId = some command →
        contentSplices command = bufferSplices buffer blockId) ∧
    (∀ source target, ∃ command, contentEditCommand owner blockId source target = .ok command ∧
      (command = none ↔ contentAtoms source = contentAtoms target) ∧
      ∀ c, command = some c →
        spliceContents (contentAtoms source) (contentSplices c) = some (contentAtoms target)) ∧
    ∀ original newer, Drafted original → Drafted newer → newer.source = bufferAtoms original →
      ∃ result, restoreBuffer original newer blockId = .ok result ∧
        result.source = original.source ∧ bufferAtoms result = bufferAtoms newer := by
  refine ⟨fun buffer h => ⟨?_, ?_, ?_⟩, contentEditCommand_ok owner blockId, ?_⟩
  · exact spliceContents_bufferSplices blockId h.increasing
  · rw [bufferCommand_eq_none]
    exact eq_comm
  · intro command hcommand
    exact contentSplices_bufferCommand hcommand
  · intro original newer horiginal hnewer hsource
    obtain ⟨result, hresult, hkept, -, hatoms⟩ :=
      restoreBuffer_ok blockId horiginal.increasing hnewer.increasing hsource
    exact ⟨result, hresult, hkept, hatoms⟩

end Neoseq.Editor
