import Neoseq.Core.Apply

/-! Executing an intent: it is prepared against the document, and what came of that is applied. -/

namespace Neoseq.Core
open Domain

/-- The epoch. -/
def stagedTime : Timestamp := ⟨"1970-01-01T00:00:00Z", by decide⟩

def executeIntent (host : Host) (source : IdSource) (now : Timestamp) (intent : Intent) :
    DocEdit MutationOutcome := do
  let transition ← Edit.read fun d => prepareTransition host d intent
  applyTransition host source now transition

end Neoseq.Core
