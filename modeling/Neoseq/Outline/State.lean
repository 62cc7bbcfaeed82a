import Neoseq.Forest.Edit
import Neoseq.Result

/-! The outline planner: parent and child maps read from a block tree, the
normalized roots of a request, and the group move, indent and outdent that
project a structural command before the tree is touched. Block ids are any
linearly ordered type; the order is the one in which a set of ids is walked. -/

namespace Neoseq.Outline
variable {β : Type} [LinearOrder β]

def maxStructuralTargets : Nat := 10000

/-- The errors the planner reports, with their texts. -/
inductive OutlineError (β : Type) where
  | blockNotFound (block : β)
  | firstSiblingIndent
  | rootBlockOutdent
  | invalidHierarchy (message : String)
  deriving Repr, DecidableEq

inductive ReparentDestination (β : Type) where
  | firstChild (parent : β)
  | after (anchor : β)
  deriving Repr, DecidableEq

structure ReparentStep (β : Type) where
  block : β
  destination : ReparentDestination β
  deriving Repr, DecidableEq

/-- Each destination names only stable block identities. -/
structure ReparentPlan (β : Type) where
  roots : List β
  steps : List (ReparentStep β)
  deriving Repr, DecidableEq

/-- `parents` and `children` are maps; `documentOrder` is the pre-order walk. -/
structure OutlineState (β : Type) where
  parents : β → Option (Option β)
  children : Option β → Option (List β)
  documentOrder : List β

structure OutlinePlan (β : Type) where
  before : OutlineState β
  roots : List β

structure MovePlan (β : Type) where
  outline : OutlinePlan β
  parent : Option β
  after : Option β

namespace OutlineState

def empty : OutlineState β where
  parents _ := none
  children _ := none
  documentOrder := []

def setParent (s : OutlineState β) (b : β) (p : Option β) : OutlineState β :=
  { s with parents := fun x => if x = b then some p else s.parents x }

def setRow (s : OutlineState β) (p : Option β) (l : List β) : OutlineState β :=
  { s with children := fun q => if q = p then some l else s.children q }

def push (s : OutlineState β) (b : β) : OutlineState β :=
  { s with documentOrder := s.documentOrder ++ [b] }

/-- The loop of `add_nodes` over a row; the row itself is already recorded. -/
def addNodes : Forest β → Option β → OutlineState β → OutlineState β
  | .nil, _, s => s
  | .node a k r, p, s =>
    addNodes r p (addNodes k (some a) (((s.setParent a p).push a).setRow (some a) k.roots))

def fromTree (outline : Forest β) : OutlineState β :=
  addNodes outline none (empty.setRow none outline.roots)

/-- The `while let` walk up the parents that both ancestor checks share. The
fuel is the number of blocks, which no chain of parents exceeds. -/
def ancestorFrom (s : OutlineState β) (hit : β → Bool) : Nat → Option β → Bool
  | 0, _ => false
  | _ + 1, none => false
  | fuel + 1, some current => hit current || ancestorFrom s hit fuel (s.parents current).join

def hasRequestedAncestor (s : OutlineState β) (block : β) (requested : List β) : Bool :=
  s.ancestorFrom (fun c => requested.contains c) (s.documentOrder.length + 1)
    (s.parents block).join

def isDescendant (s : OutlineState β) (candidate ancestor : β) : Bool :=
  s.ancestorFrom (fun c => c == ancestor) (s.documentOrder.length + 1) (some candidate)

/-- The requested blocks without a requested ancestor, in document order. -/
def roots (s : OutlineState β) (requested : List β) : Except (OutlineError β) (List β) :=
  if requested.isEmpty then
    .error (.invalidHierarchy "structural command requires at least one block")
  else if requested.length > maxStructuralTargets then
    .error (.invalidHierarchy "structural command exceeds the block target limit")
  else
    match (requested.insertionSort (· ≤ ·)).find? (fun b => (s.parents b).isNone) with
    | some b => .error (.blockNotFound b)
    | none => .ok (s.documentOrder.filter fun b =>
        requested.contains b && !s.hasRequestedAncestor b requested)

/-- Takes a block out of its row and gives it a new parent. -/
def detachTo (s : OutlineState β) (parent : Option β) (block : β) :
    Except (OutlineError β) (OutlineState β) := do
  let oldParent ← orElse (s.parents block) (.blockNotFound block)
  let oldSiblings ← orElse (s.children oldParent) (.blockNotFound block)
  let oldPosition ← orElse (oldSiblings.idxOf? block) (.blockNotFound block)
  return (s.setRow oldParent (oldSiblings.eraseIdx oldPosition)).setParent block parent

/-- The position after the anchor among the siblings that stay. -/
def destinationIndex (stationary : List β) (after : Option β) : Except (OutlineError β) Nat :=
  match after with
  | some anchor =>
    orElse ((stationary.idxOf? anchor).map (· + 1))
      (.invalidHierarchy "move anchor is not a stationary target sibling")
  | none => .ok 0

/-- One semantic shape: every root removed, then their run inserted once. -/
def moveGroup (s : OutlineState β) (roots : List β) (parent after : Option β) :
    Except (OutlineError β) (OutlineState β) := do
  match parent with
  | some p => if (s.parents p).isNone then throw (.blockNotFound p)
  | none => pure ()
  if roots.any (fun root =>
      parent == some root || parent.any (fun candidate => s.isDescendant candidate root)) then
    throw (.invalidHierarchy "move would create a cycle")
  let stationary := ((s.children parent).getD []).filter (fun b => !roots.contains b)
  let destination ← destinationIndex stationary after
  let s ← roots.foldlM (fun s root => s.detachTo parent root) s
  return s.setRow parent (stationary.take destination ++ roots ++ stationary.drop destination)

/-- `index` is `none` for `usize::MAX`, beyond the end of every row. -/
def moveOne (s : OutlineState β) (block : β) (parent : Option β) (index : Option Nat) :
    Except (OutlineError β) (OutlineState β) := do
  if parent == some block || parent.any (fun candidate => s.isDescendant candidate block) then
    throw (.invalidHierarchy "move would create a cycle")
  let oldParent ← orElse (s.parents block) (.blockNotFound block)
  let oldSiblings ← orElse (s.children oldParent) (.blockNotFound block)
  let oldPosition ← orElse (oldSiblings.idxOf? block) (.blockNotFound block)
  let s := s.setRow oldParent (oldSiblings.eraseIdx oldPosition)
  let destination := (s.children parent).getD []
  let position := match index with
    | some i => min i destination.length
    | none => destination.length
  return (s.setRow parent (destination.insertIdx position block)).setParent block parent

def indent (s : OutlineState β) (block : β) :
    Except (OutlineError β) (ReparentStep β × OutlineState β) := do
  let parent ← orElse (s.parents block) (.blockNotFound block)
  let siblings := (s.children parent).getD []
  let position ← orElse (siblings.idxOf? block) (.blockNotFound block)
  -- `siblings[position - 1]`, which is missing exactly at position 0
  match (siblings.take position).getLast? with
  | none => throw .firstSiblingIndent
  | some previous =>
    let destination := match ((s.children (some previous)).getD []).getLast? with
      | none => ReparentDestination.firstChild previous
      | some anchor => .after anchor
    let s ← s.moveOne block (some previous) none
    return (⟨block, destination⟩, s)

/-- The `followers` loop of `outdent`: `anchor` is the last child so far. -/
def adoptFollowers (block : β) : List β → Option β → OutlineState β →
    Except (OutlineError β) (List (ReparentStep β) × OutlineState β)
  | [], _, s => .ok ([], s)
  | follower :: rest, anchor, s => do
    let s ← s.moveOne follower (some block) none
    let destination := match anchor with
      | some anchor => ReparentDestination.after anchor
      | none => .firstChild block
    let (steps, s) ← adoptFollowers block rest (some follower) s
    return (⟨follower, destination⟩ :: steps, s)

/-- Moves a block after its parent. The siblings that followed it become its
last children, so the outdented block keeps the run it introduced. -/
def outdent (s : OutlineState β) (block : β) :
    Except (OutlineError β) (List (ReparentStep β) × OutlineState β) := do
  let parent ← orElse (s.parents block).join .rootBlockOutdent
  let grandparent ← orElse (s.parents parent) (.invalidHierarchy "missing grandparent")
  let position ← orElse ((s.children grandparent).bind (·.idxOf? parent))
    (.invalidHierarchy "missing parent sibling")
  let siblings := (s.children (some parent)).getD []
  let followers := match siblings.idxOf? block with
    | some index => siblings.drop (index + 1)
    | none => []
  let anchor := ((s.children (some block)).getD []).getLast?
  let (steps, s) ← adoptFollowers block followers anchor s
  let s ← s.moveOne block grandparent (some (position + 1))
  return (steps ++ [⟨block, .after parent⟩], s)

end OutlineState

open OutlineState

/-! ## Plans

A plan function reports its plan together with the projected state, which the
source drops once every step is known to be legal. -/

def indentRoots : List β → OutlineState β →
    Except (OutlineError β) (List (ReparentStep β) × OutlineState β)
  | [], s => .ok ([], s)
  | b :: rest, s => do
    let (step, s) ← s.indent b
    let (steps, s) ← indentRoots rest s
    return (step :: steps, s)

def outdentRoots : List β → OutlineState β →
    Except (OutlineError β) (List (ReparentStep β) × OutlineState β)
  | [], s => .ok ([], s)
  | b :: rest, s => do
    let (first, s) ← s.outdent b
    let (steps, s) ← outdentRoots rest s
    return (first ++ steps, s)

def planMoveBlocks (before : OutlineState β) (blocks : List β) (parent after : Option β) :
    Except (OutlineError β) (MovePlan β × OutlineState β) := do
  let roots ← before.roots blocks
  let projected ← before.moveGroup roots parent after
  return (⟨⟨before, roots⟩, parent, after⟩, projected)

def planIndentBlocks (before : OutlineState β) (blocks : List β) :
    Except (OutlineError β) (ReparentPlan β × OutlineState β) := do
  let roots ← before.roots blocks
  let (steps, projected) ← indentRoots roots before
  return (⟨roots, steps⟩, projected)

def planOutdentBlocks (before : OutlineState β) (blocks : List β) :
    Except (OutlineError β) (ReparentPlan β × OutlineState β) := do
  let roots ← before.roots blocks
  let (steps, projected) ← outdentRoots roots.reverse before
  return (⟨roots, steps⟩, projected)

def planDeleteBlocks (before : OutlineState β) (blocks : List β) :
    Except (OutlineError β) (OutlinePlan β) := do
  return ⟨before, ← before.roots blocks⟩

end Neoseq.Outline
