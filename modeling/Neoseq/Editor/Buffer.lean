import Neoseq.Content.Inline

/-! Draft buffers: the content of a block while it is edited. A draft keeps the content
it started from and says which parts of it are still there, between what was typed. -/

namespace Neoseq.Editor
open Content (InlineContent)
open Domain

/-- One Unicode scalar or one semantic reference. -/
inductive ContentAtom where
  | scalar (value : Char)
  | reference (pageId : PageId)
  deriving DecidableEq

inductive Piece where
  | source (start stop : Nat)
  | insert (atoms : List ContentAtom)
  deriving DecidableEq

structure ContentBuffer where
  source : List ContentAtom
  pieces : List Piece
  deriving DecidableEq

structure ContentChange where
  start : Nat
  stop : Nat
  insert : List ContentAtom
  deriving DecidableEq

structure ContentRangeChange where
  index : Nat
  delete : Nat
  insert : Nat
  deriving DecidableEq

def contentAtoms (content : List InlineContent) : List ContentAtom :=
  content.flatMap fun item => match item with
    | .markdown value => value.map .scalar
    | .pageReference pageId => [.reference pageId]

def createContentBuffer (content : List InlineContent) : ContentBuffer :=
  let source := contentAtoms content
  ⟨source, if source.length = 0 then [] else [.source 0 source.length]⟩

def pieceLength : Piece → Nat
  | .source start stop => stop - start
  | .insert atoms => atoms.length

def pieceAtoms (source : List ContentAtom) : Piece → List ContentAtom
  | .source start stop => (source.take stop).drop start
  | .insert atoms => atoms

def bufferAtoms (buffer : ContentBuffer) : List ContentAtom :=
  buffer.pieces.flatMap (pieceAtoms buffer.source)

/-- A piece joins the last one where both are inserted or they touch in the source. -/
def compactPiece (compact : List Piece) (piece : Piece) : List Piece :=
  if pieceLength piece = 0 then compact
  else match compact.getLast?, piece with
    | some (.source start stop), .source start' stop' =>
      if stop = start' then compact.dropLast ++ [.source start stop'] else compact ++ [piece]
    | some (.insert atoms), .insert atoms' => compact.dropLast ++ [.insert (atoms ++ atoms')]
    | _, _ => compact ++ [piece]

def compactPieces (pieces : List Piece) : List Piece :=
  pieces.foldl compactPiece []

/-! ## Changes -/

/-- The changes from a source position on, where `insert` was typed at it. -/
def bufferChangesFrom (length start : Nat) (insert : List ContentAtom) :
    List Piece → List ContentChange
  | [] => if start < length ∨ 0 < insert.length then [⟨start, length, insert⟩] else []
  | .insert atoms :: pieces => bufferChangesFrom length start (insert ++ atoms) pieces
  | .source start' stop' :: pieces =>
    if start < start' ∨ 0 < insert.length then
      ⟨start, start', insert⟩ :: bufferChangesFrom length stop' [] pieces
    else bufferChangesFrom length stop' [] pieces

def bufferChanges (buffer : ContentBuffer) : List ContentChange :=
  bufferChangesFrom buffer.source.length 0 [] buffer.pieces

inductive Affinity where
  | before | after
  deriving DecidableEq

def mapContentChange (affinity : Affinity) (position : Nat) (change : ContentRangeChange) : Nat :=
  if position < change.index ∨ (position = change.index ∧ affinity = .before) then position
  else if change.index + change.delete ≤ position then position + change.insert - change.delete
  else change.index + (if affinity = .after then change.insert else 0)

def mapContentPosition (affinity : Affinity) (position : Nat)
    (changes : List ContentRangeChange) : Nat :=
  changes.foldl (mapContentChange affinity) position

/-- The variables of `changesFromOrigins`. -/
structure OriginScan where
  changes : List ContentRangeChange := []
  cursor : Nat := 0
  insert : Nat := 0
  delta : Int := 0

def OriginScan.emit (scan : OriginScan) (stop : Nat) : OriginScan :=
  if scan.cursor < stop ∨ 0 < scan.insert then
    { scan with
      changes := scan.changes ++
        [⟨(scan.cursor + scan.delta).toNat, stop - scan.cursor, scan.insert⟩]
      delta := scan.delta + (scan.insert - (stop - scan.cursor))
      insert := 0 }
  else { scan with insert := 0 }

def OriginScan.push (scan : OriginScan) : Option Nat → OriginScan
  | none => { scan with insert := scan.insert + 1 }
  | some origin => { scan.emit origin with cursor := origin + 1 }

def changesFromOrigins (length : Nat) (origins : List (Option Nat)) : List ContentRangeChange :=
  ((origins.foldl OriginScan.push {}).emit length).changes

/-! ## Rebasing -/

/-- Of each atom its place in the content before, or nothing where it is new. -/
abbrev Origins := List (Option Nat)

def Origins.identity (length : Nat) : Origins :=
  (List.range length).map some

def Origins.change (origins : Origins) (change : ContentRangeChange) : Option Origins :=
  if origins.length < change.index + change.delete then none
  else some (origins.take change.index ++ List.replicate change.insert none ++
    origins.drop (change.index + change.delete))

def Origins.changes (origins : Origins) (mapping : List ContentRangeChange) : Option Origins :=
  mapping.foldlM Origins.change origins

/-- Where the atoms of a draft are seen: those of its source, and the typed ones in turn. -/
structure Visibility where
  originalVisible : Nat → Option Nat := fun _ => none
  insertedVisible : List Nat := []
  visible : Nat := 0

def Visibility.pushOriginal (v : Visibility) (index : Nat) : Visibility :=
  { v with
    originalVisible := Function.update v.originalVisible index (some v.visible)
    visible := v.visible + 1 }

def Visibility.pushInserted (v : Visibility) : Visibility :=
  { v with insertedVisible := v.insertedVisible ++ [v.visible], visible := v.visible + 1 }

def Visibility.pushPiece (v : Visibility) : Piece → Visibility
  | .source start stop => (List.range' start (stop - start)).foldl .pushOriginal v
  | .insert atoms => atoms.foldl (fun v _ => v.pushInserted) v

def visibility (buffer : ContentBuffer) : Visibility :=
  buffer.pieces.foldl .pushPiece {}

structure Insertion where
  atoms : List ContentAtom := []
  origins : List Nat := []

structure Insertions where
  found : Nat → Option Insertion := fun _ => none
  insertedOffset : Nat := 0

def Insertions.push (insertedVisible : List Nat) (mapping : List ContentRangeChange)
    (insertions : Insertions) (change : ContentChange) : Insertions :=
  if change.insert.length = 0 then insertions
  else
    let place := mapContentPosition .after change.start mapping
    let previous := (insertions.found place).getD {}
    let origins := (insertedVisible.drop insertions.insertedOffset).take change.insert.length
    { found := Function.update insertions.found place
        (some ⟨previous.atoms ++ change.insert, previous.origins ++ origins⟩)
      insertedOffset := insertions.insertedOffset + change.insert.length }

def bufferInsertions (buffer : ContentBuffer) (insertedVisible : List Nat)
    (mapping : List ContentRangeChange) : Insertions :=
  (bufferChanges buffer).foldl (.push insertedVisible mapping) {}

/-- The pieces at an index of the new source: what was typed there, and its atom if it is new
or still seen in the draft. -/
def rebasedPieces (origins : Origins) (visibility : Visibility) (insertions : Insertions)
    (index : Nat) : List Piece :=
  ((insertions.found index).map fun i => Piece.insert i.atoms).toList ++
    match origins[index]? with
    | none => []
    | some none => [.source index (index + 1)]
    | some (some origin) =>
      if (visibility.originalVisible origin).isSome then [.source index (index + 1)] else []

def rebasedOrigins (origins : Origins) (visibility : Visibility) (insertions : Insertions)
    (index : Nat) : Origins :=
  ((insertions.found index).map fun i => i.origins.map some).getD [] ++
    match origins[index]? with
    | none => []
    | some none => [none]
    | some (some origin) =>
      if (visibility.originalVisible origin).isSome then [visibility.originalVisible origin]
      else []

def rebaseBuffer (buffer : ContentBuffer) (content : List InlineContent)
    (mapping : List ContentRangeChange) : Option (ContentBuffer × List ContentRangeChange) := do
  let source := contentAtoms content
  let origins ← (Origins.identity buffer.source.length).changes mapping
  if origins.length ≠ source.length then none
  else if (origins.zip source).any fun (origin, atom) =>
      origin.any fun index => decide (buffer.source[index]? ≠ some atom) then none
  else
    let visibility := visibility buffer
    let insertions := bufferInsertions buffer visibility.insertedVisible mapping
    let indices := List.range (source.length + 1)
    let pieces := indices.flatMap (rebasedPieces origins visibility insertions)
    let visibleOrigins := indices.flatMap (rebasedOrigins origins visibility insertions)
    some (⟨source, compactPieces pieces⟩,
      changesFromOrigins visibility.visible visibleOrigins)

end Neoseq.Editor
