import Neoseq.Core.Prepare

/-! Applying a plan. Every operation writes as it goes, and what it wrote before an
error stays; after the operations everything the transition touched is stamped
with the time. -/

namespace Neoseq.Core
open Domain Document Collections Content

/-! ## Places in a document -/

namespace GraphDoc

def updateRecord (id : PageId) (f : Record → Record) (d : GraphDoc) : GraphDoc :=
  match d.entities.get id with
  | some record => d.setEntity id (f record)
  | none => d

def outlineAt (owner : OutlineOwner) (d : GraphDoc) : Outline :=
  ((d.entities.get (ownerEntity owner)).map Record.outline).getD .empty

def putOutline (owner : OutlineOwner) (o : Outline) (d : GraphDoc) : GraphDoc :=
  d.updateRecord (ownerEntity owner) fun record => { record with outline := o }

def metaAt (owner : OutlineOwner) (block : BlockId) (d : GraphDoc) : BlockMeta :=
  (d.outlineAt owner).metas block

def putMeta (owner : OutlineOwner) (block : BlockId) (blockMeta : BlockMeta) (d : GraphDoc) :
    GraphDoc :=
  d.putOutline owner ((d.outlineAt owner).setMeta block blockMeta)

def bagAt (owner : PropertyOwner) (d : GraphDoc) : Bag :=
  (d.propertyOwnerBag owner).toOption.getD ∅

def putBag (owner : PropertyOwner) (bag : Bag) (d : GraphDoc) : GraphDoc :=
  match owner with
  | .page id => d.updateRecord id fun record => { record with properties := bag }
  | .block owner block => d.putMeta owner block { d.metaAt owner block with properties := bag }
  | .tag id => d.updateRecord id.cast fun record => { record with properties := bag }
  | .tagDefault id => d.updateRecord id.cast fun record => { record with defaults := bag }

def queryEntry (id : DefaultQueryId) (f : DefaultQueryEntry → DefaultQueryEntry) (d : GraphDoc) :
    GraphDoc :=
  match d.defaultQueries.get id with
  | some entry => { d with defaultQueries := d.defaultQueries.insert id (f entry) }
  | none => d

end GraphDoc

/-- Edits of a document. -/
abbrev DocEdit := Edit CoreError GraphDoc

/-- What a clock says. It is short enough to be the value of a property. -/
structure Timestamp where
  asStr : String
  valid : asStr.utf8ByteSize ≤ 65536

variable (host : Host) (source : IdSource) (now : Timestamp)

def inBag {γ : Type} (owner : PropertyOwner) (x : Edit CoreError Bag γ) : DocEdit γ := do
  let _ ← Edit.read fun d => d.propertyOwnerBag owner
  Edit.zoom (GraphDoc.bagAt owner) (GraphDoc.putBag owner) x

def inOutline (owner : OutlineOwner) (f : Outline → Except CoreError Outline) : DocEdit Unit := do
  let _ ← Edit.read fun d => d.outline owner
  Edit.zoom (GraphDoc.outlineAt owner) (GraphDoc.putOutline owner) (Edit.update f)

def inMeta {γ : Type} (owner : OutlineOwner) (block : BlockId) (x : Edit CoreError BlockMeta γ) :
    DocEdit γ := do
  let _ ← Edit.read fun d => d.blockMeta owner block
  Edit.zoom (GraphDoc.metaAt owner block) (GraphDoc.putMeta owner block) x

/-- Changes a record that `find` finds. -/
def inRecord (find : GraphDoc → Except CoreError Record) (id : PageId) (f : Record → Record) :
    DocEdit Unit := do
  let _ ← Edit.read find
  Edit.write (GraphDoc.updateRecord id f)

/-! ## Texts -/

def deleteText (index count : Nat) (text : List Piece) : Except CoreError (List Piece) :=
  if index + count ≤ text.length then .ok (text.take index ++ text.drop (index + count))
  else .error .loro

def insertText (index : Nat) (pieces text : List Piece) : Except CoreError (List Piece) :=
  if index ≤ text.length then .ok (text.take index ++ pieces ++ text.drop index)
  else .error .loro

def inText (owner : OutlineOwner) (block : BlockId)
    (f : List Piece → Except CoreError (List Piece)) : DocEdit Unit :=
  inMeta owner block (Edit.update fun m => do
    let content ← f m.content
    return { m with content })

def plainPieces (text : Text) : List Piece := text.map .inl

/-- Atoms go in one after the other, each where the last one ended. -/
def insertInlineAtoms (owner : OutlineOwner) (block : BlockId) :
    (index : Nat) → List InlineAtom → DocEdit Unit
  | _, [] => pure ()
  | index, atom :: rest => do
    inText owner block (insertText index atom.pieces)
    insertInlineAtoms owner block (index + atom.pieces.length) rest

def applyTextRange (target : TextTarget) : DocEdit Unit := do
  let _ ← Edit.read fun d => d.blockText target.owner target.blockId
  if target.delete > 0 then
    inText target.owner target.blockId (deleteText target.index target.delete)

/-! ## Stamps -/

def stamp (key : PropertyKey) : Edit CoreError Bag Unit :=
  Edit.update (setSingle key (.string now.asStr))

def touchPage (id : PageId) : DocEdit Unit := inBag (.page id) (stamp now updatedAtKey)

def touchBlock (owner : OutlineOwner) (block : BlockId) : DocEdit Unit :=
  inBag (.block owner block) (stamp now updatedAtKey)

def touchTag (id : TagId) : DocEdit Unit := inBag (.tag id) (stamp now updatedAtKey)

def touchOutlineOwner : OutlineOwner → DocEdit Unit
  | .page id => touchPage now id
  | .tag id => touchTag now id

def touchEntity : TouchedEntity → DocEdit Unit
  | .page id => touchPage now id
  | .block owner block => do
    touchBlock now owner block
    touchOutlineOwner now owner
  | .tag id => touchTag now id

def touchTransition (footprint : TransitionFootprint) : DocEdit Unit := do
  Edit.each (fun b => touchBlock now b.1 b.2) footprint.blocks
  Edit.each (touchOutlineOwner now) footprint.outlines.toList
  Edit.each (touchEntity now) footprint.entities

def initializeLifecycle : Edit CoreError Bag Unit := do
  stamp now createdAtKey
  stamp now updatedAtKey

/-! ## Entities -/

/-- What a command creates, and whether it changed anything. -/
structure MutationOutcome where
  createdPage : Option PageId := none
  createdBlock : Option BlockId := none
  createdTag : Option TagId := none
  changed : Bool := false

def MutationOutcome.merge (outcome nested : MutationOutcome) : MutationOutcome where
  createdPage := outcome.createdPage.or nested.createdPage
  createdBlock := outcome.createdBlock.or nested.createdBlock
  createdTag := outcome.createdTag.or nested.createdTag
  changed := outcome.changed || nested.changed

def change : MutationOutcome := { changed := true }

/-- A record as it is created, before its properties. -/
def freshRecord (title : String) : Record where
  kind := some .page
  name := some title
  rooted := true
  content := some ""
  properties := ∅
  tagRefs := ∅
  defaults := ∅
  outline := .empty

/-- Whether the page was created: an existing entity stays as it is. -/
def ensurePage (id : PageId) (kind : String) (title : Option String) (date : Option LocalDate) :
    DocEdit Bool := do
  let present ← Edit.read fun d => .ok (d.entities.get id).isSome
  if present then return false
  Edit.write fun d => d.setEntity id (freshRecord (title.getD ""))
  inBag (.page id) do
    Edit.update (setSingle pageKindKey (.string kind))
    match date with
    | some date => Edit.update (setSingle journalDateKey (.date date))
    | none => pure ()
    initializeLifecycle now
  return true

def ensureTag (id : TagId) (name : String) : DocEdit Bool := do
  let created ← ensurePage now id.cast "regular" (some name) none
  if created then
    inRecord (GraphDoc.requirePage · id.cast) id.cast fun record => { record with kind := some .tag }
  return created

def ensureSeed : EntitySeed → DocEdit MutationOutcome
  | .regularPage id title => do
    let created ← ensurePage now id "regular" (some title) none
    return { createdPage := if created then some id else none, changed := created }
  | .journalPage id date => do
    let created ← ensurePage now id "journal" none (some date)
    return { createdPage := if created then some id else none, changed := created }
  | .tag id name => do
    let created ← ensureTag now id name
    return { createdTag := if created then some id else none, changed := created }

/-- A conversion gives the page a kind where it had none, so that it lists as one. -/
def assignKind (id : PageId) (kind : EntityKind) : DocEdit MutationOutcome := do
  let record ← Edit.read fun d => d.requirePage id
  if record.entityKind = kind then return {}
  inBag (.page id) do
    let present ← Edit.read fun bag => .ok (bag.contains pageKindKey)
    if !present then Edit.update (setSingle pageKindKey (.string "regular"))
  Edit.write (GraphDoc.updateRecord id fun record => { record with kind := some kind })
  return change

def assignName : LifecycleEntity → String → DocEdit Unit
  | .page id, name => inRecord (GraphDoc.requirePage · id) id fun record => record.setName name
  | .tag id, name => inRecord (GraphDoc.requireTag · id) id.cast fun record => record.setName name

def lifecycleOwner : LifecycleEntity → PropertyOwner
  | .page id => .page id
  | .tag id => .tag id

def assignDeleted (target : LifecycleEntity) (deleted : Bool) : DocEdit Unit :=
  inBag (lifecycleOwner target)
    (if deleted then stamp now deletedAtKey else Edit.write (removePropertyField deletedAtKey))

/-- Changes the tag references of an entity. -/
def inTagRefs (entity : EntityId) (f : BTreeSet TagId → BTreeSet TagId) : DocEdit Unit :=
  match entity with
  | .page id =>
    inRecord (GraphDoc.requirePage · id) id fun record => { record with tagRefs := f record.tagRefs }
  | .block owner block =>
    inMeta owner block (Edit.write fun m => { m with tagRefs := f m.tagRefs })

def TagReferenceTarget.entity : TagReferenceTarget → EntityId
  | .pageRoot id => .page id
  | .block owner id => .block owner id

def setTagMembership (entity : EntityId) (tagId : TagId) (present : Bool) : DocEdit Unit :=
  inTagRefs entity fun refs => if present then refs.add tagId else BTreeMap.remove refs tagId

/-! ## Outlines -/

/-- A new node with its text and its lifecycle. -/
def createNode (owner : OutlineOwner) (parent : Option BlockId) (index : Nat) (content : Text) :
    DocEdit BlockId := do
  let node ← Edit.read fun d => .ok (source.next d.known)
  inOutline owner fun o => o.createAt node parent index
  inText owner node fun _ => .ok (plainPieces content)
  inBag (.block owner node) (initializeLifecycle now)
  return node

/-- The loop state of `insert_outline_items`. -/
structure InsertState where
  levels : List BlockId := []
  insertedChildren : List (BlockId × Nat) := []
  rootOffset : Nat
  lastCreated : Option BlockId := none

/-- A block id that is the text of a tree id, as every live block's is. -/
def treeId (o : Outline) (block : BlockId) : Except CoreError Unit :=
  if block ∈ o.tree.labels ∨ host.isTreeId block then .ok () else .error .loro

/-- Where the items go, and how many of the places there are taken. -/
def insertBase (parent : Option BlockId) (index : Nat) (replace : Option BlockId) (o : Outline) :
    Except CoreError (Option BlockId × Nat × Nat) := do
  match parent with
  | some parent => treeId host o parent
  | none => pure ()
  match replace with
  | none => return (parent, index, 0)
  | some block =>
    requireBlockIn o block
    let actual ← orElse (o.tree.parentIn none block) (.blockNotFound block)
    let position ← orElse (((Forest.row actual o.tree).getD []).idxOf? block)
      (.blockNotFound block)
    return (actual, position, 1)

/-- The node of one item. -/
def insertItem (owner : OutlineOwner) (base : Option BlockId) (baseIndex : Nat)
    (replace : Option BlockId) (state : InsertState) (item : PlannedOutlineItem) :
    DocEdit (BlockId × InsertState) := do
  match replace with
  | some block =>
    inText owner block fun _ => .ok (plainPieces item.markdown)
    return (block, state)
  | none =>
    if item.depth = 0 then
      let available ← Edit.read fun d => (d.outline owner).map fun o => o.count base
      -- The sum is not checked and wraps.
      let index := min ((baseIndex + state.rootOffset) % host.usizeCount) available
      let node ← createNode source now owner base index item.markdown
      return (node, { state with rootOffset := state.rootOffset + 1 })
    else
      let parent ← Edit.read fun _ => orElse state.levels[item.depth - 1]?
        (.invalidHierarchy "outline insert skips a depth")
      let index := (state.insertedChildren.lookup parent).getD 0
      let node ← createNode source now owner (some parent) index item.markdown
      return (node,
        { state with insertedChildren := (parent, index + 1) :: state.insertedChildren })

def decorate (owner : OutlineOwner) (node : BlockId) (item : PlannedOutlineItem) :
    DocEdit Unit := do
  match item.content with
  | .inline atoms => insertInlineAtoms owner node 0 atoms
  | .markdown _ => pure ()
  inBag (.block owner node) (Edit.each (writePlannedProperty host) item.properties)
  inTagRefs (.block owner node) fun refs => refs.extend item.tags

/-- `replace` is the block that the next item replaces. -/
def insertItems (owner : OutlineOwner) (base : Option BlockId) (baseIndex : Nat) :
    List PlannedOutlineItem → (replace : Option BlockId) → InsertState →
      DocEdit (Option BlockId)
  | [], _, state => return state.lastCreated
  | item :: rest, replace, state => do
    let (node, state) ← insertItem host source now owner base baseIndex replace state item
    decorate host owner node item
    touchBlock now owner node
    let levels := state.levels.take item.depth ++ [node]
    insertItems owner base baseIndex rest none { state with levels, lastCreated := some node }

def insertOutlineItems (plan : OutlineInsertPlan) : DocEdit (Option BlockId) := do
  let (base, baseIndex, rootOffset) ← Edit.read fun d => do
    insertBase host plan.parent plan.index plan.replace (← d.outline plan.owner)
  insertItems host source now plan.owner base baseIndex plan.items plan.replace { rootOffset }

def applyOutlineInsert (plan : OutlineInsertPlan) : DocEdit MutationOutcome := do
  Edit.each (fun seed => do let _ ← ensureSeed now seed) plan.dependencies
  let createdBlock ← insertOutlineItems host source now plan
  return { createdBlock, changed := true }

def applySplitBlock (plan : SplitPlan) : DocEdit MutationOutcome := do
  let node ← createNode source now plan.owner plan.destination.parent plan.destination.index []
  if !plan.tail.isEmpty then inText plan.owner node (insertText 0 plan.tail)
  if plan.truncate > 0 then inText plan.owner plan.target (deleteText plan.index plan.truncate)
  touchBlock now plan.owner node
  return { createdBlock := some node, changed := true }

/-- The children of a merged block follow those of the block it is merged into. -/
def adoptChildren (sourceBlock target : BlockId) (o : Outline) : Except CoreError Outline :=
  ((Forest.row (some sourceBlock) o.tree).getD []).foldlM
    (fun o child => o.movTo child (some target) (o.count (some target))) o

def applyMergeBlock (owner : OutlineOwner) (plan : MergePlan) : DocEdit Unit := do
  let _ ← Edit.read fun d => d.blockText owner plan.target
  let tail ← Edit.read fun d => d.blockText owner plan.source
  inText owner plan.target fun content => .ok (content ++ tail)
  inOutline owner (adoptChildren plan.source plan.target)
  touchBlock now owner plan.target
  touchBlock now owner plan.source
  inOutline owner (Outline.delete · plan.source)

def applyDeleteBlocks (owner : OutlineOwner) (roots : List BlockId) : DocEdit Unit := do
  let _ ← Edit.read fun d => d.outline owner
  Edit.each (fun block => do
    touchBlock now owner block
    inOutline owner (Outline.delete · block)) roots

/-! Moves are written one at a time, so a refused one leaves those before it. -/

def moveNext (owner : OutlineOwner) (block : BlockId) (parent anchor : Option BlockId) :
    DocEdit Unit :=
  inOutline owner (outlineOps.moveNext block parent anchor)

def moveEach (owner : OutlineOwner) :
    List BlockId → (parent anchor : Option BlockId) → DocEdit Unit
  | [], _, _ => pure ()
  | block :: rest, parent, anchor => do
    moveNext owner block parent anchor
    moveEach owner rest parent (some block)

def applyReparentPlan (owner : OutlineOwner) (plan : Outline.ReparentPlan BlockId) :
    DocEdit Unit := do
  let _ ← Edit.read fun d => d.outline owner
  Edit.each (fun step => inOutline owner (outlineOps.applyReparentStep · step)) plan.steps

/-! ## Queries -/

/-- The stored form of a new default query. -/
def seededEntry (seed : DefaultQuerySeed) (entry : Option DefaultQueryEntry) :
    DefaultQueryEntry where
  title := some seed.title
  position := some seed.position
  deleted := some false
  document := some (writePreparedQueryDocument host seed.document
    ((entry.bind DefaultQueryEntry.document).getD []))

def applyDefaultQuerySeed (seed : DefaultQuerySeed) (d : GraphDoc) : GraphDoc :=
  { d with
    defaultQueries := d.defaultQueries.insert seed.defaultQueryId
      (seededEntry host seed (d.defaultQueries.get seed.defaultQueryId)) }

/-- Changes a live default query. -/
def inDefaultQuery (id : DefaultQueryId) (f : DefaultQueryEntry → DefaultQueryEntry) :
    DocEdit Unit := do
  let _ ← Edit.read fun d => d.requireDefaultQuery id
  Edit.write (GraphDoc.queryEntry id f)

def assignPosition (id : DefaultQueryId) (position : Nat) : DocEdit Unit := do
  let _ ← Edit.read fun d => orElse (d.defaultQueries.get id) (missingDefaultQuery id)
  Edit.write (GraphDoc.queryEntry id fun entry => { entry with position := some position })

/-- Changes a stored query document. -/
def inQueryDocument (owner : QueryOwner) (f : LoroMap → Except CoreError LoroMap) :
    DocEdit Unit := do
  let document ← Edit.read fun d => d.requireQueryDocumentForOwner owner
  let next ← Edit.read fun _ => f document
  match propertyOwnerFromQueryOwner owner with
  | .inl id =>
    Edit.write (GraphDoc.queryEntry id fun entry => { entry with document := some next })
  | .inr property => inBag property (Edit.write (Bag.setDocument queryKey next))

def initializeQueryDocument (owner : QueryOwner) : DocEdit Unit :=
  match propertyOwnerFromQueryOwner owner with
  | .inl _ => do
    let _ ← Edit.read fun d => d.requireQueryDocumentForOwner owner
  | .inr property => inBag property (ensureQueryDocument host)

/-- The source text of a definition. -/
def sourceText (definition : LoroMap) : String :=
  ((definition.get "source").bind Stored.intoText).getD ""

def spliceSource (index delete : Nat) (insert source : String) : String :=
  String.ofList (source.toList.take index ++ insert.toList ++ source.toList.drop (index + delete))

/-- A splice of the source, which the text refuses where it is out of bounds. -/
def spliceDefinition (index delete : Nat) (insert : String) (viewId : QueryViewId)
    (document : LoroMap) : Except CoreError LoroMap := do
  let source := sourceText (← requireQueryDefinition document viewId)
  if index + delete > source.length then throw .loro
  editDefinition viewId
    (fun definition => definition.insert "source" (.text (spliceSource index delete insert source)))
    document

def removeView (viewId : QueryViewId) (nextDefault : Option QueryViewId) (document : LoroMap) :
    Except CoreError LoroMap := do
  let _ ← orElse ((childMap document "views").get viewId.asStr |>.bind Stored.intoMap) missingView
  let document := updateView viewId (fun view => view.insert "deleted" (.bool true)) document
  return match nextDefault with
    | some next => document.insert "default_view_id" (.string next.asStr)
    | none => document

/-! ## Operations -/

def applyOperation : PrimitiveOp → DocEdit MutationOutcome
  | .ensureEntity seed => ensureSeed now seed
  | .assignKind id kind => assignKind id kind
  | .assignName target name => do
    assignName target name
    return change
  | .assignDeleted target deleted => do
    assignDeleted now target deleted
    return change
  | .removeTagReference target tagId => do
    inTagRefs target.entity fun refs => BTreeMap.remove refs tagId
    return change
  | .setTagMembership entity tagId present => do
    setTagMembership entity tagId present
    return change
  | .declareProperty owner key valueType cardinality => do
    inBag owner (Edit.update (ensurePropertyField key valueType cardinality))
    return change
  | .assignProperty owner key value => do
    inBag owner (Edit.update (setSingle key value))
    return change
  | .clearPropertyValues owner key => do
    inBag owner (Edit.update (Core.clearPropertyValues key))
    return change
  | .removeProperty owner key => do
    inBag owner (Edit.write (removePropertyField key))
    return change
  | .addPropertyValue owner key value => do
    inBag owner (Edit.update (setRepeated key value))
    return change
  | .removePropertyValue owner key value => do
    inBag owner (Edit.update (removeRepeatedValue key value))
    return change
  | .spliceText target insert => do
    applyTextRange target
    if !insert.isEmpty then
      inText target.owner target.blockId (insertText target.index (plainPieces insert))
    return change
  | .spliceInline target insert => do
    applyTextRange target
    insertInlineAtoms target.owner target.blockId target.index insert
    return change
  | .insertOutline plan => applyOutlineInsert host source now plan
  | .splitBlock plan => applySplitBlock source now plan
  | .mergeBlockBackward owner plan => do
    applyMergeBlock now owner plan
    return change
  | .moveBlocks owner _ plan => do
    let _ ← Edit.read fun d => d.outline owner
    moveEach owner plan.outline.roots plan.parent plan.after
    return change
  | .indentBlocks owner plan => do
    applyReparentPlan owner plan
    return change
  | .outdentBlocks owner plan => do
    applyReparentPlan owner plan
    return change
  | .deleteBlocks owner plan => do
    applyDeleteBlocks now owner plan.roots
    return change
  | .insertDefaultQuery seed => do
    Edit.write (applyDefaultQuerySeed host seed)
    return change
  | .assignDefaultQueryTitle id title => do
    inDefaultQuery id fun entry => { entry with title := some title }
    return change
  | .assignDefaultQueryPositions positions => do
    Edit.each (fun p => assignPosition p.1 p.2) positions
    return change
  | .assignDefaultQueryDeleted id deleted => do
    inDefaultQuery id fun entry => { entry with deleted := some deleted }
    return change
  | .initializeQueryDocument owner => do
    initializeQueryDocument host owner
    return change
  | .replaceQuerySource target sourceText => do
    inQueryDocument target.owner (editDefinition target.viewId
      fun definition => definition.insert "source" (.text sourceText))
    return change
  | .spliceQuerySource target insert => do
    inQueryDocument target.definition.owner
      (spliceDefinition target.index target.delete insert target.definition.viewId)
    return change
  | .assignQueryPlan target plan => do
    inQueryDocument target.owner
      (editDefinition target.viewId (writeQueryPlanState host plan))
    return change
  | .putQueryView owner write => do
    inQueryDocument owner fun document => .ok (applyQueryViewWrite host write document)
    return change
  | .removeQueryView owner viewId nextDefault => do
    inQueryDocument owner (removeView viewId nextDefault)
    return change
  | .assignQueryDefaultView owner viewId => do
    inQueryDocument owner fun document =>
      .ok (document.insert "default_view_id" (.string viewId.asStr))
    return change

def applyOperations : List PrimitiveOp → MutationOutcome → DocEdit MutationOutcome
  | [], outcome => return outcome
  | operation :: rest, outcome => do
    let done ← applyOperation host source now operation
    applyOperations rest (outcome.merge done)

def applyTransition (transition : NormalizedTransition) : DocEdit MutationOutcome := do
  let outcome ← applyOperations host source now transition.operations {}
  if outcome.changed then touchTransition now transition.footprint
  return outcome

end Neoseq.Core
