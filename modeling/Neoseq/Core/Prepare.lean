import Neoseq.Core.Fragment

/-! Lowering a command to its plan. Every check a user can fail is made here, on
the document before the command; nothing is written. -/

namespace Neoseq.Core
open Domain Document Collections Content

variable (host : Host)

/-- What ends a preparation early. -/
inductive Halt where
  | refused (error : CoreError)
  | panic

def maxPropertyChanges : Nat := 64

def invalidQuery {γ : Type} (message : String) : Except CoreError γ :=
  .error (.property (.query (.invalidDocument message)))

def outlineError {γ : Type} (x : Except (Outline.OutlineError BlockId) γ) : Except CoreError γ :=
  x.mapError fun
    | .blockNotFound block => .blockNotFound block
    | .firstSiblingIndent => .firstSiblingIndent
    | .rootBlockOutdent => .rootBlockOutdent
    | .invalidHierarchy message => .invalidHierarchy message

def outlineState (d : GraphDoc) (owner : OutlineOwner) :
    Except CoreError (Outline.OutlineState BlockId) := do
  let _ ← d.requireLiveOutlineOwner owner
  return .fromTree (← d.outline owner).tree

/-! ## Text -/

/-- `range` is `none` for the whole text. -/
def checkedTextRange (current : List Piece) (range : Option (Nat × Nat)) (insertedBytes : Nat)
    (operation : String) : Except CoreError (Nat × Nat) := do
  let (index, delete) := range.getD (0, current.length)
  if index + delete > current.length then invalid (operation ++ " is out of bounds")
  let deletedBytes := storedBytes ((current.drop index).take delete)
  if storedBytes current - deletedBytes + insertedBytes > maxBlockTextBytes then
    throw .textTooLong
  return (index, delete)

def checkedTextTarget (d : GraphDoc) (owner : OutlineOwner) (blockId : BlockId)
    (range : Option (Nat × Nat)) (insertedBytes : Nat) (operation : String) :
    Except CoreError TextTarget := do
  let (index, delete) ← checkedTextRange (← d.blockText owner blockId) range insertedBytes operation
  return ⟨owner, blockId, index, delete⟩

def lowerTextSplice (d : GraphDoc) (owner : OutlineOwner) (blockId : BlockId)
    (range : Option (Nat × Nat)) (insert : Text) : Except CoreError PrimitiveOp := do
  d.requireBlock owner blockId
  validateText insert maxBlockTextBytes
  let target ← checkedTextTarget d owner blockId range (utf8Len insert) "markdown splice"
  return .spliceText target insert

/-- The loop of `normalize_inline_insert`: neighbouring texts become one atom. -/
def inlineAtoms (d : GraphDoc) : List InlineContent → (atoms : List InlineAtom) → (bytes : Nat) →
    Except CoreError (List InlineAtom × Nat)
  | [], atoms, bytes => .ok (atoms, bytes)
  | .markdown value :: rest, atoms, bytes => do
    if value.contains pageReferenceChar then
      invalid "plain block content contains the reserved reference atom"
    let atoms := if value.isEmpty then atoms else
      match atoms.getLast? with
      | some (.text previous) => atoms.dropLast ++ [.text (previous ++ value)]
      | _ => atoms ++ [.text value]
    inlineAtoms d rest atoms (bytes + utf8Len value)
  | .pageReference pageId :: rest, atoms, bytes => do
    let _ ← d.requireLivePage pageId
    inlineAtoms d rest (atoms ++ [.pageReference pageId]) (bytes + pageReferenceChar.utf8Size)

def normalizeInlineInsert (d : GraphDoc) (content : List InlineContent) :
    Except CoreError (List InlineAtom × Nat) := do
  let (atoms, bytes) ← inlineAtoms d content [] 0
  if bytes > maxBlockTextBytes then throw .textTooLong
  return (atoms, bytes)

/-- The text of atoms that are all text, `none` where one is a reference. -/
def plainText : List InlineAtom → Option Text
  | [] => some []
  | .text value :: rest => (plainText rest).map (value ++ ·)
  | .pageReference _ :: _ => none

def inlineOperation (target : TextTarget) (atoms : List InlineAtom) : PrimitiveOp :=
  match plainText atoms with
  | some insert => .spliceText target insert
  | none => .spliceInline target atoms

def lowerInlineSplice (d : GraphDoc) (owner : OutlineOwner) (splice : BlockContentSplice) :
    Except CoreError PrimitiveOp := do
  d.requireBlock owner splice.blockId
  let (atoms, bytes) ← normalizeInlineInsert d splice.insert
  let target ← checkedTextTarget d owner splice.blockId (some (splice.index, splice.delete)) bytes
    "block content splice"
  return inlineOperation target atoms

def validateContentBatch (count : Nat) (operation : String) : Except CoreError Unit :=
  if count = 0 ∨ count > Outline.maxStructuralTargets then
    invalid (operation ++ " batch must contain between 1 and " ++
      toString Outline.maxStructuralTargets ++ " blocks")
  else .ok ()

/-- The loop over markdown splices, whose blocks are distinct. -/
def lowerMarkdownSplices (d : GraphDoc) (owner : OutlineOwner) :
    List MarkdownSplice → (seen : List BlockId) → Except CoreError (List PrimitiveOp)
  | [], _ => .ok []
  | splice :: rest, seen => do
    if splice.blockId ∈ seen then invalid "markdown splice batch contains a duplicate block"
    let operation ← lowerTextSplice d owner splice.blockId (some (splice.index, splice.delete))
      splice.insert
    return operation :: (← lowerMarkdownSplices d owner rest (splice.blockId :: seen))

/-- The loop over content splices. Several may hit one block, so the texts are
staged: each splice is checked against what the ones before it leave. -/
def lowerContentSplices (d : GraphDoc) (owner : OutlineOwner) :
    List BlockContentSplice → (staged : BTreeMap BlockId (List Piece)) →
      Except CoreError (List PrimitiveOp)
  | [], _ => .ok []
  | splice :: rest, staged => do
    d.requireBlock owner splice.blockId
    let current ← match staged.get splice.blockId with
      | some current => pure current
      | none => d.blockText owner splice.blockId
    let (atoms, bytes) ← normalizeInlineInsert d splice.insert
    let _ ← checkedTextRange current (some (splice.index, splice.delete)) bytes
      "block content splice"
    let next := current.take splice.index ++ atoms.flatMap InlineAtom.pieces ++
      current.drop (splice.index + splice.delete)
    let operation := inlineOperation ⟨owner, splice.blockId, splice.index, splice.delete⟩ atoms
    return operation :: (← lowerContentSplices d owner rest (staged.insert splice.blockId next))

/-! ## Structure -/

def requireParent (d : GraphDoc) (owner : OutlineOwner) :
    Option BlockId → Except CoreError Unit
  | none => .ok ()
  | some parent => d.requireBlock owner parent

def plainItem (depth : Nat) (markdown : Text) : PlannedOutlineItem :=
  ⟨depth, .markdown markdown, [], []⟩

def lowerInsertBlock (d : GraphDoc) (owner : OutlineOwner) (parent : Option BlockId) (index : Nat)
    (markdown : Text) : Except CoreError PrimitiveOp := do
  let _ ← d.requireLiveOutlineOwner owner
  validateText markdown maxBlockTextBytes
  requireParent d owner parent
  return .insertOutline ⟨owner, parent, index, none, [plainItem 0 markdown], []⟩

def lowerInsertOutline (d : GraphDoc) (owner : OutlineOwner) (parent : Option BlockId)
    (index : Nat) (replace : Option BlockId) (items : List OutlineItem) :
    Except CoreError PrimitiveOp := do
  let _ ← d.requireLiveOutlineOwner owner
  if replace.isNone then requireParent d owner parent
  validateOutlineItems (items.map fun item => (item.depth, item.markdown)) "insert"
  match replace with
  | none => pure ()
  | some block =>
    d.requireBlock owner block
    if !(← d.blockText owner block).isEmpty then invalid "outline replacement block is not empty"
  return .insertOutline
    ⟨owner, parent, index, replace, items.map fun item => plainItem item.depth item.markdown, []⟩

def lowerPasteOutline (d : GraphDoc) (owner : OutlineOwner) (parent : Option BlockId)
    (index : Nat) (replace : Option BlockId) (fragment : OutlineFragment) :
    Except CoreError PrimitiveOp := do
  let _ ← d.requireLiveOutlineOwner owner
  if replace.isNone then requireParent d owner parent
  validateOutlineFragment host d fragment
  match replace with
  | none => pure ()
  | some block =>
    d.requireBlock owner block
    if !(← blockIsPlainEmpty host d owner block) then
      invalid "outline replacement block contains content or metadata"
  let resolution ← resolveOutlineFragment host d fragment
  let items ← (fragment.items.map (resolveFragmentItem resolution)).mapM id
  return .insertOutline ⟨owner, parent, index, replace, items, resolution.dependencies⟩

def splitDestination (before : Outline.OutlineState BlockId) (blockId : BlockId) :
    SplitPlacement → Except CoreError BlockPosition
  | .firstChild => .ok ⟨some blockId, 0⟩
  | placement => do
    let parent ← orElse (before.parents blockId) (.blockNotFound blockId)
    let siblings ← orElse (before.children parent)
      (.invalidHierarchy "block parent has no child list")
    let position ← orElse (siblings.idxOf? blockId) (.blockNotFound blockId)
    return ⟨parent, position + if placement = .after then 1 else 0⟩

def lowerSplitBlock (d : GraphDoc) (owner : OutlineOwner) (blockId : BlockId) (index : Nat)
    (placement : SplitPlacement) : Except CoreError PrimitiveOp := do
  let _ ← d.requireLiveOutlineOwner owner
  d.requireBlock owner blockId
  let text ← d.blockText owner blockId
  if index > text.length then invalid "block split is out of bounds"
  if (index = 0) ≠ (placement = .before) then
    invalid "a leading split must create a block before the target"
  let before ← outlineState d owner
  let destination ← splitDestination before blockId placement
  return .splitBlock
    { owner
      target := blockId
      destination
      index
      truncate := if index > 0 then text.length - index else 0
      tail := if index = 0 then [] else text.drop index }

/-- Down the last children from `target`, as far as the requested block. The fuel
is the number of blocks, which no chain of children exceeds. -/
def lastChildChain (before : Outline.OutlineState BlockId) (requested : BlockId) :
    Nat → (target : BlockId) → Except CoreError BlockId
  | 0, _ => invalid "merge target is not the line above"
  | fuel + 1, target =>
    if target = requested then .ok target
    else
      match (before.children (some target)).bind List.getLast? with
      | some next => lastChildChain before requested fuel next
      | none => invalid "merge target is not the line above"

def planMergeBlockBackward (d : GraphDoc) (owner : OutlineOwner) (blockId : BlockId)
    (requested : Option BlockId) : Except CoreError MergePlan := do
  let before ← outlineState d owner
  let parent ← orElse (before.parents blockId) (.blockNotFound blockId)
  let siblings ← orElse (before.children parent)
    (.invalidHierarchy "block parent has no child list")
  let position ← orElse (siblings.idxOf? blockId) (.blockNotFound blockId)
  let previous ← orElse (siblings.take position).getLast?
    (.invalidHierarchy "first sibling cannot merge backward")
  let target ← match requested with
    | none => pure previous
    | some requested =>
      lastChildChain before requested (before.documentOrder.length + 1) previous
  let combined := storedBytes (← d.blockText owner target) +
    storedBytes (← d.blockText owner blockId)
  if combined > maxBlockTextBytes then throw .textTooLong
  return ⟨blockId, target⟩

/-! ## Tags -/

/-- `entities::owner`. -/
def entityOwner (id : PageId) (record : Record) : OutlineOwner :=
  match record.entityKind with
  | .page => .page id
  | .tag => .tag id.cast

def ownerEntity : OutlineOwner → PageId
  | .page id => id
  | .tag id => id.cast

/-- Everything that refers to a tag, owner by owner, a root before its blocks. -/
def tagReferenceTargets (d : GraphDoc) (tag : TagId) : List TagReferenceTarget :=
  let owners := (d.entities.entries.map fun e => (entityOwner e.1 e.2, e.2)).insertionSort
    fun a b => a.1 ≤ b.1
  owners.flatMap fun e =>
    (if tag ∈ e.2.tagRefs then [.pageRoot (ownerEntity e.1)] else []) ++
      ((e.2.outline.tree.labels.filter fun b => tag ∈ (e.2.outline.metas b).tagRefs).map
        fun b => .block e.1 b)

/-- A default that the entity has no field for yet. -/
def materializeDefault (owner : PropertyOwner) (field : PropertyField) : List PrimitiveOp :=
  .declareProperty owner field.key field.valueType field.cardinality ::
    field.values.map fun value =>
      match field.cardinality with
      | .single => .assignProperty owner field.key value
      | .set => .addPropertyValue owner field.key value

def lowerAddTag (d : GraphDoc) (entity : EntityId) (tagId : TagId) :
    Except CoreError (List PrimitiveOp) := do
  d.validateEntity entity
  let tag ← d.requireLiveTag tagId
  let bag ← d.entityBag entity
  let missing := (decodeBag host tag.defaults).fields.filter fun field => !bag.contains field.key
  return .setTagMembership entity tagId true ::
    missing.flatMap (materializeDefault (propertyOwnerFromEntity entity))

/-! ## Properties -/

def rejectDocumentProperty (key : PropertyKey) (valueType : PropertyType) :
    Except CoreError Unit :=
  if valueType = .document then .error (.property (.documentCommandRequired key.asStr)) else .ok ()

def lowerPropertyChange (owner : PropertyOwner) (change : PropertyChange) :
    Except CoreError PrimitiveOp := do
  propertyError (validatePropertyWrite change.key (propertyOwnerTarget owner))
  match change.value with
  | some value =>
    propertyError (validateProperty host.codec change.key value .single)
    rejectDocumentProperty change.key value.propertyType
    return .assignProperty owner change.key value
  | none => return .removeProperty owner change.key

/-- The loop over the changes, whose keys are distinct. -/
def lowerPropertyChanges (owner : PropertyOwner) :
    List PropertyChange → (keys : List PropertyKey) → Except CoreError (List PrimitiveOp)
  | [], _ => .ok []
  | change :: rest, keys => do
    if change.key ∈ keys then
      invalid ("property patch contains a duplicate key: " ++ change.key.asStr)
    let operation ← lowerPropertyChange host owner change
    return operation :: (← lowerPropertyChanges owner rest (change.key :: keys))

/-! ## Queries -/

def hasView (document : PropertyDocument) (viewId : QueryViewId) : Bool :=
  document.views.any fun view => decide (view.id = viewId)

/-- Whether the document has to be created first. -/
def validateQueryDefinitionTarget (d : GraphDoc) (owner : QueryOwner) (viewId : QueryViewId) :
    Except CoreError Bool := do
  d.validateQueryOwner owner
  match ← d.queryDocumentIfPresent host owner with
  | some document =>
    if !hasView document viewId then throw missingView
    return false
  | none =>
    if viewId ≠ allViewId then invalidQuery "a new query must begin with view all"
    return true

def initializing (missing : Bool) (owner : QueryOwner) (operations : List PrimitiveOp) :
    List PrimitiveOp :=
  if missing then .initializeQueryDocument owner :: operations else operations

def checkedQuerySourceTarget (definition : QueryDefinitionTarget) (source : String)
    (index delete insertedBytes : Nat) : Except CoreError QuerySourceTarget := do
  if index + delete > source.length then invalid "query source splice is out of bounds"
  let deletedBytes := utf8Len ((source.toList.drop index).take delete)
  if source.utf8ByteSize - deletedBytes + insertedBytes > maxQuerySourceBytes then
    throw .textTooLong
  return ⟨definition, index, delete⟩

def rawViewExists (stored : LoroMap) (viewId : QueryViewId) : Bool :=
  ((childMap stored "views").get viewId.asStr).isSome

/-- The document with the view in it, and the normalized view where it is new. -/
def placeView (document : PropertyDocument) (view : QueryView) :
    Except CoreError (PropertyDocument × Option QueryView) :=
  if hasView document view.id then
    .ok ({ document with views := (document.views.replaceF fun existing =>
      if existing.id = view.id then some { view with definition := existing.definition }
      else none) }, none)
  else do
    let normalized ← normalizedQueryView host view
    return ({ document with views := document.views ++ [normalized] }, some normalized)

def lowerPutQueryView (d : GraphDoc) (owner : QueryOwner) (view : QueryView) :
    Except CoreError (List PrimitiveOp) := do
  d.validateQueryOwner owner
  let document ← d.queryDocument host owner
  let (document, normalized) ← placeView host document view
  queryError (document.validate host.codec)
  let stored ← d.requireQueryDocumentForOwner owner
  -- a view that is neither stored nor normalized ends the code in a panic
  let definition := if rawViewExists stored view.id then none else normalized.map (·.definition)
  return [.putQueryView owner ⟨.of view, definition⟩]

def lowerRemoveQueryView (d : GraphDoc) (owner : QueryOwner) (viewId : QueryViewId) :
    Except CoreError (List PrimitiveOp) := do
  d.validateQueryOwner owner
  let document ← d.queryDocument host owner
  let visible := hasView document viewId
  let stored ← d.requireQueryDocumentForOwner owner
  let storedViewExists := rawViewExists stored viewId
  if !visible && !storedViewExists then throw missingView
  if visible && document.views.length = 1 then invalidQuery "the last query view cannot be removed"
  let nextDefault := if visible && document.defaultViewId = viewId then
    (document.views.find? fun view => decide (view.id ≠ viewId)).map (·.id) else none
  return [.removeQueryView owner viewId nextDefault]

/-! ## Default queries -/

def lowerCreateDefaultQuery (d : GraphDoc) (id : DefaultQueryId) (title : String)
    (document : PropertyDocument) : Except CoreError (List PrimitiveOp) := do
  validateDefaultQueryTitle title
  let document ← normalizedQueryDocument host document
  if (d.defaultQueries.get id).isSome then
    invalid ("default query id already exists: " ++ id.asStr)
  let current ← graphSettingsSnapshot host d
  if current.length ≥ maxDefaultQueries then
    invalid "graph already has the maximum number of default queries"
  let position := match current.getLast? with
    | none => 0
    | some query => min (query.position + 1) 4294967295
  return [.insertDefaultQuery ⟨id, title, document, position⟩]

def lowerMoveDefaultQuery (d : GraphDoc) (id : DefaultQueryId) (index : Nat) :
    Except CoreError (List PrimitiveOp) := do
  let _ ← d.requireDefaultQuery id
  let order := (← graphSettingsSnapshot host d).map (·.id)
  if index ≥ order.length then invalid "default query move is out of bounds"
  let source ← orElse (order.idxOf? id)
    (.invalidHierarchy ("default query is outside the visible order: " ++ id.asStr))
  let moved := (order.eraseIdx source).insertIdx index id
  return [.assignDefaultQueryPositions moved.zipIdx]

def lowerSpliceQuerySource (d : GraphDoc) (owner : QueryOwner) (viewId : QueryViewId)
    (index delete : Nat) (insert : String) : Except CoreError (List PrimitiveOp) := do
  d.validateQueryOwner owner
  let document ← d.queryDocument host owner
  let view ← orElse (document.views.find? fun view => decide (view.id = viewId)) missingView
  if view.definition.plan.isSome then
    invalidQuery "a built query must be replaced with explicit raw source"
  let target : QueryDefinitionTarget := ⟨owner, viewId⟩
  let splice ← checkedQuerySourceTarget target view.definition.source index delete
    insert.utf8ByteSize
  return [.spliceQuerySource splice insert, .assignQueryPlan target none]

/-! ## Every command -/

def only (x : Except CoreError PrimitiveOp) : Except CoreError (List PrimitiveOp) :=
  x.map fun operation => [operation]

/-- The operations of each intent. -/
def lower (d : GraphDoc) : Intent → Except CoreError (List PrimitiveOp)
  | .setEntityKind id kind => do
    let record ← d.requireLivePage id
    if isJournalPage (decodeBag host record.properties) then
      invalid "journals cannot change document kind"
    let name ← orElse record.entityName (.pageNotFound id)
    ensurePageNameAvailable host d id name
    return [.assignKind id kind]
  | .ensurePage pageId title => do
    validateEntityName host title "page"
    if (d.entities.get pageId).isNone then ensurePageNameAvailable host d pageId title
    return [.ensureEntity (.regularPage pageId title)]
  | .ensureJournal date => .ok [.ensureEntity (.journalPage (journalPageId host d date) date)]
  | .renamePage pageId title => do
    validateEntityName host title "page"
    let _ ← d.requirePage pageId
    ensurePageNameAvailable host d pageId title
    return [.assignName (.page pageId) title]
  | .deletePage pageId => do
    let _ ← d.requirePage pageId
    return [.assignDeleted (.page pageId) true]
  | .restorePage pageId => do
    let title ← orElse (← d.requirePage pageId).entityName (.pageNotFound pageId)
    validateName host title "page"
    ensurePageNameAvailable host d pageId title
    return [.assignDeleted (.page pageId) false]
  | .ensureTag tagId name => do
    validateEntityName host name "tag"
    if (d.entities.get tagId.cast).isNone then ensureTagNameAvailable host d tagId name
    return [.ensureEntity (.tag tagId name)]
  | .renameTag tagId name => do
    validateEntityName host name "tag"
    let _ ← d.requireTag tagId
    ensureTagNameAvailable host d tagId name
    return [.assignName (.tag tagId) name]
  | .deleteTag tagId => do
    let _ ← d.requireLiveTag tagId
    return .assignDeleted (.tag tagId) true ::
      (tagReferenceTargets d tagId).map fun target => .removeTagReference target tagId
  | .restoreTag tagId => do
    let name ← orElse (← d.requireTag tagId).entityName (.tagNotFound tagId)
    validateName host name "tag"
    ensureTagNameAvailable host d tagId name
    return [.assignDeleted (.tag tagId) false]
  | .insertBlock owner parent index markdown =>
    only (lowerInsertBlock d owner parent index markdown)
  | .splitBlock owner blockId index placement =>
    only (lowerSplitBlock d owner blockId index placement)
  | .mergeBlockBackward owner blockId target => do
    return [.mergeBlockBackward owner (← planMergeBlockBackward d owner blockId target)]
  | .insertOutline owner parent index replace items =>
    only (lowerInsertOutline d owner parent index replace items)
  | .pasteOutline owner parent index replace fragment =>
    only (lowerPasteOutline host d owner parent index replace fragment)
  | .editMarkdown owner blockId markdown => only (lowerTextSplice d owner blockId none markdown)
  | .spliceMarkdown owner splice =>
    only (lowerTextSplice d owner splice.blockId (some (splice.index, splice.delete)) splice.insert)
  | .spliceMarkdowns owner splices => do
    validateContentBatch splices.length "markdown splice"
    lowerMarkdownSplices d owner splices []
  | .spliceBlockContent owner splice => only (lowerInlineSplice d owner splice)
  | .spliceBlockContents owner splices => do
    validateContentBatch splices.length "block content splice"
    lowerContentSplices d owner splices ∅
  | .moveBlocks blockIds owner parent after => do
    let plan ← outlineError
      (Outline.planMoveBlocks (← outlineState d owner) blockIds parent after)
    return [.moveBlocks owner blockIds plan.1]
  | .indentBlocks owner blockIds => do
    let plan ← outlineError (Outline.planIndentBlocks (← outlineState d owner) blockIds)
    return [.indentBlocks owner plan.1]
  | .outdentBlocks owner blockIds => do
    let plan ← outlineError (Outline.planOutdentBlocks (← outlineState d owner) blockIds)
    return [.outdentBlocks owner plan.1]
  | .deleteBlocks owner blockIds => do
    let plan ← outlineError (Outline.planDeleteBlocks (← outlineState d owner) blockIds)
    return [.deleteBlocks owner plan]
  | .ensureProperty owner key valueType cardinality => do
    d.validatePropertyAddress owner key
    propertyError (validatePropertyShape key valueType cardinality)
    rejectDocumentProperty key valueType
    return [.declareProperty owner key valueType cardinality]
  | .setProperty owner key value => do
    d.validatePropertyAddress owner key
    propertyError (validateProperty host.codec key value .single)
    rejectDocumentProperty key value.propertyType
    return [.assignProperty owner key value]
  | .setProperties owner changes => do
    d.validatePropertyOwner owner
    if changes.isEmpty ∨ changes.length > maxPropertyChanges then
      invalid ("property patch must contain between 1 and " ++ toString maxPropertyChanges ++
        " changes")
    lowerPropertyChanges host owner changes []
  | .clearPropertyValues owner key => do
    d.validatePropertyAddress owner key
    if key.asStr = queryPropertyKey then throw (.property (.documentCommandRequired key.asStr))
    return [.clearPropertyValues owner key]
  | .removeProperty owner key => do
    d.validatePropertyAddress owner key
    return [.removeProperty owner key]
  | .addRepeatedProperty owner key value => do
    d.validatePropertyAddress owner key
    propertyError (validateProperty host.codec key value .set)
    return [.addPropertyValue owner key value]
  | .removeRepeatedProperty owner key value => do
    d.validatePropertyAddress owner key
    propertyError (validateProperty host.codec key value .set)
    return [.removePropertyValue owner key value]
  | .createDefaultQuery id title document => lowerCreateDefaultQuery host d id title document
  | .renameDefaultQuery id title => do
    let _ ← d.requireDefaultQuery id
    validateDefaultQueryTitle title
    return [.assignDefaultQueryTitle id title]
  | .moveDefaultQuery id index => lowerMoveDefaultQuery host d id index
  | .deleteDefaultQuery id => do
    let _ ← d.requireDefaultQuery id
    return [.assignDefaultQueryDeleted id true]
  | .setQuerySource owner viewId source => do
    let missing ← validateQueryDefinitionTarget host d owner viewId
    if source.utf8ByteSize > maxQuerySourceBytes then throw .textTooLong
    return initializing missing owner
      [.replaceQuerySource ⟨owner, viewId⟩ source, .assignQueryPlan ⟨owner, viewId⟩ none]
  | .spliceQuerySource owner viewId index delete insert =>
    lowerSpliceQuerySource host d owner viewId index delete insert
  | .setQueryPlan owner viewId plan => do
    let missing ← validateQueryDefinitionTarget host d owner viewId
    queryError (plan.validate host.codec)
    let _ ← derivedQuerySource host plan
    return initializing missing owner [.assignQueryPlan ⟨owner, viewId⟩ (some plan)]
  | .putQueryView owner view => lowerPutQueryView host d owner view
  | .removeQueryView owner viewId => lowerRemoveQueryView host d owner viewId
  | .setQueryDefaultView owner viewId => do
    d.validateQueryOwner owner
    let document ← d.queryDocument host owner
    if !hasView document viewId then invalidQuery "default query view does not exist"
    return [.assignQueryDefaultView owner viewId]
  | .addTag entity tagId => lowerAddTag host d entity tagId
  | .removeTag entity tagId => do
    d.validateEntity entity
    let _ ← d.requireTag tagId
    return [.setTagMembership entity tagId false]

def prepareTransition (d : GraphDoc) (intent : Intent) : Except CoreError NormalizedTransition :=
  (lower host d intent).map .new

end Neoseq.Core
