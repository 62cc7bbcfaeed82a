import Neoseq.Core.Entities
import Neoseq.Outline.MoveBlocks

/-! The plan a command is lowered to: typed operations that no longer depend on
the command, and the entities they touch. -/

namespace Neoseq.Core
open Domain Document Collections Content

inductive LifecycleEntity where
  | page (id : PageId)
  | tag (id : TagId)
  deriving DecidableEq

inductive TouchedEntity where
  | page (id : PageId)
  | block (owner : OutlineOwner) (id : BlockId)
  | tag (id : TagId)
  deriving DecidableEq

def TouchedEntity.fromLifecycle : LifecycleEntity → TouchedEntity
  | .page id => .page id
  | .tag id => .tag id

def TouchedEntity.fromEntity : EntityId → TouchedEntity
  | .page id => .page id
  | .block owner id => .block owner id

def TouchedEntity.fromPropertyOwner : PropertyOwner → TouchedEntity
  | .page id => .page id
  | .block owner id => .block owner id
  | .tag id => .tag id
  | .tagDefault id => .tag id

inductive EntitySeed where
  | regularPage (pageId : PageId) (title : String)
  | journalPage (pageId : PageId) (date : LocalDate)
  | tag (tagId : TagId) (name : String)

def EntitySeed.target : EntitySeed → TouchedEntity
  | .regularPage id _ => .page id
  | .journalPage id _ => .page id
  | .tag id _ => .tag id

/-! ## Plans -/

structure TextTarget where
  owner : OutlineOwner
  blockId : BlockId
  index : Nat
  delete : Nat

structure PlannedOutlineItem where
  depth : Nat
  content : PlannedBlockContent
  properties : List PropertyField
  tags : List TagId

/-- The text an item is inserted with; inline atoms are put in afterwards. -/
def PlannedOutlineItem.markdown (item : PlannedOutlineItem) : Text :=
  match item.content with
  | .markdown markdown => markdown
  | .inline _ => []

structure OutlineInsertPlan where
  owner : OutlineOwner
  parent : Option BlockId
  index : Nat
  replace : Option BlockId
  items : List PlannedOutlineItem
  dependencies : List EntitySeed

structure BlockPosition where
  parent : Option BlockId
  index : Nat

structure SplitPlan where
  owner : OutlineOwner
  target : BlockId
  destination : BlockPosition
  index : Nat
  truncate : Nat
  tail : List Piece

structure MergePlan where
  source : BlockId
  target : BlockId

structure DefaultQuerySeed where
  defaultQueryId : DefaultQueryId
  title : String
  document : PropertyDocument
  position : Nat

structure QueryDefinitionTarget where
  owner : QueryOwner
  viewId : QueryViewId

structure QuerySourceTarget where
  definition : QueryDefinitionTarget
  index : Nat
  delete : Nat

inductive TagReferenceTarget where
  | pageRoot (id : PageId)
  | block (owner : OutlineOwner) (id : BlockId)

inductive PrimitiveOp where
  | ensureEntity (seed : EntitySeed)
  | assignKind (id : PageId) (kind : EntityKind)
  | assignName (target : LifecycleEntity) (name : String)
  | assignDeleted (target : LifecycleEntity) (deleted : Bool)
  | removeTagReference (target : TagReferenceTarget) (tagId : TagId)
  | setTagMembership (entity : EntityId) (tagId : TagId) (present : Bool)
  | declareProperty (owner : PropertyOwner) (key : PropertyKey) (valueType : PropertyType)
    (cardinality : Cardinality)
  | assignProperty (owner : PropertyOwner) (key : PropertyKey) (value : PropertyValue)
  | clearPropertyValues (owner : PropertyOwner) (key : PropertyKey)
  | removeProperty (owner : PropertyOwner) (key : PropertyKey)
  | addPropertyValue (owner : PropertyOwner) (key : PropertyKey) (value : PropertyValue)
  | removePropertyValue (owner : PropertyOwner) (key : PropertyKey) (value : PropertyValue)
  | spliceText (target : TextTarget) (insert : Text)
  | spliceInline (target : TextTarget) (insert : List InlineAtom)
  | insertOutline (plan : OutlineInsertPlan)
  | splitBlock (plan : SplitPlan)
  | mergeBlockBackward (owner : OutlineOwner) (plan : MergePlan)
  | moveBlocks (owner : OutlineOwner) (requested : List BlockId) (plan : Outline.MovePlan BlockId)
  | indentBlocks (owner : OutlineOwner) (plan : Outline.ReparentPlan BlockId)
  | outdentBlocks (owner : OutlineOwner) (plan : Outline.ReparentPlan BlockId)
  | deleteBlocks (owner : OutlineOwner) (plan : Outline.OutlinePlan BlockId)
  | insertDefaultQuery (seed : DefaultQuerySeed)
  | assignDefaultQueryTitle (defaultQueryId : DefaultQueryId) (title : String)
  | assignDefaultQueryPositions (positions : List (DefaultQueryId × Nat))
  | assignDefaultQueryDeleted (defaultQueryId : DefaultQueryId) (deleted : Bool)
  | initializeQueryDocument (owner : QueryOwner)
  | replaceQuerySource (target : QueryDefinitionTarget) (source : String)
  | spliceQuerySource (target : QuerySourceTarget) (insert : String)
  | assignQueryPlan (target : QueryDefinitionTarget) (plan : Option QueryPlan)
  | putQueryView (owner : QueryOwner) (write : QueryViewWrite)
  | removeQueryView (owner : QueryOwner) (viewId : QueryViewId) (nextDefault : Option QueryViewId)
  | assignQueryDefaultView (owner : QueryOwner) (viewId : QueryViewId)

/-! ## Footprints -/

/-- What a transition touches besides what it writes. Lists hold no duplicates and
are in the order in which the operations name their members. -/
structure TransitionFootprint where
  entities : List TouchedEntity := []
  blocks : List (OutlineOwner × BlockId) := []
  outlines : BTreeSet OutlineOwner := ∅

namespace TransitionFootprint

def addEntity (f : TransitionFootprint) (entity : TouchedEntity) : TransitionFootprint :=
  { f with entities := if entity ∈ f.entities then f.entities else f.entities ++ [entity] }

def addBlock (owner : OutlineOwner) (f : TransitionFootprint) (block : BlockId) :
    TransitionFootprint :=
  { f with blocks := if (owner, block) ∈ f.blocks then f.blocks else f.blocks ++ [(owner, block)] }

def addOutline (f : TransitionFootprint) (owner : OutlineOwner) : TransitionFootprint :=
  { f with outlines := f.outlines.add owner }

def addPropertyOwner (f : TransitionFootprint) (owner : PropertyOwner) : TransitionFootprint :=
  f.addEntity (.fromPropertyOwner owner)

/-- The queries of the graph itself belong to no entity. -/
def includeQueryOwner (f : TransitionFootprint) (owner : QueryOwner) : TransitionFootprint :=
  match propertyOwnerFromQueryOwner owner with
  | .inl _ => f
  | .inr property => f.addPropertyOwner property

def includeOperation (f : TransitionFootprint) : PrimitiveOp → TransitionFootprint
  | .ensureEntity seed => f.addEntity seed.target
  | .assignKind id _ => ((f.addEntity (.page id)).addOutline (.page id)).addOutline (.tag id.cast)
  | .assignName target _ => f.addEntity (.fromLifecycle target)
  | .assignDeleted target _ => f.addEntity (.fromLifecycle target)
  | .removeTagReference (.pageRoot id) _ => f.addOutline (.page id)
  | .removeTagReference (.block owner id) _ => (f.addBlock owner id).addOutline owner
  | .setTagMembership entity _ _ => f.addEntity (.fromEntity entity)
  | .declareProperty owner _ _ _ => f.addPropertyOwner owner
  | .assignProperty owner _ _ => f.addPropertyOwner owner
  | .clearPropertyValues owner _ => f.addPropertyOwner owner
  | .removeProperty owner _ => f.addPropertyOwner owner
  | .addPropertyValue owner _ _ => f.addPropertyOwner owner
  | .removePropertyValue owner _ _ => f.addPropertyOwner owner
  | .spliceText target _ => (f.addBlock target.owner target.blockId).addOutline target.owner
  | .spliceInline target _ => (f.addBlock target.owner target.blockId).addOutline target.owner
  | .insertOutline plan => f.addOutline plan.owner
  | .splitBlock plan =>
    (if plan.index > 0 then f.addBlock plan.owner plan.target else f).addOutline plan.owner
  | .mergeBlockBackward owner _ => f.addOutline owner
  | .moveBlocks owner requested _ => (requested.foldl (addBlock owner) f).addOutline owner
  | .indentBlocks owner plan =>
    ((plan.steps.map Outline.ReparentStep.block).foldl (addBlock owner) f).addOutline owner
  | .outdentBlocks owner plan =>
    ((plan.steps.map Outline.ReparentStep.block).foldl (addBlock owner) f).addOutline owner
  | .deleteBlocks owner _ => f.addOutline owner
  | .insertDefaultQuery _ => f
  | .assignDefaultQueryTitle .. => f
  | .assignDefaultQueryPositions _ => f
  | .assignDefaultQueryDeleted .. => f
  | .initializeQueryDocument owner => f.includeQueryOwner owner
  | .putQueryView owner _ => f.includeQueryOwner owner
  | .removeQueryView owner _ _ => f.includeQueryOwner owner
  | .assignQueryDefaultView owner _ => f.includeQueryOwner owner
  | .replaceQuerySource target _ => f.includeQueryOwner target.owner
  | .assignQueryPlan target _ => f.includeQueryOwner target.owner
  | .spliceQuerySource target _ => f.includeQueryOwner target.definition.owner

def fromOperations (operations : List PrimitiveOp) : TransitionFootprint :=
  operations.foldl includeOperation {}

end TransitionFootprint

structure NormalizedTransition where
  operations : List PrimitiveOp
  footprint : TransitionFootprint

def NormalizedTransition.new (operations : List PrimitiveOp) : NormalizedTransition :=
  ⟨operations, .fromOperations operations⟩

end Neoseq.Core
