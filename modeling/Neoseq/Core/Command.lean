import Neoseq.Content.Inline
import Neoseq.Domain.Registry
import Neoseq.Domain.Snapshot

/-! The commands a client sends, with everything they carry. -/

namespace Neoseq.Core
open Domain

inductive EntityKind where
  | page
  | tag
  deriving Repr, DecidableEq

inductive EntityId where
  | page (id : PageId)
  | block (owner : OutlineOwner) (id : BlockId)

/-- What a property is written on. `tag` is what the tag is, `tagDefault` what it
copies onto whatever it is added to. -/
inductive PropertyOwner where
  | page (id : PageId)
  | block (owner : OutlineOwner) (id : BlockId)
  | tag (tagId : TagId)
  | tagDefault (tagId : TagId)

inductive QueryOwner where
  | page (id : PageId)
  | block (owner : OutlineOwner) (id : BlockId)
  | tag (tagId : TagId)
  | graphDefault (defaultQueryId : DefaultQueryId)

structure MarkdownSplice where
  blockId : BlockId
  index : Nat
  delete : Nat
  insert : Content.Text

structure BlockContentSplice where
  blockId : BlockId
  index : Nat
  delete : Nat
  insert : List Content.InlineContent

/-- `none` removes the field, a value replaces it as its single member. -/
structure PropertyChange where
  key : PropertyKey
  value : Option PropertyValue

inductive SplitPlacement where
  | before
  | after
  | firstChild
  deriving Repr, DecidableEq

structure OutlineItem where
  depth : Nat
  markdown : Content.Text

structure OutlineFragmentItem where
  depth : Nat
  markdown : Content.Text
  pageReferences : List Content.PageReferenceSpan
  properties : PropertyBag
  tags : List TagId

structure OutlineFragmentTag where
  id : TagId
  name : String

structure OutlineFragmentPage where
  id : PageId
  title : String
  journalDate : Option LocalDate

def outlineFragmentKind : String := "neoseq.outline"
def outlineFragmentVersion : Nat := 2

structure OutlineFragment where
  kind : String
  version : Nat
  sourceGraphId : GraphId
  items : List OutlineFragmentItem
  tags : List OutlineFragmentTag
  pages : List OutlineFragmentPage

/-- The commands that are lowered to one transition each. -/
inductive Intent where
  | setEntityKind (id : PageId) (kind : EntityKind)
  | ensurePage (pageId : PageId) (title : String)
  | ensureJournal (date : LocalDate)
  | renamePage (pageId : PageId) (title : String)
  | deletePage (pageId : PageId)
  | restorePage (pageId : PageId)
  | ensureTag (tagId : TagId) (name : String)
  | renameTag (tagId : TagId) (name : String)
  | deleteTag (tagId : TagId)
  | restoreTag (tagId : TagId)
  | insertBlock (owner : OutlineOwner) (parent : Option BlockId) (index : Nat)
    (markdown : Content.Text)
  | splitBlock (owner : OutlineOwner) (blockId : BlockId) (index : Nat)
    (placement : SplitPlacement)
  | mergeBlockBackward (owner : OutlineOwner) (blockId : BlockId) (target : Option BlockId)
  | insertOutline (owner : OutlineOwner) (parent : Option BlockId) (index : Nat)
    (replace : Option BlockId) (items : List OutlineItem)
  | pasteOutline (owner : OutlineOwner) (parent : Option BlockId) (index : Nat)
    (replace : Option BlockId) (fragment : OutlineFragment)
  | editMarkdown (owner : OutlineOwner) (blockId : BlockId) (markdown : Content.Text)
  | spliceMarkdown (owner : OutlineOwner) (splice : MarkdownSplice)
  | spliceMarkdowns (owner : OutlineOwner) (splices : List MarkdownSplice)
  | spliceBlockContent (owner : OutlineOwner) (splice : BlockContentSplice)
  | spliceBlockContents (owner : OutlineOwner) (splices : List BlockContentSplice)
  | moveBlocks (blockIds : List BlockId) (owner : OutlineOwner) (parent after : Option BlockId)
  | indentBlocks (owner : OutlineOwner) (blockIds : List BlockId)
  | outdentBlocks (owner : OutlineOwner) (blockIds : List BlockId)
  | deleteBlocks (owner : OutlineOwner) (blockIds : List BlockId)
  | ensureProperty (owner : PropertyOwner) (key : PropertyKey) (valueType : PropertyType)
    (cardinality : Cardinality)
  | setProperty (owner : PropertyOwner) (key : PropertyKey) (value : PropertyValue)
  | setProperties (owner : PropertyOwner) (changes : List PropertyChange)
  | clearPropertyValues (owner : PropertyOwner) (key : PropertyKey)
  | removeProperty (owner : PropertyOwner) (key : PropertyKey)
  | addRepeatedProperty (owner : PropertyOwner) (key : PropertyKey) (value : PropertyValue)
  | removeRepeatedProperty (owner : PropertyOwner) (key : PropertyKey) (value : PropertyValue)
  | createDefaultQuery (defaultQueryId : DefaultQueryId) (title : String)
    (document : PropertyDocument)
  | renameDefaultQuery (defaultQueryId : DefaultQueryId) (title : String)
  | moveDefaultQuery (defaultQueryId : DefaultQueryId) (index : Nat)
  | deleteDefaultQuery (defaultQueryId : DefaultQueryId)
  | setQuerySource (owner : QueryOwner) (viewId : QueryViewId) (source : String)
  | spliceQuerySource (owner : QueryOwner) (viewId : QueryViewId) (index delete : Nat)
    (insert : String)
  | setQueryPlan (owner : QueryOwner) (viewId : QueryViewId) (plan : QueryPlan)
  | putQueryView (owner : QueryOwner) (view : QueryView)
  | removeQueryView (owner : QueryOwner) (viewId : QueryViewId)
  | setQueryDefaultView (owner : QueryOwner) (viewId : QueryViewId)
  | addTag (entity : EntityId) (tagId : TagId)
  | removeTag (entity : EntityId) (tagId : TagId)

/-- A command is a domain intent or orchestration: a batch of commands, whatever
they are, or a step of the local history. -/
inductive Command where
  | intent (intent : Intent)
  | batch (commands : List Command)
  | undo
  | redo

end Neoseq.Core
