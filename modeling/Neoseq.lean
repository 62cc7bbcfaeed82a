import Neoseq.Forest.Basic
import Neoseq.Forest.Edit
import Neoseq.Forest.Level
import Neoseq.Forest.Apart
import Neoseq.Forest.Group
import Neoseq.Outline.State
import Neoseq.Outline.Represents
import Neoseq.Outline.Reparent
import Neoseq.Outline.Levels
import Neoseq.Outline.MoveBlocks
import Neoseq.Domain.Ids
import Neoseq.Content.Inline
import Neoseq.Result
import Neoseq.Domain.Query
import Neoseq.Document.Stored
import Neoseq.Document.QueryProjection
import Neoseq.Collections.BTreeMap
import Neoseq.Collections.Keyed
import Neoseq.Domain.Property
import Neoseq.Domain.Snapshot
import Neoseq.Query.Rdf
import Neoseq.Query.TextIndex
import Neoseq.Query.Candidates
import Neoseq.Query.PropertyIndex
import Neoseq.Query.Projection
import Neoseq.Query.GraphIndex
import Neoseq.Query.Represents
import Neoseq.Query.Incremental
import Neoseq.Query.Rebuild
import Neoseq.Domain.Registry
import Neoseq.Domain.Order
import Neoseq.Edit
import Neoseq.Core.Command
import Neoseq.Core.Document
import Neoseq.Core.Properties
import Neoseq.Core.Entities
import Neoseq.Core.Transition
import Neoseq.Core.Fragment
import Neoseq.Core.Prepare
import Neoseq.Core.Apply
import Neoseq.Core.Execute
import Neoseq.Core.Frames
import Neoseq.Syntax.Tree
import Neoseq.Sparql.Algebra
import Neoseq.Query.EntityIdentity
import Neoseq.Query.Sandbox
import Neoseq.Server.Store
import Neoseq.Server.Room
import Neoseq.Server.Isolation
import Neoseq.Server.Delivery
import Neoseq.Server.DeliveryRuns
import Neoseq.Server.Delivered
import Neoseq.Server.Compaction
import Neoseq.Server.Manager
import Neoseq.Server.Mirrored
import Neoseq.Server.ManagerRuns
import Neoseq.Server.Membership
import Neoseq.Server.Revocation
import Neoseq.Collections.Log
import Neoseq.Collections.Weave
import Neoseq.Collections.Line
import Neoseq.Editor.Buffer
import Neoseq.Editor.Origins
import Neoseq.Editor.Rebase
import Neoseq.Local.Fallback
import Neoseq.Local.Recovery
import Neoseq.Text.Substitute
import Neoseq.Causal.Document
import Neoseq.Causal.Validate
import Neoseq.Causal.Current
import Neoseq.Causal.Iris
import Neoseq.Causal.Clone
import Neoseq.Causal.Cloned
import Neoseq.Causal.Changes
import Neoseq.Causal.Reported
import Neoseq.Causal.Bare
import Neoseq.Causal.Scoped
import Neoseq.Causal.Admission
import Neoseq.Local.Replay
import Neoseq.Local.Browser
import Neoseq.Local.Worker
import Neoseq.Local.Stored
import Neoseq.Local.Outbox
import Neoseq.Local.Retention
import Neoseq.Lease.Election
import Neoseq.Lease.Tabs
import Neoseq.Lease.Exclusion
import Neoseq.Local.Agreement
import Neoseq.Local.Repair
import Neoseq.Local.Native
import Neoseq.Local.Identities
import Neoseq.Runtime.Events
import Neoseq.Auth.Identity
import Neoseq.Auth.Transactions
import Neoseq.Auth.Runs
import Neoseq.Auth.Authority
import Neoseq.Auth.Finality
import Neoseq.Editor.Splice
import Neoseq.Editor.Diff
import Neoseq.Editor.Shortest
import Neoseq.Editor.Drafts
import Neoseq.Editor.Native
import Neoseq.Editor.Target
import Neoseq.Editor.Moved
import Neoseq.Editor.Edited
import Neoseq.Editor.Input
import Neoseq.Editor.Resume
import Neoseq.Editor.Outside
import Neoseq.Core.Staging
import Neoseq.Core.QueryViews
import Neoseq.Core.Journals
import Neoseq.Forest.Spine
import Neoseq.Core.Merges
import Neoseq.Forest.Depths
import Neoseq.Core.Inserts
import Neoseq.Sparql.Substitution
import Neoseq.Query.Plan
import Neoseq.Domain.Dates
import Neoseq.Domain.Calendar
import Neoseq.Query.RelativeDate
import Neoseq.Query.ResolvedDate
import Neoseq.Query.Compile
import Neoseq.Query.Template
import Neoseq.Query.Operands
import Neoseq.Query.Injection
import Neoseq.Query.TextInjection
import Neoseq.Query.Builder
import Neoseq.Wire.Frame
import Neoseq.Wire.Archive
import Neoseq.Entities.Names
import Neoseq.Entities.Ordering
import Neoseq.Entities.TagIdentity
import Neoseq.Entities.Filing
import Neoseq.Entities.Favourites
import Neoseq.Collections.InsertionMap
import Neoseq.Answers.Execution
import Neoseq.Answers.Ordering
import Neoseq.Editor.Halves
import Neoseq.Forest.Objects
import Neoseq.Snapshot.Sharing
import Neoseq.Snapshot.Patch
import Neoseq.Collections.StrictWeak
import Neoseq.Vim.Units
import Neoseq.Vim.Lines
import Neoseq.Vim.TextObjects
import Neoseq.Vim.Engine
import Neoseq.Vim.Runs
import Neoseq.Text.Lines
import Neoseq.Code.Fence
import Neoseq.Code.Indent
import Neoseq.Crypto.Words
import Neoseq.Crypto.Standard
import Neoseq.Crypto.Digest
import Neoseq.Core.DefaultQueries
import Neoseq.Core.DefaultQueryCommands
import Neoseq.Outline.Rows
import Neoseq.Outline.Drop
