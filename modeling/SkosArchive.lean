import SkosArchive.CommandLine.Call
import SkosArchive.Config.Json
import SkosArchive.Json.Terms
import SkosArchive.Main
import SkosArchive.Proofs.Outcome
import SkosArchive.Proofs.Storage
import SkosArchive.Proofs.Creation
import SkosArchive.Proofs.Related
import SkosArchive.Proofs.Choice
import SkosArchive.Proofs.Contexts
import SkosArchive.Proofs.CreationScope
import SkosArchive.Proofs.FaithfulCopies
import SkosArchive.Proofs.Removal
import SkosArchive.Proofs.SnapshotRuns
import SkosArchive.Proofs.Growth
import SkosArchive.Proofs.Mentions
import SkosArchive.Proofs.RelatedGrowth
import SkosArchive.Proofs.Calendar
import SkosArchive.Proofs.TimeTexts
import SkosArchive.Proofs.RemovalAfterCreation
import SkosArchive.Proofs.Invisibility
import SkosArchive.Proofs.Reachability
import SkosArchive.Proofs.Neighbours
import SkosArchive.Proofs.Derivation
import SkosArchive.Proofs.Commitment
import SkosArchive.Proofs.FrozenCascade
import SkosArchive.Proofs.LoadedContexts
import SkosArchive.Proofs.CacheTransparency
import SkosArchive.Proofs.RecursiveClosure
import SkosArchive.Proofs.CascadeMembers
import SkosArchive.Proofs.QuadSets
import SkosArchive.Proofs.WorkspaceIsolation
import SkosArchive.Proofs.WorkspaceOverlay
import SkosArchive.Proofs.SnapshotLookup
import SkosArchive.Proofs.CreatedSnapshots
import SkosArchive.Proofs.CommonAncestor
import SkosArchive.Proofs.DeferredDrops
import SkosArchive.Proofs.WorkspaceHistory
import SkosArchive.Proofs.RemovedSnapshots
import SkosArchive.Proofs.RelatedOrder
import SkosArchive.Proofs.SnapshotListing
import SkosArchive.Proofs.RemovalScope
import SkosArchive.Proofs.Timestamps
import SkosArchive.Proofs.SnapshotNames
import SkosArchive.Proofs.WorkingCopies
import SkosArchive.Proofs.TermLinks
import SkosArchive.Proofs.ExactTimes
import SkosArchive.Proofs.ParentLookups
import SkosArchive.Proofs.RowEncoding
import SkosArchive.Proofs.JsonForms
