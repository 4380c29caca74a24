import StoryBuild.Engine.Progress
import StoryBuild.Main
import StoryBuild.Sandbox
import StoryBuild.Proofs.Core
import StoryBuild.Proofs.Batches
import StoryBuild.Engine.Run
import StoryBuild.Proofs.Calls
import StoryBuild.Proofs.QueueOrder
import StoryBuild.Proofs.OneAtATime
import StoryBuild.Proofs.JobLedger
import StoryBuild.Proofs.RestrictedMode
import StoryBuild.Proofs.PathNames
import StoryBuild.Graph.History
import StoryBuild.Proofs.DiskEntries
import StoryBuild.Proofs.DiskListing
import StoryBuild.Proofs.DiskEdits
import StoryBuild.Proofs.Linking
import StoryBuild.Proofs.PathOrder
import StoryBuild.Proofs.Scanning
import StoryBuild.Proofs.Rereading
import StoryBuild.Proofs.UpToDate
import StoryBuild.Proofs.FilesApart
import StoryBuild.Proofs.Desk
import StoryBuild.Proofs.Courses
import StoryBuild.Proofs.Acting
import StoryBuild.Proofs.BatchRecord
import StoryBuild.Proofs.JobTraces
import StoryBuild.Proofs.WaitingList
import StoryBuild.Proofs.DeskFacts
import StoryBuild.Proofs.NoneStranded
import StoryBuild.Proofs.Promotion
import StoryBuild.Proofs.FileOrder
import StoryBuild.Proofs.Reacting
import StoryBuild.Proofs.ChangesKept
import StoryBuild.Proofs.Snapshots
import StoryBuild.Proofs.CrashSafety
import StoryBuild.Proofs.Reachability
import StoryBuild.Proofs.Families
import StoryBuild.Proofs.Staleness
import StoryBuild.Proofs.ArtifactPlaces
import StoryBuild.Proofs.ArtifactTimes
import StoryBuild.Proofs.Tending
import StoryBuild.Proofs.Watching
import StoryBuild.Proofs.ProjectPaths
import StoryBuild.Proofs.IncludeEdges
import StoryBuild.Proofs.Owners
import StoryBuild.Proofs.StorageLaws
import StoryBuild.Proofs.Repair
import StoryBuild.Proofs.HostSteps
import StoryBuild.Proofs.HostCalls
import StoryBuild.Proofs.HostRules
import StoryBuild.Proofs.HostProtocol
import StoryBuild.Proofs.JsonText
import StoryBuild.Proofs.Looking
import StoryBuild.Proofs.StateFile
import StoryBuild.Proofs.Mirroring
import StoryBuild.Proofs.Restoring
import StoryBuild.Proofs.Resuming
import StoryBuild.Proofs.DiskHistory
import StoryBuild.Proofs.OwnArtifacts
import StoryBuild.Proofs.Verdicts
import StoryBuild.Proofs.DiagnosticOrigins
import StoryBuild.Proofs.NoStalls
import StoryBuild.Proofs.BatchErrors
import StoryBuild.Proofs.FailedRebuild
import StoryBuild.Proofs.Refusals
import StoryBuild.Proofs.OneFileApart
import StoryBuild.Proofs.MirroredChanges
import StoryBuild.Proofs.TwinDisks
import StoryBuild.Proofs.Retiming
import StoryBuild.Proofs.TwinGraphs
import StoryBuild.Proofs.TwinReadings
import StoryBuild.Proofs.TwinWorks
import StoryBuild.Proofs.TwinEngines
import StoryBuild.Proofs.TwinBatches
import StoryBuild.Proofs.TwinCalls
import StoryBuild.Proofs.UnnoticedSnapshots
import StoryBuild.Proofs.Starts
import StoryBuild.Proofs.AffectedMasters
import StoryBuild.Proofs.SoundGraphs
import StoryBuild.Proofs.TimedCalls
import StoryBuild.Proofs.Waits
import StoryBuild.Proofs.Bystanders
import StoryBuild.Proofs.FailedMasters
import StoryBuild.Proofs.FixedPoint
import StoryBuild.Proofs.SavedDisks
import StoryBuild.Proofs.Reports
import StoryBuild.Proofs.KnownOutcomes
import StoryBuild.Proofs.RecordedOutcomes
import StoryBuild.Proofs.Rounds
import StoryBuild.Proofs.ImmediateCompiles
import StoryBuild.Proofs.Dealings
import StoryBuild.Proofs.ManualMasters
import StoryBuild.Proofs.IncludeTables
import StoryBuild.Proofs.NamedFiles
import StoryBuild.Proofs.NewFiles
import StoryBuild.Proofs.Comments
import StoryBuild.Proofs.Patterns
import StoryBuild.Proofs.Discoveries
import StoryBuild.Proofs.RejectedCompiles
import StoryBuild.Proofs.WatchedNames
import StoryBuild.Proofs.Placeholders
