import Workplan.Text.Blank
import Workplan.Text.Numeral
import Workplan.Decimal
import Workplan.Text.Split
import Workplan.Weekday
import Workplan.Date
import Workplan.Date.Civil
import Workplan.Date.Text
import Workplan.Catalog
import Workplan.Calendar
import Workplan.TaskId
import Workplan.Task
import Workplan.Link.Key
import Workplan.Lag
import Workplan.Relation
import Workplan.Collision
import Workplan.Link
import Workplan.Hierarchy
import Workplan.Outline
import Workplan.Change
import Workplan.Network.Index
import Workplan.Network
import Workplan.Network.Loop
import Workplan.Network.Edit
import Workplan.Batch
import Workplan.Predecessor
import Workplan.Document
import Workplan.Record
import Workplan.Flow
import Workplan.Flow.Order
import Workplan.Window
import Workplan.Schedule
import Workplan.Bounds
import Workplan.Critical
import Workplan.Toml.Words
import Workplan.Toml.Scalar
import Workplan.Toml.Table
import Workplan.Toml.Reader
import Workplan.Toml.Writer
import Workplan.Settings
import Workplan.Project
import Workplan.Proofs.Forest
import Workplan.Proofs.Walks
import Workplan.Proofs.FlowOrder
import Workplan.Proofs.OutlineEdits
import Workplan.Proofs.Precedence
import Workplan.Proofs.LoopSearch
import Workplan.Proofs.Admission
import Workplan.Proofs.LinkEdits
import Workplan.Proofs.LinkQueries
import Workplan.Proofs.LinkTable
import Workplan.Proofs.BatchQueues
import Workplan.Proofs.Restoring
import Workplan.Proofs.TaskEdits
import Workplan.Proofs.ProjectRuns
import Workplan.Proofs.StartWindows
import Workplan.Proofs.WorkingDays
import Workplan.Proofs.Demands
import Workplan.Proofs.Pass
import Workplan.Proofs.PassOrder
import Workplan.Proofs.Collisions
import Workplan.Proofs.LeafPlacement
import Workplan.Proofs.ContainerPlacement
import Workplan.Proofs.SteadyWalks
import Workplan.Proofs.Settling
import Workplan.Proofs.SecondPass
import Workplan.Proofs.LeafStarts
import Workplan.Proofs.Delays
import Workplan.Proofs.ContainerSpans
import Workplan.Proofs.PassReports
import Workplan.Proofs.LinkLog
import Workplan.Proofs.ToldChanges
import Workplan.Proofs.Staleness
import Workplan.Proofs.LatestDates
import Workplan.Proofs.LatePlacements
import Workplan.Proofs.Slack
import Workplan.Proofs.ShiftCounts
import Workplan.Proofs.ShiftLaws
import Workplan.Proofs.CorrectedStarts
import Workplan.Proofs.BackwardChecks
import Workplan.Proofs.FittingRounds
import Workplan.Proofs.FittedContainers
import Workplan.Proofs.FittingReports
import Workplan.Proofs.PulledTasks
import Workplan.Proofs.PulledInside
import Workplan.Proofs.ProjectAnswers
import Workplan.Proofs.RefusedMoves
import Workplan.Proofs.MirroredLinks
import Workplan.Proofs.RecordAccounts
import Workplan.Proofs.BatchReplay
import Workplan.Proofs.Numerals
import Workplan.Proofs.TokenGrammar
import Workplan.Proofs.Tokens
import Workplan.Proofs.WritingBack
import Workplan.Proofs.FailedPredecessors
import Workplan.Proofs.DayWalks
import Workplan.Proofs.ForestWalks
import Workplan.Proofs.OutlineRuns
import Workplan.Proofs.LongestWays
import Workplan.Proofs.QuotedTexts
import Workplan.Proofs.WrittenTables
import Workplan.Proofs.WrittenDates
import Workplan.Proofs.SavedSettings
