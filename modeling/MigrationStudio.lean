import MigrationStudio.Runtime.Coalescing
import MigrationStudio.Runtime.StoppedWriter
import MigrationStudio.Runtime.TargetCommands
import MigrationStudio.Runtime.InvitePermission
import MigrationStudio.Runtime.PlannedAction
import MigrationStudio.Runtime.ServerGate
import MigrationStudio.Runtime.AccountStatus
import MigrationStudio.Runtime.Spacing
import MigrationStudio.Runtime.Restrictions
import MigrationStudio.Runtime.ResultsKept
import MigrationStudio.Runtime.Completion
import MigrationStudio.Runtime.StopRequests
import MigrationStudio.Runtime.HaltRequests
import MigrationStudio.Runtime.RunReturns
import MigrationStudio.Accounts.StateColumns
import MigrationStudio.Storage.AttachedHash
import MigrationStudio.Storage.Provenance
import MigrationStudio.ImportExport.RoundTrip
import MigrationStudio.Telegram.ParticipantScanner
import MigrationStudio.Telegram.IdleClients
import MigrationStudio.Migration.PlanWrites
import MigrationStudio.Migration.Precheck
import MigrationStudio.Members.People
import MigrationStudio.Runtime.OneExecution
import MigrationStudio.Migration.PlanContents
import MigrationStudio.Storage.SetOperations
import MigrationStudio.Migration.SourceFilter
import MigrationStudio.Members.Replay
import MigrationStudio.Storage.Replays
import MigrationStudio.Foundations.Renaming
import MigrationStudio.Members.Orders
import MigrationStudio.Storage.IngestOrders
import MigrationStudio.Foundations.KeysetPages
import MigrationStudio.Migration.CandidateWindow
import MigrationStudio.Runtime.Cadence
import MigrationStudio.Runtime.PerformanceMode
import MigrationStudio.Migration.AttemptTallies
import MigrationStudio.Runtime.AttemptCounts
import MigrationStudio.Foundations.FirstRows
import MigrationStudio.Jobs.JobRows
import MigrationStudio.Migration.PlanHistory
import MigrationStudio.Migration.Recovery
import MigrationStudio.Migration.RecoverySteps
import MigrationStudio.Runtime.RecoveryLadder
import MigrationStudio.Storage.CompatibilityMigrations
import MigrationStudio.ImportExport.ExportWindow
import MigrationStudio.ImportExport.FailedCalls
import MigrationStudio.Telegram.ScanBatches
import MigrationStudio.Telegram.FailingSource
import MigrationStudio.Telegram.ScanCounters
import MigrationStudio.Accounts.Sessions
import MigrationStudio.Config.Settings
import MigrationStudio.Foundations.Calendar
import MigrationStudio.Migration.FilterEngine
import MigrationStudio.Migration.IsoFormat
import MigrationStudio.Runtime.AccountWait
import MigrationStudio.Runtime.EventAggregator
import MigrationStudio.ImportExport.CsvFiles
import MigrationStudio.Runtime.GovernorLocks
import MigrationStudio.Runtime.ApplicationStop
import MigrationStudio.Storage.Restarts
import MigrationStudio.Runtime.EventBus
import MigrationStudio.Telegram.AuthService
import MigrationStudio.Telegram.StoredCheckpoints
import MigrationStudio.Accounts.References
import MigrationStudio.Foundations.Patterns
import MigrationStudio.Telegram.InviteLinks
import MigrationStudio.Runtime.MigrationPage
import MigrationStudio.Runtime.PrecheckJobs
