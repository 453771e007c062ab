import Chronos.Library.CallProgram
import Chronos.Library.CallMachine
import Chronos.Library.Interleaving
import Chronos.Library.Bookkeeping
import Chronos.Library.Histories
import Chronos.Library.RelyGuarantee
import Chronos.Library.KeyedTable
import Chronos.Library.LeastLoaded
import Chronos.Library.ExtendedNumbers
import Chronos.Library.StableSort
import Chronos.Library.Observations
import Chronos.Domain
import Chronos.MemoryStore
import Chronos.PostgresStore
import Chronos.MemoryQueue
import Chronos.SharedState
import Chronos.SharedState.Steps
import Chronos.ApiServer
import Chronos.SchedulerService
import Chronos.Operations
import Chronos.SchedulerCalls
import Chronos.FastResultRace
import Chronos.IdempotentCreate
import Chronos.QueueHandoff
import Chronos.LostMessages
import Chronos.KafkaQueue
import Chronos.LostCancellation
import Chronos.SchedulerRuns
import Chronos.SupersededResults
import Chronos.LifecycleGraph
import Chronos.Redelivery
import Chronos.TerminalFinality
import Chronos.AnalyticsConsumer
import Chronos.Outbox
import Chronos.ConditionalUpdate
import Chronos.OneJobPerKey
import Chronos.OneJobPerKey.Postgres
import Chronos.OneJobPerKey.BothStores
import Chronos.JobWrites
import Chronos.JobWrites.Results
import Chronos.JobWrites.Operations
import Chronos.RecordFields
import Chronos.InformedRuns
import Chronos.CrashSafety
import Chronos.EventAgreement
import Chronos.RetryBudget
import Chronos.RetryBudget.Operations
import Chronos.RetryBudget.Delivery
import Chronos.WorkerProcess
import Chronos.ClientCancels
import Chronos.ResultRecords
import Chronos.ConcurrentResults
import Chronos.ConcurrentResults.Stages
import Chronos.ConcurrentResults.Serial
import Chronos.RecurringTimes
import Chronos.FailedDispatch
import Chronos.QueueDelivery
import Chronos.WorkerRegistry
import Chronos.ServiceSteps
import Chronos.SuspectedWorkers
import Chronos.CancelRegistry
import Chronos.WorkerLoss
import Chronos.InterruptedRecovery
import Chronos.RecurringLineage
import Chronos.Watchdog
import Chronos.RecurrenceKept
import Chronos.SlotAccounting
import Chronos.SlotAccounting.Identities
import Chronos.SlotAccounting.Balance
import Chronos.SlotAccounting.Runs
import Chronos.Backoff
import Chronos.PostgresTables
import Chronos.Timeouts
import Chronos.Promotion
import Chronos.FailedCreate
import Chronos.StuckCancels
import Chronos.ConfirmedCancels
import Chronos.YoungExecutions
import Chronos.WorkerAging
import Chronos.LoadBalance
import Chronos.EventKeys
import Chronos.AnalyticsSchema
import Chronos.AnalyticsAnswers
import Chronos.WebhookOutcomes
import Chronos.CancelDelivery
import Chronos.EventLog
import Chronos.StoreRefinement
import Chronos.StoreRefinement.Reads
import Chronos.StoreRefinement.Updates
import Chronos.StoreRefinement.Inserts
import Chronos.StoreRefinement.Clients
import Chronos.Library.Settling
import Chronos.QueueConsumers
import Chronos.QueueConsumers.Soundness
import Chronos.QueueConsumers.Progress
import Chronos.QueueConsumers.Wakeups
import Chronos.QueueConsumers.Conservation
import Chronos.Library.Ownership
import Chronos.References
import Chronos.AnalyticsIngestion
import Chronos.AnalyticsIngestion.Recording
import Chronos.AnalyticsIngestion.Faithful
import Chronos.AnalyticsIngestion.ExactlyOnce
import Chronos.WorkerSlots
import Chronos.JobLife
import Chronos.BuiltinOutcomes
import Chronos.WorkerSimulation
