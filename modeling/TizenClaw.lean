import TizenClaw.TransitionSystem
import TizenClaw.JsonParseUtf8
import TizenClaw.JsonRoundTrip
import TizenClaw.LlmTypes
import TizenClaw.ToolRouting
import TizenClaw.ToolPolicy
import TizenClaw.UserProfileStore
import TizenClaw.SafetyChecks
import TizenClaw.ToolDispatch
import TizenClaw.SessionMarkdown
import TizenClaw.ToolExchange
import TizenClaw.AgentMachine
import TizenClaw.GateDomination
import TizenClaw.RoleConfinement
import TizenClaw.RoleDelegation
import TizenClaw.ExchangeCompleteness
import TizenClaw.StoredResults
import TizenClaw.McpClient
import TizenClaw.McpServer
import TizenClaw.OfflineFallback
import TizenClaw.Mediation
import TizenClaw.MemoryStore
import TizenClaw.HistorySanitizer
import TizenClaw.SessionFileTotality
import TizenClaw.CompactionMarker
import TizenClaw.UsageCharging
import TizenClaw.AutonomousTrigger
import TizenClaw.LoopDetection
import TizenClaw.CliSessions
import TizenClaw.MessageConversion
import TizenClaw.BlockScalar
import TizenClaw.HistoryCompaction
import TizenClaw.ExchangeIntegrity
import TizenClaw.SessionHistory
import TizenClaw.SessionRoundTrip
import TizenClaw.OrderedMap
import TizenClaw.IpcServerLoop
import TizenClaw.CapabilityRegistry
import TizenClaw.OverlapRouting
import TizenClaw.BackendSelection
import TizenClaw.LineBuffer
import TizenClaw.TryBlock
import TizenClaw.JsonTokens
import TizenClaw.StreamDecoders
import TizenClaw.AnthropicResponse
import TizenClaw.AnthropicAgreement
import TizenClaw.StreamRetry
import TizenClaw.RetryIsolation
import TizenClaw.RunIsolation
import TizenClaw.FailureReporting
import TizenClaw.BridgeConfinement
import TizenClaw.TaskSchedule
import TizenClaw.TaskScheduler
import TizenClaw.TaskCancellation
import TizenClaw.TaskFiring
import TizenClaw.SchedulerDeadline
import TizenClaw.OneShotTask
import TizenClaw.Iteration
import TizenClaw.PipelineExecutor
import TizenClaw.PipelineTermination
import TizenClaw.FailedPrompt
import TizenClaw.SessionFiles
import TizenClaw.SessionIsolation
import TizenClaw.WaitQueue
import TizenClaw.EventBus
import TizenClaw.EventDispatch
import TizenClaw.SchedulerThreads
import TizenClaw.StopSignal
import TizenClaw.NestedCalls
import TizenClaw.PromptNesting
import TizenClaw.PromptTermination
import TizenClaw.TaskRoundTrip
import TizenClaw.IpcTotality
import TizenClaw.ClientStream
import TizenClaw.UsageAccounting
import TizenClaw.UsageRaces
import TizenClaw.JsonStorable
import TizenClaw.SkillManifest
import TizenClaw.SkillDisabling
import TizenClaw.SkillRoundTrip
import TizenClaw.SupervisorEngine
import TizenClaw.SessionCreation
import TizenClaw.A2aHandler
import TizenClaw.A2aLifecycle
import TizenClaw.JsonRpc
import TizenClaw.McpStdio
import TizenClaw.OtaUpdater
import TizenClaw.OtaBackups
import TizenClaw.A2aTotality
import TizenClaw.ToolProtocol
import TizenClaw.ToolExecutor
import TizenClaw.ToolTotality
import TizenClaw.JsonFailure
import TizenClaw.SwarmManager
import TizenClaw.SwarmBroadcast
import TizenClaw.ActionBridge
import TizenClaw.AuditLogger
import TizenClaw.AgentFactory
import TizenClaw.RolePersistence
import TizenClaw.SpawnRaces
import TizenClaw.McpIdleMonitor
import TizenClaw.PipelinePersistence
import TizenClaw.ToolRuns
import TizenClaw.ActionCache
import TizenClaw.ChunkText
import TizenClaw.HybridSearch
import TizenClaw.IntervalSchedule
import TizenClaw.NextOccurrence
import TizenClaw.Interpolation
import TizenClaw.ConditionOperands
import TizenClaw.RunResults
import TizenClaw.VersionOrder
import TizenClaw.RateWindow
import TizenClaw.LoopGuards
import TizenClaw.SafetyConfig
import TizenClaw.BoundsClamping
import TizenClaw.BoundsEnforcement
import TizenClaw.TriggerConditions
import TizenClaw.TriggerThrottling
import TizenClaw.WordPiece
import TizenClaw.TokenizedInput
import TizenClaw.KeyProtection
import TizenClaw.SessionTrimming
import TizenClaw.McpToolNames
import TizenClaw.MemoryBounds
import TizenClaw.CommandRecords
import TizenClaw.ShellReader
import TizenClaw.ShellQuoting
import TizenClaw.SystemCli
import TizenClaw.WebFilesConfinement
import TizenClaw.WebAppStore
import TizenClaw.DashboardRuns
import TizenClaw.TelegramRuns
import TizenClaw.WebhookChannel
import TizenClaw.FileLogBackend
import TizenClaw.AuditRotation
import TizenClaw.GeneratedApps
import TizenClaw.WebApiLookup
import TizenClaw.ProfilePersistence
