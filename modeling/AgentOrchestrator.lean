import AgentOrchestrator.Lib.Dict
import AgentOrchestrator.Lib.Exec
import AgentOrchestrator.Lib.Fallible
import AgentOrchestrator.Lib.Dependency
import AgentOrchestrator.Lib.Text
import AgentOrchestrator.Lib.Program
import AgentOrchestrator.Lib.Pool
import AgentOrchestrator.Lib.Attempt
import AgentOrchestrator.Lib.Absorption
import AgentOrchestrator.Lib.Decay
import AgentOrchestrator.Lib.Sweep
import AgentOrchestrator.Schemas
import AgentOrchestrator.Graph.State
import AgentOrchestrator.Graph.Build
import AgentOrchestrator.Graph.Run
import AgentOrchestrator.Graph.Scheduler
import AgentOrchestrator.Graph.Nodes
import AgentOrchestrator.Graph.Invariant
import AgentOrchestrator.Graph.Escalation
import AgentOrchestrator.Graph.Verdict
import AgentOrchestrator.Graph.Approval
import AgentOrchestrator.Graph.Progress
import AgentOrchestrator.Graph.Guidance
import AgentOrchestrator.Graph.Freshness
import AgentOrchestrator.Graph.Automatic
import AgentOrchestrator.Graph.Replanning
import AgentOrchestrator.Graph.Redo
import AgentOrchestrator.Graph.AsPlanned
import AgentOrchestrator.Graph.Lookups
import AgentOrchestrator.Graph.Outcome
import AgentOrchestrator.Agents.Supervisor
import AgentOrchestrator.Agents.Session
import AgentOrchestrator.Memory.Working
import AgentOrchestrator.Memory.Collection
import AgentOrchestrator.Memory.LongTerm
import AgentOrchestrator.Memory.Consolidation
import AgentOrchestrator.Memory.Lifetime
import AgentOrchestrator.Memory.Outlasting
import AgentOrchestrator.Memory.Completeness
import AgentOrchestrator.Memory.Retry
import AgentOrchestrator.Memory.Schedule
import AgentOrchestrator.Memory.Index
import AgentOrchestrator.Memory.Concurrent
import AgentOrchestrator.Memory.Forgetting
import AgentOrchestrator.Memory.Api
import AgentOrchestrator.HumanLoop.ApprovalQueue
import AgentOrchestrator.HumanLoop.System
import AgentOrchestrator.HumanLoop.Pairing
import AgentOrchestrator.HumanLoop.LostUpdate
import AgentOrchestrator.HumanLoop.Histories
import AgentOrchestrator.HumanLoop.Finality
import AgentOrchestrator.Lib.Body
import AgentOrchestrator.Lib.Tandem
import AgentOrchestrator.Lib.Window
import AgentOrchestrator.Lib.Dialogue
import AgentOrchestrator.Lib.Approximation
import AgentOrchestrator.Lib.FileTree
import AgentOrchestrator.Lib.FileAccess
import AgentOrchestrator.Lib.FileView
import AgentOrchestrator.Lib.IpAddress
import AgentOrchestrator.Lib.Url
import AgentOrchestrator.Tools.Registry
import AgentOrchestrator.Tools.Gating
import AgentOrchestrator.Tools.ApiCall
import AgentOrchestrator.Tools.Sandbox
import AgentOrchestrator.Tools.Builtin
import AgentOrchestrator.Tools.Confinement
import AgentOrchestrator.Agents.Specialist
import AgentOrchestrator.Graph.Worker
import AgentOrchestrator.Agents.Usage
import AgentOrchestrator.Agents.Script
import AgentOrchestrator.Graph.Trace
import AgentOrchestrator.Graph.Projection
import AgentOrchestrator.Tracing.Recorder
import AgentOrchestrator.Tracing.Persistence
import AgentOrchestrator.Tracing.Accounting
import AgentOrchestrator.Tracing.ReviewTime
import AgentOrchestrator.Graph.Paths
import AgentOrchestrator.Agents.Ownership
import AgentOrchestrator.Tracing.Branches
import AgentOrchestrator.Agents.Conduct
import AgentOrchestrator.Agents.Conversation
import AgentOrchestrator.Agents.ToolUse
import AgentOrchestrator.Agents.Confinement
import AgentOrchestrator.Lib.Patch
import AgentOrchestrator.Graph.Merging
import AgentOrchestrator.Lib.Inevitable
import AgentOrchestrator.Graph.Supersteps
import AgentOrchestrator.Graph.Stopping
import AgentOrchestrator.Graph.Unattended
import AgentOrchestrator.Lib.Grouping
import AgentOrchestrator.Lib.Json
import AgentOrchestrator.Lib.Encoding
import AgentOrchestrator.Lib.Crew
import AgentOrchestrator.Memory.Learning
import AgentOrchestrator.Tracing.Fleet
import AgentOrchestrator.Tracing.RunTask
import AgentOrchestrator.Tracing.Dashboard
import AgentOrchestrator.Memory.Stored
