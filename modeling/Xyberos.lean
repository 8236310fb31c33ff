import Xyberos.Base.Table
import Xyberos.Base.Txn
import Xyberos.Base.Run
import Xyberos.Base.Traces
import Xyberos.Base.Layers
import Xyberos.Base.Directories
import Xyberos.Python
import Xyberos.Json.Text
import Xyberos.Json.Values
import Xyberos.Json.Loads
import Xyberos.Durable.Payloads
import Xyberos.Execution.Models
import Xyberos.Execution.Validation
import Xyberos.Base.Dag
import Xyberos.Execution.Graph
import Xyberos.Durable.Models
import Xyberos.Durable.Journal
import Xyberos.Durable.Store
import Xyberos.Durable.Record
import Xyberos.Durable.StoreSpec
import Xyberos.Durable.Refine
import Xyberos.Durable.Runs
import Xyberos.Durable.Fencing
import Xyberos.Durable.Cancellation
import Xyberos.Durable.Leases
import Xyberos.Durable.History
import Xyberos.Durable.Stale
import Xyberos.Durable.Terminal
import Xyberos.Durable.Transitions
import Xyberos.Durable.System
import Xyberos.Durable.Attempts
import Xyberos.Durable.Repeat
import Xyberos.Durable.Plans
import Xyberos.Durable.Submission
import Xyberos.Durable.Retries
import Xyberos.Durable.Alone
import Xyberos.Durable.Heartbeat
import Xyberos.Durable.Completion
import Xyberos.Durable.Inputs
import Xyberos.Durable.Takeover
import Xyberos.Durable.Deadlines
import Xyberos.Durable.Sweep
import Xyberos.Durable.Replay
import Xyberos.Durable.Numbering
import Xyberos.Durable.Submitting
import Xyberos.Durable.Resubmission
import Xyberos.Runtime.Dependencies
import Xyberos.Runtime.ProviderGraph
import Xyberos.Runtime.Config
import Xyberos.Runtime.Environment
import Xyberos.Http.Sessions
import Xyberos.Storage.Contracts
import Xyberos.Storage.Filesystem
import Xyberos.Storage.Double
import Xyberos.Http.Csrf
import Xyberos.Http.Cookies
import Xyberos.Execution.Executor
import Xyberos.Execution.Course
import Xyberos.Execution.Queue
import Xyberos.Execution.Meaning
import Xyberos.Execution.Events
import Xyberos.Execution.Verdicts
import Xyberos.Execution.Policies
import Xyberos.Execution.Cycles
import Xyberos.Execution.Attempts
import Xyberos.Execution.Stops
import Xyberos.Execution.Order
import Xyberos.Durable.Engines
import Xyberos.Runtime.App
import Xyberos.Runtime.Scene
import Xyberos.Runtime.Resolving
import Xyberos.Runtime.Lifecycle
import Xyberos.Ai.Logging
import Xyberos.Storage.Faults
import Xyberos.Mcp.Client
import Xyberos.Ai.Schema
import Xyberos.Ai.Validity
import Xyberos.Ai.Service
import Xyberos.Ai.Adapter
import Xyberos.Ai.Facade
import Xyberos.Http.Expiring
import Xyberos.Http.Metrics
import Xyberos.Json.Spacing
import Xyberos.Mcp.Framing
import Xyberos.Mcp.Tools
import Xyberos.Storage.Paths
import Xyberos.Base.Decimal
import Xyberos.Base.Forest
import Xyberos.Durable.Calendar
import Xyberos.Durable.Timestamps
import Xyberos.Execution.Tokens
import Xyberos.Ai.Ollama
import Xyberos.Ai.ToolLoop
import Xyberos.Base.Once
import Xyberos.Runtime.Instances
import Xyberos.Http.Middleware
import Xyberos.Http.Routing
import Xyberos.Runtime.Composing
import Xyberos.Durable.Executions
import Xyberos.Base.Interleaving
import Xyberos.Mcp.Session
import Xyberos.Mcp.Alone
import Xyberos.Ai.Provided
import Xyberos.Http.Isolation
import Xyberos.Database.Retrying
import Xyberos.Durable.Writing
