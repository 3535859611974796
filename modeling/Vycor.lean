import Vycor.Snapshot.Staged
import Vycor.Snapshot.File
import Vycor.Channels.Runs
import Vycor.Impact.Mirror
import Vycor.Impact.Mapping
import Vycor.Impact.UnifiedDiff
import Vycor.Snapshot.Fingerprint
import Vycor.Query.Suggestions
import Vycor.Query.Typo
import Vycor.Query.Hierarchy
import Vycor.Text.Trim
import Vycor.Morph.Template
import Vycor.Export.Shards
import Vycor.Query.Cache
import Vycor.Query.Paging
import Vycor.Query.Resolving
import Vycor.Impact.Routes
import Vycor.Check.Liveness
import Vycor.Report.Baselined
import Vycor.Export.FunctionReturns
import Vycor.Query.Ordering
import Vycor.Impact.Affected
import Vycor.Check.StaticInitOrder
import Vycor.Check.ExceptionEscape
import Vycor.Check.NameWalk
import Vycor.Lib.FirstRoute
import Vycor.Check.Attempts
import Vycor.PathSearch.Limited
import Vycor.Query.Sections
import Vycor.Query.Messages
import Vycor.Query.Registry
import Vycor.Query.ImpactTools
import Vycor.Query.DeadCodeTools
import Vycor.Impact.Search
import Vycor.Impact.Patch
import Vycor.Query.LockTools
import Vycor.Query.ChannelTools
import Vycor.Check.DeadCode
import Vycor.Query.ExceptionTools
import Vycor.Query.GraphTools
import Vycor.Query.Identity
import Vycor.Query.Context
import Vycor.Channels.Index
import Vycor.Query.Json
import Vycor.Impact.SignatureAnswers
import Vycor.ControlFlow.InOrder
import Vycor.Impact.SignatureTable
import Vycor.Impact.Signatures
import Vycor.ControlFlow.Records
import Vycor.Report.Moved
import Vycor.Report.Findings
import Vycor.Lib.Cut
import Vycor.Report.Paths
import Vycor.WorkerPool.Bisection
import Vycor.ControlFlow.CatchWalk
import Vycor.ControlFlow.Nearest
import Vycor.ControlFlow.Subtyping
import Vycor.ControlFlow.EdgeChoice
import Vycor.Impact.Ordinals
import Vycor.Impact.Diff
import Vycor.Impact.Identity
import Vycor.Lib.Grouped
import Vycor.ControlFlow.Verdicts
import Vycor.PathSearch.OrderFree
import Vycor.Check.PhaseOne
import Vycor.Check.CrashSafety
import Vycor.Check.Journal
import Vycor.Check.Replay
import Vycor.Check.Shard
import Vycor.Check.Payload
import Vycor.Check.Index
import Vycor.Lib.Keyed
import Vycor.Lib.Reader
import Vycor.Snapshot.Freshness
import Vycor.Snapshot.Meta
import Vycor.ControlFlow.Runs
import Vycor.ControlFlow.Answers
import Vycor.ControlFlow.Remove
import Vycor.ControlFlow.Entries
import Vycor.ControlFlow.Tables
import Vycor.Lib.Positions
import Vycor.ControlFlow.Index
import Vycor.ControlFlow.Mapped
import Vycor.ControlFlow.Basic
import Vycor.Lib.Bisect
import Vycor.Lib.Memory
import Vycor.Lib.PrefixCode
import Vycor.CallGraph.Refresh
import Vycor.CallGraph.Answers
import Vycor.WorkerPool.Accounting
import Vycor.WorkerPool.Dispatch
import Vycor.PathSearch.Contract
import Vycor.PathSearch.Complete
import Vycor.PathSearch.Sound
import Vycor.PathSearch.Walks
import Vycor.PathSearch.Basic
import Vycor.Lib.Bfs
import Vycor.CallGraph.Replay
import Vycor.CallGraph.Directions
