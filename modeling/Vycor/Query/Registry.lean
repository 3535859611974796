import Vycor.Query.ChannelTools
import Vycor.Query.DeadCodeTools
import Vycor.Query.ImpactTools
import Vycor.Query.LockTools

/-!
# The registered tools

Every tool has a name, a handler and the sections of the index it reads beyond the graph,
`kExtraNeeds`. What the handlers take from the outside, the order of ties in a sort, the order
of a hash map and the classification of guards, is one record, `ToolEnv`.
-/

namespace Vycor

/-- What the handlers are given besides the arguments and the indexes. -/
structure ToolEnv where
  ll : Llvm
  classifyGuard : ConditionalGuard → Option (Bytes × Bytes)
  callerSort : Sorter callerBefore
  catchSort : Sorter catchBefore
  candidateSort : Sorter candidateBefore
  siteSort : Sorter channelSiteBefore
  deadSort : Sorter DeadCodeEntry.before
  unmappedSort : Sorter unmappedBefore
  lockOrder : List LockKey → List LockKey

/-- `ToolHandler`. -/
abbrev ToolHandler := JsonObject → ToolContext → Option Json

/-- `ToolEntry`. -/
structure ToolEntry where
  name : Bytes
  handler : ToolHandler
  needs : Sections

/-- `runTool`. -/
def runTool (tool : ToolEntry) (args : JsonObject) (ctx : ToolContext) : Option Json :=
  (tool.handler args ctx).map fun payload => completeResult payload ctx

/-- `kExtraNeeds`. -/
def kExtraNeeds : List (Bytes × Sections) :=
  [(text "query_exception_safety", { controlFlow := true }),
    (text "query_call_site_context", { controlFlow := true }),
    (text "query_raii_scopes_at_callsite", { controlFlow := true }),
    (text "query_throw_propagation", { controlFlow := true }),
    (text "query_all_path_contexts", { controlFlow := true }),
    (text "query_nearest_catches", { controlFlow := true }),
    (text "query_locks_held", { controlFlow := true }),
    (text "query_same_lock", { controlFlow := true }),
    (text "list_channels", { channels := true }),
    (text "query_channel", { channels := true }),
    (text "query_channels_for_function", { channels := true }),
    (text "explain_ordering", { channels := true })]

/-- `ToolEntry::needs`, beyond the graph. -/
def toolNeeds (name : Bytes) : Sections :=
  ((kExtraNeeds.find? (·.1 = name)).map (·.2)).getD {}

/-- A tool with its needs. -/
def toolEntry (name : Bytes) (handler : ToolHandler) : ToolEntry := ⟨name, handler, toolNeeds name⟩

namespace ToolEnv

variable (env : ToolEnv)

/-- `registerGraphTools`. -/
def registerGraphTools : List ToolEntry :=
  [toolEntry (text "lookup_function") (handleLookupFunction env.ll),
    toolEntry (text "get_callees") (handleGetCallees env.ll),
    toolEntry (text "get_callers") (handleGetCallers env.ll),
    toolEntry (text "find_call_chain") (handleFindCallChain env.ll),
    toolEntry (text "search_functions") (handleSearchFunctions env.ll),
    toolEntry (text "get_class_hierarchy") (handleGetClassHierarchy env.ll),
    toolEntry (text "list_entry_points") (handleListEntryPoints env.ll),
    toolEntry (text "graph_summary") (handleGraphSummary env.ll),
    toolEntry (text "list_callback_sites") (handleListCallbackSites env.ll),
    toolEntry (text "list_concurrency_entry_points") (handleListConcurrencyEntryPoints env.ll)]

/-- `registerExceptionTools`. -/
def registerExceptionTools : List ToolEntry :=
  [toolEntry (text "query_exception_safety") (handleQueryExceptionSafety env.ll),
    toolEntry (text "query_call_site_context")
      (handleQueryCallSiteContext env.ll env.candidateSort env.classifyGuard),
    toolEntry (text "query_raii_scopes_at_callsite")
      (handleQueryRaiiScopesAtCallsite env.ll env.candidateSort),
    toolEntry (text "query_throw_propagation")
      (handleQueryThrowPropagation env.ll env.classifyGuard),
    toolEntry (text "query_all_path_contexts")
      (handleQueryAllPathContexts env.ll env.classifyGuard),
    toolEntry (text "query_nearest_catches")
      (handleQueryNearestCatches env.ll env.callerSort env.catchSort)]

/-- `registerLockTools`. -/
def registerLockTools : List ToolEntry :=
  [toolEntry (text "query_locks_held") (handleQueryLocksHeld env.ll),
    toolEntry (text "query_same_lock") (handleQuerySameLock env.ll env.lockOrder)]

/-- `registerDeadCodeTools`. -/
def registerDeadCodeTools : List ToolEntry :=
  [toolEntry (text "analyze_dead_code") (handleAnalyzeDeadCode env.ll env.deadSort)]

/-- `registerChannelTools`. -/
def registerChannelTools : List ToolEntry :=
  [toolEntry (text "list_channels") (handleListChannels env.ll),
    toolEntry (text "query_channel") (handleQueryChannel env.ll env.siteSort env.classifyGuard),
    toolEntry (text "query_channels_for_function")
      (handleQueryChannelsForFunction env.ll env.siteSort env.classifyGuard),
    toolEntry (text "explain_ordering") (handleExplainOrdering env.ll env.classifyGuard)]

/-- `registerImpactTools`. -/
def registerImpactTools : List ToolEntry :=
  [toolEntry (text "impact_of_change") (handleImpactOfChange env.ll env.unmappedSort)]

/-- `getRegisteredTools`. -/
def getRegisteredTools : List ToolEntry :=
  env.registerGraphTools ++ env.registerExceptionTools ++ env.registerLockTools ++
    env.registerDeadCodeTools ++ env.registerChannelTools ++ env.registerImpactTools

end ToolEnv

end Vycor
