import Vycor.Lib.StdSort
import Vycor.Query.GraphTools

/-!
# The channel tools

Producers and consumers of a channel, the sites of one function, and the evidence for an
ordering between two sites: whether they are of one channel, and the concurrency boundaries
that a walk up the callers of each meets. An index that was baked without channel types holds
no channel site, and the tools say so.
-/

namespace Vycor

variable (ll : Llvm)

/-- The order of `sortChannelSites`. -/
def channelSiteBefore (a b : ChannelSite) : Bool :=
  if a.callSite ≠ b.callSite then a.callSite < b.callSite
  else if a.channelId ≠ b.channelId then a.channelId < b.channelId
  else a.siteFunctionUsr < b.siteFunctionUsr

/-- `channelsUnavailable`, or go on with the channels. -/
def withChannels (ctx : ToolContext) (rest : ChannelIndex → Option Json) : Option Json :=
  match if ctx.facts.channelsIndexed then ctx.channels else none with
  | some channels => rest channels
  | none => some (unavailableError ll (text "No channel facts indexed: the bake registered no " ++
      text "channel types (--channel-types-json or an --org-config with channel types)"))

/-- A channel of `handleListChannels`; the type is that of its first site. -/
def channelToJson (channels : ChannelIndex) (id : Bytes) : Json :=
  let producers := channels.producersOf ll id
  let consumers := channels.consumersOf ll id
  .object ([(text "channelId", .string id)] ++
    (match (producers ++ consumers).head? with
      | some sample => [(text "channelType", .string sample.channelTypeName),
          (text "category", .string sample.category)]
      | none => []) ++
    [(text "producerCount", .count producers.length),
      (text "consumerCount", .count consumers.length)])

/-- `handleListChannels`. -/
def handleListChannels (args : JsonObject) (ctx : ToolContext) : Option Json :=
  withChannels ll ctx fun channels =>
  orUsage ll (parsePage args kDefaultListLimit) fun page =>
  let ids := channels.allChannelIds.insertionSort (· ≤ ·)
  some (.object ([(text "count", .count ids.length)] ++ page.members ids.length ++
    [(text "channels", .array ((page.window ids).map (channelToJson ll channels)))]))

section Sites

variable (siteSort : Sorter channelSiteBefore)
  (classifyGuard : ConditionalGuard → Option (Bytes × Bytes))

/-- `handleQueryChannel`. -/
def handleQueryChannel (args : JsonObject) (ctx : ToolContext) : Option Json :=
  match args.getString (text "channel_id") with
  | none => some (usageError ll (text "Requires 'channel_id' (from list_channels)"))
  | some channelId =>
    withChannels ll ctx fun channels =>
    orUsage ll (parsePage args kDefaultListLimit) fun page =>
    let producers := siteSort.run (channels.producersOf ll channelId)
    let consumers := siteSort.run (channels.consumersOf ll channelId)
    if producers = [] ∧ consumers = [] then
      some (notFoundError ll (text "No channel found with id '" ++ channelId ++ text "'"))
    else
      let sites (l : List ChannelSite) : Json :=
        .array ((page.window l).map (serializeChannelSite classifyGuard))
      some (.object ([(text "channelId", .string channelId),
        (text "producerTotal", .count producers.length),
        (text "consumerTotal", .count consumers.length)] ++
        page.windowMembers (page.truncated producers.length || page.truncated consumers.length) ++
        [(text "producers", sites producers), (text "consumers", sites consumers)]))

/-- `handleQueryChannelsForFunction`. -/
def handleQueryChannelsForFunction (args : JsonObject) (ctx : ToolContext) : Option Json :=
  match identityName args (text "function") with
  | none => some (usageError ll
      (text "Requires 'function' (qualified name or usr; alias 'name')"))
  | some function =>
    withChannels ll ctx fun channels =>
    orUsage ll (parsePage args kDefaultListLimit) fun page =>
    let sites := siteSort.run (channels.sitesForFunction ll function)
    if sites = [] ∧ isKnownIdentity ll ctx.graph function = false then
      some (unknownFunctionResult ll ctx.graph (text "function") function)
    else
      some (.object ([(text "function", .string function), (text "count", .count sites.length)] ++
        page.members sites.length ++
        [(text "sites", .array ((page.window sites).map (serializeChannelSite classifyGuard)))]))

end Sites

/-! ### Ordering -/

/-- `ConcurrencyBoundary`. -/
structure ConcurrencyBoundary where
  spawner : Bytes
  target : Bytes
  executionContext : Bytes
  callSite : Bytes
  deriving DecidableEq, Repr

/-- `kMaxBoundaryWalkNodes`. -/
def kMaxBoundaryWalkNodes : ℕ := 2000

/-- What the walk changes. All that was visited stands on the queue, behind or ahead of the
walk. -/
structure BoundaryWalk where
  queue : List Bytes
  found : List ConcurrencyBoundary := []

/-- The walk at a caller edge: a boundary is recorded and not passed. -/
def BoundaryWalk.follow (st : BoundaryWalk) (e : CallGraphEdge) : BoundaryWalk :=
  if e.execContext ≠ .synchronous then
    { st with found := st.found ++
        [⟨e.callerName, e.calleeName, executionContextToString e.execContext, e.callSite⟩] }
  else if e.callerName ∈ st.queue then st
  else { st with queue := st.queue ++ [e.callerName] }

/-- The loop of `findConcurrencyBoundaries`, at a position of the queue. -/
def boundaryLoop (g : CallGraph) : ℕ → ℕ → BoundaryWalk → BoundaryWalk
  | 0, _, st => st
  | fuel + 1, qi, st =>
    if kMaxBoundaryWalkNodes ≤ st.queue.length then st
    else
      match st.queue[qi]? with
      | none => st
      | some cur =>
        boundaryLoop g fuel (qi + 1) ((g.callersOf ll cur).foldl BoundaryWalk.follow st)

/-- `findConcurrencyBoundaries`. The queue is shorter than the bound in every round, so the
walk has at most as many rounds. -/
def findConcurrencyBoundaries (g : CallGraph) (functionUsrOrName : Bytes) :
    List ConcurrencyBoundary :=
  (boundaryLoop ll g kMaxBoundaryWalkNodes 0 { queue := [functionUsrOrName] }).found

/-- `findChannelSiteAt`. -/
def findChannelSiteAt (channels : ChannelIndex) (callSite : Bytes) : Option ChannelSite :=
  channels.allSites.find? (·.callSite = callSite)

/-- `serializeBoundaries`. -/
def serializeBoundaries (boundaries : List ConcurrencyBoundary) : Json :=
  .array (boundaries.map fun b => .object
    [(text "spawner", .string b.spawner), (text "target", .string b.target),
      (text "executionContext", .string b.executionContext),
      (text "callSite", .string b.callSite)])

/-- The note of `handleExplainOrdering`. -/
def orderingNote : Bytes :=
  text "sameChannel=false, together with differing guard conditions on siteA/siteB, proves the " ++
  text "two sends are not guaranteed to be routed the same way. concurrencyBoundaries* lists " ++
  text "ThreadEntry/AsyncTask/PackagedTask/Invoke edges found walking backward from each " ++
  text "site's enclosing function toward entry points (within " ++
  decimal kMaxBoundaryWalkNodes ++ text " nodes). An EMPTY list is absence of evidence in the " ++
  text "visible call graph, not proof of synchronous execution: it means no enforced ordering " ++
  text "was found structurally, not that a race is proven."

/-- `handleExplainOrdering`. -/
def handleExplainOrdering (classifyGuard : ConditionalGuard → Option (Bytes × Bytes))
    (args : JsonObject) (ctx : ToolContext) : Option Json :=
  match args.getString (text "call_site_a"), args.getString (text "call_site_b") with
  | some argA, some argB =>
    withChannels ll ctx fun channels =>
    match findChannelSiteAt channels argA, findChannelSiteAt channels argB with
    | none, _ => some (notFoundError ll (text "No channel site indexed at '" ++ argA ++ text "'"))
    | _, none => some (notFoundError ll (text "No channel site indexed at '" ++ argB ++ text "'"))
    | some siteA, some siteB => some (.object
        [(text "sameChannel", .boolean (decide (siteA.channelId = siteB.channelId))),
          (text "siteA", serializeChannelSite classifyGuard siteA),
          (text "siteB", serializeChannelSite classifyGuard siteB),
          (text "concurrencyBoundariesA", serializeBoundaries
            (findConcurrencyBoundaries ll ctx.graph siteA.siteFunctionUsr)),
          (text "concurrencyBoundariesB", serializeBoundaries
            (findConcurrencyBoundaries ll ctx.graph siteB.siteFunctionUsr)),
          (text "note", .string orderingNote)])
  | _, _ => some (usageError ll (text "Requires 'call_site_a' and 'call_site_b' (file:line:col, " ++
      text "from query_channel or query_channels_for_function)"))

end Vycor
