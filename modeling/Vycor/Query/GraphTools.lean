import Vycor.Query.Identity

/-!
# The graph tools

Handlers read the graph; those about one function resolve it first. A handler answers early
with the message of an argument error or with what the resolution answered: `orUsage` and
`withIdentity` take the rest of the handler as an argument.
-/

namespace Vycor

variable (ll : Llvm)

/-- Go on with an argument, or answer with the usage error. -/
def orUsage {α : Type} (arg : Except Bytes α) (rest : α → Option Json) : Option Json :=
  match arg with
  | .error message => some (usageError ll message)
  | .ok a => rest a

/-- Go on with the identity, or answer what the resolution answered; `absent` is the answer
where no identity was given. -/
def withResolution (resolution : Option Resolution) (absent : Option Json)
    (rest : Bytes → Option Json) : Option Json :=
  match resolution with
  | none => none
  | some (.found ident) => rest ident
  | some (.answered payload) => some payload
  | some .absent => absent

/-- Go on with an identity that is required. -/
def withIdentity (resolution : Option Resolution) (missing : Bytes)
    (rest : Bytes → Option Json) : Option Json :=
  withResolution resolution (some (usageError ll missing)) rest

/-- The class a node belongs to, where it has one. -/
def classMember (n : CallGraphNode) : JsonObject :=
  if n.enclosingClass = [] then [] else [(text "enclosingClass", .string n.enclosingClass)]

/-- `handleLookupFunction`. -/
def handleLookupFunction (args : JsonObject) (ctx : ToolContext) : Option Json :=
  withIdentity ll (resolveIdentity ll args ctx (text "name") (text "usr"))
    (text "Missing required parameter 'name' (or 'usr')") fun ident =>
  match ctx.graph.findNode ll ident with
  | none => some (notFoundError ll (text "Function not found: " ++ ident))
  | some n => some (.object ([(text "qualifiedName", .string n.qualifiedName),
      (text "usr", .string n.usr), (text "file", .string n.file), (text "line", .count n.line),
      (text "isEntryPoint", .boolean n.isEntryPoint), (text "isVirtual", .boolean n.isVirtual)] ++
      classMember n))

/-- `handleSearchFunctions`. -/
def handleSearchFunctions (args : JsonObject) (ctx : ToolContext) : Option Json :=
  match args.getString (text "query") with
  | none => some (usageError ll (text "Missing required parameter 'query'"))
  | some query =>
    if query = [] then some (usageError ll (text "Missing required parameter 'query'"))
    else
      orUsage ll (parsePage args kDefaultSearchLimit) fun page =>
      let hits := rankFunctionMatches ctx.graph query
      some (.object ([(text "query", .string query), (text "totalMatches", .count hits.length)] ++
        page.members hits.length ++
        [(text "matches", .array ((page.window hits).map fun n => .object
          ([(text "qualifiedName", .string n.qualifiedName), (text "usr", .string n.usr),
            (text "file", .string n.file), (text "line", .count n.line)] ++ classMember n ++
            (if n.isVirtual then [(text "isVirtual", .boolean true)] else []))))]))

/-- The first edge of every function at the other end, with the number of its edges; the
edges of a function stand together. -/
def distinctEnds (otherEnd : CallGraphEdge → Bytes) (kept : List CallGraphEdge) :
    List (CallGraphEdge × ℕ) :=
  kept.foldl (fun firsts e =>
    match firsts.getLast? with
    | some (f, n) =>
      if otherEnd f = otherEnd e then firsts.dropLast ++ [(f, n + 1)] else firsts ++ [(e, 1)]
    | none => [(e, 1)]) []

/-- `handleEdgeList`. -/
def handleEdgeList (callees : Bool) (args : JsonObject) (ctx : ToolContext) : Option Json :=
  withIdentity ll (resolveIdentity ll args ctx (text "name") (text "usr"))
    (text "Missing required parameter 'name' (or 'usr')") fun ident =>
  orUsage ll (parseEdgeFilter args) fun filter =>
  orUsage ll (parsePage args kDefaultEdgeListLimit) fun page =>
  let distinct := (args.getBoolean (text "distinct")).getD false
  let edges := sortEdgesCanonically
    (if callees then ctx.graph.calleesOf ll ident else ctx.graph.callersOf ll ident)
  let kept := edges.filter filter.allows
  let records : List JsonObject :=
    if distinct then
      (distinctEnds (fun e => if callees then e.calleeUsr else e.callerUsr) kept).map fun r =>
        edgeToJson r.1 ++ [(text "siteCount", .count r.2)]
    else kept.map edgeToJson
  some (.object ([(text "function", .string ((identityName args (text "name")).getD ident))] ++
    usrMember ll ctx.graph ident ++
    (if distinct then [(text "distinct", .boolean true)] else []) ++
    [(if callees then text "calleeCount" else text "callerCount", .count records.length)] ++
    page.members records.length ++
    [(if callees then text "callees" else text "callers",
      .array ((page.window records).map .object))]))

/-- `handleGetCallees`. -/
def handleGetCallees : JsonObject → ToolContext → Option Json := handleEdgeList ll true

/-- `handleGetCallers`. -/
def handleGetCallers : JsonObject → ToolContext → Option Json := handleEdgeList ll false

/-! ### Call chains -/

/-- What `handleFindCallChain` reads between the two identities. -/
structure ChainArgs where
  limits : SearchLimits
  filter : EdgeFilter

/-- The limits and the filter of `handleFindCallChain`. -/
def parseChainArgs (args : JsonObject) : Except Bytes ChainArgs := do
  let maxPaths ← readLimit args (text "max_paths") 1 kMaxSearchPaths .reject 10
  let maxDepth ← readLimit args (text "max_depth") 1 kMaxSearchDepth .reject 20
  let maxFanIn ← readLimit args (text "max_fan_in") 0 kMaxFanInLimit .clamp 1000
  let filter ← parseEdgeFilter args
  return { limits := { maxPaths, maxDepth, maxFanIn }, filter }

/-- A hop of a chain, by usrs. -/
def chainHopToJson (hop : PathHop) : Json :=
  .object ([(text "from", .string hop.callerUsr), (text "to", .string hop.calleeUsr),
    (text "fromName", .string hop.caller), (text "toName", .string hop.callee),
    (text "kind", .string (edgeKindToString hop.kind)),
    (text "confidence", .string (confidenceToString hop.confidence)),
    (text "callSite", .string hop.callSite)] ++ executionContextMember hop.execContext)

/-- The payload of `handleFindCallChain`. -/
def chainPayload (args : JsonObject) (ctx : ToolContext) (target : Bytes) (starts : List Bytes)
    (chain : ChainArgs) : Json :=
  let search := ctx.graph.findCallerPaths ll target starts chain.limits .simpleNodes
    (some chain.filter.allowsRef)
  .object ([(text "target", .string ((args.getString (text "to")).getD target))] ++
    usrMember ll ctx.graph target (text "targetUsr") ++
    [(text "pathCount", .count search.paths.length),
      (text "paths", .array (search.paths.map fun p => .array (p.hops.map chainHopToJson)))] ++
    searchFacts search.stops search.complete search.exhaustive search.skippedHubs ++
    (if search.skippedHubs = [] then []
      else [(text "skippedHubsNote", .string
        (text "Ancestry of these high-fan-in functions was not expanded " ++
          text "(stored in-degree exceeds max_fan_in). Re-run with a higher " ++
          text "max_fan_in or query them directly with get_callers."))]))

/-- The chains to a target from the start of the arguments, else from the entry points. -/
def chainAnswer (args : JsonObject) (ctx : ToolContext) (target : Bytes) (chain : ChainArgs) :
    Option Json :=
  withResolution (resolveIdentity ll args ctx (text "from") (text "from_usr"))
    (some (chainPayload ll args ctx target ctx.entryPoints chain)) fun start =>
  some (chainPayload ll args ctx target [start] chain)

/-- `handleFindCallChain`. -/
def handleFindCallChain (args : JsonObject) (ctx : ToolContext) : Option Json :=
  withIdentity ll (resolveIdentity ll args ctx (text "to") (text "to_usr"))
    (text "Missing required parameter 'to' (or 'to_usr')") fun target =>
  orUsage ll (parseChainArgs args) fun chain => chainAnswer ll args ctx target chain

/-! ### The whole graph -/

/-- `sortedNodes`. -/
def sortedNodes (g : CallGraph) : List CallGraphNode := g.nodesByUsr

/-- The overrides of the virtual methods of a class. -/
def virtualMethodOverrides (g : CallGraph) (className : Bytes) : List Json :=
  (sortedNodes g).filterMap fun n =>
    let overrides := g.getOverrides ll n.usr
    if n.enclosingClass ≠ className ∨ !n.isVirtual ∨ overrides = [] then none
    else some (.object [(text "baseMethod", .string n.qualifiedName),
      (text "overrides", .strings (overrides.insertionSort (· ≤ ·)))])

/-- `handleGetClassHierarchy`. -/
def handleGetClassHierarchy (args : JsonObject) (ctx : ToolContext) : Option Json :=
  match args.getString (text "class_name") with
  | none => some (usageError ll (text "Missing required parameter 'class_name'"))
  | some className =>
    orUsage ll (parsePage args kDefaultListLimit) fun page =>
    let derived := (if (args.getBoolean (text "include_transitive")).getD false then
        ctx.graph.getAllDerivedClasses ll className
      else ctx.graph.getDerivedClasses ll className).insertionSort (· ≤ ·)
    some (.object ([(text "className", .string className),
      (text "derivedClassCount", .count derived.length)] ++ page.members derived.length ++
      [(text "derivedClasses", .strings (page.window derived))] ++
      (if (args.getBoolean (text "include_overrides")).getD false then
        [(text "virtualMethodOverrides", .array (virtualMethodOverrides ll ctx.graph className))]
      else [])))

/-- `handleListEntryPoints`. -/
def handleListEntryPoints (args : JsonObject) (ctx : ToolContext) : Option Json :=
  orUsage ll (parsePage args kDefaultListLimit) fun page =>
  let total := ctx.entryPoints.length
  some (.object ([(text "count", .count total)] ++ page.members total ++
    [(text "entryPoints", .array ((page.window ctx.entryPoints).map fun ep => .object
      ([(text "name", .string ep)] ++
        (match ctx.graph.findNode ll ep with
          | some n => [(text "file", .string n.file), (text "line", .count n.line)] ++ classMember n
          | none => []))))]))

/-- The five most frequent names, ties by name. -/
def topFive (counts : List (Bytes × ℕ)) : Json :=
  .array (((counts.mergeSort fun a b =>
    decide (b.2 < a.2 ∨ (a.2 = b.2 ∧ a.1 ≤ b.1))).take 5).map fun p => .object
      [(text "qualifiedName", .string p.1), (text "count", .count p.2)])

/-- `handleGraphSummary`; the count of the header stands for the index that is not loaded. -/
def handleGraphSummary (_args : JsonObject) (ctx : ToolContext) : Option Json :=
  let nodes := ctx.graph.allNodes
  let edgesOf := nodes.map fun n => (n.qualifiedName, ctx.graph.calleesOf ll n.usr)
  let edges := edgesOf.flatMap (·.2)
  let callees := edges.map (·.calleeName)
  let ofConfidence (c : Confidence) : Json := .count (edges.countP (·.confidence = c))
  some (.object [(text "nodeCount", .count nodes.length), (text "edgeCount", .count edges.length),
    (text "callSiteCount", .count (ctx.callSites.getD ctx.cfIndex.liveCount)),
    (text "entryPointCount", .count ctx.entryPoints.length),
    (text "confidenceHistogram", .object [(text "Proven", ofConfidence .Proven),
      (text "Plausible", ofConfidence .Plausible), (text "Unknown", ofConfidence .Unknown)]),
    (text "edgeKindHistogram", .object ([EdgeKind.directCall, .virtualDispatch, .functionPointer,
      .constructorCall, .destructorCall, .operatorCall, .templateInstantiation, .lambdaCall,
      .threadEntry].map fun k =>
        (edgeKindToString k, Json.count (edges.countP (·.kind = k))))),
    (text "topFanoutCallers", topFive ((edgesOf.filter (·.2 ≠ [])).map fun p =>
      (p.1, p.2.length))),
    (text "topFanoutCallees", topFive (callees.dedup.map fun c => (c, callees.count c)))])

/-! ### Callbacks and threads -/

/-- All edges that leave a node. -/
def allCallees (g : CallGraph) : List CallGraphEdge :=
  g.allNodes.flatMap fun n => g.calleesOf ll n.usr

/-- `site_limit`. -/
def parseSiteLimit (args : JsonObject) : Except Bytes ℕ :=
  match args.getInteger (text "site_limit") with
  | none => .ok kDefaultSitesPerTarget
  | some v => if v < 1 then .error (text "Invalid site_limit: must be at least 1") else .ok v.toNat

/-- A callback target with its sites. -/
def callbackTargetToJson (siteLimit : ℕ) (target : Bytes) (edges : List CallGraphEdge) : Json :=
  let sites := sortEdgesCanonically edges
  .object [(text "target", .string target), (text "siteCount", .count sites.length),
    (text "sitesTruncated", .boolean (siteLimit < sites.length)),
    (text "sites", .array ((sites.take siteLimit).map fun e => .object
      ([(text "caller", .string e.callerName), (text "callSite", .string e.callSite),
        (text "kind", .string (edgeKindToString e.kind)),
        (text "confidence", .string (confidenceToString e.confidence))] ++
        (if 0 < e.indirectionDepth then
          [(text "indirectionDepth", .count e.indirectionDepth)] else []) ++
        executionContextMember e.execContext)))]

/-- `handleListCallbackSites`. -/
def handleListCallbackSites (args : JsonObject) (ctx : ToolContext) : Option Json :=
  orUsage ll (parsePage args kDefaultCallbackTargetLimit) fun page =>
  orUsage ll (parseSiteLimit args) fun siteLimit =>
  let callbacks := (allCallees ll ctx.graph).filter fun e =>
    (e.kind = .functionPointer ∨ e.kind = .lambdaCall) ∧
      (args.getString (text "target_prefix")).all fun p => p <+: e.calleeName
  let targets := ((callbacks.map (·.calleeName)).dedup).insertionSort (· ≤ ·)
  some (.object ([(text "targetCount", .count targets.length),
    (text "siteLimit", .count siteLimit)] ++ page.members targets.length ++
    [(text "targets", .array ((page.window targets).map fun t =>
      callbackTargetToJson siteLimit t (callbacks.filter (·.calleeName = t))))]))

/-- `handleListConcurrencyEntryPoints`. -/
def handleListConcurrencyEntryPoints (args : JsonObject) (ctx : ToolContext) : Option Json :=
  orUsage ll (parseExecutionContexts args) fun ctxFilter =>
  orUsage ll (parsePage args kDefaultListLimit) fun page =>
  let spawns := sortEdgesCanonically ((allCallees ll ctx.graph).filter fun e =>
    e.kind = .threadEntry ∧ (ctxFilter = [] ∨ e.execContext ∈ ctxFilter))
  some (.object ([(text "count", .count spawns.length)] ++ page.members spawns.length ++
    [(text "entries", .array ((page.window spawns).map fun e => .object
      [(text "spawner", .string e.callerName), (text "target", .string e.calleeName),
        (text "executionContext", .string (executionContextToString e.execContext)),
        (text "callSite", .string e.callSite),
        (text "confidence", .string (confidenceToString e.confidence))]))]))

end Vycor
