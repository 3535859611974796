import Vycor.ControlFlow.Nearest
import Vycor.Query.GraphTools
import Vycor.Report.Paths

/-!
# The exception tools

Four tools put the exception oracle's answers about one function into a payload, two report
what the index holds of one call site. A call site whose spelling several callers share, a
macro, is answered with the candidates, unless a `caller` narrows it.
-/

namespace Vycor

variable (ll : Llvm)

/-! ### What the path tools read -/

/-- `parseSearchLimits`. -/
def parseSearchLimits (args : JsonObject) : Except Bytes SearchLimits := do
  let maxPaths ← readLimit args (text "max_paths") 1 kMaxSearchPaths .reject 100
  let maxDepth ← readLimit args (text "max_depth") 1 kMaxSearchDepth .reject 20
  let maxFanIn ← readLimit args (text "max_fan_in") 0 kMaxFanInLimit .clamp 1000
  return { maxPaths, maxDepth, maxFanIn }

/-- `entryPointsArg`. -/
def entryPointsArg (args : JsonObject) (ctx : ToolContext) : List Bytes :=
  let given := args.getStrings (text "entry_points")
  if given = [] then ctx.entryPoints else given

/-- `attachFacts`, the members it adds. -/
def pathSearchFacts (f : PathSearchFacts) : JsonObject :=
  searchFacts f.stops f.complete f.exhaustive f.skippedHubs

/-- Go on with the function of a path tool. -/
def withFunction (args : JsonObject) (ctx : ToolContext) (rest : Bytes → Option Json) :
    Option Json :=
  withIdentity ll (resolveIdentity ll args ctx (text "function") (text "usr"))
    (text "Missing required parameter 'function' (or 'usr')") rest

/-- The members that name the function of a payload. -/
def functionMembers (args : JsonObject) (ctx : ToolContext) (ident : Bytes) : JsonObject :=
  (text "function", .string ((identityName args (text "function")).getD ident)) ::
    usrMember ll ctx.graph ident

/-- The counts of paths by outcome. -/
def outcomeMembers (result : ExceptionPathResult) : JsonObject :=
  [(text "caughtPaths", .count result.caughtCount),
    (text "uncaughtPaths", .count (result.paths.length - result.caughtCount)),
    (text "terminatingPaths", .count result.terminatesCount),
    (text "unknownPaths", .count result.unknownCount)]

/-! ### Paths -/

section Paths

variable (classifyGuard : ConditionalGuard → Option (Bytes × Bytes))

/-- `serializePathInfo`. -/
def serializePathInfo (withOutcome : Bool) (p : PathInfo) : Json :=
  .object ([(text "callChain", .strings p.callChain),
    (text "hops", .array (p.hops.map serializePathHop)), (text "isCaught", .boolean p.isCaught)] ++
    (if p.isCaught then [(text "caughtAt", .string p.caughtAt), (text "caughtBy", .string p.caughtBy)]
      else []) ++
    (if withOutcome then
      [(text "outcome", .string (pathOutcomeName p.outcome))] ++
        (if p.rethrownAt = [] then [] else [(text "rethrownAt", .strings p.rethrownAt)]) ++
        (if p.outcome = .caught then []
          else [(text "stopAt", .string p.stopAt), (text "note", .string p.note)])
      else []) ++
    [(text "tryCatchesOnPath", .array (p.tryCatchesOnPath.map serializeTryCatchScope)),
      (text "guardsOnPath", .array (p.guardsOnPath.map (serializeGuard classifyGuard)))])

/-- `serializePaths`. -/
def serializePaths (withOutcome : Bool) (paths : List PathInfo) : Json :=
  .array (paths.map (serializePathInfo classifyGuard withOutcome))

/-- `handleQueryExceptionSafety`. -/
def handleQueryExceptionSafety (args : JsonObject) (ctx : ToolContext) : Option Json :=
  withFunction ll args ctx fun ident =>
  orUsage ll (parseSearchLimits args) fun limits => do
  let result ← ctx.graph.queryExceptionProtection ll ctx.cfIndex ident
    ((args.getString (text "exception_type")).getD []) (entryPointsArg args ctx) limits
    ctx.facts.coversRequested
  some (.object (functionMembers ll args ctx ident ++
    [(text "protection", .string (protectionName result.protection)),
      (text "totalPaths", .count result.paths.length), (text "summary", .string result.summary)] ++
    outcomeMembers result ++ pathSearchFacts result.search))

/-- `handleQueryThrowPropagation`. -/
def handleQueryThrowPropagation (args : JsonObject) (ctx : ToolContext) : Option Json :=
  withFunction ll args ctx fun ident =>
  orUsage ll (parseSearchLimits args) fun limits => do
  let exceptionType := (args.getString (text "exception_type")).getD []
  let result ← ctx.graph.queryThrowPropagation ll ctx.cfIndex ident exceptionType
    (entryPointsArg args ctx) limits ctx.facts.coversRequested
  some (.object (functionMembers ll args ctx ident ++
    [(text "exceptionType", .string exceptionType),
      (text "protection", .string (protectionName result.protection)),
      (text "totalPaths", .count result.paths.length)] ++
    outcomeMembers result ++ [(text "summary", .string result.summary)] ++
    pathSearchFacts result.search ++
    [(text "paths", serializePaths classifyGuard true result.paths)]))

/-- `handleQueryAllPathContexts`. -/
def handleQueryAllPathContexts (args : JsonObject) (ctx : ToolContext) : Option Json :=
  withFunction ll args ctx fun ident =>
  orUsage ll (parseSearchLimits args) fun limits => do
  let result ← ctx.graph.queryAllPathContexts ll ctx.cfIndex ident (entryPointsArg args ctx) limits
  some (.object (functionMembers ll args ctx ident ++
    [(text "totalPaths", .count result.paths.length), (text "maxPaths", .count limits.maxPaths),
      (text "maxDepth", .count limits.maxDepth)] ++ pathSearchFacts result.search ++
    [(text "paths", serializePaths classifyGuard false result.paths)]))

end Paths

/-- A catch of `handleQueryNearestCatches`. -/
def nearestCatchToJson (c : NearestCatchInfo) : Json :=
  .object [(text "framesFromTarget", .count c.framesFromTarget),
    (text "pathSegment", .strings c.pathSegment),
    (text "hops", .array (c.hops.map serializePathHop)), (text "callSite", .string c.callSite),
    (text "scope", serializeTryCatchScope c.scope)]

/-- `handleQueryNearestCatches`. -/
def handleQueryNearestCatches (callerSort : Sorter callerBefore) (catchSort : Sorter catchBefore)
    (args : JsonObject) (ctx : ToolContext) : Option Json :=
  withFunction ll args ctx fun ident =>
  orUsage ll (readLimit args (text "max_depth") 1 kMaxSearchDepth .reject 20) fun maxDepth => do
  let result ← ctx.graph.queryNearestCatches ll ctx.cfIndex callerSort catchSort ident maxDepth
  some (.object (functionMembers ll args ctx ident ++
    [(text "maxDepth", .count result.maxDepth)] ++
    searchFacts result.stops result.complete (decide (result.stops = {})) [] ++
    [(text "catches", .array (result.catches.map nearestCatchToJson))]))

/-! ### One call site -/

/-- The order of the candidates of an ambiguous call site. -/
def candidateBefore (a b : CallSiteContext) : Bool := a.callerUsr < b.callerUsr

/-- `makeAmbiguousSiteResult`. -/
def makeAmbiguousSiteResult (candidateSort : Sorter candidateBefore) (callSite : Bytes)
    (contexts : List CallSiteContext) : Json :=
  .object [(text "ambiguous", .boolean true), (text "parameter", .string (text "caller")),
    (text "callSite", .string callSite),
    (text "candidates", .array ((candidateSort.run contexts).map fun c => .object
      [(text "callSite", .string c.callSite), (text "callerUsr", .string c.callerUsr),
        (text "callerName", .string c.callerName)])),
    (text "note", .string (text "Multiple call sites share this spelling (macro expansion). " ++
      text "Re-run with the 'caller' parameter (USR or qualified name) " ++
      text "of the intended enclosing function."))]

/-- `resolveCallSiteContext`, with the handler's answer for a site that is not indexed; `rest`
goes on with the context. -/
def withCallSite (candidateSort : Sorter candidateBefore) (args : JsonObject) (ctx : ToolContext)
    (callSite : Bytes) (rest : CallSiteContext → Json) : Option Json :=
  let notIndexed := notFoundError ll (text "Call site not indexed: '" ++ callSite ++
    text "'. Ensure the path matches the compilation database " ++
    text "canonicalization (typically an absolute path).")
  match args.getString (text "caller") with
  | some caller => do
    let found ← ctx.cfIndex.contextAtSiteOf ll callSite caller
    some ((found.map rest).getD notIndexed)
  | none => do
    match ← ctx.cfIndex.contextsAtSite ll callSite with
    | [] => some notIndexed
    | [context] => some (rest context)
    | contexts => some (makeAmbiguousSiteResult candidateSort callSite contexts)

/-- A site is spelled `file:line:col`, split at its last two colons. -/
def isSiteSpelling (raw : Bytes) : Bool :=
  match cutLastColon raw with
  | none => false
  | some (front, col) =>
    match cutLastColon front with
    | none => false
    | some (file, line) => file ≠ [] && allDigits line && allDigits col

section CallSite

variable (candidateSort : Sorter candidateBefore)

/-- `handleQueryCallSiteContext`. -/
def handleQueryCallSiteContext (classifyGuard : ConditionalGuard → Option (Bytes × Bytes))
    (args : JsonObject) (ctx : ToolContext) : Option Json :=
  match args.getString (text "call_site") with
  | none => some (usageError ll (text "Missing required parameter 'call_site'"))
  | some raw =>
    if !isSiteSpelling raw then
      some (usageError ll (text "Invalid call_site format: expected 'file:line:col' (e.g. " ++
        text "'src/foo.cpp:12:3'), got '" ++ raw ++ text "'"))
    else
      withCallSite ll candidateSort args ctx raw fun c => .object
        [(text "callSite", .string c.callSite), (text "caller", .string c.callerName),
          (text "callerUsr", .string c.callerUsr), (text "callee", .string c.calleeName),
          (text "isUnderTryCatch", .boolean (!c.enclosingTryCatches.isEmpty)),
          (text "wouldTerminateIfThrows", .boolean (decide (c.callerNoexcept = .noexcept))),
          (text "enclosingScopeCount", .count c.enclosingTryCatches.length),
          (text "enclosingGuardCount", .count c.enclosingGuards.length),
          (text "liveRaiiLocalsCount", .count c.liveRaiiLocals.length),
          (text "enclosingScopes", .array (c.enclosingTryCatches.map serializeTryCatchScope)),
          (text "enclosingGuards",
            .array (c.enclosingGuards.map (serializeGuard classifyGuard)))]

/-- The kinds of the arguments. -/
def parseRaiiKinds (args : JsonObject) : Except Bytes (List RaiiKind) :=
  (args.getStrings (text "kinds")).mapM fun s =>
    match parseRaiiKind s with
    | some k => .ok k
    | none => .error (text "Invalid value in kinds: '" ++ s ++
        text "' (expected lock, smart_ptr, or other)")

/-- `handleQueryRaiiScopesAtCallsite`. -/
def handleQueryRaiiScopesAtCallsite (args : JsonObject) (ctx : ToolContext) : Option Json :=
  match args.getString (text "call_site") with
  | none => some (usageError ll (text "Missing required parameter 'call_site'"))
  | some callSite =>
    orUsage ll (parseRaiiKinds args) fun allowed =>
    withCallSite ll candidateSort args ctx callSite fun c => .object
      [(text "callSite", .string callSite), (text "caller", .string c.callerName),
        (text "callerUsr", .string c.callerUsr), (text "callee", .string c.calleeName),
        (text "locals", .array ((c.liveRaiiLocals.filter fun l =>
          allowed = [] ∨ l.kind ∈ allowed).map serializeRaiiLocal))]

end CallSite

end Vycor
