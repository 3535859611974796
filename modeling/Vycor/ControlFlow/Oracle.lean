import Vycor.PathSearch.Basic
import Vycor.ControlFlow.Index
import Mathlib.Data.List.DropRight

/-!
# The exception oracle

`queryExceptionProtection` asks what becomes of an exception thrown by a function. It
enumerates the call paths from the entry points with `findCallerPaths`, walks each path from
the target outward through handlers, rethrows, noexcept and thread boundaries, and sums the
outcomes up in a verdict. The universal verdicts are given only when the search was
exhaustive, no outcome is unknown and the index covers every translation unit.

A read of a mapped index may miss the file, so what reads the index is in `Option`.
-/

namespace Vycor

/-- `Protection`. -/
inductive Protection where
  | alwaysCaught | sometimesCaught | neverCaught | noexceptBarrier | unknown | observedCaught
  | observedUncaught
  deriving DecidableEq, Repr

/-- `PathOutcome`. -/
inductive PathOutcome where
  | caught | uncaught | terminates | unknown
  deriving DecidableEq, Repr

/-- `PathInfo`. -/
structure PathInfo where
  callChain : List Bytes := []
  hops : List PathHop := []
  tryCatchesOnPath : List TryCatchScope := []
  guardsOnPath : List ConditionalGuard := []
  outcome : PathOutcome := .unknown
  isCaught : Bool := false
  caughtAt : Bytes := []
  caughtBy : Bytes := []
  rethrownAt : List Bytes := []
  stopAt : Bytes := []
  note : Bytes := []
  deriving DecidableEq, Repr

/-- A path that ends in `std::terminate`. -/
def PathInfo.terminate (info : PathInfo) (stopAt note : Bytes) : PathInfo :=
  { info with outcome := .terminates, stopAt := stopAt, note := note }

/-- A path whose end the oracle cannot tell. -/
def PathInfo.giveUp (info : PathInfo) (stopAt note : Bytes) : PathInfo :=
  { info with outcome := .unknown, stopAt := stopAt, note := note }

/-- `PathSearchFacts`. -/
structure PathSearchFacts where
  limits : SearchLimits
  stops : Stops
  expansions : ℕ
  skippedHubs : List SkippedHub
  targetKnown : Bool
  startKnown : Bool
  complete : Bool
  exhaustive : Bool
  deriving DecidableEq, Repr

/-- `ExceptionPathResult`. -/
structure ExceptionPathResult where
  protection : Protection
  paths : List PathInfo
  summary : Bytes
  search : PathSearchFacts
  caughtCount : ℕ
  uncaughtCount : ℕ
  terminatesCount : ℕ
  unknownCount : ℕ
  indexComplete : Bool
  verdictExhaustive : Bool
  deriving DecidableEq, Repr

/-! ### Matching a handler -/

/-- `stdExceptionHierarchy`: standard exception types and a base of each. -/
def stdExceptionHierarchy : List (Bytes × Bytes) :=
  [(text "std::bad_alloc", text "std::exception"),
    (text "std::bad_cast", text "std::exception"),
    (text "std::bad_typeid", text "std::exception"),
    (text "std::bad_function_call", text "std::exception"),
    (text "std::bad_weak_ptr", text "std::exception"),
    (text "std::bad_array_new_length", text "std::bad_alloc"),
    (text "std::logic_error", text "std::exception"),
    (text "std::runtime_error", text "std::exception"),
    (text "std::domain_error", text "std::logic_error"),
    (text "std::invalid_argument", text "std::logic_error"),
    (text "std::length_error", text "std::logic_error"),
    (text "std::out_of_range", text "std::logic_error"),
    (text "std::overflow_error", text "std::runtime_error"),
    (text "std::underflow_error", text "std::runtime_error"),
    (text "std::range_error", text "std::runtime_error"),
    (text "std::system_error", text "std::runtime_error"),
    (text "std::ios_base::failure", text "std::system_error"),
    (text "std::filesystem::filesystem_error", text "std::system_error")]

/-- `stripTypeSpelling`: without reference, const and surrounding blanks. -/
def stripTypeSpelling (t : Bytes) : Bytes :=
  let s := t.rdropWhile fun c => c = 38 || c = 32
  let s := if (text "const ").isPrefixOf s then s.drop 6 else s
  (s.rdropWhile (· = 32)).dropWhile (· = 32)

/-- The walk up the standard hierarchy from `current`. -/
def stdHierarchyReaches (caught : Bytes) : ℕ → Bytes → List Bytes → Bool
  | 0, _, _ => false
  | fuel + 1, current, visited =>
    if current ∈ visited then false
    else
      match stdExceptionHierarchy.find? fun pair => pair.1 = current with
      | none => false
      | some pair =>
        if pair.2 = caught then true
        else stdHierarchyReaches caught fuel pair.2 (current :: visited)

namespace CallGraph

variable (ll : Llvm) (g : CallGraph)

/-- `ControlFlowOracle::isSubtypeOf`. -/
def isSubtypeOf (thrownType caughtType : Bytes) : Bool :=
  if thrownType = caughtType then true
  else
    let thrown := stripTypeSpelling thrownType
    let caught := stripTypeSpelling caughtType
    if thrown = caught then true
    -- every round but the last visits another class of the table
    else if stdHierarchyReaches caught (stdExceptionHierarchy.length + 1) thrown [] then true
    else decide (thrown ∈ g.getAllDerivedClasses ll caught)

/-- `ControlFlowOracle::matchingHandler`: the first handler that takes the exception. -/
def matchingHandler (exceptionType : Bytes) (scope : TryCatchScope) : Option CatchHandlerInfo :=
  scope.handlers.find? fun handler =>
    handler.isCatchAll || exceptionType = [] || g.isSubtypeOf ll exceptionType handler.caughtType

/-! ### One path -/

/-- The scopes around a call, innermost first; whether one of them catches. -/
def unwindScopes (exceptionType : Bytes) : List TryCatchScope → PathInfo → PathInfo × Bool
  | [], info => (info, false)
  | scope :: rest, info =>
    match g.matchingHandler ll exceptionType scope with
    | none => unwindScopes exceptionType rest info
    | some h =>
      if h.rethrows then
        unwindScopes exceptionType rest { info with rethrownAt := info.rethrownAt ++ [h.location] }
      else
        ({ info with
            outcome := .caught
            isCaught := true
            caughtAt := scope.tryLocation
            caughtBy := if h.isCatchAll then text "..." else h.caughtType }, true)

variable (cf : ControlFlowIndex)

/-- `ControlFlowOracle::contextForHop`. -/
def contextForHop (cf : ControlFlowIndex) (hop : PathHop) : Option (Option CallSiteContext) :=
  cf.contextForEdge ll hop.callSite hop.callerUsr hop.calleeUsr

/-- `ControlFlowOracle::annotatePath`. -/
def annotatePath (cf : ControlFlowIndex) (path : CallPath) : Option PathInfo := do
  let contexts ← path.hops.mapM (contextForHop ll cf)
  let known := contexts.reduceOption
  some {
    hops := path.hops
    callChain := (path.hops.head?.map (·.caller)).toList ++ path.hops.map (·.callee)
    tryCatchesOnPath := known.flatMap (·.enclosingTryCatches)
    guardsOnPath := known.flatMap (·.enclosingGuards) }

/-- The walk of `propagate` over the hops, the call into the target first. -/
def unwindHops (exceptionType : Bytes) : List PathHop → PathInfo → Option PathInfo
  | [], info =>
    some { info with
      outcome := .uncaught
      isCaught := false
      stopAt := info.callChain.headD []
      note := text "escapes the entry point " ++ info.callChain.headD [] }
  | hop :: outer, info =>
    match hop.execContext with
    | .threadSpawn =>
      some (info.terminate hop.callSite (hop.callee ++
        text " runs on a thread spawned at " ++ hop.callSite ++
        text "; an exception escaping a thread entry calls std::terminate"))
    | .asyncTask | .packagedTask =>
      some (info.giveUp hop.callSite (hop.callee ++
        text " runs as an asynchronous task started at " ++ hop.callSite ++
        text "; the exception is stored and rethrown where the result is retrieved, " ++
        text "which is not modeled"))
    -- synchronous, invoke, and a value that no case names
    | _ => do
      match ← contextForHop ll cf hop with
      | none =>
        some (info.giveUp hop.callSite (text "no call-site context indexed for " ++
          hop.callSite ++ text " in " ++ hop.caller ++
          text " (the TU may be missing, partial, or the call is indirect)"))
      | some ctx =>
        let r := g.unwindScopes ll exceptionType ctx.enclosingTryCatches info
        if r.2 then some r.1
        else
          match ctx.callerNoexcept with
          | .noexcept | .throwNone =>
            some (r.1.terminate hop.caller
              (text "escapes " ++ hop.caller ++ text ", which is noexcept: std::terminate"))
          | .unknown =>
            some (r.1.giveUp hop.caller (text "the exception specification of " ++
              hop.caller ++ text " could not be evaluated"))
          | _ => unwindHops exceptionType outer r.1

/-- `ControlFlowOracle::propagate`. -/
def propagate (exceptionType : Bytes) (info : PathInfo) : Option PathInfo :=
  match info.hops.getLast? with
  | none => none
  | some into => do
    let spec ← cf.callerNoexceptOf ll into.calleeUsr
    if spec = some .noexcept ∨ spec = some .throwNone then
      some (info.terminate into.callee (into.callee ++
        text " is noexcept: a throw inside it calls std::terminate"))
    else g.unwindHops ll cf exceptionType info.hops.reverse info

/-- A path with its outcome. -/
def examine (exceptionType : Bytes) (path : CallPath) : Option PathInfo := do
  let info ← annotatePath ll cf path
  g.propagate ll cf exceptionType info

/-! ### The verdict -/

/-- `ControlFlowOracle::factsOf`. -/
def factsOf (r : PathSearchResult) (limits : SearchLimits) : PathSearchFacts :=
  { limits := limits, stops := r.stops, expansions := r.expansions, skippedHubs := r.skippedHubs,
    targetKnown := r.targetKnown, startKnown := r.startKnown, complete := r.complete,
    exhaustive := r.exhaustive }

/-- The verdict over `paths` many paths with the given outcomes. -/
def verdict (paths caught uncaught terminates : ℕ) (exhaustive : Bool) : Protection :=
  if paths = 0 then .unknown
  else if 0 < caught ∧ (0 < uncaught ∨ 0 < terminates) then .sometimesCaught
  else if 0 < uncaught then if exhaustive then .neverCaught else .observedUncaught
  else if 0 < caught then if exhaustive then .alwaysCaught else .observedCaught
  else if 0 < terminates then if exhaustive then .noexceptBarrier else .unknown
  else .unknown

end CallGraph

/-- `stopReasonNames`. -/
def stopReasonNames (stops : Stops) : List Bytes :=
  (if stops.pathLimit then [text "path_limit"] else []) ++
    (if stops.depthLimit then [text "depth_limit"] else []) ++
    (if stops.workBudget then [text "work_budget"] else []) ++
    (if stops.hubPruned then [text "hub_pruned"] else [])

namespace ExceptionPathResult

variable (result : ExceptionPathResult)

/-- The first uncaught path, as the tail of a summary. -/
def uncaughtTail : Bytes :=
  match result.paths.find? fun p => p.outcome = .uncaught with
  | none => []
  | some p => text " Uncaught path: " ++ (text " -> ").intercalate p.callChain ++ text "."

/-- The precondition of a universal verdict that failed, in words. -/
def whyObserved : Bytes :=
  let parts :=
    (if result.search.exhaustive then [] else [text "the search is not exhaustive"]) ++
    (if result.indexComplete then [] else [text "the index does not cover every requested TU"]) ++
    (if 0 < result.unknownCount then
      [decimal result.unknownCount ++ text " path(s) have an unknown outcome"] else [])
  match parts with
  | [a, b, c] => a ++ text ", " ++ b ++ text " and " ++ c
  | parts => (text " and ").intercalate parts

/-- The part of the summary that the verdict decides. -/
def verdictSummary (functionName what : Bytes) : Bytes :=
  let total := decimal result.paths.length
  let subject := functionName ++ text " throwing " ++ what
  match result.protection with
  | .alwaysCaught =>
    subject ++ text " is caught on all " ++ total ++ text " path(s) from entry points." ++
      (match result.paths.head? with
        | some p =>
          if p.caughtBy = [] then []
          else text " Caught by " ++ p.caughtBy ++ text " at " ++ p.caughtAt ++ text "."
        | none => [])
  | .neverCaught =>
    subject ++ text " is NOT caught on any of the " ++ total ++ text " path(s) from entry points."
  | .sometimesCaught =>
    subject ++ text " is caught on " ++ decimal result.caughtCount ++ text " of " ++ total ++
      text " path(s)" ++
      (if 0 < result.terminatesCount then
        text " (" ++ decimal result.terminatesCount ++
          text " terminate at a noexcept or thread boundary)" else []) ++
      text "." ++ result.uncaughtTail
  | .noexceptBarrier =>
    subject ++ text " reaches a noexcept function or a thread entry on all " ++ total ++
      text " path(s): std::terminate rather than propagation."
  | .observedCaught =>
    subject ++ text " is caught on every one of the " ++ total ++ text " observed path(s), but " ++
      result.whyObserved ++ text "; unexamined paths may be unprotected."
  | .observedUncaught =>
    subject ++ text " is NOT caught on any of the " ++ total ++ text " observed path(s); " ++
      result.whyObserved ++ text "." ++ result.uncaughtTail
  | .unknown =>
    if result.paths = [] then
      if !result.search.targetKnown then functionName ++ text " is not in the call graph."
      else if !result.search.startKnown then
        text "None of the entry points is in the call graph."
      else text "No call paths found from entry points to " ++ functionName ++ text "."
    else
      subject ++ text ": the outcome of the " ++ total ++ text " path(s) cannot be determined" ++
        (if 0 < result.terminatesCount then
          text " (" ++ decimal result.terminatesCount ++ text " terminate, " ++
            decimal result.unknownCount ++ text " unknown)" else []) ++
        (if 0 < result.terminatesCount ∧ result.unknownCount = 0 ∧ !result.verdictExhaustive then
          text "; every observed path terminates, but " ++ result.whyObserved else []) ++
        text "."

/-- `ControlFlowOracle::buildSummary`. -/
def buildSummary (functionName exceptionType : Bytes) : Bytes :=
  let what := if exceptionType = [] then text "an exception" else exceptionType
  result.verdictSummary functionName what ++
    (if result.search.stops = {} then []
      else text " Search stopped:" ++
        (stopReasonNames result.search.stops).flatMap (text " " ++ ·) ++ text ".")

end ExceptionPathResult

/-- `ControlFlowOracle::queryExceptionProtection`, over a graph and an index. -/
def CallGraph.queryExceptionProtection (ll : Llvm) (g : CallGraph) (cf : ControlFlowIndex)
    (functionName exceptionType : Bytes) (entryPoints : List Bytes) (limits : SearchLimits)
    (indexComplete : Bool := true) : Option ExceptionPathResult := do
  let found := g.findCallerPaths ll functionName entryPoints limits
  let paths ← found.paths.mapM (g.examine ll cf exceptionType)
  let ends (o : PathOutcome) : ℕ := paths.countP fun p => p.outcome = o
  let exhaustive := found.exhaustive && ends .unknown = 0 && indexComplete
  let result : ExceptionPathResult :=
    { protection := verdict paths.length (ends .caught) (ends .uncaught) (ends .terminates) exhaustive
      paths := paths
      summary := []
      search := factsOf found limits
      caughtCount := ends .caught
      uncaughtCount := ends .uncaught
      terminatesCount := ends .terminates
      unknownCount := ends .unknown
      indexComplete := indexComplete
      verdictExhaustive := exhaustive }
  some { result with summary := result.buildSummary functionName exceptionType }

/-- `ControlFlowOracle::queryThrowPropagation`. -/
def CallGraph.queryThrowPropagation (ll : Llvm) (g : CallGraph) (cf : ControlFlowIndex)
    (throwingFunction thrownType : Bytes) (entryPoints : List Bytes) (limits : SearchLimits)
    (indexComplete : Bool := true) : Option ExceptionPathResult :=
  g.queryExceptionProtection ll cf throwingFunction thrownType entryPoints limits indexComplete

/-- `PathContextsResult`. -/
structure PathContextsResult where
  paths : List PathInfo
  search : PathSearchFacts
  deriving DecidableEq, Repr

/-- `ControlFlowOracle::queryAllPathContexts`. -/
def CallGraph.queryAllPathContexts (ll : Llvm) (g : CallGraph) (cf : ControlFlowIndex)
    (functionName : Bytes) (entryPoints : List Bytes) (limits : SearchLimits) :
    Option PathContextsResult := do
  let found := g.findCallerPaths ll functionName entryPoints limits
  let paths ← found.paths.mapM (CallGraph.annotatePath ll cf)
  some ⟨paths, CallGraph.factsOf found limits⟩

end Vycor
