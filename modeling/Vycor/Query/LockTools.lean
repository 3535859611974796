import Vycor.Query.ExceptionTools

/-!
# The lock tools

A lock is held on a path where a local of lock kind is live at one of its calls, as the
context of that very edge says. `query_locks_held` lists the paths to a function with the locks
on each, `query_same_lock` the locks that are held on some path to each of two functions. The
shared locks are walked in the order of a hash map over the locks of the first function, which
is the argument `lockOrder`.
-/

namespace Vycor

/-- `LockKey`: a lock is known by its type and its name. -/
structure LockKey where
  typeName : Bytes
  varName : Bytes
  deriving DecidableEq, Repr

/-- `LockOccurrence`. -/
structure LockOccurrence where
  typeName : Bytes
  varName : Bytes
  heldAt : Bytes
  deriving DecidableEq, Repr

/-- The key of an occurrence. -/
def LockOccurrence.key (l : LockOccurrence) : LockKey := ⟨l.typeName, l.varName⟩

/-- `PathResult`. -/
structure PathResult where
  entryPoint : Bytes
  path : List Bytes
  locksHeld : List LockOccurrence
  deriving DecidableEq, Repr

/-- `LocksHeldResult`. -/
structure LocksHeldResult where
  paths : List PathResult := []
  search : PathSearchResult := {}
  deriving DecidableEq, Repr

variable (ll : Llvm)

/-- `collectLocksOnHop`; a lock whose key was met before is passed over. -/
def collectLocksOnHop (cf : ControlFlowIndex) (out : List LockOccurrence) (hop : PathHop) :
    Option (List LockOccurrence) := do
  let context ← cf.contextForEdge ll hop.callSite hop.callerUsr hop.calleeUsr
  let locals := (context.map (·.liveRaiiLocals)).getD []
  some (locals.foldl (fun out l =>
    if l.kind ≠ .lock ∨ (⟨l.typeName, l.varName⟩ : LockKey) ∈ out.map LockOccurrence.key then out
    else out ++ [⟨l.typeName, l.varName, hop.callSite⟩]) out)

/-- The locks on a path, from the target outward. -/
def pathLocks (cf : ControlFlowIndex) (path : CallPath) : Option PathResult := do
  let locksHeld ← path.hops.reverse.foldlM (collectLocksOnHop ll cf) []
  let entryPoint := (path.hops.head?.map (·.callerUsr)).getD []
  some ⟨entryPoint, entryPoint :: path.hops.map (·.calleeUsr), locksHeld⟩

/-- `kMaxPaths` of the lock walk. -/
def kMaxLockPaths : ℕ := 512

/-- `collectLocksHeld`. -/
def collectLocksHeld (g : CallGraph) (cf : ControlFlowIndex) (target : Bytes)
    (entryPoints : List Bytes) (maxDepth maxFanIn : ℕ) : Option LocksHeldResult :=
  if entryPoints = [] then some {}
  else do
    let indirectId := g.interner.find (text "<indirect>")
    let search := g.findCallerPaths ll target entryPoints
      { maxPaths := kMaxLockPaths, maxDepth := maxDepth, maxFanIn := maxFanIn } .simpleEdges
      (some fun e => indirectId ≠ some e.caller)
    let paths ← search.paths.mapM (pathLocks ll cf)
    some ⟨paths, search⟩

/-- `pathResultToJson`. -/
def pathResultToJson (pr : PathResult) : Json :=
  .object [(text "entryPoint", .string pr.entryPoint), (text "path", .strings pr.path),
    (text "locksHeld", .array (pr.locksHeld.map fun l => .object
      [(text "typeName", .string l.typeName), (text "varName", .string l.varName),
        (text "heldAt", .string l.heldAt)]))]

/-- A clamped limit of the lock tools, which refuse none. -/
def lockLimit (args : JsonObject) (key : Bytes) (min max value : ℕ) : ℕ :=
  match readLimit args key min max .clamp value with
  | .ok n => n
  | .error _ => value

/-- `max_depth` of the lock tools. -/
def lockMaxDepth (args : JsonObject) : ℕ := lockLimit args (text "max_depth") 1 kMaxSearchDepth 20

/-- `max_fan_in` of the lock tools. -/
def lockMaxFanIn (args : JsonObject) : ℕ := lockLimit args (text "max_fan_in") 0 kMaxFanInLimit 1000

/-- `collectLocksHeld` for a function of the arguments. -/
def locksHeldOf (args : JsonObject) (ctx : ToolContext) (ident : Bytes) : Option LocksHeldResult :=
  collectLocksHeld ll ctx.graph ctx.cfIndex ident (entryPointsArg args ctx) (lockMaxDepth args)
    (lockMaxFanIn args)

/-- `handleQueryLocksHeld`. -/
def handleQueryLocksHeld (args : JsonObject) (ctx : ToolContext) : Option Json :=
  withFunction ll args ctx fun ident => do
  let result ← locksHeldOf ll args ctx ident
  some (.object (functionMembers ll args ctx ident ++
    [(text "paths", .array (result.paths.map pathResultToJson)),
      (text "truncated", .boolean result.search.stops.pathLimit),
      (text "pathCount", .count result.paths.length)] ++
    searchFacts result.search.stops result.search.complete result.search.exhaustive
      result.search.skippedHubs))

/-! ### Shared locks -/

/-- The keys of the locks on some paths, each once, in the order they are met. -/
def lockKeys (paths : List PathResult) : List LockKey :=
  (paths.flatMap fun p => p.locksHeld.map LockOccurrence.key).foldl
    (fun keys k => if k ∈ keys then keys else keys ++ [k]) []

/-- The paths on which a lock is held. -/
def pathsHolding (key : LockKey) (paths : List PathResult) : List PathResult :=
  paths.filter fun p => key ∈ p.locksHeld.map LockOccurrence.key

/-- The stops of two searches. -/
def Stops.or (a b : Stops) : Stops :=
  ⟨a.pathLimit || b.pathLimit, a.depthLimit || b.depthLimit, a.workBudget || b.workBudget,
    a.hubPruned || b.hubPruned⟩

/-- The hubs of two searches, those of both once. -/
def mergedHubs (a b : List SkippedHub) : List SkippedHub :=
  (b.foldl (fun hubs h => if h.usr ∈ hubs.map (·.usr) then hubs else hubs ++ [h]) a).insertionSort
    fun x y => ¬ y.usr < x.usr

/-- The payload of `handleQuerySameLock`. -/
def sameLockPayload (lockOrder : List LockKey → List LockKey) (args : JsonObject)
    (ctx : ToolContext) (a b : Bytes) (resA resB : LocksHeldResult) : Json :=
  let keysA := lockKeys resA.paths
  let keysB := lockKeys resB.paths
  let shared := (lockOrder keysA).filter (· ∈ keysB)
  .object ([(text "fn_a", .string ((args.getString (text "fn_a")).getD a)),
    (text "fn_b", .string ((args.getString (text "fn_b")).getD b))] ++
    usrMember ll ctx.graph a (text "fn_a_usr") ++ usrMember ll ctx.graph b (text "fn_b_usr") ++
    [(text "sharedLocks", .array (shared.map fun key => .object
      [(text "typeName", .string key.typeName), (text "varName", .string key.varName),
        (text "pathsA", .array ((pathsHolding key resA.paths).map pathResultToJson)),
        (text "pathsB", .array ((pathsHolding key resB.paths).map pathResultToJson))])),
      (text "shared", .count shared.length),
      (text "aOnly", .integer (keysA.length - shared.length)),
      (text "bOnly", .integer (keysB.length - shared.length)),
      (text "truncated",
        .boolean (resA.search.stops.pathLimit || resB.search.stops.pathLimit))] ++
    searchFacts (resA.search.stops.or resB.search.stops)
      (resA.search.complete && resB.search.complete)
      (resA.search.exhaustive && resB.search.exhaustive)
      (mergedHubs resA.search.skippedHubs resB.search.skippedHubs))

/-- `handleQuerySameLock`; an identity that was not given is reported when both were looked at. -/
def handleQuerySameLock (lockOrder : List LockKey → List LockKey) (args : JsonObject)
    (ctx : ToolContext) : Option Json :=
  let missing := usageError ll (text "Missing required parameters 'fn_a' and 'fn_b' (or their " ++
    text "*_usr twins)")
  match resolveIdentity ll args ctx (text "fn_a") (text "fn_a_usr") with
  | none => none
  | some (.answered payload) => some payload
  | some a =>
    match resolveIdentity ll args ctx (text "fn_b") (text "fn_b_usr") with
    | none => none
    | some (.answered payload) => some payload
    | some b =>
      match a, b with
      | .found a, .found b => do
        let resA ← locksHeldOf ll args ctx a
        let resB ← locksHeldOf ll args ctx b
        some (sameLockPayload ll lockOrder args ctx a b resA resB)
      | _, _ => some missing

end Vycor
