import Vycor.CallGraph.Directions
import Vycor.Lib.Bfs
import Mathlib.Data.List.Sort
import Mathlib.Data.List.Dedup

/-!
# The reverse path search

`findCallerPaths` enumerates the call chains from any of the starts to the target by a
depth-first walk over caller edges, from the target backwards. A forward breadth-first
search (the corridor, `minFromStart`) tells which callers a start reaches and in how few
edges; a memo (`deadAt`) skips nodes whose ancestry was exhausted; path, depth, work and
fan-in limits cut the walk and leave a stop bit.

The state of the walk is passed explicitly. The current path is the chain of its edges in
the direction of the call, the last edge taken at the head, so that a recorded path is the
chain as it stands; the sets of nodes and edge keys on the path are read off the chain. The
recursion is on the number of edges the depth bound leaves.
-/

namespace Vycor

/-! ### Limits, results -/

/-- `kPathSearchDepthCap`. -/
def kPathSearchDepthCap : ℕ := 1000

/-- `SearchLimits`; zero means no limit (for `maxDepth`, the cap). -/
structure SearchLimits where
  maxPaths : ℕ := 100
  maxDepth : ℕ := 20
  maxFanIn : ℕ := 1000
  maxWork : ℕ := 2000000
  deriving DecidableEq, Repr

/-- The depth bound a search runs with. -/
def SearchLimits.effectiveDepth (l : SearchLimits) : ℕ :=
  if l.maxDepth = 0 ∨ l.maxDepth > kPathSearchDepthCap then kPathSearchDepthCap else l.maxDepth

/-- The limits with the depth cap applied. -/
def SearchLimits.capped (l : SearchLimits) : SearchLimits :=
  { l with maxDepth := l.effectiveDepth }

/-- `CycleRule`. -/
inductive CycleRule where
  | simpleNodes | simpleEdges
  deriving DecidableEq, Repr

/-- The bitmask of `StopReason`s, one flag a bit. -/
structure Stops where
  pathLimit : Bool := false
  depthLimit : Bool := false
  workBudget : Bool := false
  hubPruned : Bool := false
  deriving DecidableEq, Repr

/-- `PathHop`. -/
structure PathHop where
  callerUsr : Bytes
  calleeUsr : Bytes
  caller : Bytes
  callee : Bytes
  callSite : Bytes
  kind : EdgeKind
  confidence : Confidence
  execContext : ExecutionContext
  indirectionDepth : ℕ
  deriving DecidableEq, Repr

/-- `CallPath`. -/
structure CallPath where
  hops : List PathHop
  deriving DecidableEq, Repr

/-- `SkippedHub`. -/
structure SkippedHub where
  usr : Bytes
  name : Bytes
  inDegree : ℕ
  deriving DecidableEq, Repr

/-- `PathSearchResult`. -/
structure PathSearchResult where
  paths : List CallPath := []
  skippedHubs : List SkippedHub := []
  stops : Stops := {}
  expansions : ℕ := 0
  targetKnown : Bool := false
  startKnown : Bool := false
  deriving DecidableEq, Repr

/-- `PathSearchResult::complete`. -/
def PathSearchResult.complete (r : PathSearchResult) : Bool :=
  r.targetKnown && r.startKnown && !r.stops.pathLimit && !r.stops.workBudget &&
    !r.stops.hubPruned

/-- `PathSearchResult::exhaustive`. -/
def PathSearchResult.exhaustive (r : PathSearchResult) : Bool :=
  r.complete && r.stops = {}

/-! ### The search -/

/-- The per-path exclusion key of an edge, `EdgeKey`. -/
def Edge.pathKey (e : EdgeRef) : SId × SId × SId := (e.caller, e.callee, e.callSite)

/-- What a walk reads: the caller edges in canonical order, the stored in-degrees, the
request, and the corridor. -/
structure Search where
  callersOf : SId → List EdgeRef
  storedInDegree : SId → ℕ
  limits : SearchLimits
  cycles : CycleRule
  filter : Option (EdgeRef → Bool)
  startSet : List SId
  minFromStart : SId → Option ℕ

/-- What a walk changes. -/
structure SearchState where
  found : List (List EdgeRef) := []
  deadAt : SId → Option ℕ := fun _ => none
  hubs : List (SId × ℕ) := []
  depthLimit : Bool := false
  workBudget : Bool := false
  hubPruned : Bool := false
  truncated : Bool := false
  expansions : ℕ := 0

/-- The return value of a visit, `kFound` and `kBlocked`. -/
structure Flags where
  found : Bool := false
  blocked : Bool := false
  deriving DecidableEq

/-- `flags |= …`. -/
def Flags.or (a b : Flags) : Flags := ⟨a.found || b.found, a.blocked || b.blocked⟩

/-- Neither found nor blocked: the ancestry was exhausted without reaching a start. -/
def Flags.clean (f : Flags) : Bool := !f.found && !f.blocked

/-- `deadAt.emplace(node, depth)`, lowered when the entry is deeper. -/
def SearchState.memoize (st : SearchState) (node : SId) (depth : ℕ) : SearchState :=
  { st with deadAt := Function.update st.deadAt node (some (((st.deadAt node).map
      fun d => if depth < d then depth else d).getD depth)) }

/-- `hubs.emplace(node, degree)`, with its stop bit. -/
def SearchState.skipHub (st : SearchState) (node : SId) (degree : ℕ) : SearchState :=
  { st with
    hubs := if node ∈ st.hubs.map Prod.fst then st.hubs else st.hubs ++ [(node, degree)]
    hubPruned := true }

namespace Search

variable (S : Search)

/-- The edge filter; a null filter admits every edge. -/
def admits (e : EdgeRef) : Bool :=
  match S.filter with
  | none => true
  | some p => p e

/-- `Search::pathLimitHit`. -/
def pathLimitHit (st : SearchState) : Bool :=
  S.limits.maxPaths ≠ 0 && decide (S.limits.maxPaths ≤ st.found.length)

/-- A walk of `n` edges is over the depth bound. -/
def overBudget (n : ℕ) : Bool := S.limits.maxDepth ≠ 0 && decide (S.limits.maxDepth < n)

/-- `Search::hasCorridorCaller`. -/
def hasCorridorCaller (node : SId) : Bool :=
  (S.callersOf node).any fun e => S.admits e && (S.minFromStart e.caller).isSome

/-- The exclusion of the cycle rule, for a walk that stands at `node` after `chain`. -/
def excluded (node : SId) (chain : List EdgeRef) (e : EdgeRef) : Bool :=
  match S.cycles with
  | .simpleNodes => decide (e.caller ∈ node :: chain.map (·.callee))
  | .simpleEdges => decide (e.pathKey ∈ chain.map (·.pathKey))

section Visit

variable (dfs : SId → List EdgeRef → SearchState → SearchState × Flags)

/-- The loop over the callers of a node. -/
def expand (node : SId) (chain : List EdgeRef) :
    List EdgeRef → SearchState → Flags → SearchState × Flags
  | [], st, fl => (st, fl)
  | e :: rest, st, fl =>
    if S.admits e = false then expand node chain rest st fl
    else
      match S.minFromStart e.caller with
      | none => expand node chain rest st fl
      | some d =>
        if S.overBudget (d + chain.length + 1) then
          expand node chain rest { st with depthLimit := true } fl
        else if S.excluded node chain e then
          expand node chain rest st { fl with blocked := true }
        else
          let r := dfs e.caller (e :: chain) st
          if S.pathLimitHit r.1 then
            -- exploration truncated, not exhausted
            ({ r.1 with truncated := r.1.truncated || !rest.isEmpty },
              { fl.or r.2 with blocked := true })
          else expand node chain rest r.1 (fl.or r.2)

/-- Skip a hub, stop at the depth bound or at the path limit, or walk the callers. -/
def explore (node : SId) (chain : List EdgeRef) (st : SearchState) : SearchState × Flags :=
  if S.limits.maxFanIn ≠ 0 ∧ 0 < chain.length ∧ S.limits.maxFanIn < S.storedInDegree node then
    (st.skipHub node (S.storedInDegree node), {})
  else if S.limits.maxDepth ≠ 0 ∧ S.limits.maxDepth ≤ chain.length then
    ({ st with depthLimit := st.depthLimit || S.hasCorridorCaller node }, {})
  else if S.pathLimitHit st then
    ({ st with truncated := st.truncated || S.hasCorridorCaller node }, { blocked := true })
  else S.expand dfs node chain (S.callersOf node) st {}

/-- The body of `Search::dfs` over its recursive call. -/
def visit (node : SId) (chain : List EdgeRef) (st : SearchState) : SearchState × Flags :=
  if S.pathLimitHit st then ({ st with truncated := true }, { blocked := true })
  else if S.limits.maxWork ≠ 0 ∧ S.limits.maxWork ≤ st.expansions then
    ({ st with workBudget := true }, { blocked := true })
  else
    let st := { st with expansions := st.expansions + 1 }
    if (st.deadAt node).any (· ≤ chain.length) then (st, {})
    else
      let hit : Bool := decide (node ∈ S.startSet ∧ 0 < chain.length)
      let st := if hit then { st with found := st.found ++ [chain] } else st
      let r := S.explore dfs node chain st
      let fl : Flags := Flags.or { found := hit } r.2
      (if fl.clean then r.1.memoize node chain.length else r.1, fl)

end Visit

/-- `Search::dfs`, with the number of edges the depth bound leaves; a visit at the bound
never recurses. -/
def dfs : ℕ → SId → List EdgeRef → SearchState → SearchState × Flags
  | 0 => S.visit fun _ _ st => (st, {})
  | left + 1 => S.visit (dfs left)

/-- The loop over the targets. -/
def searchTargets : List SId → SearchState → SearchState
  | [], st => st
  | t :: rest, st =>
    if S.pathLimitHit st then { st with truncated := true }
    else
      match S.minFromStart t with
      | none => searchTargets rest st
      | some d =>
        if S.overBudget d then searchTargets rest { st with depthLimit := true }
        else searchTargets rest (S.dfs S.limits.maxDepth t [] st).1

end Search

/-! ### Over the call graph -/

/-- The value of an enumerator, by which enumerators compare. -/
def EdgeKind.value : EdgeKind → ℕ
  | .directCall => 0 | .virtualDispatch => 1 | .functionPointer => 2 | .constructorCall => 3
  | .destructorCall => 4 | .operatorCall => 5 | .templateInstantiation => 6 | .lambdaCall => 7
  | .threadEntry => 8 | .functionPointerReturn => 9
  | .unnamed code => code.1.toNat

/-- The value of an enumerator of `Confidence`. -/
def Confidence.value : Confidence → ℕ
  | .Proven => 0 | .Plausible => 1 | .Unknown => 2
  | .unnamed code => code.1.toNat

/-- The value of an enumerator of `ExecutionContext`. -/
def ExecutionContext.value : ExecutionContext → ℕ
  | .synchronous => 0 | .threadSpawn => 1 | .asyncTask => 2 | .packagedTask => 3 | .invoke => 4
  | .unnamed code => code.1.toNat

namespace CallGraph

/-- The comparison of `sortCallerRefsCanonically`. -/
def canonicalLess (g : CallGraph) (a b : EdgeRef) : Bool :=
  if a.caller ≠ b.caller then decide (g.interner.resolve a.caller < g.interner.resolve b.caller)
  else if a.callSite ≠ b.callSite then
    decide (g.interner.resolve a.callSite < g.interner.resolve b.callSite)
  else if a.kind ≠ b.kind then decide (a.kind.value < b.kind.value)
  else if a.confidence ≠ b.confidence then decide (a.confidence.value < b.confidence.value)
  else if a.execContext ≠ b.execContext then decide (a.execContext.value < b.execContext.value)
  else decide (a.indirectionDepth < b.indirectionDepth)

/-- `sortCallerRefsCanonically`. -/
def sortCallerRefsCanonically (g : CallGraph) (edges : List EdgeRef) : List EdgeRef :=
  edges.insertionSort fun a b => g.canonicalLess b a = false

variable (ll : Llvm)

/-- The graph references an id: it is a node or an end of an edge. -/
def referenced (g : CallGraph) (id : SId) : Bool :=
  (g.findNode ll (g.interner.resolve id)).isSome || !(g.callerRefsOf id).isEmpty ||
    !(g.calleeRefsOf id).isEmpty

/-- `resolveKnownIds`: the ids a usr or display name stands for in a search. -/
def resolveKnownIds (g : CallGraph) (name : Bytes) : List SId :=
  let ids := ((g.usrsForName ll name).filterMap g.interner.find).filter (g.referenced ll)
  let ids := if ids = [] then (g.interner.find name).toList.filter (g.referenced ll) else ids
  (ids.insertionSort (· ≤ ·)).dedup

/-- `displayOf`: the display name of an id in a result. -/
def displayOf (g : CallGraph) (id : SId) : Bytes :=
  match g.findNode ll (g.interner.resolve id) with
  | some n => n.qualifiedName
  | none => g.interner.resolve id

/-- The hop of an edge. -/
def toHop (g : CallGraph) (e : EdgeRef) : PathHop :=
  { callerUsr := g.interner.resolve e.caller
    calleeUsr := g.interner.resolve e.callee
    caller := g.displayOf ll e.caller
    callee := g.displayOf ll e.callee
    callSite := g.interner.resolve e.callSite
    kind := e.kind
    confidence := e.confidence
    execContext := e.execContext
    indirectionDepth := e.indirectionDepth }

/-- The reported form of a chain. -/
def toCallPath (g : CallGraph) (chain : List EdgeRef) : CallPath := ⟨chain.map (g.toHop ll)⟩

/-- The ids of the starts. -/
def startIds (g : CallGraph) (starts : List Bytes) : List SId :=
  (starts.flatMap (g.resolveKnownIds ll)).dedup

/-- The targets in usr order. -/
def orderedTargets (g : CallGraph) (target : Bytes) : List SId :=
  (g.resolveKnownIds ll target).insertionSort fun a b =>
    ¬ g.interner.resolve b < g.interner.resolve a

/-- The corridor: fewest edges from any start, over the filtered callee edges. -/
def corridor (g : CallGraph) (filter : Option (EdgeRef → Bool)) (startSet : List SId) :
    SId → Option ℕ :=
  bfsDist (fun id => ((g.calleeRefsOf id).filter fun e => filter.all fun p => p e).map (·.callee))
    (g.interner.size + 1) startSet

/-- The search of a request. -/
def search (g : CallGraph) (starts : List Bytes) (limits : SearchLimits) (cycles : CycleRule)
    (filter : Option (EdgeRef → Bool)) : Search :=
  { callersOf := fun id => g.sortCallerRefsCanonically (g.callerRefsOf id)
    storedInDegree := g.storedInDegree
    limits := limits.capped
    cycles := cycles
    filter := filter
    startSet := g.startIds ll starts
    minFromStart := g.corridor filter (g.startIds ll starts) }

/-- `findCallerPaths`. -/
def findCallerPaths (g : CallGraph) (target : Bytes) (starts : List Bytes)
    (limits : SearchLimits) (cycles : CycleRule := .simpleNodes)
    (filter : Option (EdgeRef → Bool) := none) : PathSearchResult :=
  let targetKnown := !(g.resolveKnownIds ll target).isEmpty
  let startKnown := !(g.startIds ll starts).isEmpty
  if !targetKnown || !startKnown then { targetKnown := targetKnown, startKnown := startKnown }
  else
    let S := g.search ll starts limits cycles filter
    let st := S.searchTargets (g.orderedTargets ll target) {}
    { paths := st.found.map (g.toCallPath ll)
      skippedHubs := (st.hubs.map fun h =>
        ⟨g.interner.resolve h.1, g.displayOf ll h.1, h.2⟩).insertionSort fun a b => ¬ b.usr < a.usr
      stops := ⟨st.truncated, st.depthLimit, st.workBudget, st.hubPruned⟩
      expansions := st.expansions
      targetKnown := targetKnown
      startKnown := startKnown }

end CallGraph

end Vycor
