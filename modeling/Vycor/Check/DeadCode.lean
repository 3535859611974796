import Vycor.Impact.Identity

/-!
# Dead code

`DeadCodeAnalyzer` walks the callee edges from the entry points and the public API. The
pessimistic walk follows proven edges only. The optimistic one follows plausible edges too,
those of a virtual dispatch once the class of the target is constructed somewhere on the walk;
till then they are put aside and looked at again whenever a class was added.
-/

namespace Vycor

/-- `Liveness`. -/
inductive Liveness where
  | alive | optimisticallyAlive | dead
  deriving DecidableEq, Repr

/-- `rank` of `getResults`. -/
def Liveness.rank : Liveness → ℕ
  | .alive => 2
  | .optimisticallyAlive => 1
  | .dead => 0

/-- What a walk changes: the alive usrs, the queue, the classes whose constructor was called,
the targets of the edges put aside, and whether a class or a target was added in this round. -/
structure LivenessWalk where
  alive : List Bytes := []
  queue : List Bytes := []
  constructedClasses : List Bytes := []
  deferred : List Bytes := []
  changed : Bool := false
  deriving DecidableEq, Repr

/-- A usr is alive from now on, and walked from once. -/
def LivenessWalk.reach (st : LivenessWalk) (usr : Bytes) : LivenessWalk :=
  if usr ∈ st.alive then st
  else { st with alive := usr :: st.alive, queue := st.queue ++ [usr] }

/-- A class is constructed. -/
def LivenessWalk.construct (st : LivenessWalk) (cls : Bytes) : LivenessWalk :=
  if cls ∈ st.constructedClasses then st
  else { st with constructedClasses := cls :: st.constructedClasses, changed := true }

namespace CallGraph

variable (ll : Llvm) (g : CallGraph)

/-- The class of a node, where it has one. -/
def enclosingClassOf (usr : Bytes) : Option Bytes :=
  ((g.findNode ll usr).map (·.enclosingClass)).filter (· ≠ [])

/-- A class that the target of a dispatch is a method of is constructed. -/
def targetConstructed (constructed : List Bytes) (usr : Bytes) : Bool :=
  (g.getClassesForImpl ll usr).any (· ∈ constructed) ||
    (g.enclosingClassOf ll usr).any (· ∈ constructed)

/-- `shouldFollowEdge`. -/
def shouldFollowEdge (includeVirtualPlausible : Bool) (constructed : List Bytes)
    (edge : CallGraphEdge) : Bool :=
  if edge.confidence = .Proven then true
  else if !includeVirtualPlausible then false
  else if edge.kind = .functionPointer then true
  else if edge.kind = .virtualDispatch then g.targetConstructed ll constructed edge.calleeUsr
  else true

/-- The body of the loop over the edges of a function. -/
def walkEdge (includeVirtualPlausible : Bool) (st : LivenessWalk) (edge : CallGraphEdge) :
    LivenessWalk :=
  let st :=
    if edge.kind = .constructorCall then
      match g.enclosingClassOf ll edge.calleeUsr with
      | some cls => st.construct cls
      | none => st
    else st
  if g.shouldFollowEdge ll includeVirtualPlausible st.constructedClasses edge then
    st.reach edge.calleeUsr
  else if includeVirtualPlausible ∧ edge.kind = .virtualDispatch ∧ edge.confidence = .Plausible then
    { st with deferred := st.deferred ++ [edge.calleeUsr] }
  else st

/-- The loop over the queue. -/
def drainQueue (includeVirtualPlausible : Bool) : ℕ → LivenessWalk → LivenessWalk
  | 0, st => st
  | fuel + 1, st =>
    match st.queue with
    | [] => st
    | current :: rest =>
      drainQueue includeVirtualPlausible fuel
        ((g.calleesOf ll current).foldl (g.walkEdge ll includeVirtualPlausible)
          { st with queue := rest })

/-- The edges put aside, looked at again. -/
def recheckDeferred (st : LivenessWalk) : LivenessWalk :=
  let follow := g.targetConstructed ll st.constructedClasses
  { (st.deferred.filter follow).foldl LivenessWalk.reach st with
    deferred := st.deferred.filter fun usr => !follow usr }

/-- The rounds of `bfs`, each of which drains the queue. -/
def livenessRounds (includeVirtualPlausible : Bool) : ℕ → LivenessWalk → LivenessWalk
  | 0, st => st
  | fuel + 1, st =>
    -- every usr is queued once
    let st := g.drainQueue ll includeVirtualPlausible (g.interner.size + 2) { st with changed := false }
    if st.changed then
      livenessRounds includeVirtualPlausible fuel
        (if includeVirtualPlausible then g.recheckDeferred ll st else st)
    else st

/-- `DeadCodeAnalyzer::bfs`, the alive usrs. A round but the last adds a class. -/
def livenessBfs (includeVirtualPlausible : Bool) (seeds : List Bytes) : List Bytes :=
  let seeded := (seeds.flatMap (g.usrsForName ll)).foldl LivenessWalk.reach {}
  (g.livenessRounds ll includeVirtualPlausible (g.allNodes.length + 2) seeded).alive

/-- `DeadCodeAnalyzer::getResults` after `analyzePessimistic` and, if asked for,
`analyzeOptimistic`: the liveness of every display name, that of its most alive function. -/
def livenessResults (entryPoints publicApi : List Bytes) (includeOptimistic : Bool) :
    List (Bytes × Liveness) :=
  let seeds := entryPoints ++ publicApi
  let pessimistic := g.livenessBfs ll false seeds
  let optimistic := if includeOptimistic then g.livenessBfs ll true seeds else []
  let liveness (n : CallGraphNode) : Liveness :=
    if n.usr ∈ pessimistic then .alive
    else if n.usr ∈ optimistic then .optimisticallyAlive
    else .dead
  ((g.allNodes.map (·.qualifiedName)).dedup).map fun name =>
    (name, (g.allNodes.filter (·.qualifiedName = name)).foldl
      (fun best n => if best.rank < (liveness n).rank then liveness n else best) .dead)

end CallGraph

end Vycor
