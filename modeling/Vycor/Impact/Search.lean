import Vycor.PathSearch.Basic

/-!
# Who is affected by a change

`findImpact` walks the caller edges from the changed functions, breadth first. A function is
marked when it is queued, with its depth, the edge it was found by and the changed function
its path ends at. A function at the depth bound is not expanded, nor is a hub, unless it was
changed itself; a work budget ends the search.
-/

namespace Vycor

/-- `ImpactLimits`; zero means no limit. -/
structure ImpactLimits where
  maxDepth : ℕ := 10
  maxFanIn : ℕ := 1000
  maxWork : ℕ := 200000
  deriving DecidableEq, Repr

/-- `AffectedFunction`; the path leads from the function to the changed one. -/
structure AffectedFunction where
  usr : Bytes
  name : Bytes
  depth : ℕ
  changedUsr : Bytes
  path : List PathHop
  deriving DecidableEq, Repr

/-- `ImpactResult`. -/
structure ImpactResult where
  changed : List Bytes := []
  unknown : List Bytes := []
  affected : List AffectedFunction := []
  skippedHubs : List SkippedHub := []
  stops : Stops := {}
  expansions : ℕ := 0
  deriving DecidableEq, Repr

/-- `ImpactResult::complete`. -/
def ImpactResult.complete (r : ImpactResult) : Bool := !r.stops.workBudget && !r.stops.hubPruned

/-- `ImpactResult::exhaustive`. -/
def ImpactResult.exhaustive (r : ImpactResult) : Bool := r.complete && decide (r.stops = {})

/-- `Reach`; a changed function has depth zero and no edge. -/
structure Reach where
  depth : ℕ := 0
  parent : SId := 0
  edge : EdgeRef := default
  origin : SId
  deriving DecidableEq, Repr

/-- What the search changes. `reached` lists the functions in the order they were queued. -/
structure ImpactWalk where
  reached : List (SId × Reach) := []
  queue : List SId := []
  hubs : List (SId × ℕ) := []
  stops : Stops := {}
  expansions : ℕ := 0

namespace ImpactWalk

/-- The entry of a function. -/
def find (st : ImpactWalk) (id : SId) : Option Reach :=
  (st.reached.find? (·.1 = id)).map (·.2)

/-- Queue a function with its entry. -/
def push (st : ImpactWalk) (id : SId) (r : Reach) : ImpactWalk :=
  { st with reached := st.reached ++ [(id, r)], queue := st.queue ++ [id] }

/-- `admitted`. -/
def admitted (filter : Option (EdgeRef → Bool)) (st : ImpactWalk) (e : EdgeRef) : Bool :=
  filter.all (fun p => p e) && (st.find e.caller).isNone

/-- An edge into a function whose entry is `here`. -/
def follow (filter : Option (EdgeRef → Bool)) (node : SId) (here : Reach) (st : ImpactWalk)
    (e : EdgeRef) : ImpactWalk :=
  if st.admitted filter e then st.push e.caller ⟨here.depth + 1, node, e, here.origin⟩ else st

end ImpactWalk

namespace CallGraph

variable (ll : Llvm) (g : CallGraph)

/-- The loop over the queue. -/
def impactLoop (limits : ImpactLimits) (filter : Option (EdgeRef → Bool)) :
    ℕ → ImpactWalk → ImpactWalk
  | 0, st => st
  | fuel + 1, st =>
    match st.queue with
    | [] => st
    | node :: rest =>
      let st := { st with queue := rest }
      let here := (st.find node).getD { origin := node }
      let callers := g.sortCallerRefsCanonically (g.callerRefsOf node)
      if limits.maxDepth ≠ 0 ∧ limits.maxDepth ≤ here.depth then
        impactLoop limits filter fuel
          (if callers.any (st.admitted filter) then
            { st with stops := { st.stops with depthLimit := true } }
          else st)
      else if 0 < here.depth ∧ limits.maxFanIn ≠ 0 ∧ limits.maxFanIn < g.storedInDegree node then
        impactLoop limits filter fuel
          { st with
            hubs := st.hubs ++ [(node, g.storedInDegree node)]
            stops := { st.stops with hubPruned := true } }
      else if limits.maxWork ≠ 0 ∧ limits.maxWork ≤ st.expansions then
        { st with stops := { st.stops with workBudget := true } }
      else
        impactLoop limits filter fuel
          (callers.foldl (ImpactWalk.follow filter node here)
            { st with expansions := st.expansions + 1 })

/-- The seeds in usr order, each once. -/
def impactSeeds (changed : List Bytes) : List SId :=
  ((changed.flatMap (g.resolveKnownIds ll)).insertionSort fun a b =>
    g.interner.resolve a ≤ g.interner.resolve b).dedup

/-- The hops from a function down to the changed one it was reached from. -/
def impactPath (st : ImpactWalk) : ℕ → SId → List PathHop
  | 0, _ => []
  | fuel + 1, cur =>
    match st.find cur with
    | none => []
    | some step =>
      if step.depth = 0 then [] else g.toHop ll step.edge :: impactPath st fuel step.parent

/-- The order of the affected functions. -/
def affectedBefore (a b : AffectedFunction) : Bool :=
  if a.depth ≠ b.depth then a.depth < b.depth else a.usr < b.usr

/-- The affected function of an entry. -/
def affectedOf (st : ImpactWalk) (id : SId) (r : Reach) : AffectedFunction where
  usr := g.interner.resolve id
  name := g.displayOf ll id
  depth := r.depth
  changedUsr := g.interner.resolve r.origin
  -- a parent was queued before
  path := g.impactPath ll st st.reached.length id

/-- `findImpact`. -/
def findImpact (changed : List Bytes) (limits : ImpactLimits)
    (filter : Option (EdgeRef → Bool) := none) : ImpactResult :=
  let seeds := g.impactSeeds ll changed
  let start := seeds.foldl (fun st s => st.push s { origin := s }) ({} : ImpactWalk)
  -- every string of the table is queued at most once
  let st := g.impactLoop limits filter (g.interner.size + 1) start
  { changed := seeds.map g.interner.resolve
    unknown := ((changed.filter fun name => (g.resolveKnownIds ll name).isEmpty).insertionSort
      (· ≤ ·)).dedup
    affected := ((st.reached.filter (·.2.depth ≠ 0)).map fun p =>
      g.affectedOf ll st p.1 p.2).insertionSort fun a b => affectedBefore b a = false
    skippedHubs := (st.hubs.map fun h =>
      ⟨g.interner.resolve h.1, g.displayOf ll h.1, h.2⟩).insertionSort fun a b => ¬ b.usr < a.usr
    stops := st.stops
    expansions := st.expansions }

end CallGraph

end Vycor
