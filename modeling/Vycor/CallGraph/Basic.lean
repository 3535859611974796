import Vycor.Text.Interner
import Vycor.Lib.Closure

/-!
# The call graph: data and mutators

`CallGraph` as the source stores it: an interner, the node table with its disambiguation
index, the edge log with tombstones and its redundant indexes, the four relations with
their reverse maps, and the per-TU provenance. The mutators are written over a few
primitive updates (`insertNode`, `contribute`, `registerEdge`, `tagEdge` and the `relate…`
family) that `addNode`, `addEdge`, the relation mutators and `absorb` share in the source
word for word; the invariants are proved once per primitive.

Counters and ids are natural numbers. The order in which `absorb` walks the shard's hash
maps is an argument (`IterOrder`), so every statement about `absorb` holds for every
iteration order.
-/

namespace Vycor

/-! ### Edges and nodes -/

/-- A byte that is the code of none of the `n` enumerators of an enumeration. The snapshot
loader casts whatever byte it reads, so a damaged file can produce such values. -/
abbrev UnnamedCode (n : ℕ) := {c : UInt8 // n ≤ c.toNat}

/-- `EdgeKind`. -/
inductive EdgeKind where
  | directCall | virtualDispatch | functionPointer | constructorCall | destructorCall
  | operatorCall | templateInstantiation | lambdaCall | threadEntry | functionPointerReturn
  | unnamed (code : UnnamedCode 10)
  deriving DecidableEq, Repr, Inhabited

/-- `Confidence`. -/
inductive Confidence where
  | Proven | Plausible | Unknown
  | unnamed (code : UnnamedCode 3)
  deriving DecidableEq, Repr, Inhabited

/-- `ExecutionContext`. -/
inductive ExecutionContext where
  | synchronous | threadSpawn | asyncTask | packagedTask | invoke
  | unnamed (code : UnnamedCode 5)
  deriving DecidableEq, Repr, Inhabited

/-- The semantic fields of an edge over a type of names. Over interned ids this is both
`CallGraph::EdgeRef` and the content key `EdgeKey`; over strings it is the fact the edge
states. -/
structure Edge (ι : Type*) where
  caller : ι
  callee : ι
  callSite : ι
  kind : EdgeKind
  confidence : Confidence
  execContext : ExecutionContext
  indirectionDepth : ℕ
  deriving DecidableEq, Repr, Inhabited

/-- `CallGraph::EdgeRef`. -/
abbrev EdgeRef := Edge SId

/-- An edge over resolved strings. -/
abbrev EdgeFact := Edge Bytes

/-- Rename the three names of an edge. -/
def Edge.map {ι ι' : Type*} (f : ι → ι') (e : Edge ι) : Edge ι' :=
  { caller := f e.caller, callee := f e.callee, callSite := f e.callSite, kind := e.kind,
    confidence := e.confidence, execContext := e.execContext,
    indirectionDepth := e.indirectionDepth }

/-- `CallGraph::StoredEdge`: an edge with its number of registrations, `0` for a
tombstone. -/
structure StoredEdge extends Edge SId where
  refs : ℕ
  deriving DecidableEq, Repr, Inhabited

/-- `CallGraph::keyOf`. -/
def keyOf (se : StoredEdge) : EdgeRef := se.toEdge

/-- `CallGraphNode`. -/
structure CallGraphNode where
  qualifiedName : Bytes
  file : Bytes := []
  line : ℕ := 0
  isEntryPoint : Bool := false
  isVirtual : Bool := false
  enclosingClass : Bytes := []
  usr : Bytes := []
  deriving DecidableEq, Repr, Inhabited

/-- `CallGraphEdge`, the public form of an edge: `callerUsr` and `calleeUsr` are filled in
query results and ignored by `addEdge`. -/
structure CallGraphEdge where
  callerName : Bytes
  calleeName : Bytes
  kind : EdgeKind
  confidence : Confidence
  callSite : Bytes
  indirectionDepth : ℕ := 0
  execContext : ExecutionContext := .synchronous
  callerUsr : Bytes := []
  calleeUsr : Bytes := []
  deriving DecidableEq, Repr, Inhabited

/-- The name fallback and the conversion to index text at the head of `addNode`. -/
def CallGraphNode.stored (n : CallGraphNode) : CallGraphNode :=
  { n with
    usr := toIndexText (if n.usr = [] then n.qualifiedName else n.usr)
    qualifiedName := toIndexText n.qualifiedName
    file := toIndexText n.file
    enclosingClass := toIndexText n.enclosingClass }

/-- The merge of a repeated registration into the stored node: non-empty fields overwrite,
flags accumulate, the identity and the display name stay. -/
def CallGraphNode.backfill (old node : CallGraphNode) : CallGraphNode :=
  { old with
    file := if node.file = [] then old.file else node.file
    line := if node.line = 0 then old.line else node.line
    isEntryPoint := old.isEntryPoint || node.isEntryPoint
    isVirtual := old.isVirtual || node.isVirtual
    enclosingClass := if node.enclosingClass = [] then old.enclosingClass
      else node.enclosingClass }

/-- The fact an edge handed to `addEdge` states, as index text. -/
def CallGraphEdge.fact (e : CallGraphEdge) : EdgeFact :=
  { caller := toIndexText e.callerName, callee := toIndexText e.calleeName,
    callSite := toIndexText e.callSite, kind := e.kind, confidence := e.confidence,
    execContext := e.execContext, indirectionDepth := e.indirectionDepth }

/-! ### The state -/

/-- The state of a `CallGraph`. -/
structure CallGraph where
  interner : StringInterner := {}
  nodes : SId → Option CallGraphNode := fun _ => none
  byName : SId → List SId := fun _ => []
  edges : List StoredEdge := []
  edgeIndex : EdgeRef → Option ℕ := fun _ => none
  outEdges : SId → List ℕ := fun _ => []
  inEdges : SId → List ℕ := fun _ => []
  derivedClasses : SId → List SId := fun _ => []
  methodOverrides : SId → List SId := fun _ => []
  overrideBases : SId → List SId := fun _ => []
  effectiveImplClasses : SId → List SId := fun _ => []
  functionReturns : SId → List SId := fun _ => []
  returnedBy : SId → List SId := fun _ => []
  tuEdges : SId → List ℕ := fun _ => []
  nodeContributors : SId → List SId := fun _ => []
  tuNodes : SId → List SId := fun _ => []
  liveEdgeCount : ℕ := 0
  readOnly : Bool := false

instance : Inhabited CallGraph := ⟨{}⟩

namespace CallGraph

/-! ### Primitive updates -/

/-- `interner_.intern`. -/
def intern (g : CallGraph) (s : Bytes) : CallGraph × SId :=
  ({ g with interner := (g.interner.intern s).1 }, (g.interner.intern s).2)

/-- `CallGraph::internRaw`. -/
abbrev internRaw (g : CallGraph) (s : Bytes) : CallGraph × SId := g.intern (toIndexText s)

/-- A node not registered so far, listed under its display name. -/
def insertNode (g : CallGraph) (nameId displayId : SId) (node : CallGraphNode) : CallGraph :=
  { g with
    byName := pushNew g.byName displayId nameId
    nodes := Function.update g.nodes nameId (some node) }

/-- A further registration of a stored node. -/
def backfillNode (g : CallGraph) (nameId : SId) (old node : CallGraphNode) : CallGraph :=
  { g with nodes := Function.update g.nodes nameId (some (old.backfill node)) }

/-- Insert a node, or merge it into the stored one. -/
def putNode (g : CallGraph) (nameId displayId : SId) (node : CallGraphNode) : CallGraph :=
  match g.nodes nameId with
  | none => g.insertNode nameId displayId node
  | some old => g.backfillNode nameId old node

/-- Record that a TU contributed to a node, once. -/
def contribute (g : CallGraph) (nameId tuId : SId) : CallGraph :=
  if tuId ∈ g.nodeContributors nameId then g
  else
    { g with
      nodeContributors := insertAt g.nodeContributors nameId tuId
      tuNodes := pushAt g.tuNodes tuId nameId }

/-- The dedup probe of an edge: a stored edge with the same content takes over the
registrations, otherwise the edge is appended and indexed. Returns its position. -/
def registerEdge (g : CallGraph) (se : StoredEdge) : CallGraph × ℕ :=
  match g.edgeIndex (keyOf se) with
  | some idx =>
    ({ g with edges := g.edges.modify idx fun e => { e with refs := e.refs + se.refs } }, idx)
  | none =>
    ({ g with
        outEdges := pushAt g.outEdges se.caller g.edges.length
        inEdges := pushAt g.inEdges se.callee g.edges.length
        edges := g.edges ++ [se]
        edgeIndex := Function.update g.edgeIndex (keyOf se) (some g.edges.length)
        liveEdgeCount := g.liveEdgeCount + 1 },
      g.edges.length)

/-- `tuEdges_[tuId].push_back(idx)`. -/
def tagEdge (g : CallGraph) (tuId : SId) (idx : ℕ) : CallGraph :=
  { g with tuEdges := pushAt g.tuEdges tuId idx }

/-- One pair of the class hierarchy. -/
def relateDerived (g : CallGraph) (base derived : SId) : CallGraph :=
  { g with derivedClasses := pushNew g.derivedClasses base derived }

/-- One pair of the override relation, in both directions. -/
def relateOverride (g : CallGraph) (base override : SId) : CallGraph :=
  { g with
    methodOverrides := pushNew g.methodOverrides base override
    overrideBases := pushNew g.overrideBases override base }

/-- One pair of the effective-implementation relation. -/
def relateImpl (g : CallGraph) (impl cls : SId) : CallGraph :=
  { g with effectiveImplClasses := insertAt g.effectiveImplClasses impl cls }

/-- One pair of the function-return relation, in both directions. -/
def relateReturn (g : CallGraph) (fn ret : SId) : CallGraph :=
  if ret ∈ g.functionReturns fn then g
  else
    { g with
      functionReturns := insertAt g.functionReturns fn ret
      returnedBy := pushAt g.returnedBy ret fn }

/-! ### The mutators -/

/-- `CallGraph::addNode`. -/
def addNode (g : CallGraph) (node : CallGraphNode) (tuPath : Bytes := []) : CallGraph :=
  if g.readOnly then g
  else
    let node := node.stored
    let name := g.intern node.usr
    let display := name.1.intern node.qualifiedName
    let g := display.1.putNode name.2 display.2 node
    if tuPath = [] then g
    else (g.internRaw tuPath).1.contribute name.2 (g.internRaw tuPath).2

/-- `CallGraph::addEdge`. -/
def addEdge (g : CallGraph) (edge : CallGraphEdge) (tuPath : Bytes := []) : CallGraph :=
  if g.readOnly then g
  else
    let caller := g.internRaw edge.callerName
    let callee := caller.1.internRaw edge.calleeName
    let site := callee.1.internRaw edge.callSite
    let se : StoredEdge :=
      { caller := caller.2, callee := callee.2, callSite := site.2, kind := edge.kind,
        confidence := edge.confidence, execContext := edge.execContext,
        indirectionDepth := edge.indirectionDepth, refs := 1 }
    let stored := site.1.registerEdge se
    if tuPath = [] then stored.1
    else (stored.1.internRaw tuPath).1.tagEdge (stored.1.internRaw tuPath).2 stored.2

/-- The relation mutators intern two names and relate them; the TU argument of the source
is unnamed and unused. -/
def relateRaw (g : CallGraph) (relate : CallGraph → SId → SId → CallGraph) (a b : Bytes) :
    CallGraph :=
  if g.readOnly then g
  else
    let first := g.internRaw a
    let second := first.1.internRaw b
    relate second.1 first.2 second.2

/-- `CallGraph::addDerivedClass`. -/
def addDerivedClass (g : CallGraph) (baseClass derivedClass : Bytes) (_tuPath : Bytes := []) :
    CallGraph :=
  g.relateRaw relateDerived baseClass derivedClass

/-- `CallGraph::addMethodOverride`. -/
def addMethodOverride (g : CallGraph) (baseMethod overrideMethod : Bytes)
    (_tuPath : Bytes := []) : CallGraph :=
  g.relateRaw relateOverride baseMethod overrideMethod

/-- `CallGraph::addEffectiveImpl`, which interns the method before the class. -/
def addEffectiveImpl (g : CallGraph) (concreteClass implMethod : Bytes)
    (_tuPath : Bytes := []) : CallGraph :=
  g.relateRaw relateImpl implMethod concreteClass

/-- `CallGraph::addFunctionReturn`. -/
def addFunctionReturn (g : CallGraph) (funcName returnedFunc : Bytes) (_tuPath : Bytes := []) :
    CallGraph :=
  g.relateRaw relateReturn funcName returnedFunc

/-! ### Absorbing a shard -/

/-- The orders in which `absorb` walks the shard's hash maps. -/
structure IterOrder where
  nodes : List SId
  tuEdges : List SId
  derivedClasses : List SId
  methodOverrides : List SId
  effectiveImplClasses : List SId
  functionReturns : List SId

/-- An order visits every key of a map once: a permutation of the shard's ids. Ids without
an entry contribute nothing. -/
structure IterOrder.Valid (ord : IterOrder) (shard : CallGraph) : Prop where
  nodes : ord.nodes.Perm (List.range shard.interner.size)
  tuEdges : ord.tuEdges.Perm (List.range shard.interner.size)
  derivedClasses : ord.derivedClasses.Perm (List.range shard.interner.size)
  methodOverrides : ord.methodOverrides.Perm (List.range shard.interner.size)
  effectiveImplClasses : ord.effectiveImplClasses.Perm (List.range shard.interner.size)
  functionReturns : ord.functionReturns.Perm (List.range shard.interner.size)

/-- The orders by ascending id. -/
def idOrder (shard : CallGraph) : IterOrder :=
  let ids := List.range shard.interner.size
  ⟨ids, ids, ids, ids, ids, ids⟩

theorem idOrder_valid (shard : CallGraph) : (idOrder shard).Valid shard :=
  ⟨.refl _, .refl _, .refl _, .refl _, .refl _, .refl _⟩

section Absorb

variable (shard : CallGraph) (remap : SId → SId)

/-- One shard node: inserted, or merged into the stored one, then its contributors. -/
def absorbNode (g : CallGraph) (shardNameId : SId) : CallGraph :=
  match shard.nodes shardNameId with
  | none => g
  | some node =>
    let nameId := remap shardNameId
    let g := match g.nodes nameId with
      | none =>
        let display := g.intern node.qualifiedName
        display.1.insertNode nameId display.2 node
      | some old => g.backfillNode nameId old node
    (shard.nodeContributors shardNameId).foldl (fun g tu => g.contribute nameId (remap tu)) g

/-- One shard edge: tombstones are skipped, a live edge brings its registrations. The
second component is `edgeRemap`. -/
def absorbEdge (acc : CallGraph × List (Option ℕ)) (src : StoredEdge) :
    CallGraph × List (Option ℕ) :=
  if src.refs = 0 then (acc.1, acc.2 ++ [none])
  else
    let stored := acc.1.registerEdge { src.toEdge.map remap with refs := src.refs }
    (stored.1, acc.2 ++ [some stored.2])

/-- The edge registrations of one shard TU, re-pointed. -/
def absorbTags (edgeRemap : List (Option ℕ)) (g : CallGraph) (shardTu : SId) : CallGraph :=
  (shard.tuEdges shardTu).foldl (fun g i =>
    match edgeRemap.getD i none with
    | some idx => g.tagEdge (remap shardTu) idx
    | none => g) g

/-- One entry of a shard relation. -/
def absorbRelation (relation : SId → List SId) (relate : CallGraph → SId → SId → CallGraph)
    (g : CallGraph) (a : SId) : CallGraph :=
  (relation a).foldl (fun g b => relate g (remap a) (remap b)) g

end Absorb

/-- `CallGraph::absorb` of another graph. -/
def absorb (g shard : CallGraph) (ord : IterOrder) : CallGraph :=
  if g.readOnly then g
  else
    let table := g.interner.internAll shard.interner.strings
    let remap : SId → SId := fun id => table.2.getD id 0
    let g := { g with interner := table.1 }
    let g := ord.nodes.foldl (absorbNode shard remap) g
    let acc := shard.edges.foldl (absorbEdge remap) (g, [])
    let g := ord.tuEdges.foldl (absorbTags shard remap acc.2) acc.1
    let g := ord.derivedClasses.foldl (absorbRelation remap shard.derivedClasses relateDerived) g
    let g := ord.methodOverrides.foldl
      (absorbRelation remap shard.methodOverrides relateOverride) g
    let g := ord.effectiveImplClasses.foldl
      (absorbRelation remap shard.effectiveImplClasses relateImpl) g
    ord.functionReturns.foldl (absorbRelation remap shard.functionReturns relateReturn) g

/-! ### Removing TUs -/

/-- The state of the first pass of `removeTUs`: the edge log and its index, the edges that
died and the endpoints whose adjacency vectors list them. -/
structure Release where
  edges : List StoredEdge
  edgeIndex : EdgeRef → Option ℕ
  liveEdgeCount : ℕ
  dead : List ℕ := []
  affectedCallers : List SId := []
  affectedCallees : List SId := []
  removed : ℕ := 0

/-- Release one registration: the edge dies with its last one. -/
def Release.edge (r : Release) (idx : ℕ) : Release :=
  match r.edges[idx]? with
  | none => r
  | some e =>
    if e.refs = 0 then r
    else
      let r := { r with edges := r.edges.modify idx fun e => { e with refs := e.refs - 1 } }
      if 0 < e.refs - 1 then r
      else
        { r with
          dead := idx :: r.dead
          affectedCallers := e.caller :: r.affectedCallers
          affectedCallees := e.callee :: r.affectedCallees
          edgeIndex := Function.update r.edgeIndex (keyOf e) none
          liveEdgeCount := r.liveEdgeCount - 1
          removed := r.removed + 1 }

/-- Take one TU out of a node's contributors; the node goes with its last one. -/
def dropContribution (tuId : SId) (g : CallGraph) (nodeId : SId) : CallGraph :=
  if g.nodeContributors nodeId = [] then g
  else
    let rest := (g.nodeContributors nodeId).filter (· ≠ tuId)
    let g := { g with nodeContributors := Function.update g.nodeContributors nodeId rest }
    if rest ≠ [] then g
    else
      match g.nodes nodeId with
      | none => g
      | some node =>
        { g with
          byName := match g.interner.find node.qualifiedName with
            | some displayId =>
              Function.update g.byName displayId ((g.byName displayId).filter (· ≠ nodeId))
            | none => g.byName
          nodes := Function.update g.nodes nodeId none }

/-- The nodes of one removed TU. -/
def dropTuNodes (g : CallGraph) (tuId : SId) : CallGraph :=
  let g := (g.tuNodes tuId).foldl (dropContribution tuId) g
  { g with tuNodes := Function.update g.tuNodes tuId [] }

/-- The ids of the TUs to remove that the interner knows, each once. -/
def removedIds (g : CallGraph) (tuPaths : List Bytes) : List SId :=
  freshOf [] (tuPaths.filterMap fun p => g.interner.find (toIndexText p))

/-- The first pass: release every registration of the removed TUs. -/
def releaseTUs (g : CallGraph) (tuIds : List SId) : Release :=
  tuIds.foldl (fun r tuId => (g.tuEdges tuId).foldl Release.edge r)
    { edges := g.edges, edgeIndex := g.edgeIndex, liveEdgeCount := g.liveEdgeCount }

/-- The state after the first pass and the scrubbing of the adjacency vectors. -/
def scrubbed (g : CallGraph) (tuIds : List SId) : CallGraph :=
  let r := g.releaseTUs tuIds
  { g with
    edges := r.edges
    edgeIndex := r.edgeIndex
    liveEdgeCount := r.liveEdgeCount
    tuEdges := fun tu => if tu ∈ tuIds then [] else g.tuEdges tu
    outEdges := fun c =>
      if c ∈ r.affectedCallers then (g.outEdges c).filter (· ∉ r.dead) else g.outEdges c
    inEdges := fun c =>
      if c ∈ r.affectedCallees then (g.inEdges c).filter (· ∉ r.dead) else g.inEdges c }

/-- `CallGraph::removeTUs`: the graph and the number of edges fully removed. -/
def removeTUs (g : CallGraph) (tuPaths : List Bytes) : CallGraph × ℕ :=
  if g.readOnly then (g, 0)
  else
    let tuIds := g.removedIds tuPaths
    (tuIds.foldl dropTuNodes (g.scrubbed tuIds), (g.releaseTUs tuIds).removed)

/-! ### Compaction -/

/-- The tables `compact` rebuilds, and the map from old to new edge positions. -/
structure Compaction where
  edges : List StoredEdge := []
  edgeIndex : EdgeRef → Option ℕ := fun _ => none
  outEdges : SId → List ℕ := fun _ => []
  inEdges : SId → List ℕ := fun _ => []
  remap : ℕ → Option ℕ := fun _ => none

/-- One edge of the old log: live edges move to the end of the new one. -/
def Compaction.step (c : Compaction) (entry : StoredEdge × ℕ) : Compaction :=
  let edge := entry.1
  if edge.refs = 0 then c
  else
    { edges := c.edges ++ [edge]
      edgeIndex := if (c.edgeIndex (keyOf edge)).isSome then c.edgeIndex
        else Function.update c.edgeIndex (keyOf edge) (some c.edges.length)
      outEdges := pushAt c.outEdges edge.caller c.edges.length
      inEdges := pushAt c.inEdges edge.callee c.edges.length
      remap := Function.update c.remap entry.2 (some c.edges.length) }

/-- `CallGraph::compact`. -/
def compact (g : CallGraph) : CallGraph :=
  if g.readOnly then g
  else
    let c := g.edges.zipIdx.foldl Compaction.step {}
    { g with
      edges := c.edges
      edgeIndex := c.edgeIndex
      outEdges := c.outEdges
      inEdges := c.inEdges
      tuEdges := fun tu => (g.tuEdges tu).filterMap c.remap }

/-! ### Runs -/

end CallGraph

/-- One registration of a TU, or an untagged one when the TU path is empty. -/
inductive Registration where
  | node (n : CallGraphNode) (tuPath : Bytes)
  | edge (e : CallGraphEdge) (tuPath : Bytes)
  | derivedClass (baseClass derivedClass tuPath : Bytes)
  | methodOverride (baseMethod overrideMethod tuPath : Bytes)
  | effectiveImpl (concreteClass implMethod tuPath : Bytes)
  | functionReturn (funcName returnedFunc tuPath : Bytes)
  deriving DecidableEq

/-- The TU a registration is tagged with. -/
def Registration.tuPath : Registration → Bytes
  | .node _ tu | .edge _ tu | .derivedClass _ _ tu | .methodOverride _ _ tu
  | .effectiveImpl _ _ tu | .functionReturn _ _ tu => tu

/-- The registration carries per-TU provenance: nodes and edges do, relations do not. -/
def Registration.hasProvenance : Registration → Bool
  | .node _ tu | .edge _ tu => tu ≠ []
  | _ => false

/-- The registration is withdrawn by a removal of the given TUs. -/
def Registration.removedBy (r : Registration) (tuPaths : List Bytes) : Bool :=
  r.hasProvenance && decide (r.tuPath ∈ tuPaths)

namespace CallGraph

/-- Perform one registration with the public mutators. -/
def register (g : CallGraph) : Registration → CallGraph
  | .node n tu => g.addNode n tu
  | .edge e tu => g.addEdge e tu
  | .derivedClass b d tu => g.addDerivedClass b d tu
  | .methodOverride b o tu => g.addMethodOverride b o tu
  | .effectiveImpl c m tu => g.addEffectiveImpl c m tu
  | .functionReturn f r tu => g.addFunctionReturn f r tu

/-- Perform a list of registrations. -/
def registerAll (g : CallGraph) (rs : List Registration) : CallGraph := rs.foldl register g

/-- `BuiltFrom P g log`: the public mutators can produce `g` from an empty graph with
registrations that all satisfy `P`, and `log` lists the registrations made to it (directly
or through absorbed graphs) that no removal has withdrawn since. -/
inductive BuiltFrom (P : Registration → Prop) : CallGraph → List Registration → Prop where
  | empty : BuiltFrom P {} []
  | register {g log} (r : Registration) : P r → BuiltFrom P g log →
      BuiltFrom P (g.register r) (log ++ [r])
  | absorb {g log shard log'} (ord : IterOrder) : BuiltFrom P g log → BuiltFrom P shard log' →
      ord.Valid shard → BuiltFrom P (g.absorb shard ord) (log ++ log')
  | removeTUs {g log} (tuPaths : List Bytes) : BuiltFrom P g log →
      BuiltFrom P (g.removeTUs tuPaths).1 (log.filter fun r => !r.removedBy tuPaths)
  | compact {g log} : BuiltFrom P g log → BuiltFrom P g.compact log

/-- `Reachable g log`: some sequence of public mutators produces `g`. -/
abbrev Reachable : CallGraph → List Registration → Prop := BuiltFrom fun _ => True

theorem BuiltFrom.mono {P Q : Registration → Prop} (hPQ : ∀ r, P r → Q r) {g : CallGraph}
    {log : List Registration} (h : BuiltFrom P g log) : BuiltFrom Q g log := by
  induction h with
  | empty => exact .empty
  | register r hr _ ih => exact .register r (hPQ r hr) ih
  | absorb ord _ _ hord ih ih' => exact .absorb ord ih ih' hord
  | removeTUs tuPaths _ ih => exact .removeTUs tuPaths ih
  | compact _ ih => exact .compact ih

/-- Every registration in the log satisfies the condition the graph was built under. -/
theorem BuiltFrom.log_forall {P : Registration → Prop} {g : CallGraph}
    {log : List Registration} (h : BuiltFrom P g log) : ∀ r ∈ log, P r := by
  induction h with
  | empty => simp
  | register r hr _ ih =>
    intro r' hr'
    rcases List.mem_append.mp hr' with h' | h'
    exacts [ih r' h', List.mem_singleton.mp h' ▸ hr]
  | absorb ord _ _ _ ih ih' =>
    intro r' hr'
    rcases List.mem_append.mp hr' with h' | h'
    exacts [ih r' h', ih' r' h']
  | removeTUs tuPaths _ ih => exact fun r' hr' => ih r' (List.mem_of_mem_filter hr')
  | compact _ ih => exact ih

theorem BuiltFrom.registerAll {P : Registration → Prop} {g : CallGraph}
    {log rs : List Registration} (h : BuiltFrom P g log) (hrs : ∀ r ∈ rs, P r) :
    BuiltFrom P (g.registerAll rs) (log ++ rs) := by
  induction rs generalizing g log with
  | nil => rwa [List.append_nil]
  | cons r rest ih =>
    rw [List.append_cons]
    exact ih (.register r (hrs r List.mem_cons_self) h)
      fun r' hr' => hrs r' (List.mem_cons_of_mem _ hr')

end CallGraph

end Vycor
