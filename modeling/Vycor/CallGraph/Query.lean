import Vycor.CallGraph.Runs

/-!
# Queries of the call graph

The read side of `CallGraph`: name resolution, the two id-level edge views with their
query-time expansions, and the relation getters. `calleeRefsOf` and `callerRefsOf` walk
stored edges three times, for the edges shown as they are, for the override expansion of
plausible virtual dispatch, and for the deferred function-pointer returns; a seen-set runs
through the last two (`admitNew`).
-/

namespace Vycor

/-! ### Which stored edges a walk looks at -/

namespace StoredEdge

/-- A live edge shown as it is: deferred join rows never are. -/
def shown (se : StoredEdge) : Bool := se.refs ≠ 0 && se.kind ≠ .functionPointerReturn

/-- A live plausible virtual dispatch, which expands through overrides. -/
def dispatches (se : StoredEdge) : Bool :=
  se.refs ≠ 0 && se.kind = .virtualDispatch && se.confidence = .Plausible

/-- A live deferred function-pointer-through-return row. -/
def defers (se : StoredEdge) : Bool := se.refs ≠ 0 && se.kind = .functionPointerReturn

/-- The edge synthesized for an override `callee` of a dispatch. -/
def dispatchTo (se : StoredEdge) (callee : SId) : EdgeRef := { se.toEdge with callee := callee }

/-- The edge synthesized for a function `callee` a deferred row is known to return. -/
def returnTo (se : StoredEdge) (callee : SId) : EdgeRef :=
  { se.toEdge with
    callee := callee
    kind := if se.execContext ≠ .synchronous then .threadEntry else .functionPointer }

end StoredEdge

namespace CallGraph

/-- The edges at a list of positions. -/
def edgesAt (g : CallGraph) (l : List ℕ) : List StoredEdge := l.filterMap fun i => g.edges[i]?

/-- `CallGraph::transitiveClosure`. -/
def transitiveClosure (g : CallGraph) (start : SId) (relation : SId → List SId) : List SId :=
  closureFrom relation (g.interner.size + 1) start

/-! ### The callee side -/

/-- The edges leaving `caller`, in insertion order. -/
def storedOut (g : CallGraph) (caller : SId) : List StoredEdge := g.edgesAt (g.outEdges caller)

/-- Candidates of the override expansion, keyed by (callee, call site). -/
def calleeDispatch (g : CallGraph) (caller : SId) : List ((SId × SId) × EdgeRef) :=
  ((g.storedOut caller).filter StoredEdge.dispatches).flatMap fun se =>
    (g.transitiveClosure se.callee g.methodOverrides).map fun ov =>
      ((ov, se.callSite), se.dispatchTo ov)

/-- Candidates of the deferred returns, keyed by (callee, call site). -/
def calleeReturns (g : CallGraph) (caller : SId) : List ((SId × SId) × EdgeRef) :=
  ((g.storedOut caller).filter StoredEdge.defers).flatMap fun se =>
    (g.functionReturns se.callee).map fun ret => ((ret, se.callSite), se.returnTo ret)

/-- The keys the callee-side walk starts from: the stored virtual dispatch edges. -/
def calleeSeen (g : CallGraph) (caller : SId) : List (SId × SId) :=
  (((g.storedOut caller).filter StoredEdge.shown).filter (·.kind = .virtualDispatch)).map
    fun se => (se.callee, se.callSite)

/-- `CallGraph::calleeRefsOf`. -/
def calleeRefsOf (g : CallGraph) (caller : SId) : List EdgeRef :=
  let dispatch := admitNew (g.calleeSeen caller) (g.calleeDispatch caller)
  let returns := admitNew dispatch.1 (g.calleeReturns caller)
  ((g.storedOut caller).filter StoredEdge.shown).map (·.toEdge) ++ dispatch.2 ++ returns.2

/-! ### The caller side -/

/-- The edges reaching `callee` as stored, in insertion order. -/
def storedIn (g : CallGraph) (callee : SId) : List StoredEdge := g.edgesAt (g.inEdges callee)

/-- Candidates of the override expansion, keyed by (caller, call site). -/
def callerDispatch (g : CallGraph) (callee : SId) : List ((SId × SId) × EdgeRef) :=
  (g.transitiveClosure callee g.overrideBases).flatMap fun base =>
    ((g.storedIn base).filter StoredEdge.dispatches).map fun se =>
      ((se.caller, se.callSite), se.dispatchTo callee)

/-- Candidates of the deferred returns, keyed by (caller, call site). -/
def callerReturns (g : CallGraph) (callee : SId) : List ((SId × SId) × EdgeRef) :=
  (g.returnedBy callee).flatMap fun returner =>
    ((g.storedIn returner).filter StoredEdge.defers).map fun se =>
      ((se.caller, se.callSite), se.returnTo callee)

/-- The keys the caller-side walk starts from: every stored edge it shows. -/
def callerSeen (g : CallGraph) (callee : SId) : List (SId × SId) :=
  ((g.storedIn callee).filter StoredEdge.shown).map fun se => (se.caller, se.callSite)

/-- `CallGraph::callerRefsOf`. -/
def callerRefsOf (g : CallGraph) (callee : SId) : List EdgeRef :=
  let dispatch := admitNew (g.callerSeen callee) (g.callerDispatch callee)
  let returns := admitNew dispatch.1 (g.callerReturns callee)
  ((g.storedIn callee).filter StoredEdge.shown).map (·.toEdge) ++ dispatch.2 ++ returns.2

/-! ### Names -/

/-- `CallGraph::displayFor`. -/
def displayFor (g : CallGraph) (usrId : SId) : Bytes :=
  match g.nodes usrId with
  | some n => n.qualifiedName
  | none => g.interner.resolve usrId

/-- `CallGraph::materialize`. -/
def materialize (g : CallGraph) (r : EdgeRef) : CallGraphEdge :=
  { callerName := g.displayFor r.caller
    calleeName := g.displayFor r.callee
    kind := r.kind
    confidence := r.confidence
    callSite := g.interner.resolve r.callSite
    indirectionDepth := r.indirectionDepth
    execContext := r.execContext
    callerUsr := g.interner.resolve r.caller
    calleeUsr := g.interner.resolve r.callee }

section Lookup

variable (ll : Llvm)

/-- `CallGraph::findText`. -/
def findText (g : CallGraph) (s : Bytes) : Option SId := g.interner.find (lookupText ll s)

/-- `CallGraph::resolveUsrIds`: the usr itself, else the nodes of the display name, else
the unregistered endpoint. -/
def resolveUsrIds (g : CallGraph) (name : Bytes) : List SId :=
  match g.findText ll name with
  | none => []
  | some id =>
    if (g.nodes id).isSome then [id]
    else if g.byName id ≠ [] then g.byName id
    else [id]

/-- `CallGraph::usrsForName`. -/
def usrsForName (g : CallGraph) (name : Bytes) : List Bytes :=
  (g.resolveUsrIds ll name).map g.interner.resolve

/-- `CallGraph::calleesOf`. -/
def calleesOf (g : CallGraph) (name : Bytes) : List CallGraphEdge :=
  (g.resolveUsrIds ll name).flatMap fun id => (g.calleeRefsOf id).map g.materialize

/-- `CallGraph::callersOf`. -/
def callersOf (g : CallGraph) (name : Bytes) : List CallGraphEdge :=
  (g.resolveUsrIds ll name).flatMap fun id => (g.callerRefsOf id).map g.materialize

/-- `CallGraph::storedInDegree` of an id. -/
def storedInDegree (g : CallGraph) (id : SId) : ℕ :=
  (g.storedIn id).countP fun se => decide (0 < se.refs)

/-- The pick between two candidates: the smaller usr, the earlier one on a tie. -/
def betterNode (best : Option CallGraphNode) (n : CallGraphNode) : Option CallGraphNode :=
  match best with
  | none => some n
  | some b => if n.usr < b.usr then some n else some b

/-- `CallGraph::findNode`. -/
def findNode (g : CallGraph) (name : Bytes) : Option CallGraphNode :=
  ((g.resolveUsrIds ll name).filterMap g.nodes).foldl betterNode none

/-! ### Relations -/

/-- `CallGraph::getDerivedClasses`. -/
def getDerivedClasses (g : CallGraph) (baseClass : Bytes) : List Bytes :=
  match g.findText ll baseClass with
  | none => []
  | some id => (g.derivedClasses id).map g.interner.resolve

/-- The loop of `getAllDerivedClasses`: a class is expanded when it is popped for the first
time; its subclasses are listed as they are found. -/
def allDerivedLoop (g : CallGraph) : ℕ → List SId → List SId → List Bytes → List Bytes
  | 0, _, _, result => result
  | _ + 1, [], _, result => result
  | fuel + 1, cls :: stack, visited, result =>
    if cls ∈ visited then g.allDerivedLoop fuel stack visited result
    else
      g.allDerivedLoop fuel ((g.derivedClasses cls).reverse ++ stack) (cls :: visited)
        (result ++ (g.derivedClasses cls).map g.interner.resolve)

/-- `CallGraph::getAllDerivedClasses`. -/
def getAllDerivedClasses (g : CallGraph) (baseClass : Bytes) : List Bytes :=
  match g.findText ll baseClass with
  | none => []
  | some id =>
    -- a class is expanded once, so no more subclasses are pushed than pairs exist
    g.allDerivedLoop (2 + ((List.range g.interner.size).map fun c =>
      (g.derivedClasses c).length).sum) [id] [] []

/-- The ids a relation gives for the usrs of a name, each once, in order. -/
def relatedIds (g : CallGraph) (relation : SId → List SId) (name : Bytes) : List SId :=
  freshOf [] ((g.resolveUsrIds ll name).flatMap relation)

/-- `CallGraph::getOverrides`. -/
def getOverrides (g : CallGraph) (baseMethod : Bytes) : List Bytes :=
  (g.relatedIds ll g.methodOverrides baseMethod).map g.displayFor

/-- `CallGraph::getTransitiveOverrides`. -/
def getTransitiveOverrides (g : CallGraph) (baseMethod : Bytes) : List Bytes :=
  (g.relatedIds ll (g.transitiveClosure · g.methodOverrides) baseMethod).map g.displayFor

/-- `CallGraph::getOverriddenBases`. -/
def getOverriddenBases (g : CallGraph) (method : Bytes) : List Bytes :=
  (g.relatedIds ll (g.transitiveClosure · g.overrideBases) method).map g.displayFor

/-- `CallGraph::getClassesForImpl`. -/
def getClassesForImpl (g : CallGraph) (implMethod : Bytes) : List Bytes :=
  (g.relatedIds ll g.effectiveImplClasses implMethod).map g.interner.resolve

/-- `CallGraph::getFunctionReturns`, a `std::set` of display names. -/
def getFunctionReturns (g : CallGraph) (funcName : Bytes) : Finset Bytes :=
  (((g.resolveUsrIds ll funcName).flatMap g.functionReturns).map g.displayFor).toFinset

end Lookup

end CallGraph

end Vycor
