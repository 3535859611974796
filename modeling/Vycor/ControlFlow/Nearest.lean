import Vycor.Lib.QueueBfs
import Vycor.Lib.StdSort
import Vycor.ControlFlow.Oracle
import Vycor.PathSearch.Texts

/-!
# The nearest handlers

`queryNearestCatches` walks from a function backwards over its callers, breadth first. A call
inside a `try` is reported, with the chain of calls down to the function, and not followed; a
call outside one leads on to its caller. At the depth bound the walk only looks whether there
would have been callers.

The walk reads what it knows about a name from the string table of the graph. The path search
asks instead whether the graph references the name, and says why: the table never forgets a
string. `queryNearestCatches_targetKnown_iff` says when the two agree.
-/

namespace Vycor

/-- `NearestCatchInfo`. -/
structure NearestCatchInfo where
  pathSegment : List Bytes
  hops : List PathHop
  scope : TryCatchScope
  callSite : Bytes
  framesFromTarget : ℕ
  deriving DecidableEq, Repr

/-- `NearestCatchResult`. -/
structure NearestCatchResult where
  catches : List NearestCatchInfo := []
  maxDepth : ℕ
  stops : Stops := {}
  complete : Bool := true
  targetKnown : Bool := false
  deriving DecidableEq, Repr

/-- The hop of an edge of the graph. -/
def CallGraphEdge.hop (e : CallGraphEdge) : PathHop :=
  { callerUsr := e.callerUsr
    calleeUsr := e.calleeUsr
    caller := e.callerName
    callee := e.calleeName
    callSite := e.callSite
    kind := e.kind
    confidence := e.confidence
    execContext := e.execContext
    indirectionDepth := e.indirectionDepth }

/-- The order in which callers are visited. -/
def callerBefore (a b : CallGraphEdge) : Bool :=
  if a.callerUsr ≠ b.callerUsr then a.callerUsr < b.callerUsr else a.callSite < b.callSite

/-- The order of the report. -/
def catchBefore (a b : NearestCatchInfo) : Bool :=
  if a.framesFromTarget ≠ b.framesFromTarget then a.framesFromTarget < b.framesFromTarget
  else if a.pathSegment ≠ b.pathSegment then a.pathSegment < b.pathSegment
  else a.callSite < b.callSite

/-- What the walk changes. -/
structure CatchSearch where
  bfs : QueueBfs Bytes PathHop := {}
  catches : List NearestCatchInfo := []
  depthLimit : Bool := false

/-- The hops of the tree from a function down to its target. -/
def treeHops (parent : Bytes → Option PathHop) : ℕ → Bytes → List PathHop
  | 0, _ => []
  | fuel + 1, cur =>
    match parent cur with
    | none => []
    | some hop => hop :: treeHops parent fuel hop.calleeUsr

namespace CallGraph

variable (ll : Llvm) (g : CallGraph) (cf : ControlFlowIndex)

/-- `displayOf` of a usr. -/
def displayOfUsr (usr : Bytes) : Bytes :=
  match g.findNode ll usr with
  | some node => node.qualifiedName
  | none => usr

/-- `chainFrom`, with what is known of the call where the chain starts. The tree passes a
function at most once. -/
def chainFrom (bfs : QueueBfs Bytes PathHop) (firstHop : PathHop) (scope : TryCatchScope)
    (depth : ℕ) : NearestCatchInfo :=
  let hops := firstHop :: treeHops bfs.parent bfs.visited.length firstHop.calleeUsr
  { pathSegment := g.displayOfUsr ll firstHop.callerUsr :: hops.map (·.callee)
    hops := hops
    scope := scope
    callSite := firstHop.callSite
    framesFromTarget := depth + 1 }

/-- The loop over the callers of a function at some depth: a call inside a `try` is reported,
any other leads to its caller. -/
def examineCaller (depth : ℕ) (st : CatchSearch) (edge : CallGraphEdge) : Option CatchSearch := do
  let ctx ← contextForHop ll cf edge.hop
  match ctx.bind (·.enclosingTryCatches.head?) with
  | some scope =>
    some { st with catches := st.catches ++ [g.chainFrom ll st.bfs edge.hop scope depth] }
  | none =>
    some { st with bfs := st.bfs.enqueue edge.callerUsr (depth + 1) (some edge.hop) }

variable (callerSort : Sorter callerBefore) (catchSort : Sorter catchBefore)

/-- The loop over the queue. -/
def catchLoop (maxDepth : ℕ) : ℕ → CatchSearch → Option CatchSearch
  | 0, st => some st
  | fuel + 1, st =>
    match st.bfs.queue with
    | [] => some st
    | (node, depth) :: rest =>
      let st := { st with bfs := { st.bfs with queue := rest } }
      if maxDepth ≤ depth then
        catchLoop maxDepth fuel
          { st with depthLimit := st.depthLimit || !(g.callersOf ll node).isEmpty }
      else
        ((callerSort.run (g.callersOf ll node)).foldlM (g.examineCaller ll cf depth) st).bind
          (catchLoop maxDepth fuel)

/-- The targets of a walk, in order. -/
def catchTargets (functionName : Bytes) : List Bytes :=
  let targets := g.usrsForName ll functionName
  (if targets = [] then [functionName] else targets).insertionSort (· ≤ ·)

/-- What the walk takes for knowing its target: the name is in the string table. -/
def catchTargetKnown (functionName : Bytes) : Bool :=
  (g.interner.find functionName).isSome || !(g.usrsForName ll functionName).isEmpty

/-- `ControlFlowOracle::queryNearestCatches`. -/
def queryNearestCatches (functionName : Bytes) (maxDepth : ℕ := 20) : Option NearestCatchResult :=
  if g.catchTargetKnown ll functionName = false then some { maxDepth := maxDepth }
  else do
    let bfs := (g.catchTargets ll functionName).foldl (fun st a => st.enqueue a 0 none) {}
    -- every string of the table is queued at most once
    let st ← g.catchLoop ll cf callerSort maxDepth (g.interner.size + 1) { bfs := bfs }
    some
      { catches := catchSort.run st.catches
        maxDepth := maxDepth
        stops := { depthLimit := st.depthLimit }
        complete := !st.depthLimit
        targetKnown := true }

/-! ### Knowing the target -/

variable {ll g}

theorem targetKnown_of_queryNearestCatches {callerSort : Sorter callerBefore}
    {catchSort : Sorter catchBefore} {cf : ControlFlowIndex} {functionName : Bytes} {maxDepth : ℕ}
    {r : NearestCatchResult}
    (hr : g.queryNearestCatches ll cf callerSort catchSort functionName maxDepth = some r) :
    r.targetKnown = g.catchTargetKnown ll functionName := by
  rw [queryNearestCatches] at hr
  split_ifs at hr with hknown
  · obtain rfl := Option.some_injective _ hr
    exact hknown.symm
  · obtain ⟨st, -, hst⟩ := Option.bind_eq_some_iff.mp hr
    obtain rfl := Option.some_injective _ hst
    exact (Bool.not_eq_false _ ▸ hknown : g.catchTargetKnown ll functionName = true).symm

/-- Every interned text resolves to some id. -/
theorem usrsForName_eq_nil (name : Bytes) :
    g.usrsForName ll name = [] ↔ lookupText ll name ∉ g.interner.strings := by
  rw [usrsForName, List.map_eq_nil_iff, ← StringInterner.find_eq_none, resolveUsrIds, findText]
  rcases g.interner.find (lookupText ll name) with _ | id
  · simp
  · simp only [reduceCtorEq, iff_false]
    split_ifs with hnode hnames
    · simp
    · exact hnames
    · simp

/-- The walk knows a name exactly when its text is in the string table. -/
theorem Inv.catchTargetKnown_iff (h : g.Inv) (hll : ll.AcceptsUtf8) (name : Bytes) :
    g.catchTargetKnown ll name = true ↔ lookupText ll name ∈ g.interner.strings := by
  rw [catchTargetKnown, Bool.or_eq_true, Bool.not_eq_true', List.isEmpty_eq_false_iff, Ne,
    usrsForName_eq_nil, not_not]
  refine or_iff_right_of_imp fun hsome => ?_
  -- the table holds index text only, which is looked up as it is
  obtain ⟨id, hid⟩ := Option.isSome_iff_exists.mp hsome
  rw [lookupText_eq ll hll (h.utf8_of_find hid)]
  by_contra hno
  rw [StringInterner.find_eq_none.mpr hno] at hid
  cases hid

/-- A search knows a name exactly when the graph references its text. -/
theorem Inv.resolveKnownIds_ne_nil (h : g.Inv) (hll : ll.AcceptsUtf8) (name : Bytes) :
    g.resolveKnownIds ll name ≠ [] ↔ g.ReferencedText (lookupText ll name) := by
  constructor
  · intro hne
    obtain ⟨i, hi⟩ := List.exists_mem_of_ne_nil _ hne
    obtain ⟨hlt, href, hname | ⟨-, heq⟩⟩ := (h.mem_resolveKnownIds ll hll).mp hi
    · rcases hname with ⟨-, heq⟩ | ⟨-, n, hn, hq⟩ | ⟨-, -, heq⟩
      · exact heq ▸ href
      · exact .inl (.inr ⟨_, n, hn, hq⟩)
      · exact heq ▸ href
    · rw [← heq, h.lookupText_resolve ll hll hlt]
      exact href
  · intro href
    -- the nodes of the name, or the end of an edge itself
    obtain ⟨u, hname, hu⟩ : ∃ u, g.ledger.Names (lookupText ll name) u ∧ g.ReferencedText u := by
      rcases hnode : g.ledger.nodes (lookupText ll name) with _ | n
      · by_cases hdisplay : ∃ u n, g.ledger.nodes u = some n ∧ n.qualifiedName = lookupText ll name
        · obtain ⟨u, n, hn, hq⟩ := hdisplay
          exact ⟨u, .inr (.inl ⟨hnode, n, hn, hq⟩), .inl (.inl (by rw [hn]; rfl))⟩
        · exact ⟨_, .inr (.inr ⟨hnode, hdisplay, rfl⟩), href⟩
      · exact ⟨_, .inl ⟨by rw [hnode]; rfl, rfl⟩, href⟩
    obtain ⟨i, hi⟩ := h.find_of_referencedText hu
    have htext := StringInterner.resolve_of_find hi
    refine List.ne_nil_of_mem ((h.mem_resolveKnownIds ll hll).mpr
      ⟨StringInterner.lt_of_find hi, ?_, .inl ?_⟩)
    · rwa [htext]
    · rwa [htext]

/-- **The walk and the path search know the same functions as long as the string table holds
no more than the graph references.** For every graph that a run of mutations leads to and
every name, the walk reports the target as known exactly when the search finds an identity
for it, if and only if the text of the name is not in the table, or is a node, the display
name of one, or an end of an edge. -/
theorem queryNearestCatches_targetKnown_iff {log : List Registration} (hg : Reachable g log)
    (hll : ll.AcceptsUtf8) {cf : ControlFlowIndex} {callerSort : Sorter callerBefore}
    {catchSort : Sorter catchBefore} {name : Bytes} {maxDepth : ℕ} {r : NearestCatchResult}
    (hr : g.queryNearestCatches ll cf callerSort catchSort name maxDepth = some r) :
    (r.targetKnown = true ↔ g.resolveKnownIds ll name ≠ []) ↔
      (lookupText ll name ∈ g.interner.strings → g.ReferencedText (lookupText ll name)) := by
  have h := hg.inv.1
  rw [targetKnown_of_queryNearestCatches hr, h.catchTargetKnown_iff hll,
    h.resolveKnownIds_ne_nil hll]
  refine ⟨Iff.mp, fun himp => ⟨himp, fun href => ?_⟩⟩
  obtain ⟨i, hi⟩ := h.find_of_referencedText href
  by_contra hno
  rw [StringInterner.find_eq_none.mpr hno] at hi
  cases hi

theorem callerBefore_eq (a b : CallGraphEdge) : callerBefore a b =
    decide (toLex (a.callerUsr, a.callSite) < toLex (b.callerUsr, b.callSite)) := by
  rw [Bool.eq_iff_iff, decide_eq_true_eq]
  exact lexBefore_iff decide_eq_true_iff

theorem catchBefore_eq (a b : NearestCatchInfo) : catchBefore a b =
    decide (toLex (a.framesFromTarget, toLex (a.pathSegment, a.callSite)) <
      toLex (b.framesFromTarget, toLex (b.pathSegment, b.callSite))) := by
  rw [Bool.eq_iff_iff, decide_eq_true_eq]
  exact lexBefore_iff (lexBefore_iff decide_eq_true_iff)

/-- The stable sort of the callers. -/
def stableCallerSort : Sorter callerBefore := .byKey _ callerBefore_eq

/-- The stable sort of the report. -/
def stableCatchSort : Sorter catchBefore := .byKey _ catchBefore_eq

/-- The function `f`, registered by the TU `t`. -/
def functionInTu : List Registration := [.node { qualifiedName := [102], usr := [102] } [116]]

theorem reachable_functionInTu :
    Reachable (({} : CallGraph).registerAll functionInTu) ([] ++ functionInTu) :=
  BuiltFrom.empty.registerAll fun _ _ => trivial

/-- As long as the TU is there, both know the function. -/
theorem queryNearestCatches_targetKnown_node :
    ∃ r, (({} : CallGraph).registerAll functionInTu).queryNearestCatches utf8Llvm {}
        stableCallerSort stableCatchSort [102] = some r ∧
      (r.targetKnown = true ↔
        (({} : CallGraph).registerAll functionInTu).resolveKnownIds utf8Llvm [102] ≠ []) := by
  have hsome : ((({} : CallGraph).registerAll functionInTu).queryNearestCatches utf8Llvm {}
      stableCallerSort stableCatchSort [102]).isSome := by
    decide +kernel
  obtain ⟨r, hr⟩ := Option.isSome_iff_exists.mp hsome
  refine ⟨r, hr, (queryNearestCatches_targetKnown_iff reachable_functionInTu
    acceptsUtf8_utf8Llvm hr).mpr fun _ => ?_⟩
  rw [← reachable_functionInTu.inv.1.resolveKnownIds_ne_nil acceptsUtf8_utf8Llvm]
  decide +kernel

/-- After the TU is removed the walk still claims to know the function. -/
theorem queryNearestCatches_knows_removed :
    ¬ ∀ (ll : Llvm) (g : CallGraph) (log : List Registration), Reachable g log → ll.AcceptsUtf8 →
      ∀ (cf : ControlFlowIndex) (callerSort : Sorter callerBefore) (catchSort : Sorter catchBefore)
        (name : Bytes) (maxDepth : ℕ) (r : NearestCatchResult),
        g.queryNearestCatches ll cf callerSort catchSort name maxDepth = some r →
          (r.targetKnown = true ↔ g.resolveKnownIds ll name ≠ []) := by
  intro hall
  have hknown : (((({} : CallGraph).registerAll functionInTu).removeTUs
      [[116]]).1.queryNearestCatches utf8Llvm {} stableCallerSort stableCatchSort [102]).map
        (·.targetKnown) = some true := by
    decide +kernel
  have hnone : ((({} : CallGraph).registerAll functionInTu).removeTUs
      [[116]]).1.resolveKnownIds utf8Llvm [102] = [] := by
    decide +kernel
  obtain ⟨r, hr, htrue⟩ := Option.map_eq_some_iff.mp hknown
  exact (hall utf8Llvm _ _ (reachable_functionInTu.removeTUs [[116]]) acceptsUtf8_utf8Llvm {}
    stableCallerSort stableCatchSort [102] 20 r hr).mp htrue hnone

end CallGraph

end Vycor
