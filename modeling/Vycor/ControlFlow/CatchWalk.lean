import Vycor.ControlFlow.Nearest
import Vycor.ControlFlow.Readable
import Vycor.ControlFlow.Runs

/-!
# What the walk to the nearest handlers finds

The calls inside a `try` that `queryNearestCatches` reports are exactly those of a function
that calls outside any `try` connect with a target, in fewer steps than the depth bound; each
is reported once, with its distance and a chain of that length (`NearestContract`).

The walk runs over strings. `openHops` is the step it follows, and what it has queued is a
trace of the breadth-first search over that step (`TraceInv`), so the distances come from the
library; `CatchInv` adds what the walk has reported.
-/

namespace Vycor

namespace CallGraph

variable (ll : Llvm) (g : CallGraph) (cf : ControlFlowIndex)

/-- The hop of an edge as the walk reports it. -/
def hopOf (e : EdgeRef) : PathHop := (g.materialize e).hop

/-- The innermost `try` around the call of an edge. -/
def enclosingTry (e : EdgeRef) : Option TryCatchScope :=
  (contextForHop ll cf (g.hopOf e)).join.bind (·.enclosingTryCatches.head?)

/-- The calls of a function outside any `try`. -/
def openCallers (c : SId) : List EdgeRef :=
  (g.callerRefsOf c).filter fun e => (g.enclosingTry ll cf e).isNone

/-- `n` calls outside any `try` lead from a function to a target of the walk. -/
def OpenSteps (functionName : Bytes) (n : ℕ) (c : SId) : Prop :=
  StepsTo (g.openCallers ll cf) (·.caller) (g.resolveUsrIds ll functionName) n c

/-- The fewest such calls. -/
def OpenDistance (functionName : Bytes) (n : ℕ) (c : SId) : Prop :=
  IsDistance (g.openCallers ll cf) (·.caller) (g.resolveUsrIds ll functionName) n c

/-- A chain of calls outside any `try`, from a function down to a target. -/
def OpenChain (functionName : Bytes) : SId → List EdgeRef → Prop
  | c, [] => c ∈ g.resolveUsrIds ll functionName
  | c, e :: rest =>
    e.caller = c ∧ e ∈ g.openCallers ll cf e.callee ∧ OpenChain functionName e.callee rest

/-- What the report says about a call inside a `try`. -/
structure Reports (functionName : Bytes) (e : EdgeRef) (info : NearestCatchInfo) : Prop where
  scope : g.enclosingTry ll cf e = some info.scope
  callSite : info.callSite = g.interner.resolve e.callSite
  frames : ∃ d, g.OpenDistance ll cf functionName d e.callee ∧ info.framesFromTarget = d + 1
  chain : ∃ rest, g.OpenChain ll cf functionName e.callee rest ∧
    info.hops = (e :: rest).map g.hopOf ∧ info.hops.length = info.framesFromTarget
  segment : info.pathSegment =
    g.displayOfUsr ll (g.interner.resolve e.caller) :: info.hops.map (·.callee)

/-- **What the walk promises.** It reports, each once, the calls inside a `try` of the
functions less than `maxDepth` open calls away from a target, and it is complete exactly when
no function at distance `maxDepth` has a caller. -/
structure NearestContract (functionName : Bytes) (maxDepth : ℕ) (r : NearestCatchResult) :
    Prop where
  reported : ∃ edges infos, edges.Nodup ∧ infos.Perm r.catches ∧
    List.Forall₂ (g.Reports ll cf functionName) edges infos ∧
    ∀ e, e ∈ edges ↔ e ∈ g.callerRefsOf e.callee ∧ (g.enclosingTry ll cf e).isSome ∧
      ∃ n < maxDepth, g.OpenSteps ll cf functionName n e.callee
  complete : r.complete = true ↔
    ∀ c, g.OpenDistance ll cf functionName maxDepth c → g.callerRefsOf c = []

/-- No end of an edge that is no node has the text of a node's display name. -/
def EndsUnnamed (g : CallGraph) : Prop :=
  ∀ c, ∀ e ∈ g.callerRefsOf c, ∀ x, x = e.caller ∨ x = e.callee → g.nodes x = none →
    ∀ id n, g.nodes id = some n → n.qualifiedName ≠ g.interner.resolve x

/-! ### Strings and ids -/

/-- The hops the walk follows out of a function. -/
def openHops (u : Bytes) : List PathHop :=
  (((g.interner.find u).map (g.openCallers ll cf)).getD []).map g.hopOf

/-- The text of an id leads back to the id alone. -/
def Settled (c : SId) : Prop := c < g.interner.size ∧ ((g.nodes c).isSome ∨ g.byName c = [])

variable {ll g cf}

theorem Inv.resolveUsrIds_resolve (h : g.Inv) (hll : ll.AcceptsUtf8) {c : SId}
    (hc : g.Settled c) : g.resolveUsrIds ll (g.interner.resolve c) = [c] := by
  have hfind : g.findText ll (g.interner.resolve c) = some c := by
    rw [findText, h.lookupText_resolve ll hll hc.1, h.find_resolve hc.1]
  rw [resolveUsrIds, hfind]
  dsimp only
  split_ifs with hnode hname
  · rfl
  · exact absurd (hc.2.resolve_left hnode) hname
  · rfl

theorem Inv.callersOf_resolve (h : g.Inv) (hll : ll.AcceptsUtf8) {c : SId} (hc : g.Settled c) :
    g.callersOf ll (g.interner.resolve c) = (g.callerRefsOf c).map g.materialize := by
  rw [callersOf, h.resolveUsrIds_resolve hll hc, List.flatMap_singleton]

theorem Inv.settled_of_target (h : g.Inv) {name : Bytes} {c : SId}
    (hc : c ∈ g.resolveUsrIds ll name) : g.Settled c := by
  refine ⟨((h.mem_resolveUsrIds ll).mp hc).1, ?_⟩
  rw [resolveUsrIds] at hc
  rcases hfind : g.findText ll name with _ | id
  · rw [hfind] at hc
    cases hc
  · rw [hfind] at hc
    dsimp only at hc
    split_ifs at hc with hnode hname
    · exact .inl (List.mem_singleton.mp hc ▸ hnode)
    · obtain ⟨n, hn, -⟩ := h.node.byName_iff.mp hc
      exact .inl (by rw [hn]; rfl)
    · exact .inr (List.mem_singleton.mp hc ▸ not_not.mp hname)

theorem Inv.settled_of_caller (h : g.Inv) (hends : g.EndsUnnamed) {c : SId} {e : EdgeRef}
    (he : e ∈ g.callerRefsOf c) : g.Settled e.caller := by
  have hlt := (h.below_of_mem_callerRefsOf he).1
  refine ⟨hlt, or_iff_not_imp_left.mpr fun hnode => ?_⟩
  have hnone := Option.not_isSome_iff_eq_none.mp hnode
  refine List.eq_nil_iff_forall_not_mem.mpr fun id hid => ?_
  obtain ⟨n, hn, hfind⟩ := h.node.byName_iff.mp hid
  exact hends c e he e.caller (.inl rfl) hnone id n hn (StringInterner.resolve_of_find hfind).symm

/-- It is enough that both ends of every edge are nodes. -/
theorem Inv.endsUnnamed_of_nodes (h : g.Inv)
    (hnodes : ∀ c < g.interner.size, ∀ e ∈ g.callerRefsOf c,
      (g.nodes e.caller).isSome ∧ (g.nodes e.callee).isSome) : g.EndsUnnamed := by
  intro c e he x hx hnone
  have hlt := (h.below_of_mem_callerRefsOf he).2.1
  rw [h.callee_of_mem_callerRefsOf he] at hlt
  obtain ⟨hcaller, hcallee⟩ := hnodes c hlt e he
  rcases hx with rfl | rfl
  · rw [hnone] at hcaller
    cases hcaller
  · rw [hnone] at hcallee
    cases hcallee

section Walk

variable (h : g.Inv) {name : Bytes} {maxDepth : ℕ}

/-- The texts of the targets. -/
def targetTexts (ll : Llvm) (g : CallGraph) (name : Bytes) : List Bytes :=
  (g.resolveUsrIds ll name).map g.interner.resolve

theorem openHops_resolve (h : g.Inv) {c : SId} (hc : c < g.interner.size) :
    g.openHops ll cf (g.interner.resolve c) = (g.openCallers ll cf c).map g.hopOf := by
  rw [openHops, h.find_resolve hc]
  rfl

theorem mem_openHops {u : Bytes} {hop : PathHop} (hhop : hop ∈ g.openHops ll cf u) :
    ∃ c e, g.interner.find u = some c ∧ e ∈ g.openCallers ll cf c ∧ g.hopOf e = hop := by
  rw [openHops, List.mem_map] at hhop
  obtain ⟨e, he, rfl⟩ := hhop
  rcases hfind : g.interner.find u with _ | c
  · rw [hfind] at he
    cases he
  · rw [hfind] at he
    exact ⟨c, e, rfl, he, rfl⟩

theorem mem_callerRefsOf_of_open {c : SId} {e : EdgeRef} (he : e ∈ g.openCallers ll cf c) :
    e ∈ g.callerRefsOf c := List.mem_of_mem_filter he

include h in
/-- Steps over strings are steps over ids. -/
theorem Inv.stepsTo_resolve {n : ℕ} {u : Bytes}
    (hu : StepsTo (g.openHops ll cf) (·.callerUsr) (targetTexts ll g name) n u) :
    ∃ c, c < g.interner.size ∧ g.interner.resolve c = u ∧ g.OpenSteps ll cf name n c := by
  induction hu with
  | start hu =>
    obtain ⟨c, hc, rfl⟩ := List.mem_map.mp hu
    exact ⟨c, (h.settled_of_target hc).1, rfl, .start hc⟩
  | step _ hhop ih =>
    obtain ⟨c, hc, rfl, hsteps⟩ := ih
    obtain ⟨c', e, hfind, he, rfl⟩ := mem_openHops hhop
    obtain rfl := Option.some_injective _ ((h.find_resolve hc).symm.trans hfind)
    have hlt := (h.below_of_mem_callerRefsOf (mem_callerRefsOf_of_open he)).1
    exact ⟨e.caller, hlt, rfl, .step hsteps he⟩

include h in
theorem Inv.openSteps_resolve {n : ℕ} {c : SId} (hsteps : g.OpenSteps ll cf name n c) :
    c < g.interner.size ∧ StepsTo (g.openHops ll cf) (·.callerUsr) (targetTexts ll g name) n
      (g.interner.resolve c) := by
  induction hsteps with
  | start hc => exact ⟨(h.settled_of_target hc).1, .start (List.mem_map_of_mem hc)⟩
  | @step n b e _ he ih =>
    have hlt := (h.below_of_mem_callerRefsOf (mem_callerRefsOf_of_open he)).1
    have hhop : g.hopOf e ∈ g.openHops ll cf (g.interner.resolve b) := by
      rw [openHops_resolve h ih.1]
      exact List.mem_map_of_mem he
    exact ⟨hlt, .step ih.2 hhop⟩

include h in
theorem Inv.isDistance_resolve {d : ℕ} {c : SId} (hc : c < g.interner.size) :
    IsDistance (g.openHops ll cf) (·.callerUsr) (targetTexts ll g name) d (g.interner.resolve c) ↔
      g.OpenDistance ll cf name d c := by
  have hiff : ∀ n, StepsTo (g.openHops ll cf) (·.callerUsr) (targetTexts ll g name) n
      (g.interner.resolve c) ↔ g.OpenSteps ll cf name n c := by
    intro n
    constructor
    · intro hsteps
      obtain ⟨c', hc', heq, hsteps⟩ := h.stepsTo_resolve hsteps
      rwa [(h.resolve_inj hc' hc).mp heq] at hsteps
    · exact fun hsteps => (h.openSteps_resolve hsteps).2
  exact and_congr (hiff d) (forall_congr' fun n => imp_congr_right fun _ => not_congr (hiff n))

variable {trace : List (Bytes × ℕ)} {bfs : QueueBfs Bytes PathHop}

/-- Everything on the trace is the text of a settled id. -/
theorem exists_settled (h : g.Inv) (hends : g.EndsUnnamed)
    (ht : TraceInv (g.openHops ll cf) (·.callerUsr) (targetTexts ll g name) maxDepth trace bfs)
    {u : Bytes} {d : ℕ} (hu : (u, d) ∈ trace) : ∃ c, g.Settled c ∧ g.interner.resolve c = u := by
  cases d with
  | zero =>
    obtain ⟨c, hc, rfl⟩ := List.mem_map.mp ((ht.zero u).mp hu)
    exact ⟨c, h.settled_of_target hc, rfl⟩
  | succ d =>
    obtain ⟨-, hop, b, -, rfl, -, hhop⟩ := ht.pred u d hu
    obtain ⟨c, e, -, he, rfl⟩ := mem_openHops hhop
    exact ⟨e.caller, h.settled_of_caller hends (mem_callerRefsOf_of_open he), rfl⟩

/-- The hops of the tree are a chain down to a target, as long as the depth says. -/
theorem exists_openChain (h : g.Inv)
    (ht : TraceInv (g.openHops ll cf) (·.callerUsr) (targetTexts ll g name) maxDepth trace bfs)
    {d : ℕ} : ∀ {fuel : ℕ} {c : SId}, c < g.interner.size → (g.interner.resolve c, d) ∈ trace →
      d ≤ fuel → ∃ rest, g.OpenChain ll cf name c rest ∧
        treeHops bfs.parent fuel (g.interner.resolve c) = rest.map g.hopOf ∧ rest.length = d := by
  induction d with
  | zero =>
    intro fuel c hc hu _
    refine ⟨[], ?_, ?_, rfl⟩
    · obtain ⟨c', hc', heq⟩ := List.mem_map.mp ((ht.zero _).mp hu)
      rwa [(h.resolve_inj (h.settled_of_target hc').1 hc).mp heq] at hc'
    · cases fuel with
      | zero => rfl
      | succ fuel => rw [treeHops, ht.root _ hu]; rfl
  | succ d ih =>
    intro fuel c hc hu hfuel
    obtain ⟨fuel, rfl⟩ := Nat.exists_eq_add_of_le' hfuel
    obtain ⟨-, hop, b, hpar, htgt, hb, hhop⟩ := ht.pred _ d hu
    obtain ⟨cb, e, hfind, he, rfl⟩ := mem_openHops hhop
    have hcallee := h.callee_of_mem_callerRefsOf (mem_callerRefsOf_of_open he)
    have hbelow := h.below_of_mem_callerRefsOf (mem_callerRefsOf_of_open he)
    have hcb := StringInterner.resolve_of_find hfind
    subst hcallee
    obtain ⟨rest, hchain, htree, hlen⟩ := @ih (fuel + d) e.callee hbelow.2.1 (hcb ▸ hb) (by omega)
    have hcaller : e.caller = c := (h.resolve_inj hbelow.1 hc).mp htgt
    refine ⟨e :: rest, ⟨hcaller, he, hchain⟩, ?_, by simp [hlen]⟩
    rw [← Nat.add_assoc, treeHops, hpar]
    dsimp only
    rw [List.map_cons, ← htree]
    rfl

/-! ### The loop over the callers -/

/-- What is known of a report while the walk runs: the frames are those of the trace. -/
structure ReportsAt (ll : Llvm) (g : CallGraph) (cf : ControlFlowIndex) (name : Bytes) (d : ℕ)
    (e : EdgeRef) (info : NearestCatchInfo) : Prop where
  below : e.callee < g.interner.size
  scope : g.enclosingTry ll cf e = some info.scope
  callSite : info.callSite = g.interner.resolve e.callSite
  frames : info.framesFromTarget = d + 1
  chain : ∃ rest, g.OpenChain ll cf name e.callee rest ∧
    info.hops = (e :: rest).map g.hopOf ∧ info.hops.length = d + 1
  segment : info.pathSegment =
    g.displayOfUsr ll (g.interner.resolve e.caller) :: info.hops.map (·.callee)

/-- One caller: a report, or the caller is queued. -/
theorem examineCaller_eq (hcf : cf.Held) (d : ℕ) (st : CatchSearch) (e : EdgeRef) :
    g.examineCaller ll cf d st (g.materialize e) = some (match g.enclosingTry ll cf e with
      | some scope =>
        { st with catches := st.catches ++ [g.chainFrom ll st.bfs (g.hopOf e) scope d] }
      | none =>
        { st with bfs := st.bfs.enqueue (g.hopOf e).callerUsr (d + 1) (some (g.hopOf e)) }) := by
  obtain ⟨ctx, hctx⟩ := hcf.exists_contextForEdge ll (g.hopOf e).callSite (g.hopOf e).callerUsr
    (g.hopOf e).calleeUsr
  have hhop : contextForHop ll cf (g.hopOf e) = some ctx := hctx
  have htry : g.enclosingTry ll cf e = ctx.bind (·.enclosingTryCatches.head?) := by
    rw [enclosingTry, hhop, Option.join_some]
  have hread : contextForHop ll cf (g.materialize e).hop = some ctx := hctx
  rw [examineCaller, hread, htry]
  simp only [Option.bind_eq_bind, Option.bind_some]
  rcases ctx.bind (·.enclosingTryCatches.head?) with _ | scope
  · rfl
  · rfl

/-- The callers of a function taken off the queue at depth `d`: the trace grows by functions
one step further, every open caller is on it, and the other calls are reported. -/
theorem examineCallers (h : g.Inv) (hcf : cf.Held) {done : List (Bytes × ℕ)} {c : SId} {d : ℕ}
    (hc : (g.interner.resolve c, d) ∈ done) (hlt : c < g.interner.size) (hd : d < maxDepth) :
    ∀ (edges : List EdgeRef) (st : CatchSearch), (∀ e ∈ edges, e ∈ g.callerRefsOf c) →
      TraceInv (g.openHops ll cf) (·.callerUsr) (targetTexts ll g name) maxDepth
        (done ++ st.bfs.queue) st.bfs → (∀ x ∈ done ++ st.bfs.queue, x.2 ≤ d + 1) →
      ∃ st' more infos,
        (edges.map g.materialize).foldlM (g.examineCaller ll cf d) st = some st' ∧
        TraceInv (g.openHops ll cf) (·.callerUsr) (targetTexts ll g name) maxDepth
          (done ++ st'.bfs.queue) st'.bfs ∧
        st'.bfs.queue = st.bfs.queue ++ more ∧ (∀ x ∈ more, x.2 = d + 1) ∧
        (∀ e ∈ edges, g.enclosingTry ll cf e = none →
          ∃ d' ≤ d + 1, (g.interner.resolve e.caller, d') ∈ done ++ st'.bfs.queue) ∧
        st'.catches = st.catches ++ infos ∧ st'.depthLimit = st.depthLimit ∧
        List.Forall₂ (fun e info => e.callee = c ∧ ReportsAt ll g cf name d e info)
          (edges.filter fun e => (g.enclosingTry ll cf e).isSome) infos := by
  intro edges
  induction edges with
  | nil =>
    intro st _ ht _
    exact ⟨st, [], [], rfl, ht, by simp, by simp, by simp, by simp, rfl, .nil⟩
  | cons e rest ih =>
    intro st hedges ht hlast
    have he := hedges e (.head _)
    have hcallee : e.callee = c := h.callee_of_mem_callerRefsOf he
    rw [List.map_cons, List.foldlM_cons, examineCaller_eq hcf]
    simp only [Option.bind_eq_bind, Option.bind_some]
    rcases htry : g.enclosingTry ll cf e with _ | scope
    · -- an open call: the caller goes on the queue unless it was there
      have hopen : g.hopOf e ∈ g.openHops ll cf (g.interner.resolve c) := by
        rw [openHops_resolve h hlt]
        exact List.mem_map_of_mem (List.mem_filter.mpr ⟨he, by rw [htry]; rfl⟩)
      obtain ⟨more, ht', hqueue, hmore, d', hd', hmem⟩ := ht.follow
        (List.mem_append_left _ hc) hd hlast hopen
      rw [List.append_assoc, ← hqueue] at ht' hmem
      obtain ⟨st', more', infos, hrun, htrace, hqueue', hmore', hopens, hcatches, hlimit, hinfos⟩ :=
        ih { st with bfs := st.bfs.enqueue (g.hopOf e).callerUsr (d + 1) (some (g.hopOf e)) }
          (fun e' he' => hedges e' (.tail _ he')) ht' (by
            intro x hx
            rw [hqueue, ← List.append_assoc] at hx
            rcases List.mem_append.mp hx with hx | hx
            exacts [hlast x hx, (hmore x hx).le])
      refine ⟨st', more ++ more', infos, hrun, htrace, ?_, ?_, ?_, hcatches, hlimit, ?_⟩
      · rw [hqueue', hqueue, List.append_assoc]
      · intro x hx
        rcases List.mem_append.mp hx with hx | hx
        exacts [hmore x hx, hmore' x hx]
      · intro e' he' htry'
        rcases List.mem_cons.mp he' with rfl | he'
        · refine ⟨d', hd', ?_⟩
          rw [hqueue', ← List.append_assoc]
          exact List.mem_append_left _ hmem
        · exact hopens e' he' htry'
      · rwa [List.filter_cons_of_neg (by rw [htry]; exact Bool.false_ne_true)]
    · -- a call inside a `try`: the tree gives its chain
      have hmem : (g.interner.resolve c, d) ∈ done ++ st.bfs.queue := List.mem_append_left _ hc
      obtain ⟨chain, hchain, htree, hlen⟩ := exists_openChain h ht hlt hmem
        (ht.depth_le_visited hmem)
      have hinfo : ReportsAt ll g cf name d e
          (g.chainFrom ll st.bfs (g.hopOf e) scope d) := by
        have hhops : (g.chainFrom ll st.bfs (g.hopOf e) scope d).hops =
            (e :: chain).map g.hopOf := by
          rw [List.map_cons, ← htree, ← hcallee]
          rfl
        exact
          { below := hcallee ▸ hlt
            scope := htry
            callSite := rfl
            frames := rfl
            chain := ⟨chain, hcallee ▸ hchain, hhops, by rw [hhops]; simp [hlen]⟩
            segment := rfl }
      obtain ⟨st', more, infos, hrun, htrace, hqueue, hmore, hopens, hcatches, hlimit, hinfos⟩ :=
        ih { st with catches := st.catches ++ [g.chainFrom ll st.bfs (g.hopOf e) scope d] }
          (fun e' he' => hedges e' (.tail _ he')) ht hlast
      refine ⟨st', more, g.chainFrom ll st.bfs (g.hopOf e) scope d :: infos, hrun, htrace, hqueue,
        hmore, ?_, ?_, hlimit, ?_⟩
      · intro e' he' htry'
        rcases List.mem_cons.mp he' with rfl | he'
        · rw [htry] at htry'
          cases htry'
        · exact hopens e' he' htry'
      · rw [hcatches, List.append_assoc, List.singleton_append]
      · rw [List.filter_cons_of_pos (by rw [htry]; rfl)]
        exact .cons ⟨hcallee, hinfo⟩ hinfos

/-! ### The loop over the queue -/

/-- What the walk maintains, with the functions taken off the queue and the calls reported
so far. -/
structure CatchInv (ll : Llvm) (g : CallGraph) (cf : ControlFlowIndex) (name : Bytes)
    (maxDepth : ℕ) (done : List (Bytes × ℕ)) (edges : List EdgeRef) (st : CatchSearch) :
    Prop where
  trace : TraceInv (g.openHops ll cf) (·.callerUsr) (targetTexts ll g name) maxDepth
    (done ++ st.bfs.queue) st.bfs
  spread : ∀ x ∈ done ++ st.bfs.queue, ∀ q ∈ st.bfs.queue, x.2 ≤ q.2 + 1
  closed : ∀ u d, (u, d) ∈ done → d < maxDepth → ∀ hop ∈ g.openHops ll cf u,
    ∃ d' ≤ d + 1, (hop.callerUsr, d') ∈ done ++ st.bfs.queue
  nodup : edges.Nodup
  edges_iff : ∀ e, e ∈ edges ↔ e ∈ g.callerRefsOf e.callee ∧ (g.enclosingTry ll cf e).isSome ∧
    ∃ d < maxDepth, (g.interner.resolve e.callee, d) ∈ done
  reports : List.Forall₂ (fun e info => ∃ d, (g.interner.resolve e.callee, d) ∈ done ∧
    ReportsAt ll g cf name d e info) edges st.catches
  limit : st.depthLimit = true ↔ ∃ c d, c < g.interner.size ∧
    (g.interner.resolve c, d) ∈ done ∧ maxDepth ≤ d ∧ g.callerRefsOf c ≠ []

variable {done : List (Bytes × ℕ)} {edges : List EdgeRef} {st : CatchSearch} {c : SId} {d : ℕ}
  {rest : List (Bytes × ℕ)}

/-- Nothing on the queue is nearer than its head, nothing queued further by more than one. -/
theorem CatchInv.head (hinv : CatchInv ll g cf name maxDepth done edges st)
    (hq : st.bfs.queue = (g.interner.resolve c, d) :: rest) :
    (∀ q ∈ rest, d ≤ q.2) ∧ (∀ x ∈ done ++ (g.interner.resolve c, d) :: rest, x.2 ≤ d + 1) ∧
      ∀ n, (g.interner.resolve c, n) ∉ done := by
  have hsorted := hinv.trace.sorted
  have hnodup := hinv.trace.nodup
  rw [hq] at hsorted hnodup
  refine ⟨fun q hmem => ?_, fun x hx => ?_, fun n hn => ?_⟩
  · exact (List.pairwise_cons.mp (List.pairwise_append.mp hsorted).2.1).1 q hmem
  · exact hinv.spread x (hq ▸ hx) (g.interner.resolve c, d) (hq ▸ .head _)
  · rw [List.map_append, List.nodup_append] at hnodup
    exact hnodup.2.2 _ (List.mem_map_of_mem hn) (g.interner.resolve c) (.head _) rfl

/-- A function at the depth bound is only looked at. -/
theorem CatchInv.stop (h : g.Inv) (hll : ll.AcceptsUtf8) (hc : g.Settled c)
    (hinv : CatchInv ll g cf name maxDepth done edges st)
    (hq : st.bfs.queue = (g.interner.resolve c, d) :: rest) (hd : maxDepth ≤ d) :
    CatchInv ll g cf name maxDepth (done ++ [(g.interner.resolve c, d)]) edges
      { st with
        bfs := { st.bfs with queue := rest }
        depthLimit := st.depthLimit || !(g.callersOf ll (g.interner.resolve c)).isEmpty } := by
  have htrace : done ++ [(g.interner.resolve c, d)] ++ rest = done ++ st.bfs.queue := by
    rw [hq, List.append_assoc, List.singleton_append]
  -- the new entry is at the bound, so nothing below the bound changes
  have hbelow : ∀ u n, n < maxDepth →
      ((u, n) ∈ done ++ [(g.interner.resolve c, d)] ↔ (u, n) ∈ done) := by
    intro u n hn
    rw [List.mem_append, List.mem_singleton, Prod.mk.injEq]
    exact or_iff_left fun heq => by omega
  refine ⟨?_, ?_, ?_, hinv.nodup, fun e => ?_, ?_, ?_⟩
  · rw [htrace]
    exact ⟨hinv.trace.visited_iff, hinv.trace.nodup, hinv.trace.sorted, hinv.trace.zero,
      hinv.trace.root, hinv.trace.pred⟩
  · rw [htrace]
    exact fun x hx q hmem => hinv.spread x hx q (hq ▸ .tail _ hmem)
  · rw [htrace]
    exact fun u n hu hn => hinv.closed u n ((hbelow u n hn).mp hu) hn
  · rw [hinv.edges_iff]
    refine and_congr_right fun _ => and_congr_right fun _ => exists_congr fun n => ?_
    exact and_congr_right fun hn => (hbelow _ n hn).symm
  · exact hinv.reports.imp fun e info ⟨n, hn, hrep⟩ => ⟨n, List.mem_append_left _ hn, hrep⟩
  · rw [Bool.or_eq_true, hinv.limit, Bool.not_eq_true', List.isEmpty_eq_false_iff,
      h.callersOf_resolve hll hc, Ne, List.map_eq_nil_iff]
    constructor
    · rintro (⟨c', n, hlt, hmem, hn, hne⟩ | hne)
      · exact ⟨c', n, hlt, List.mem_append_left _ hmem, hn, hne⟩
      · exact ⟨c, d, hc.1, by simp, hd, hne⟩
    · rintro ⟨c', n, hlt, hmem, hn, hne⟩
      rcases List.mem_append.mp hmem with hmem | hmem
      · exact .inl ⟨c', n, hlt, hmem, hn, hne⟩
      · rw [List.mem_singleton, Prod.mk.injEq, h.resolve_inj hlt hc.1] at hmem
        exact .inr (hmem.1 ▸ hne)

/-- A function below the bound is expanded. -/
theorem CatchInv.expand (h : g.Inv) (hll : ll.AcceptsUtf8) (hcf : cf.Held)
    (callerSort : Sorter callerBefore) (hc : g.Settled c)
    (hinv : CatchInv ll g cf name maxDepth done edges st)
    (hq : st.bfs.queue = (g.interner.resolve c, d) :: rest) (hd : d < maxDepth) :
    ∃ st' edges', (callerSort.run (g.callersOf ll (g.interner.resolve c))).foldlM
        (g.examineCaller ll cf d) { st with bfs := { st.bfs with queue := rest } } = some st' ∧
      CatchInv ll g cf name maxDepth (done ++ [(g.interner.resolve c, d)]) edges' st' := by
  obtain ⟨hrest, hlast, hnew⟩ := hinv.head hq
  have htrace : done ++ [(g.interner.resolve c, d)] ++ rest = done ++ st.bfs.queue := by
    rw [hq, List.append_assoc, List.singleton_append]
  -- the callers in the order of the sort
  obtain ⟨callers, hcallers, hperm⟩ : ∃ callers : List EdgeRef,
      callerSort.run (g.callersOf ll (g.interner.resolve c)) = callers.map g.materialize ∧
        callers.Perm (g.callerRefsOf c) := by
    have hsort := callerSort.perm (g.callersOf ll (g.interner.resolve c))
    rw [h.callersOf_resolve hll hc] at hsort ⊢
    exact (congrFun (congrFun (List.eq_map_comp_perm g.materialize) _) _).mpr hsort
  obtain ⟨st', more, infos, hrun, ht, hqueue, hmore, hopens, hcatches, hlimit, hinfos⟩ :=
    examineCallers h hcf (List.mem_append_right done (List.mem_singleton.mpr rfl)) hc.1 hd callers
      { st with bfs := { st.bfs with queue := rest } } (fun e he => hperm.mem_iff.mp he)
      (by
        rw [htrace]
        exact ⟨hinv.trace.visited_iff, hinv.trace.nodup, hinv.trace.sorted, hinv.trace.zero,
          hinv.trace.root, hinv.trace.pred⟩)
      (by
        intro x hx
        rw [List.append_assoc, List.singleton_append] at hx
        exact hlast x hx)
  have hgrow : done ++ [(g.interner.resolve c, d)] ++ st'.bfs.queue =
      done ++ st.bfs.queue ++ more := by
    rw [hqueue, ← List.append_assoc, htrace]
  have hmemEdges : ∀ e, e ∈ callers.filter (fun e => (g.enclosingTry ll cf e).isSome) ↔
      e.callee = c ∧ e ∈ g.callerRefsOf e.callee ∧ (g.enclosingTry ll cf e).isSome := by
    intro e
    rw [List.mem_filter, hperm.mem_iff]
    constructor
    · rintro ⟨he, htry⟩
      have hcallee := h.callee_of_mem_callerRefsOf he
      exact ⟨hcallee, hcallee ▸ he, htry⟩
    · rintro ⟨hcallee, he, htry⟩
      exact ⟨hcallee ▸ he, htry⟩
  refine ⟨st', edges ++ callers.filter fun e => (g.enclosingTry ll cf e).isSome,
    hcallers ▸ hrun, ht, ?_, ?_, ?_, fun e => ?_, ?_, ?_⟩
  · intro x hx q hmem
    have hx' : x.2 ≤ d + 1 := by
      rw [hgrow] at hx
      rcases List.mem_append.mp hx with hx | hx
      · exact hlast x (hq ▸ hx)
      · exact (hmore x hx).le
    rw [hqueue] at hmem
    rcases List.mem_append.mp hmem with hmem | hmem
    · have := hrest q hmem
      omega
    · have := hmore q hmem
      omega
  · intro u n hu hn hop hhop
    rcases List.mem_append.mp hu with hu | hu
    · obtain ⟨d', hd', hmem⟩ := hinv.closed u n hu hn hop hhop
      exact ⟨d', hd', hgrow ▸ List.mem_append_left _ hmem⟩
    · obtain ⟨rfl, rfl⟩ := Prod.mk.injEq _ _ _ _ ▸ List.mem_singleton.mp hu
      rw [openHops_resolve h hc.1] at hhop
      obtain ⟨e, he, rfl⟩ := List.mem_map.mp hhop
      obtain ⟨he, hnone⟩ := List.mem_filter.mp he
      exact hopens e (hperm.mem_iff.mpr he) (Option.isNone_iff_eq_none.mp hnone)
  · rw [List.nodup_append]
    refine ⟨hinv.nodup, (hperm.nodup_iff.mpr (h.nodup_callerRefsOf c)).filter _, ?_⟩
    rintro e he e' he' rfl
    obtain ⟨-, -, n, -, hmem⟩ := (hinv.edges_iff e).mp he
    rw [((hmemEdges e).mp he').1] at hmem
    exact hnew n hmem
  · rw [List.mem_append, hinv.edges_iff, hmemEdges]
    constructor
    · rintro (⟨he, htry, n, hn, hmem⟩ | ⟨hcallee, he, htry⟩)
      · exact ⟨he, htry, n, hn, List.mem_append_left _ hmem⟩
      · exact ⟨he, htry, d, hd, by rw [hcallee]; simp⟩
    · rintro ⟨he, htry, n, hn, hmem⟩
      rcases List.mem_append.mp hmem with hmem | hmem
      · exact .inl ⟨he, htry, n, hn, hmem⟩
      · rw [List.mem_singleton, Prod.mk.injEq,
          h.resolve_inj (h.below_of_mem_callerRefsOf he).2.1 hc.1] at hmem
        exact .inr ⟨hmem.1, he, htry⟩
  · rw [hcatches]
    refine List.rel_append ?_ ?_
    · exact hinv.reports.imp fun e info ⟨n, hn, hrep⟩ => ⟨n, List.mem_append_left _ hn, hrep⟩
    · refine hinfos.imp fun e info ⟨hcallee, hrep⟩ => ⟨d, ?_, hrep⟩
      rw [hcallee]
      exact List.mem_append_right _ (List.mem_singleton.mpr rfl)
  · rw [hlimit, hinv.limit]
    refine exists_congr fun c' => exists_congr fun n => and_congr_right fun _ => ?_
    refine ⟨fun ⟨hmem, hn⟩ => ⟨List.mem_append_left _ hmem, hn⟩, fun ⟨hmem, hn, hne⟩ => ?_⟩
    rcases List.mem_append.mp hmem with hmem | hmem
    · exact ⟨hmem, hn, hne⟩
    · have hdepth := congrArg Prod.snd (List.mem_singleton.mp hmem)
      exact absurd (hn.trans_eq hdepth) (not_le.mpr hd)

/-- The functions taken off the queue and those on it are as many as there are strings at
most. -/
theorem CatchInv.length_le (h : g.Inv) (hends : g.EndsUnnamed)
    (hinv : CatchInv ll g cf name maxDepth done edges st) :
    (done ++ st.bfs.queue).length ≤ g.interner.size := by
  have hsub : (done ++ st.bfs.queue).map Prod.fst ⊆ g.interner.strings := by
    intro u hu
    obtain ⟨⟨u, n⟩, hn, rfl⟩ := List.mem_map.mp hu
    obtain ⟨c, hc, rfl⟩ := exists_settled h hends hinv.trace hn
    exact StringInterner.resolve_mem hc.1
  have hlen := (List.subperm_of_subset hinv.trace.nodup hsub).length_le
  rwa [List.length_map] at hlen

/-- The loop runs until the queue is empty. -/
theorem CatchInv.loop (h : g.Inv) (hll : ll.AcceptsUtf8) (hcf : cf.Held) (hends : g.EndsUnnamed)
    (callerSort : Sorter callerBefore) : ∀ {fuel : ℕ} {done : List (Bytes × ℕ)}
      {edges : List EdgeRef} {st : CatchSearch}, CatchInv ll g cf name maxDepth done edges st →
      g.interner.size < done.length + fuel →
      ∃ st' done' edges', g.catchLoop ll cf callerSort maxDepth fuel st = some st' ∧
        CatchInv ll g cf name maxDepth done' edges' st' ∧ st'.bfs.queue = [] := by
  intro fuel
  induction fuel with
  | zero =>
    intro done edges st hinv hfuel
    have hlen := hinv.length_le h hends
    rw [List.length_append] at hlen
    omega
  | succ fuel ih =>
    intro done edges st hinv hfuel
    rcases hq : st.bfs.queue with _ | ⟨⟨u, d⟩, rest⟩
    · exact ⟨st, done, edges, by rw [catchLoop, hq], hinv, hq⟩
    · obtain ⟨c, hc, rfl⟩ := exists_settled h hends hinv.trace
        (List.mem_append_right done (hq ▸ List.mem_cons_self))
      rw [catchLoop, hq]
      dsimp only
      have hnext : g.interner.size < (done ++ [(g.interner.resolve c, d)]).length + fuel := by
        rw [List.length_append, List.length_singleton]
        omega
      split_ifs with hd
      · exact ih (hinv.stop h hll hc hq hd) hnext
      · obtain ⟨st', edges', hrun, hinv'⟩ := hinv.expand h hll hcf callerSort hc hq (not_le.mp hd)
        rw [hrun, Option.bind_some]
        exact ih hinv' hnext

/-- The targets are on the queue when the walk starts. -/
theorem catchInv_start (maxDepth : ℕ) (hknown : g.resolveUsrIds ll name ≠ []) :
    CatchInv ll g cf name maxDepth [] []
      { bfs := (g.catchTargets ll name).foldl (fun st a => st.enqueue a 0 none) {} } := by
  have ht := TraceInv.start (g.openHops ll cf) (·.callerUsr) maxDepth (g.catchTargets ll name)
  have htexts : ∀ u, u ∈ g.catchTargets ll name ↔ u ∈ targetTexts ll g name := by
    intro u
    rw [catchTargets, List.mem_insertionSort, if_neg (by simpa [usrsForName] using hknown)]
    rfl
  have hzero : ∀ x ∈ ((g.catchTargets ll name).foldl (fun st a => st.enqueue a 0 none)
      ({} : QueueBfs Bytes PathHop)).queue, x.2 = 0 := by
    intro x hx
    exact (((TraceInv.queue_starts _ rfl).2.1 x.1 x.2).mp hx).1
  refine ⟨?_, ?_, by simp, List.nodup_nil, by simp, .nil, by simp⟩
  · exact ⟨ht.visited_iff, ht.nodup, ht.sorted, fun a => (ht.zero a).trans (htexts a), ht.root,
      ht.pred⟩
  · intro x hx q _
    have := hzero x hx
    omega

/-- **The walk to the nearest handlers is exact.** For every reachable graph in which no end of
an edge without a node has the text of a display name, every index, known name and depth
bound, and however ties are sorted, the walk ends and its report is as promised. -/
theorem queryNearestCatches_exact {log : List Registration} (hg : Reachable g log)
    (hll : ll.AcceptsUtf8) (hcf : cf.Held) (hends : g.EndsUnnamed)
    (callerSort : Sorter callerBefore) (catchSort : Sorter catchBefore) (name : Bytes)
    (hknown : g.catchTargetKnown ll name = true) (maxDepth : ℕ) :
    ∃ r, g.queryNearestCatches ll cf callerSort catchSort name maxDepth = some r ∧
      r.targetKnown = true ∧ g.NearestContract ll cf name maxDepth r := by
  have h := hg.inv.1
  have hids : g.resolveUsrIds ll name ≠ [] := by
    intro hnil
    have husrs : g.usrsForName ll name = [] := by rw [usrsForName, hnil, List.map_nil]
    exact (usrsForName_eq_nil name).mp husrs ((h.catchTargetKnown_iff hll name).mp hknown)
  have hfuel : g.interner.size < ([] : List (Bytes × ℕ)).length + (g.interner.size + 1) := by simp
  obtain ⟨st, done, edges, hrun, hinv, hempty⟩ :=
    (catchInv_start maxDepth hids).loop h hll hcf hends callerSort hfuel
  -- with an empty queue the trace is the table of distances
  have hdist : ∀ c, c < g.interner.size → ∀ d, (g.interner.resolve c, d) ∈ done ↔
      d ≤ maxDepth ∧ g.OpenDistance ll cf name d c := by
    intro c hc d
    have ht := hinv.trace
    have hclosed := hinv.closed
    simp only [hempty, List.append_nil] at ht hclosed
    rw [ht.mem_iff_of_closed hclosed, h.isDistance_resolve hc]
  have hsteps : ∀ c, c < g.interner.size →
      ((∃ d < maxDepth, (g.interner.resolve c, d) ∈ done) ↔
        ∃ n < maxDepth, g.OpenSteps ll cf name n c) := by
    intro c hc
    constructor
    · rintro ⟨d, hd, hmem⟩
      exact ⟨d, hd, ((hdist c hc d).mp hmem).2.1⟩
    · rintro ⟨n, hn, hsteps⟩
      obtain ⟨d, hd, hdist'⟩ := hsteps.exists_isDistance
      exact ⟨d, by omega, (hdist c hc d).mpr ⟨by omega, hdist'⟩⟩
  refine ⟨{ catches := catchSort.run st.catches, maxDepth := maxDepth,
            stops := { depthLimit := st.depthLimit }, complete := !st.depthLimit,
            targetKnown := true }, ?_, rfl, ?_, ?_⟩
  · rw [queryNearestCatches, if_neg (by simp [hknown])]
    simp only [hrun, Option.bind_eq_bind, Option.bind_some]
  · refine ⟨edges, st.catches, hinv.nodup, (catchSort.perm _).symm, ?_, fun e => ?_⟩
    · refine hinv.reports.imp fun e info hreport => ?_
      obtain ⟨d, hmem, hrep⟩ := hreport
      exact
        { scope := hrep.scope
          callSite := hrep.callSite
          frames := ⟨d, ((hdist _ hrep.below d).mp hmem).2, hrep.frames⟩
          chain := by rw [hrep.frames]; exact hrep.chain
          segment := hrep.segment }
    · rw [hinv.edges_iff]
      refine and_congr_right fun he => and_congr_right fun _ => ?_
      exact hsteps e.callee (h.below_of_mem_callerRefsOf he).2.1
  · dsimp only
    rw [Bool.not_eq_true', ← Bool.not_eq_true, hinv.limit]
    constructor
    · intro hno c hc
      by_contra hne
      have hlt := (h.openSteps_resolve hc.1).1
      exact hno ⟨c, maxDepth, hlt, (hdist c hlt _).mpr ⟨le_rfl, hc⟩, le_rfl, hne⟩
    · rintro hall ⟨c, d, hc, hmem, hd, hne⟩
      obtain ⟨hle, hopen⟩ := (hdist c hc d).mp hmem
      obtain rfl := le_antisymm hle hd
      exact hne (hall c hopen)

end Walk

/-- The call of `f` by `m` at `s`, in the TU `t`. -/
def callFromMain : List Registration :=
  [.node { qualifiedName := [102], usr := [102] } [116],
    .node { qualifiedName := [109], usr := [109] } [116],
    .edge ⟨[109], [102], .directCall, .Proven, [115], 0, .synchronous, [], []⟩ [116]]

/-- The call stands in a `try` with a catch-all. -/
def tryInMain : CallSiteContext :=
  { callerName := [109], calleeName := [102], callSite := [115], tuPath := [116],
    enclosingTryCatches := [{ tryLocation := [119],
                              handlers := [{ caughtType := [], isCatchAll := true }] }] }

/-- The walk from `f` reports the `try` in `m`. -/
theorem queryNearestCatches_exact_main :
    ∃ r, (({} : CallGraph).registerAll callFromMain).queryNearestCatches utf8Llvm
        (({} : ControlFlowIndex).addAll [tryInMain]) stableCallerSort stableCatchSort [102] 20 =
          some r ∧ r.catches.length = 1 ∧
      (({} : CallGraph).registerAll callFromMain).NearestContract utf8Llvm
        (({} : ControlFlowIndex).addAll [tryInMain]) [102] 20 r := by
  have hg : Reachable (({} : CallGraph).registerAll callFromMain) ([] ++ callFromMain) :=
    BuiltFrom.empty.registerAll fun _ _ => trivial
  have hcf : (({} : ControlFlowIndex).addAll [tryInMain]).Held := by
    have hrun : ControlFlowIndex.BuiltFrom (fun _ => True)
        (({} : ControlFlowIndex).addAll [tryInMain]) ([] ++ [tryInMain]) _ :=
      ControlFlowIndex.BuiltFrom.empty.addAll fun _ _ => trivial
    exact .inl ⟨_, hrun.inv.1⟩
  have hends : (({} : CallGraph).registerAll callFromMain).EndsUnnamed :=
    hg.inv.1.endsUnnamed_of_nodes (by decide +kernel)
  obtain ⟨r, hr, -, hcontract⟩ := queryNearestCatches_exact hg acceptsUtf8_utf8Llvm hcf hends
    stableCallerSort stableCatchSort [102] (by decide +kernel) 20
  have hone : ((({} : CallGraph).registerAll callFromMain).queryNearestCatches utf8Llvm
      (({} : ControlFlowIndex).addAll [tryInMain]) stableCallerSort stableCatchSort [102] 20).map
        (·.catches.length) = some 1 := by
    decide +kernel
  rw [hr, Option.map_some, Option.some_inj] at hone
  exact ⟨r, hr, hone, hcontract⟩

end CallGraph

end Vycor
