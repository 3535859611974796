import Vycor.Impact.Search
import Vycor.Lib.QueueBfs
import Vycor.PathSearch.Contract

/-!
# The contract of the impact search

The search is a breadth-first search with a queue over the caller edges, started from all
changed functions at once. What it marks is a trace (`TraceInv`), so the depths are numbers
of edges, and once the queue is empty and no hub was skipped they are the distances up to the
depth bound. An entry keeps its edge and the entry of its parent, and these links spell out
the path. Only the changed ids, in usr order, enter the search, so the order and the
repetitions of the request are forgotten before it starts.
-/

namespace Vycor

namespace ImpactWalk

variable {st : ImpactWalk}

theorem find_eq_none {a : SId} : st.find a = none ↔ ∀ r, (a, r) ∉ st.reached := by
  rw [find, Option.map_eq_none_iff, List.find?_eq_none]
  constructor
  · intro h r hr
    simpa using h (a, r) hr
  · rintro h ⟨b, r⟩ hr
    rw [decide_eq_true_eq]
    exact fun hb => h r (hb ▸ hr)

/-- An entry is found, where a function is queued once. -/
theorem find_of_mem (hnodup : (st.reached.map Prod.fst).Nodup) {a : SId} {r : Reach}
    (hr : (a, r) ∈ st.reached) : st.find a = some r := by
  rcases hfind : st.reached.find? (·.1 = a) with _ | ⟨b, r'⟩
  · have hne := List.find?_eq_none.mp hfind (a, r) hr
    simp at hne
  · have hb : b = a := by simpa using List.find?_some hfind
    have heq := List.inj_on_of_nodup_map hnodup (List.mem_of_find?_eq_some hfind) hr hb
    rw [find, hfind, Option.map_some, congrArg Prod.snd heq]

end ImpactWalk

namespace CallGraph

variable {g : CallGraph}

/-- An entry is a changed function, or its edge leads to the entry of its parent. -/
def Linked (g : CallGraph) (reached : List (SId × Reach)) (a : SId) (r : Reach) : Prop :=
  (r.depth = 0 ∧ r.origin = a) ∨
    ∃ up, (r.parent, up) ∈ reached ∧ r.depth = up.depth + 1 ∧ r.origin = up.origin ∧
      r.edge ∈ g.callerRefsOf r.parent ∧ r.edge.caller = a

theorem Linked.append {reached : List (SId × Reach)} {a : SId} {r : Reach}
    (h : g.Linked reached a r) (more : List (SId × Reach)) : g.Linked (reached ++ more) a r := by
  rcases h with h | ⟨up, hup, h⟩
  · exact .inl h
  · exact .inr ⟨up, List.mem_append_left _ hup, h⟩

/-- The entries as nodes with their depths. -/
def depths (reached : List (SId × Reach)) : List (SId × ℕ) := reached.map fun p => (p.1, p.2.depth)

theorem mem_depths {reached : List (SId × Reach)} {a : SId} {d : ℕ} :
    (a, d) ∈ depths reached ↔ ∃ r, (a, r) ∈ reached ∧ r.depth = d := by
  rw [depths, List.mem_map]
  constructor
  · rintro ⟨⟨b, r⟩, hr, heq⟩
    rw [Prod.mk.injEq] at heq
    exact ⟨r, heq.1 ▸ hr, heq.2⟩
  · rintro ⟨r, hr, rfl⟩
    exact ⟨(a, r), hr, rfl⟩

theorem fst_depths (reached : List (SId × Reach)) :
    (depths reached).map Prod.fst = reached.map Prod.fst := by
  rw [depths, List.map_map]
  rfl

/-- The walk runs a breadth-first search: its entries are the nodes `done` with and those of
the queue. -/
structure Traced (g : CallGraph) (seeds : List SId) (bound : ℕ) (done : List (SId × ℕ))
    (st : ImpactWalk) (bfs : QueueBfs SId EdgeRef) : Prop where
  inv : TraceInv g.callerRefsOf (·.caller) seeds bound (done ++ bfs.queue) bfs
  trace : depths st.reached = done ++ bfs.queue
  queue : st.queue = bfs.queue.map Prod.fst
  linked : ∀ a r, (a, r) ∈ st.reached → g.Linked st.reached a r

variable {seeds : List SId} {bound : ℕ} {done : List (SId × ℕ)} {st : ImpactWalk}
  {bfs : QueueBfs SId EdgeRef}

theorem Traced.nodup (h : g.Traced seeds bound done st bfs) : (st.reached.map Prod.fst).Nodup := by
  rw [← fst_depths, h.trace]
  exact h.inv.nodup

theorem Traced.find_eq_none (h : g.Traced seeds bound done st bfs) {a : SId} :
    st.find a = none ↔ a ∉ bfs.visited := by
  rw [ImpactWalk.find_eq_none, h.inv.visited_iff, ← h.trace]
  simp only [mem_depths]
  constructor
  · rintro hno ⟨d, r, hr, -⟩
    exact hno r hr
  · exact fun hno r hr => hno ⟨r.depth, r, hr, rfl⟩

/-- A function queued is in the table of strings. -/
theorem Inv.below_of_trace (hg : g.Inv) (hseeds : ∀ s ∈ seeds, s < g.interner.size)
    {trace : List (SId × ℕ)} (h : TraceInv g.callerRefsOf (·.caller) seeds bound trace bfs)
    {a : SId} {d : ℕ} (ha : (a, d) ∈ trace) : a < g.interner.size := by
  cases d with
  | zero => exact hseeds a ((h.zero a).mp ha)
  | succ d =>
    obtain ⟨-, e, b, -, htgt, -, he⟩ := h.pred a d ha
    rw [← htgt]
    exact (hg.below_of_mem_callerRefsOf he).1

theorem Inv.length_le_of_trace (hg : g.Inv) (hseeds : ∀ s ∈ seeds, s < g.interner.size)
    {trace : List (SId × ℕ)} (h : TraceInv g.callerRefsOf (·.caller) seeds bound trace bfs) :
    trace.length ≤ g.interner.size := by
  have hsub : trace.map Prod.fst ⊆ List.range g.interner.size := by
    intro a ha
    obtain ⟨⟨a, d⟩, hd, rfl⟩ := List.mem_map.mp ha
    exact List.mem_range.mpr (hg.below_of_trace hseeds h hd)
  have hlen := (List.subperm_of_subset h.nodup hsub).length_le
  rwa [List.length_map, List.length_range] at hlen

/-- What following edges of an entry leaves alone. -/
structure SameCuts (st st' : ImpactWalk) : Prop where
  hubs : st'.hubs = st.hubs
  stops : st'.stops = st.stops
  expansions : st'.expansions = st.expansions

/-- One caller edge of an entry below the bound. -/
theorem Traced.follow (h : g.Traced seeds bound done st bfs) {u : SId} {here : Reach}
    (hu : (u, here) ∈ st.reached) (hd : here.depth < bound)
    (hlast : ∀ x ∈ done ++ bfs.queue, x.2 ≤ here.depth + 1) {e : EdgeRef}
    (he : e ∈ g.callerRefsOf u) :
    ∃ more, g.Traced seeds bound done (st.follow none u here e)
        (bfs.enqueue e.caller (here.depth + 1) (some e)) ∧
      (st.follow none u here e).reached = st.reached ++ more ∧
      (∀ x ∈ done ++ (bfs.enqueue e.caller (here.depth + 1) (some e)).queue,
        x.2 ≤ here.depth + 1) ∧
      (∃ d' ≤ here.depth + 1,
        (e.caller, d') ∈ done ++ (bfs.enqueue e.caller (here.depth + 1) (some e)).queue) ∧
      SameCuts st (st.follow none u here e) := by
  have hmem : (u, here.depth) ∈ done ++ bfs.queue := by
    rw [← h.trace]
    exact mem_depths.mpr ⟨here, hu, rfl⟩
  obtain ⟨new, hinv, hqueue, hnew, hreached⟩ := h.inv.follow hmem hd hlast he
  rw [List.append_assoc, ← hqueue] at hinv hreached
  have hadm : st.admitted none e = true ↔ e.caller ∉ bfs.visited := by
    rw [ImpactWalk.admitted, Option.all_none, Bool.true_and, Option.isNone_iff_eq_none,
      h.find_eq_none]
  have hlast' : ∀ x ∈ done ++ (bfs.enqueue e.caller (here.depth + 1) (some e)).queue,
      x.2 ≤ here.depth + 1 := by
    intro x hx
    rw [hqueue, ← List.append_assoc] at hx
    rcases List.mem_append.mp hx with hx | hx
    · exact hlast x hx
    · exact (hnew x hx).le
  by_cases hv : e.caller ∈ bfs.visited
  · -- a function queued before stays as it is
    have hsame : bfs.enqueue e.caller (here.depth + 1) (some e) = bfs := if_pos hv
    have hwalk : st.follow none u here e = st := by
      rw [ImpactWalk.follow, if_neg (fun hno => hadm.mp hno hv)]
    rw [hwalk]
    rw [hsame] at hinv hlast' hreached ⊢
    exact ⟨[], h, (List.append_nil _).symm, hlast', hreached, rfl, rfl, rfl⟩
  · have hpush : (bfs.enqueue e.caller (here.depth + 1) (some e)).queue =
        bfs.queue ++ [(e.caller, here.depth + 1)] := by
      rw [QueueBfs.enqueue, if_neg hv]
    have hwalk : st.follow none u here e =
        st.push e.caller ⟨here.depth + 1, u, e, here.origin⟩ := by
      rw [ImpactWalk.follow, if_pos (hadm.mpr hv)]
    rw [hwalk]
    refine ⟨[(e.caller, ⟨here.depth + 1, u, e, here.origin⟩)], ⟨hinv, ?_, ?_, ?_⟩, rfl, hlast',
      hreached, rfl, rfl, rfl⟩
    · rw [hpush, ← List.append_assoc, ← h.trace]
      exact List.map_append
    · rw [hpush, List.map_append, ← h.queue]
      rfl
    · intro a r hr
      rcases List.mem_append.mp hr with hr | hr
      · exact (h.linked a r hr).append _
      · -- the new entry hangs on the one it was found from
        obtain ⟨rfl, rfl⟩ := Prod.mk.injEq _ _ _ _ ▸ List.mem_singleton.mp hr
        exact .inr ⟨here, List.mem_append_left _ hu, rfl, rfl, he, rfl⟩

/-- All caller edges of an entry. -/
theorem Traced.followAll {u : SId} {here : Reach} (hd : here.depth < bound) (l : List EdgeRef)
    (hl : ∀ e ∈ l, e ∈ g.callerRefsOf u) {st : ImpactWalk} {bfs : QueueBfs SId EdgeRef}
    (h : g.Traced seeds bound done st bfs) (hu : (u, here) ∈ st.reached)
    (hlast : ∀ x ∈ done ++ bfs.queue, x.2 ≤ here.depth + 1) :
    ∃ bfs', g.Traced seeds bound done (l.foldl (ImpactWalk.follow none u here) st) bfs' ∧
      (∃ more, (l.foldl (ImpactWalk.follow none u here) st).reached = st.reached ++ more) ∧
      (∀ x ∈ done ++ bfs'.queue, x.2 ≤ here.depth + 1) ∧
      (∀ e ∈ l, ∃ d' ≤ here.depth + 1, (e.caller, d') ∈ done ++ bfs'.queue) ∧
      SameCuts st (l.foldl (ImpactWalk.follow none u here) st) := by
  induction l generalizing st bfs with
  | nil =>
    refine ⟨bfs, h, ⟨[], (List.append_nil _).symm⟩, hlast, fun e he => ?_, rfl, rfl, rfl⟩
    exact absurd he List.not_mem_nil
  | cons e l ih =>
    obtain ⟨more, h₁, hmore, hlast₁, ⟨d', hd', hreached⟩, hcuts⟩ :=
      h.follow hu hd hlast (hl e List.mem_cons_self)
    obtain ⟨bfs', h₂, ⟨more', hmore'⟩, hlast₂, hall, hcuts'⟩ :=
      ih (fun x hx => hl x (List.mem_cons_of_mem _ hx)) h₁
        (hmore ▸ List.mem_append_left _ hu) hlast₁
    rw [List.foldl_cons]
    refine ⟨bfs', h₂, ⟨more ++ more', ?_⟩, hlast₂, fun x hx => ?_, ?_⟩
    · rw [hmore', hmore, List.append_assoc]
    · rcases List.mem_cons.mp hx with rfl | hx
      · refine ⟨d', hd', ?_⟩
        rw [← h₂.trace, hmore', depths, List.map_append]
        rw [← h₁.trace] at hreached
        exact List.mem_append_left _ hreached
      · exact hall x hx
    · exact ⟨hcuts'.hubs.trans hcuts.hubs, hcuts'.stops.trans hcuts.stops,
        hcuts'.expansions.trans hcuts.expansions⟩

/-! ### The run -/

/-- The depth up to which functions are expanded; no function is as deep as the table is
long. -/
def impactBound (g : CallGraph) (limits : ImpactLimits) : ℕ :=
  if limits.maxDepth = 0 then g.interner.size + 1 else limits.maxDepth

/-- A function at the depth bound has a caller that is not queued. -/
def CutAt (g : CallGraph) (limits : ImpactLimits) (st : ImpactWalk) (done : List (SId × ℕ)) : Prop :=
  limits.maxDepth ≠ 0 ∧ ∃ b, (b, limits.maxDepth) ∈ done ∧
    ∃ e ∈ g.callerRefsOf b, st.find e.caller = none

/-- What every round of the loop keeps. -/
structure Running (g : CallGraph) (limits : ImpactLimits) (seeds : List SId)
    (done : List (SId × ℕ)) (st : ImpactWalk) (bfs : QueueBfs SId EdgeRef) : Prop
    extends g.Traced seeds (g.impactBound limits) done st bfs where
  near : ∀ x ∈ done ++ bfs.queue, ∀ y ∈ bfs.queue, x.2 ≤ y.2 + 1
  closed : st.stops.hubPruned = false → ∀ b d, (b, d) ∈ done → d < g.impactBound limits →
    ∀ e ∈ g.callerRefsOf b, ∃ d' ≤ d + 1, (e.caller, d') ∈ done ++ bfs.queue
  limit : st.stops.depthLimit = true ↔ g.CutAt limits st done
  inBudget : st.stops.workBudget = false

/-- What holds when the loop has ended. -/
structure Ended (g : CallGraph) (limits : ImpactLimits) (seeds : List SId) (st : ImpactWalk) :
    Prop where
  trace : ∃ bfs, TraceInv g.callerRefsOf (·.caller) seeds (g.impactBound limits)
    (depths st.reached) bfs
  linked : ∀ a r, (a, r) ∈ st.reached → g.Linked st.reached a r
  closed : st.stops.workBudget = false → st.stops.hubPruned = false →
    ∀ b d, (b, d) ∈ depths st.reached → d < g.impactBound limits →
      ∀ e ∈ g.callerRefsOf b, ∃ d' ≤ d + 1, (e.caller, d') ∈ depths st.reached
  limit : st.stops.workBudget = false →
    (st.stops.depthLimit = true ↔ g.CutAt limits st (depths st.reached))

variable {limits : ImpactLimits}

/-- The queue and the functions taken off it, when the head is taken off. -/
theorem Running.shift (done : List (SId × ℕ)) {u : SId} {d : ℕ} {rest : List (SId × ℕ)}
    (hq : bfs.queue = (u, d) :: rest) :
    (done ++ [(u, d)]) ++ rest = done ++ bfs.queue := by
  rw [hq, List.append_assoc, List.singleton_append]

/-- The head of the queue has an entry, with the depth it was queued with. -/
theorem Traced.head (h : g.Traced seeds bound done st bfs) {u : SId} {d : ℕ}
    (hu : (u, d) ∈ done ++ bfs.queue) :
    ∃ here, (u, here) ∈ st.reached ∧ here.depth = d ∧ st.find u = some here := by
  rw [← h.trace] at hu
  obtain ⟨here, hmem, hd⟩ := mem_depths.mp hu
  exact ⟨here, hmem, hd, ImpactWalk.find_of_mem h.nodup hmem⟩

/-- Taking the head off the queue. -/
theorem Traced.pop (h : g.Traced seeds bound done st bfs) {u : SId} {d : ℕ}
    {rest : List (SId × ℕ)} (hq : bfs.queue = (u, d) :: rest) {st' : ImpactWalk}
    (hreached : st'.reached = st.reached) (hqueue : st'.queue = rest.map Prod.fst) :
    g.Traced seeds bound (done ++ [(u, d)]) st' { bfs with queue := rest } := by
  have hshift := Running.shift done hq
  refine ⟨?_, ?_, hqueue, ?_⟩
  · have hinv := h.inv
    rw [← hshift] at hinv
    exact ⟨hinv.visited_iff, hinv.nodup, hinv.sorted, hinv.zero, hinv.root, hinv.pred⟩
  · rw [hreached, h.trace, hshift]
  · rw [hreached]
    exact h.linked

/-- The functions taken off the queue before the head are no deeper. -/
theorem Traced.le_head (h : g.Traced seeds bound done st bfs) {u : SId} {d : ℕ}
    {rest : List (SId × ℕ)} (hq : bfs.queue = (u, d) :: rest) :
    ∀ x ∈ done ++ [(u, d)], x.2 ≤ d := by
  have hsorted := h.inv.sorted
  rw [hq, List.pairwise_append] at hsorted
  intro x hx
  rcases List.mem_append.mp hx with hx | hx
  · exact hsorted.2.2 x hx (u, d) List.mem_cons_self
  · rw [List.mem_singleton.mp hx]

/-- While the functions taken off are above the bound, nothing is cut. -/
theorem not_cutAt_of_lt {d : ℕ} (hd : ¬ (limits.maxDepth ≠ 0 ∧ limits.maxDepth ≤ d))
    (hle : ∀ x ∈ done, x.2 ≤ d) : ¬ g.CutAt limits st done := by
  rintro ⟨hmax, b, hb, -⟩
  exact hd ⟨hmax, hle _ hb⟩

theorem cutAt_append {u : SId} {d : ℕ} :
    g.CutAt limits st (done ++ [(u, d)]) ↔ g.CutAt limits st done ∨
      (limits.maxDepth ≠ 0 ∧ d = limits.maxDepth ∧
        ∃ e ∈ g.callerRefsOf u, st.find e.caller = none) := by
  constructor
  · rintro ⟨hmax, b, hb, hcut⟩
    rcases List.mem_append.mp hb with hb | hb
    · exact .inl ⟨hmax, b, hb, hcut⟩
    · obtain ⟨rfl, rfl⟩ := Prod.mk.injEq _ _ _ _ ▸ List.mem_singleton.mp hb
      exact .inr ⟨hmax, rfl, hcut⟩
  · rintro (⟨hmax, b, hb, hcut⟩ | ⟨hmax, rfl, hcut⟩)
    · exact ⟨hmax, b, List.mem_append_left _ hb, hcut⟩
    · exact ⟨hmax, u, List.mem_append_right _ (List.mem_singleton_self _), hcut⟩

/-- A round that queues nothing. -/
theorem Running.passed (h : g.Running limits seeds done st bfs) {u : SId} {d : ℕ}
    {rest : List (SId × ℕ)} (hq : bfs.queue = (u, d) :: rest) {st' : ImpactWalk}
    (hreached : st'.reached = st.reached) (hqueue : st'.queue = rest.map Prod.fst)
    (hhub : st'.stops.hubPruned = false →
      st.stops.hubPruned = false ∧ g.impactBound limits ≤ d)
    (hlimit : st'.stops.depthLimit = true ↔ g.CutAt limits st' (done ++ [(u, d)]))
    (hwork : st'.stops.workBudget = false) :
    g.Running limits seeds (done ++ [(u, d)]) st' { bfs with queue := rest } := by
  have hshift := Running.shift done hq
  refine ⟨h.toTraced.pop hq hreached hqueue, fun x hx y hy => ?_, fun hpruned b n hb hn => ?_,
    hlimit, hwork⟩
  · rw [hshift] at hx
    exact h.near x hx y (by rw [hq]; exact List.mem_cons_of_mem _ hy)
  · obtain ⟨hpruned, hbound⟩ := hhub hpruned
    rw [hshift]
    rcases List.mem_append.mp hb with hb | hb
    · exact h.closed hpruned b n hb hn
    · obtain ⟨rfl, rfl⟩ := Prod.mk.injEq _ _ _ _ ▸ List.mem_singleton.mp hb
      omega

/-- A round that follows the edges of the head. -/
theorem Running.expanded (h : g.Running limits seeds done st bfs) {u : SId} {here : Reach}
    {rest : List (SId × ℕ)} (hq : bfs.queue = (u, here.depth) :: rest)
    (hu : (u, here) ∈ st.reached) (hd : here.depth < g.impactBound limits)
    (hdepth : ¬ (limits.maxDepth ≠ 0 ∧ limits.maxDepth ≤ here.depth)) (st' : ImpactWalk)
    (hreached : st'.reached = st.reached) (hqueue : st'.queue = rest.map Prod.fst)
    (hstops : st'.stops = st.stops) (l : List EdgeRef) (hl : ∀ e, e ∈ l ↔ e ∈ g.callerRefsOf u) :
    ∃ bfs', g.Running limits seeds (done ++ [(u, here.depth)])
      (l.foldl (ImpactWalk.follow none u here) st') bfs' := by
  have hshift := Running.shift done hq
  have hlast : ∀ x ∈ (done ++ [(u, here.depth)]) ++ rest, x.2 ≤ here.depth + 1 := by
    intro x hx
    rw [hshift] at hx
    exact h.near x hx (u, here.depth) (by rw [hq]; exact List.mem_cons_self)
  obtain ⟨bfs', htraced, ⟨more, hmore⟩, hlast', hall, hcuts⟩ :=
    (h.toTraced.pop hq hreached hqueue).followAll hd l (fun e he => (hl e).mp he)
      (hreached ▸ hu) hlast
  have hle := h.le_head hq
  have hstops' := hcuts.stops.trans hstops
  -- the nodes of the queue are behind the head
  have hfrom : ∀ y ∈ bfs'.queue, here.depth ≤ y.2 := by
    have hsorted := htraced.inv.sorted
    rw [List.pairwise_append] at hsorted
    exact fun y hy => hsorted.2.2 (u, here.depth)
      (List.mem_append_right _ (List.mem_singleton_self _)) y hy
  refine ⟨bfs', htraced, fun x hx y hy => ?_, fun hpruned b n hb hn => ?_, ?_, ?_⟩
  · exact (hlast' x hx).trans (by have := hfrom y hy; omega)
  · rw [hstops'] at hpruned
    rcases List.mem_append.mp hb with hb | hb
    · intro e he
      obtain ⟨d', hd', hmem⟩ := h.closed hpruned b n hb hn e he
      refine ⟨d', hd', ?_⟩
      -- what was on the trace stays on it
      rw [← h.trace] at hmem
      rw [← htraced.trace, hmore, hreached, depths, List.map_append]
      exact List.mem_append_left _ hmem
    · obtain ⟨rfl, rfl⟩ := Prod.mk.injEq _ _ _ _ ▸ List.mem_singleton.mp hb
      exact fun e he => hall e ((hl e).mpr he)
  · rw [hstops', h.limit]
    exact iff_of_false (not_cutAt_of_lt hdepth fun x hx => hle x (List.mem_append_left _ hx))
      (not_cutAt_of_lt hdepth hle)
  · rw [hstops']
    exact h.inBudget

/-- **The run.** The loop ends in a state that satisfies the contract of the walk. -/
theorem Inv.impactLoop_ended (hg : g.Inv) (hseeds : ∀ s ∈ seeds, s < g.interner.size) (fuel : ℕ)
    {done : List (SId × ℕ)} {st : ImpactWalk} {bfs : QueueBfs SId EdgeRef}
    (h : g.Running limits seeds done st bfs) (hfuel : g.interner.size < fuel + done.length) :
    g.Ended limits seeds (g.impactLoop limits none fuel st) := by
  have hlen : (done ++ bfs.queue).length ≤ g.interner.size := hg.length_le_of_trace hseeds h.inv
  rw [List.length_append] at hlen
  induction fuel generalizing done st bfs with
  | zero => omega
  | succ fuel ih =>
    have hnext : ∀ {done st bfs}, g.Running limits seeds done st bfs →
        g.interner.size < fuel + done.length →
          g.Ended limits seeds (g.impactLoop limits none fuel st) := by
      intro done st bfs h hfuel
      have hlen := hg.length_le_of_trace hseeds h.inv
      rw [List.length_append] at hlen
      exact ih h hfuel hlen
    rcases hq : bfs.queue with _ | ⟨⟨u, d⟩, rest⟩
    · -- the queue is empty: every function queued was taken off
      have hqueue : st.queue = [] := by rw [h.queue, hq, List.map_nil]
      have hdone : depths st.reached = done := by rw [h.trace, hq, List.append_nil]
      have hloop : g.impactLoop limits none (fuel + 1) st = st := by
        rw [impactLoop, hqueue]
      rw [hloop]
      refine ⟨⟨bfs, ?_⟩, h.linked, fun _ hhub => ?_, fun _ => ?_⟩
      · rw [h.trace]
        exact h.inv
      · have hclosed := h.closed hhub
        rw [hdone]
        rwa [hq, List.append_nil] at hclosed
      · rw [hdone]
        exact h.limit
    · have hqueue : st.queue = u :: rest.map Prod.fst := by rw [h.queue, hq, List.map_cons]
      have hhead : (u, d) ∈ done ++ bfs.queue := by
        rw [hq]
        exact List.mem_append_right _ List.mem_cons_self
      obtain ⟨here, hu, rfl, hfind⟩ := h.head hhead
      have hle := h.le_head hq
      have hfuel' : g.interner.size < fuel + (done ++ [(u, here.depth)]).length := by
        rw [List.length_append, List.length_singleton]
        omega
      rw [impactLoop, hqueue]
      dsimp only
      have hget : (ImpactWalk.find { st with queue := rest.map Prod.fst } u).getD
          { origin := u } = here := by
        rw [show ImpactWalk.find { st with queue := rest.map Prod.fst } u = st.find u from rfl,
          hfind, Option.getD_some]
      rw [hget]
      have hmem : ∀ e, e ∈ g.sortCallerRefsCanonically (g.callerRefsOf u) ↔
          e ∈ g.callerRefsOf u := fun e => mem_sortCallerRefsCanonically
      have hadm : ∀ e, (ImpactWalk.admitted none { st with queue := rest.map Prod.fst } e) = true ↔
          st.find e.caller = none := by
        intro e
        rw [ImpactWalk.admitted, Option.all_none, Bool.true_and, Option.isNone_iff_eq_none]
        rfl
      split_ifs with hdepth hany hhub hwork
      · -- at the bound, with a caller left out
        refine hnext (h.passed hq rfl rfl (fun hpruned => ⟨hpruned, ?_⟩) (iff_of_true rfl ?_)
          h.inBudget) hfuel'
        · rw [impactBound, if_neg hdepth.1]
          exact hdepth.2
        · obtain ⟨e, he, hout⟩ := List.any_eq_true.mp hany
          have hdeep : here.depth = limits.maxDepth := by
            have hbound := h.inv.depth_le_bound hhead
            rw [impactBound, if_neg hdepth.1] at hbound
            omega
          exact cutAt_append.mpr (.inr ⟨hdepth.1, hdeep, e, (hmem e).mp he, (hadm e).mp hout⟩)
      · -- at the bound, with all callers queued
        refine hnext (h.passed hq rfl rfl (fun hpruned => ⟨hpruned, ?_⟩) ?_ h.inBudget) hfuel'
        · rw [impactBound, if_neg hdepth.1]
          exact hdepth.2
        · refine h.limit.trans ((or_iff_left ?_).symm.trans cutAt_append.symm)
          rintro ⟨-, -, e, he, hout⟩
          exact hany (List.any_eq_true.mpr ⟨e, (hmem e).mpr he, (hadm e).mpr hout⟩)
      · -- a hub above the bound
        refine hnext (h.passed hq rfl rfl (fun hpruned => ?_) ?_ h.inBudget) hfuel'
        · cases hpruned
        · refine h.limit.trans (iff_of_false ?_ ?_)
          · exact not_cutAt_of_lt hdepth fun x hx => hle x (List.mem_append_left _ hx)
          · exact not_cutAt_of_lt hdepth hle
      · -- the budget ends the search
        refine ⟨⟨bfs, ?_⟩, h.linked, fun hno => ?_, fun hno => ?_⟩
        · change TraceInv _ _ _ _ (depths st.reached) bfs
          rw [h.trace]
          exact h.inv
        · cases hno
        · cases hno
      · have hd : here.depth < g.impactBound limits := by
          rw [impactBound]
          split_ifs with hmax
          · -- without a bound, a depth is smaller than the trace is long
            have hlt := h.inv.depth_lt_length hhead
            rw [List.length_append] at hlt
            omega
          · exact not_le.mp fun hle => hdepth ⟨hmax, hle⟩
        obtain ⟨bfs', hrun⟩ := h.expanded hq hu hd hdepth
          { st with queue := rest.map Prod.fst, expansions := st.expansions + 1 } rfl rfl rfl
          _ hmem
        exact hnext hrun hfuel'

/-! ### The start -/

/-- The changed functions on the queue. -/
theorem start_walk (l : List SId) :
    l.foldl (fun st s => st.push s { origin := s }) ({} : ImpactWalk) =
      { reached := l.map fun s => (s, { origin := s }), queue := l } := by
  induction l using List.reverseRecOn with
  | nil => rfl
  | append_singleton l s ih =>
    rw [List.foldl_append, ih, List.foldl_cons, List.foldl_nil, ImpactWalk.push, List.map_append]
    rfl

theorem start_bfs {l : List SId} (hnodup : l.Nodup) :
    (l.foldl (fun st a => st.enqueue a 0 none) ({} : QueueBfs SId EdgeRef)).queue =
      l.map fun s => (s, 0) := by
  induction l using List.reverseRecOn with
  | nil => rfl
  | append_singleton l s ih =>
    obtain ⟨hl, -, hs⟩ := List.nodup_append.mp hnodup
    obtain ⟨hvisited, -⟩ := @TraceInv.queue_starts SId EdgeRef _ l _ rfl
    have hnew : s ∉ l := fun hmem => hs s hmem s (List.mem_singleton_self s) rfl
    rw [List.foldl_append, List.foldl_cons, List.foldl_nil, QueueBfs.enqueue,
      if_neg (fun hv => hnew ((hvisited s).mp hv)), ih hl, List.map_append]
    rfl

theorem running_start (hnodup : seeds.Nodup) :
    g.Running limits seeds [] (seeds.foldl (fun st s => st.push s { origin := s }) ({} : ImpactWalk))
      (seeds.foldl (fun st a => st.enqueue a 0 none) ({} : QueueBfs SId EdgeRef)) := by
  have hqueue := start_bfs hnodup
  rw [start_walk]
  refine ⟨⟨TraceInv.start _ _ _ _, ?_, ?_, fun a r hr => ?_⟩, fun x hx y hy => ?_,
    fun _ b d hb => absurd hb List.not_mem_nil, iff_of_false Bool.false_ne_true ?_, rfl⟩
  · rw [List.nil_append, hqueue, depths, List.map_map]
    rfl
  · rw [hqueue, List.map_map]
    exact (List.map_id seeds).symm
  · obtain ⟨s, -, hs⟩ := List.mem_map.mp hr
    obtain ⟨rfl, rfl⟩ := Prod.mk.injEq _ _ _ _ ▸ hs
    exact .inl ⟨rfl, rfl⟩
  · rw [List.nil_append, hqueue] at hx
    obtain ⟨s, -, rfl⟩ := List.mem_map.mp hx
    omega
  · rintro ⟨-, b, hb, -⟩
    exact absurd hb List.not_mem_nil

/-! ### The paths -/

/-- The numbers of edges of the search are the lengths of the chains. -/
theorem Inv.stepsTo_iff_chain (hg : g.Inv) {n : ℕ} {a : SId} :
    StepsTo g.callerRefsOf (·.caller) seeds n a ↔
      ∃ s ∈ seeds, ∃ w, g.Chain s a w ∧ w.length = n := by
  constructor
  · intro h
    induction h with
    | start ha => exact ⟨_, ha, [], rfl, rfl⟩
    | step _ he ih =>
      obtain ⟨s, hs, w, hw, rfl⟩ := ih
      have hcallee := hg.callee_of_mem_callerRefsOf he
      exact ⟨s, hs, _ :: w, ⟨rfl, hcallee ▸ he, hcallee ▸ hw⟩, rfl⟩
  · rintro ⟨s, hs, w, hw, rfl⟩
    induction w generalizing a with
    | nil => exact .start (hw ▸ hs)
    | cons e w ih =>
      obtain ⟨rfl, he, hw⟩ := hw
      exact .step (ih hw) he

/-- The links of an entry spell out a chain to the changed function it was reached from. -/
theorem Inv.impactPath_chain (ll : Llvm) (hg : g.Inv) (hnodup : (st.reached.map Prod.fst).Nodup)
    (hlinked : ∀ a r, (a, r) ∈ st.reached → g.Linked st.reached a r) (fuel : ℕ) {a : SId}
    {r : Reach} (hr : (a, r) ∈ st.reached) (hfuel : r.depth ≤ fuel) :
    ∃ w, g.Chain r.origin a w ∧ w.length = r.depth ∧
      g.impactPath ll st fuel a = w.map (g.toHop ll) := by
  induction fuel generalizing a r with
  | zero =>
    obtain hzero : r.depth = 0 := by omega
    rcases hlinked a r hr with ⟨-, horigin⟩ | ⟨up, -, hdepth, -⟩
    · exact ⟨[], horigin.symm, hzero.symm, rfl⟩
    · omega
  | succ fuel ih =>
    rw [impactPath, ImpactWalk.find_of_mem hnodup hr]
    dsimp only
    rcases hlinked a r hr with ⟨hzero, horigin⟩ | ⟨up, hup, hdepth, horigin, he, hcaller⟩
    · rw [if_pos hzero]
      exact ⟨[], horigin.symm, hzero.symm, rfl⟩
    · obtain ⟨w, hw, hlen, hpath⟩ := ih hup (by omega)
      have hcallee := hg.callee_of_mem_callerRefsOf he
      rw [if_neg (by omega), hpath]
      refine ⟨r.edge :: w, ⟨hcaller, hcallee ▸ he, ?_⟩, ?_, rfl⟩
      · rwa [hcallee, horigin]
      · rw [List.length_cons, hlen, hdepth]

/-! ### The contract -/

section Contract

variable (ll : Llvm)

/-- An id a changed name stands for. -/
def ChangedId (g : CallGraph) (changed : List Bytes) (s : SId) : Prop :=
  ∃ name ∈ changed, s ∈ g.resolveKnownIds ll name

/-- `w` leads from a function to a changed one, in the direction of the call. -/
def LeadsToChange (g : CallGraph) (changed : List Bytes) (i : SId) (w : List EdgeRef) : Prop :=
  ∃ s, g.ChangedId ll changed s ∧ g.Chain s i w

/-- The contract of a result: every affected function has a path of its depth to a changed
one, no changed function is listed, and a complete result lists the functions at each
distance within the bound. -/
structure ImpactContract (g : CallGraph) (changed : List Bytes) (limits : ImpactLimits)
    (r : ImpactResult) : Prop where
  known : ∀ u, u ∈ r.changed ↔ ∃ s, g.ChangedId ll changed s ∧ g.interner.resolve s = u
  path : ∀ a ∈ r.affected, ∃ i s w, i < g.interner.size ∧ g.interner.resolve i = a.usr ∧
    g.ChangedId ll changed s ∧ g.interner.resolve s = a.changedUsr ∧ g.Chain s i w ∧
      w.length = a.depth ∧ a.path = w.map (g.toHop ll)
  apart : ∀ a ∈ r.affected, a.usr ∉ r.changed
  once : (r.affected.map (·.usr)).Nodup
  exact : r.complete = true → ∀ i < g.interner.size, ∀ d,
    (∃ a ∈ r.affected, a.usr = g.interner.resolve i ∧ a.depth = d) ↔
      ¬ g.ChangedId ll changed i ∧ (limits.maxDepth = 0 ∨ d ≤ limits.maxDepth) ∧
        IsLeast {n | ∃ w, g.LeadsToChange ll changed i w ∧ w.length = n} d
  depthLimit : r.complete = true → (r.stops.depthLimit = true ↔
    ∃ i w, g.LeadsToChange ll changed i w ∧ ¬ g.ChangedId ll changed i ∧
      ∀ a ∈ r.affected, a.usr ≠ g.interner.resolve i)

variable {ll} {changed changed' : List Bytes}

theorem mem_impactSeeds {s : SId} : s ∈ g.impactSeeds ll changed ↔ g.ChangedId ll changed s := by
  rw [impactSeeds, List.mem_dedup, List.mem_insertionSort, List.mem_flatMap, ChangedId]

theorem ChangedId.lt {s : SId} (h : g.ChangedId ll changed s) : s < g.interner.size := by
  obtain ⟨name, -, hs⟩ := h
  exact lt_of_mem_resolveKnownIds ll hs

theorem lt_of_mem_impactSeeds : ∀ s ∈ g.impactSeeds ll changed, s < g.interner.size :=
  fun _ hs => (mem_impactSeeds.mp hs).lt

theorem Inv.stepsTo_seeds (hg : g.Inv) {n : ℕ} {i : SId} :
    StepsTo g.callerRefsOf (·.caller) (g.impactSeeds ll changed) n i ↔
      ∃ w, g.LeadsToChange ll changed i w ∧ w.length = n := by
  rw [hg.stepsTo_iff_chain]
  constructor
  · rintro ⟨s, hs, w, hw, hn⟩
    exact ⟨w, ⟨s, mem_impactSeeds.mp hs, hw⟩, hn⟩
  · rintro ⟨w, ⟨s, hs, hw⟩, hn⟩
    exact ⟨s, mem_impactSeeds.mpr hs, w, hw, hn⟩

theorem Inv.isDistance_seeds (hg : g.Inv) {d : ℕ} {i : SId} :
    IsDistance g.callerRefsOf (·.caller) (g.impactSeeds ll changed) d i ↔
      IsLeast {n | ∃ w, g.LeadsToChange ll changed i w ∧ w.length = n} d := by
  rw [IsDistance, IsLeast, Set.mem_ofPred_eq, hg.stepsTo_seeds]
  refine and_congr_right fun _ => ?_
  constructor
  · intro h n hn
    exact not_lt.mp fun hlt => h n hlt (hg.stepsTo_seeds.mpr hn)
  · intro h n hlt hn
    exact absurd (h (hg.stepsTo_seeds.mp hn)) (not_le.mpr hlt)

/-- The search only depends on which names are changed. -/
theorem Inv.findImpact_congr (hg : g.Inv) (h : ∀ u, u ∈ changed' ↔ u ∈ changed)
    (limits : ImpactLimits) (filter : Option (EdgeRef → Bool)) :
    g.findImpact ll changed' limits filter = g.findImpact ll changed limits filter := by
  have hseeds : g.impactSeeds ll changed' = g.impactSeeds ll changed := by
    have hperm : (g.impactSeeds ll changed').Perm (g.impactSeeds ll changed) := by
      refine (List.perm_ext_iff_of_nodup (List.nodup_dedup _) (List.nodup_dedup _)).mpr fun s => ?_
      exact (mem_impactSeeds.trans (exists_congr fun name => and_congr_left' (h name))).trans
        mem_impactSeeds.symm
    have hsorted : ∀ l : List Bytes, (g.impactSeeds ll l).Pairwise
        fun a b => g.interner.resolve a ≤ g.interner.resolve b := by
      intro l
      exact (List.pairwise_insertionSort _ _).sublist (List.dedup_sublist _)
    refine List.Perm.eq_of_pairwise (fun a b ha hb hab hba => ?_) (hsorted _) (hsorted _) hperm
    exact (StringInterner.resolve_inj hg.strings_nodup (lt_of_mem_impactSeeds a ha)
      (lt_of_mem_impactSeeds b hb)).mp (le_antisymm hab hba)
  have hunknown : ∀ p : Bytes → Bool, ((changed'.filter p).insertionSort (· ≤ ·)).dedup =
      ((changed.filter p).insertionSort (· ≤ ·)).dedup := by
    intro p
    refine List.Perm.eq_of_pairwise (fun _ _ _ _ => le_antisymm)
      ((List.pairwise_insertionSort _ _).sublist (List.dedup_sublist _))
      ((List.pairwise_insertionSort _ _).sublist (List.dedup_sublist _))
      ((List.perm_ext_iff_of_nodup (List.nodup_dedup _) (List.nodup_dedup _)).mpr fun u => ?_)
    rw [List.mem_dedup, List.mem_dedup, List.mem_insertionSort, List.mem_insertionSort,
      List.mem_filter, List.mem_filter, h u]
  rw [findImpact, findImpact, hseeds, hunknown]

/-- The search ends. -/
theorem Inv.findImpact_ended (ll : Llvm) (hg : g.Inv) (changed : List Bytes)
    (limits : ImpactLimits) :
    g.Ended limits (g.impactSeeds ll changed) (g.impactLoop limits none (g.interner.size + 1)
      ((g.impactSeeds ll changed).foldl (fun st s => st.push s { origin := s }) {})) :=
  hg.impactLoop_ended lt_of_mem_impactSeeds _ (running_start (List.nodup_dedup _))
    (by rw [List.length_nil]; omega)

theorem mem_affected {a : AffectedFunction} {st : ImpactWalk} :
    a ∈ ((st.reached.filter (·.2.depth ≠ 0)).map fun p => g.affectedOf ll st p.1 p.2).insertionSort
      (fun a b => affectedBefore b a = false) ↔
    ∃ i r, (i, r) ∈ st.reached ∧ r.depth ≠ 0 ∧ g.affectedOf ll st i r = a := by
  rw [List.mem_insertionSort, List.mem_map]
  constructor
  · rintro ⟨⟨i, r⟩, hmem, rfl⟩
    rw [List.mem_filter, decide_eq_true_eq] at hmem
    exact ⟨i, r, hmem.1, hmem.2, rfl⟩
  · rintro ⟨i, r, hr, hdepth, rfl⟩
    exact ⟨(i, r), List.mem_filter.mpr ⟨hr, decide_eq_true_eq.mpr hdepth⟩, rfl⟩

namespace Ended

variable {bound : ℕ}

theorem nodup (h : g.Ended limits seeds st) : (st.reached.map Prod.fst).Nodup := by
  obtain ⟨bfs, htrace⟩ := h.trace
  rw [← fst_depths]
  exact htrace.nodup

/-- The changed functions are the entries at depth zero. -/
theorem depth_eq_zero_iff (h : g.Ended limits seeds st) {i : SId} {d : ℕ}
    (hi : (i, d) ∈ depths st.reached) : d = 0 ↔ i ∈ seeds := by
  obtain ⟨bfs, htrace⟩ := h.trace
  rw [← htrace.zero]
  constructor
  · rintro rfl
    exact hi
  · exact htrace.depth_unique hi

/-- Without a bound, every entry was expanded. -/
theorem lt_bound (hg : g.Inv) (hseeds : ∀ s ∈ seeds, s < g.interner.size)
    (h : g.Ended limits seeds st) (hmax : limits.maxDepth = 0) {i : SId} {d : ℕ}
    (hi : (i, d) ∈ depths st.reached) : d < g.impactBound limits := by
  obtain ⟨bfs, htrace⟩ := h.trace
  have hlt := htrace.depth_lt_length hi
  have hle := hg.length_le_of_trace hseeds htrace
  rw [impactBound, if_pos hmax]
  omega

/-- The entries of a complete search are the functions at each distance within the bound. -/
theorem mem_depths_iff (hg : g.Inv) (hseeds : ∀ s ∈ seeds, s < g.interner.size)
    (h : g.Ended limits seeds st) (hwork : st.stops.workBudget = false)
    (hhub : st.stops.hubPruned = false) {i : SId} {d : ℕ} :
    (i, d) ∈ depths st.reached ↔ (limits.maxDepth = 0 ∨ d ≤ limits.maxDepth) ∧
      IsDistance g.callerRefsOf (·.caller) seeds d i := by
  obtain ⟨bfs, htrace⟩ := h.trace
  have hclosed := h.closed hwork hhub
  by_cases hmax : limits.maxDepth = 0
  · -- the bound of the trace can be any large one
    have hwide := htrace.mono (le_max_left (g.impactBound limits) d)
    rw [hwide.mem_iff_of_closed fun b n hb _ => hclosed b n hb (h.lt_bound hg hseeds hmax hb)]
    simp [hmax]
  · rw [htrace.mem_iff_of_closed hclosed, impactBound, if_neg hmax, or_iff_right hmax]

/-- A function that calls a changed one over some edges is an entry, or callers were cut. -/
theorem mem_or_cut (hg : g.Inv) (hseeds : ∀ s ∈ seeds, s < g.interner.size)
    (h : g.Ended limits seeds st) (hwork : st.stops.workBudget = false)
    (hhub : st.stops.hubPruned = false) {n : ℕ} {i : SId}
    (hi : StepsTo g.callerRefsOf (·.caller) seeds n i) :
    (∃ d, (i, d) ∈ depths st.reached) ∨ g.CutAt limits st (depths st.reached) := by
  obtain ⟨bfs, htrace⟩ := h.trace
  induction hi with
  | start ha => exact .inl ⟨0, (htrace.zero _).mpr ha⟩
  | @step n b e _ he ih =>
    rcases ih with ⟨d, hb⟩ | hcut
    · rcases (htrace.depth_le_bound hb).lt_or_eq with hlt | heq
      · obtain ⟨d', -, hmem⟩ := h.closed hwork hhub b d hb hlt e he
        exact .inl ⟨d', hmem⟩
      · -- a node at the bound was not expanded
        have hmax : limits.maxDepth ≠ 0 := by
          intro hmax
          have := h.lt_bound hg hseeds hmax hb
          omega
        rw [impactBound, if_neg hmax] at heq
        rcases hfind : st.find e.caller with _ | r
        · exact .inr ⟨hmax, b, heq ▸ hb, e, he, hfind⟩
        · refine .inl ⟨r.depth, mem_depths.mpr ⟨r, ?_, rfl⟩⟩
          by_contra hno
          have hnone : st.find e.caller = none := by
            rw [ImpactWalk.find_eq_none]
            intro r' hr'
            have heq := ImpactWalk.find_of_mem h.nodup hr'
            rw [hfind, Option.some_inj] at heq
            exact hno (heq ▸ hr')
          rw [hnone] at hfind
          cases hfind
    · exact .inr hcut

end Ended

/-- The result of a search that has ended satisfies the contract. -/
theorem Ended.impactContract (hg : g.Inv) (h : g.Ended limits (g.impactSeeds ll changed) st)
    {r : ImpactResult} (hknown : r.changed = (g.impactSeeds ll changed).map g.interner.resolve)
    (hstops : r.stops = st.stops)
    (haffected : ∀ a, a ∈ r.affected ↔
      ∃ i e, (i, e) ∈ st.reached ∧ e.depth ≠ 0 ∧ g.affectedOf ll st i e = a)
    (honce : (r.affected.map (·.usr)).Nodup) : g.ImpactContract ll changed limits r := by
  obtain ⟨bfs, htrace⟩ := h.trace
  have hseeds : ∀ s ∈ g.impactSeeds ll changed, s < g.interner.size := lt_of_mem_impactSeeds
  have hbelow : ∀ {i : SId} {d : ℕ}, (i, d) ∈ depths st.reached → i < g.interner.size :=
    fun hi => hg.below_of_trace hseeds htrace hi
  have hinj : ∀ {i j : SId}, i < g.interner.size → j < g.interner.size →
      (g.interner.resolve i = g.interner.resolve j ↔ i = j) :=
    fun hi hj => StringInterner.resolve_inj hg.strings_nodup hi hj
  have hentry : ∀ {i : SId} {e : Reach}, (i, e) ∈ st.reached → (i, e.depth) ∈ depths st.reached :=
    fun he => mem_depths.mpr ⟨_, he, rfl⟩
  -- the affected functions are the entries that are not changed
  have hlisted : ∀ i < g.interner.size, ∀ d,
      (∃ a ∈ r.affected, a.usr = g.interner.resolve i ∧ a.depth = d) ↔
        ¬ g.ChangedId ll changed i ∧ (i, d) ∈ depths st.reached := by
    intro i hi d
    constructor
    · rintro ⟨a, ha, husr, rfl⟩
      obtain ⟨j, e, he, hdepth, rfl⟩ := (haffected a).mp ha
      obtain rfl := (hinj (hbelow (hentry he)) hi).mp husr
      refine ⟨fun hch => hdepth ?_, hentry he⟩
      exact (h.depth_eq_zero_iff (hentry he)).mpr (mem_impactSeeds.mpr hch)
    · rintro ⟨hch, hmem⟩
      obtain ⟨e, he, rfl⟩ := mem_depths.mp hmem
      refine ⟨_, (haffected _).mpr ⟨i, e, he, fun hzero => hch ?_, rfl⟩, rfl, rfl⟩
      exact mem_impactSeeds.mp ((h.depth_eq_zero_iff hmem).mp hzero)
  have hcomplete : r.complete = true →
      st.stops.workBudget = false ∧ st.stops.hubPruned = false := by
    intro hc
    rw [ImpactResult.complete, hstops, Bool.and_eq_true, Bool.not_eq_true', Bool.not_eq_true'] at hc
    exact hc
  refine ⟨fun u => ?_, fun a ha => ?_, fun a ha hch => ?_, honce, fun hc i hi d => ?_,
    fun hc => ?_⟩
  · rw [hknown, List.mem_map]
    exact exists_congr fun s => and_congr_left' mem_impactSeeds
  · obtain ⟨i, e, he, -, rfl⟩ := (haffected a).mp ha
    have hdepth : e.depth ≤ st.reached.length := by
      have hlt := htrace.depth_lt_length (hentry he)
      rw [depths, List.length_map] at hlt
      exact hlt.le
    obtain ⟨w, hw, hlen, hpath⟩ := hg.impactPath_chain ll h.nodup h.linked _ he hdepth
    have horigin : ∀ n i e, (i, e) ∈ st.reached → e.depth = n → e.origin ∈ g.impactSeeds ll changed := by
      intro n
      induction n with
      | zero =>
        intro i e he hzero
        rcases h.linked i e he with ⟨-, rfl⟩ | ⟨up, -, hdepth, -⟩
        · exact (h.depth_eq_zero_iff (hentry he)).mp hzero
        · omega
      | succ n ih =>
        intro i e he hn
        rcases h.linked i e he with ⟨hzero, -⟩ | ⟨up, hup, hdepth, horigin, -⟩
        · omega
        · rw [horigin]
          exact ih _ up hup (by omega)
    exact ⟨i, e.origin, w, hbelow (hentry he), rfl, mem_impactSeeds.mp (horigin _ i e he rfl), rfl,
      hw, hlen, hpath⟩
  · obtain ⟨i, e, he, hdepth, rfl⟩ := (haffected a).mp ha
    rw [hknown, List.mem_map] at hch
    obtain ⟨s, hs, heq⟩ := hch
    obtain rfl := (hinj (hseeds s hs) (hbelow (hentry he))).mp heq
    exact hdepth ((h.depth_eq_zero_iff (hentry he)).mpr hs)
  · obtain ⟨hwork, hhub⟩ := hcomplete hc
    rw [hlisted i hi, h.mem_depths_iff hg hseeds hwork hhub, hg.isDistance_seeds]
  · obtain ⟨hwork, hhub⟩ := hcomplete hc
    rw [hstops, h.limit hwork]
    constructor
    · rintro ⟨hmax, b, hb, e, he, hnone⟩
      -- a caller of a function at the bound
      obtain ⟨w, hw, -⟩ := hg.stepsTo_seeds.mp (.step (htrace.stepsTo hb) he)
      have hout : ∀ d, (e.caller, d) ∉ depths st.reached := by
        intro d hd
        obtain ⟨r, hr, -⟩ := mem_depths.mp hd
        exact ImpactWalk.find_eq_none.mp hnone r hr
      refine ⟨e.caller, w, hw, fun hch => ?_, fun a ha husr => ?_⟩
      · exact hout 0 ((htrace.zero _).mpr (mem_impactSeeds.mpr hch))
      · exact hout _ ((hlisted _ (hg.below_of_mem_callerRefsOf he).1 _).mp ⟨a, ha, husr, rfl⟩).2
    · rintro ⟨i, w, hw, hch, hno⟩
      have hsteps := hg.stepsTo_seeds.mpr ⟨w, hw, rfl⟩
      rcases h.mem_or_cut hg hseeds hwork hhub hsteps with ⟨d, hd⟩ | hcut
      · obtain ⟨a, ha, husr, -⟩ := (hlisted i (hbelow hd) d).mpr ⟨hch, hd⟩
        exact absurd husr (hno a ha)
      · exact hcut

/-- The affected functions have different usrs. -/
theorem Ended.nodup_usrs (hg : g.Inv) (hseeds : ∀ s ∈ seeds, s < g.interner.size)
    (h : g.Ended limits seeds st) :
    ((((st.reached.filter (·.2.depth ≠ 0)).map fun p => g.affectedOf ll st p.1 p.2).insertionSort
      fun a b => affectedBefore b a = false).map (·.usr)).Nodup := by
  obtain ⟨bfs, htrace⟩ := h.trace
  refine ((List.perm_insertionSort _ _).map _).nodup_iff.mpr ?_
  rw [List.map_map]
  have hkeys : ((st.reached.filter (·.2.depth ≠ 0)).map Prod.fst).Nodup :=
    h.nodup.sublist (List.filter_sublist.map _)
  refine (List.Nodup.of_map _ hkeys).map_on fun x hx y hy hxy => ?_
  have hlt : ∀ {x : SId × Reach}, x ∈ st.reached.filter (·.2.depth ≠ 0) → x.1 < g.interner.size :=
    fun hx => hg.below_of_trace hseeds htrace
      (mem_depths.mpr ⟨_, (List.mem_filter.mp hx).1, rfl⟩)
  exact List.inj_on_of_nodup_map hkeys hx hy
    ((StringInterner.resolve_inj hg.strings_nodup (hlt hx) (hlt hy)).mp hxy)

/-- **Impact search is an exact shortest-distance search.** Its result satisfies the contract,
and depends on the changed names as a set only. -/
theorem findImpact_exact (ll : Llvm) {log : List Registration} (hg : Reachable g log)
    (changed : List Bytes) (limits : ImpactLimits) :
    g.ImpactContract ll changed limits (g.findImpact ll changed limits) ∧
      ∀ changed' : List Bytes, (∀ u, u ∈ changed' ↔ u ∈ changed) →
        g.findImpact ll changed' limits = g.findImpact ll changed limits := by
  refine ⟨?_, fun changed' h => hg.inv.1.findImpact_congr h limits none⟩
  have hended := hg.inv.1.findImpact_ended ll changed limits
  exact hended.impactContract hg.inv.1 rfl rfl (fun a => mem_affected)
    (hended.nodup_usrs hg.inv.1 lt_of_mem_impactSeeds)

/-- The callee of the only call is changed: its caller is affected. -/
theorem findImpact_exact_overloads :
    let g := ({} : CallGraph).registerAll overloads
    (g.findImpact asciiLlvm [[98], [98]] {}).affected.map (·.usr) = [[97]] ∧
      g.ImpactContract asciiLlvm [[98]] {} (g.findImpact asciiLlvm [[98]] {}) ∧
      g.findImpact asciiLlvm [[98], [98]] {} = g.findImpact asciiLlvm [[98]] {} := by
  intro g
  have h := findImpact_exact asciiLlvm reachable_overloads [[98]] {}
  exact ⟨by decide +kernel, h.1, h.2 [[98], [98]] (by simp)⟩

end Contract

end CallGraph

end Vycor
