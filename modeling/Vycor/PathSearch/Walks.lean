import Vycor.PathSearch.Basic

/-!
# What the path search enumerates

Walks over admitted caller edges, the cycle rules, and the corridor as the walk uses it:
every node a start reaches is marked with the length of a shortest walk. `Search.WellFormed`
collects what the walk relies on; `CallGraph.search_wellFormed` proves it for the search of
a request without an edge filter, over any reachable graph.
-/

namespace Vycor

/-! ### Cycle rules -/

/-- The nodes a chain that leaves `s` passes, in order. -/
def chainNodes (s : SId) (chain : List EdgeRef) : List SId := s :: chain.map (·.callee)

/-- A chain leaving `s` obeys the cycle rule. -/
def CycleRule.Allows : CycleRule → SId → List EdgeRef → Prop
  | .simpleNodes, s, chain => (chainNodes s chain).Nodup
  | .simpleEdges, _, chain => (chain.map (·.pathKey)).Nodup

theorem CycleRule.allows_nil (rule : CycleRule) (s : SId) : rule.Allows s [] := by
  cases rule <;> simp [CycleRule.Allows, chainNodes]

namespace Search

variable {S : Search}

/-- Taking a further edge keeps the rule exactly when the walk does not exclude it. -/
theorem allows_cons {node : SId} {chain : List EdgeRef} {e : EdgeRef} (he : e.callee = node) :
    S.cycles.Allows e.caller (e :: chain) ↔
      S.cycles.Allows node chain ∧ S.excluded node chain e = false := by
  subst he
  unfold excluded
  rcases S.cycles with _ | _
  · simp [CycleRule.Allows, chainNodes]
    tauto
  · simp [CycleRule.Allows]
    tauto

/-! ### Walks -/

/-- `w` is a walk from `s` to `t` over admitted caller edges, in the direction of the
call. -/
def Walk (S : Search) (t : SId) : SId → List EdgeRef → Prop
  | s, [] => s = t
  | s, e :: w => e.caller = s ∧ (e ∈ S.callersOf e.callee ∧ S.admits e = true) ∧ S.Walk t e.callee w

theorem walk_append {s t : SId} {p q : List EdgeRef} :
    S.Walk t s (p ++ q) ↔ ∃ m, S.Walk m s p ∧ S.Walk t m q := by
  induction p generalizing s with
  | nil => simp [Walk]
  | cons e p ih =>
    simp only [List.cons_append, Walk, ih]
    constructor
    · rintro ⟨hs, he, m, hp, hq⟩
      exact ⟨m, ⟨hs, he, hp⟩, hq⟩
    · rintro ⟨m, ⟨hs, he, hp⟩, hq⟩
      exact ⟨hs, he, m, hp, hq⟩

theorem walk_concat {s t : SId} {p : List EdgeRef} {e : EdgeRef} :
    S.Walk t s (p ++ [e]) ↔
      S.Walk e.caller s p ∧ (e ∈ S.callersOf t ∧ S.admits e = true) ∧ e.callee = t := by
  rw [walk_append]
  simp only [Walk]
  constructor
  · rintro ⟨m, hp, rfl, he, rfl⟩
    exact ⟨hp, he, rfl⟩
  · rintro ⟨hp, he, rfl⟩
    exact ⟨_, hp, rfl, he, rfl⟩

theorem Walk.end_eq {s t t' : SId} {w : List EdgeRef} (hw : S.Walk t s w)
    (hw' : S.Walk t' s w) : t = t' := by
  induction w generalizing s with
  | nil => exact hw.symm.trans hw'
  | cons e w ih => exact ih hw.2.2 hw'.2.2

/-- The start of a non-empty walk is the caller of its first edge. -/
theorem Walk.start_eq {s s' t : SId} {w : List EdgeRef} (hw : S.Walk t s w)
    (hw' : S.Walk t s' w) : s = s' := by
  cases w with
  | nil => exact hw.trans hw'.symm
  | cons e w => exact hw.1.symm.trans hw'.1

/-- What the walk relies on: a depth bound, caller edges that point at their node and are
listed once, and a corridor that marks the starts, carries a walk for every mark and is
closed under admitted edges. -/
structure WellFormed (S : Search) : Prop where
  depth : 0 < S.limits.maxDepth
  callee : ∀ {y e}, e ∈ S.callersOf y → e.callee = y
  nodup : ∀ y, (S.callersOf y).Nodup
  start : ∀ s ∈ S.startSet, S.minFromStart s = some 0
  reached : ∀ {x d}, S.minFromStart x = some d →
    ∃ s ∈ S.startSet, ∃ w, S.Walk x s w ∧ w.length = d
  closed : ∀ {y e d}, e ∈ S.callersOf y → S.admits e = true → S.minFromStart e.caller = some d →
    ∃ d', d' ≤ d + 1 ∧ S.minFromStart y = some d'

variable (h : S.WellFormed)

include h

/-- The bound is in force. -/
theorem WellFormed.overBudget_iff {n : ℕ} :
    S.overBudget n = true ↔ S.limits.maxDepth < n := by
  have := h.depth
  simp [overBudget]
  omega

theorem WellFormed.marked_of_walk {x y : SId} {d : ℕ} {w : List EdgeRef}
    (hw : S.Walk x y w) (hy : S.minFromStart y = some d) :
    ∃ d', d' ≤ d + w.length ∧ S.minFromStart x = some d' := by
  induction w generalizing y d with
  | nil => exact ⟨d, le_rfl, by rw [← hw, hy]⟩
  | cons e w ih =>
    obtain ⟨rfl, ⟨he, hadm⟩, hw⟩ := hw
    obtain ⟨d', hd', hy'⟩ := h.closed he hadm hy
    obtain ⟨d'', hd'', hx⟩ := ih hw hy'
    refine ⟨d'', ?_, hx⟩
    rw [List.length_cons]
    omega

/-- A node that a walk of a start reaches is in the corridor, no further than the walk. -/
theorem WellFormed.marked {s x : SId} {w : List EdgeRef} (hs : s ∈ S.startSet)
    (hw : S.Walk x s w) : ∃ d, d ≤ w.length ∧ S.minFromStart x = some d := by
  simpa using h.marked_of_walk hw (h.start s hs)

theorem WellFormed.hasCorridorCaller_of_walk {s x : SId} {w : List EdgeRef}
    (hs : s ∈ S.startSet) (hw : S.Walk x s w) (hne : w ≠ []) :
    S.hasCorridorCaller x = true := by
  obtain ⟨p, e, rfl⟩ := (List.eq_nil_or_concat' w).resolve_left hne
  obtain ⟨hp, ⟨he, hadm⟩, -⟩ := walk_concat.mp hw
  obtain ⟨d, -, hd⟩ := h.marked hs hp
  refine List.any_eq_true.mpr ⟨e, he, ?_⟩
  simp [hadm, hd]

end Search

/-! ### The search of a request -/

section Graph

variable {g : CallGraph} (ll : Llvm)

theorem effectiveDepth_pos (l : SearchLimits) : 0 < l.effectiveDepth := by
  unfold SearchLimits.effectiveDepth
  split_ifs with hc
  · decide
  · omega

namespace CallGraph

theorem mem_sortCallerRefsCanonically {edges : List EdgeRef} {e : EdgeRef} :
    e ∈ g.sortCallerRefsCanonically edges ↔ e ∈ edges :=
  (List.perm_insertionSort _ edges).mem_iff

theorem lt_of_mem_resolveKnownIds {name : Bytes} {id : SId}
    (hid : id ∈ g.resolveKnownIds ll name) : id < g.interner.size := by
  have hfind : ∀ {l : List Bytes}, id ∈ (l.filterMap g.interner.find).filter (g.referenced ll) →
      id < g.interner.size := by
    intro l hl
    obtain ⟨s, -, hs⟩ := List.mem_filterMap.mp (List.mem_filter.mp hl).1
    exact StringInterner.lt_of_find hs
  unfold resolveKnownIds at hid
  rw [List.mem_dedup, (List.perm_insertionSort _ _).mem_iff] at hid
  split_ifs at hid with hempty
  · exact StringInterner.lt_of_find (Option.mem_toList.mp (List.mem_filter.mp hid).1)
  · exact hfind hid

theorem lt_of_mem_startIds {starts : List Bytes} {id : SId}
    (hid : id ∈ g.startIds ll starts) : id < g.interner.size := by
  unfold startIds at hid
  rw [List.mem_dedup] at hid
  obtain ⟨s, -, hs⟩ := List.mem_flatMap.mp hid
  exact lt_of_mem_resolveKnownIds ll hs

/-- The corridor of a request without a filter holds the distances over callee edges. -/
theorem Inv.distanceMap_corridor (h : g.Inv) (starts : List Bytes) :
    DistanceMap (fun id => (g.calleeRefsOf id).map (·.callee)) (g.startIds ll starts)
      (g.corridor none (g.startIds ll starts)) := by
  have hall : ∀ l : List EdgeRef, l.filter (fun e => (none : Option (EdgeRef → Bool)).all
      fun p => p e) = l := fun l => List.filter_eq_self.mpr fun _ _ => rfl
  simp only [corridor, hall]
  refine distanceMap_bfsDist (U := Finset.range g.interner.size) ?_ ?_ ?_
  · intro y _ x hx
    obtain ⟨r, hr, rfl⟩ := List.mem_map.mp hx
    obtain ⟨r', hr', -⟩ := h.caller_of_mem_calleeRefsOf hr
    rw [Finset.mem_range, ← h.callee_of_mem_callerRefsOf hr']
    exact (h.below_of_mem_callerRefsOf hr').2.1
  · exact fun x hx => Finset.mem_range.mpr (lt_of_mem_startIds ll hx)
  · rw [Finset.card_range]
    exact Nat.lt_succ_self _

/-- **A request without a filter is searched over a corridor that fits the caller edges**:
the two edge views show an edge between the same pairs of ids. -/
theorem Inv.search_wellFormed (h : g.Inv) (starts : List Bytes) (limits : SearchLimits)
    (cycles : CycleRule) : (g.search ll starts limits cycles none).WellFormed := by
  have hdist := h.distanceMap_corridor ll starts
  refine ⟨effectiveDepth_pos limits, fun he => ?_, fun y => ?_, fun s hs => ?_,
    fun {x d} hx => ?_, fun {y e d} he _ hd => ?_⟩
  · exact h.callee_of_mem_callerRefsOf (mem_sortCallerRefsCanonically.mp he)
  · exact (List.perm_insertionSort _ _).nodup_iff.mpr (h.nodup_callerRefsOf y)
  · exact (hdist.zero s).mpr hs
  · -- a mark is reached by following marks down to zero
    induction d generalizing x with
    | zero => exact ⟨x, (hdist.zero x).mp hx, [], rfl, rfl⟩
    | succ d ih =>
      obtain ⟨y, hy, hxy⟩ := hdist.pred x d hx
      obtain ⟨s, hs, w, hw, hlen⟩ := ih hy
      obtain ⟨r, hr, rfl⟩ := List.mem_map.mp hxy
      obtain ⟨r', hr', rfl⟩ := h.caller_of_mem_calleeRefsOf hr
      refine ⟨s, hs, w ++ [r'], Search.walk_concat.mpr ⟨hw, ⟨?_, rfl⟩, ?_⟩, by simp [hlen]⟩
      · exact mem_sortCallerRefsCanonically.mpr hr'
      · exact h.callee_of_mem_callerRefsOf hr'
  · have he' := mem_sortCallerRefsCanonically.mp he
    obtain ⟨r, hr, hry, -⟩ := h.exists_callee_iff_exists_caller.mpr ⟨e, he', rfl, rfl⟩
    exact hdist.closed e.caller d hd y (List.mem_map.mpr ⟨r, hr, hry⟩)

end CallGraph

end Graph

end Vycor
