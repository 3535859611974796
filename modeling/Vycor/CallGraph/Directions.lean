import Vycor.CallGraph.Query

/-!
# The two edge views

The callee side and the caller side of the graph show the same stored edges, and expand
the same candidates: a dispatch through a base method and a deferred return reach `c` from
`a` at a call site seen from either end. They differ in what suppresses an expansion (the
callee side looks at stored virtual dispatch only, the caller side at every stored edge)
and in which candidate supplies the attributes (the first leaving `a`, or the first found
among the edges of the bases of `c`). `calleeRefsOf_eq_callerRefsOf_iff` states exactly
when the two views of a pair of ids coincide; that one shows an edge at a call site exactly
when the other does holds always (`exists_callee_iff_exists_caller`).
-/

namespace Vycor

section Find

variable {ι σ β κ : Type*} [DecidableEq ι] [DecidableEq κ]

/-- The first candidate with a key, in a list of sources that each expand to several. -/
theorem find?_expand (l : List σ) (p : σ → Bool) (targets : σ → List ι) (site : σ → κ)
    (f : σ → ι → β) (c : ι) (s : κ) :
    ((l.filter p).flatMap fun x => (targets x).map fun b => ((b, site x), f x b)).find?
        (fun k => decide (k.1 = (c, s))) =
      (l.find? fun x => p x && decide (c ∈ targets x ∧ site x = s)).map
        fun x => ((c, s), f x c) := by
  have hinner : ∀ x, ((targets x).map fun b => ((b, site x), f x b)).find?
      (fun k => decide (k.1 = (c, s))) =
        if c ∈ targets x ∧ site x = s then some ((c, s), f x c) else none := by
    intro x
    induction targets x with
    | nil => simp
    | cons b rest ih =>
      rw [List.map_cons, List.find?_cons, ih]
      by_cases hs : site x = s
      · by_cases hb : b = c
        · simp [hb, hs]
        · simp [hb, hs, Ne.symm hb]
      · simp [hs]
  induction l with
  | nil => rfl
  | cons x rest ih =>
    by_cases hp : p x = true
    · rw [List.filter_cons_of_pos hp, List.flatMap_cons, List.find?_append, hinner, ih,
        List.find?_cons]
      split_ifs with hc <;> simp [hp, hc]
    · rw [List.filter_cons_of_neg hp, ih, List.find?_cons]
      simp [hp]

/-- The first candidate with a key, in the sources of several places. -/
theorem find?_collect {ν : Type*} (l : List ν) (sources : ν → List σ) (p : σ → Bool)
    (key : σ → κ) (f : σ → β) (k : κ) :
    (l.flatMap fun i => ((sources i).filter p).map fun x => (key x, f x)).find?
        (fun c => decide (c.1 = k)) =
      ((l.flatMap sources).find? fun x => p x && decide (key x = k)).map fun x => (k, f x) := by
  have hinner : ∀ i, (((sources i).filter p).map fun x => (key x, f x)).find?
      (fun c => decide (c.1 = k)) =
        ((sources i).find? fun x => p x && decide (key x = k)).map fun x => (k, f x) := by
    intro i
    induction sources i with
    | nil => rfl
    | cons x rest ih =>
      by_cases hp : p x = true
      · rw [List.filter_cons_of_pos hp, List.map_cons, List.find?_cons, List.find?_cons, ih]
        by_cases hk : key x = k <;> simp [hp, hk]
      · rw [List.filter_cons_of_neg hp, ih, List.find?_cons]
        simp [hp]
  induction l with
  | nil => rfl
  | cons i rest ih =>
    rw [List.flatMap_cons, List.flatMap_cons, List.find?_append, List.find?_append, hinner, ih,
      Option.map_or]

end Find

namespace CallGraph

variable {g : CallGraph}

/-! ### Stored edges and closures -/

theorem Inv.mem_storedOut (h : g.Inv) {a : SId} {se : StoredEdge} :
    se ∈ g.storedOut a ↔ ∃ idx, LiveAt g.edges idx se ∧ se.caller = a := by
  simp only [storedOut, edgesAt, List.mem_filterMap, h.edge.out_iff]
  constructor
  · rintro ⟨idx, ⟨e, he, rfl⟩, hse⟩
    obtain rfl := Option.some_injective _ (he.1.symm.trans hse)
    exact ⟨idx, he, rfl⟩
  · rintro ⟨idx, he, rfl⟩
    exact ⟨idx, ⟨se, he, rfl⟩, he.1⟩

theorem Inv.mem_storedIn (h : g.Inv) {c : SId} {se : StoredEdge} :
    se ∈ g.storedIn c ↔ ∃ idx, LiveAt g.edges idx se ∧ se.callee = c := by
  simp only [storedIn, edgesAt, List.mem_filterMap, h.edge.in_iff]
  constructor
  · rintro ⟨idx, ⟨e, he, rfl⟩, hse⟩
    obtain rfl := Option.some_injective _ (he.1.symm.trans hse)
    exact ⟨idx, he, rfl⟩
  · rintro ⟨idx, he, rfl⟩
    exact ⟨idx, ⟨se, he, rfl⟩, he.1⟩

theorem mem_transitiveClosure {relation : SId → List SId}
    (hids : ∀ {i j}, j ∈ relation i → j < g.interner.size) {start a : SId} :
    a ∈ g.transitiveClosure start relation ↔
      a ≠ start ∧ Relation.ReflTransGen (Succ relation) start a := by
  refine mem_closureFrom (U := insert start (Finset.range g.interner.size)) ?_ ?_ ?_
  · intro i _ j hj
    exact Finset.mem_insert_of_mem (Finset.mem_range.mpr (hids hj))
  · exact Finset.mem_insert_self _ _
  · refine (Finset.card_insert_le _ _).trans ?_
    rw [Finset.card_range]

/-- The two closures walk one relation in opposite directions. -/
theorem Inv.mem_overrides_iff_mem_bases (h : g.Inv) {b c : SId} :
    c ∈ g.transitiveClosure b g.methodOverrides ↔ b ∈ g.transitiveClosure c g.overrideBases := by
  rw [mem_transitiveClosure fun hj => (h.rel.override_ids hj).2,
    mem_transitiveClosure fun hj => (h.rel.override_ids (h.rel.bases_iff.mp hj)).1]
  have hswap : Succ g.overrideBases = Function.swap (Succ g.methodOverrides) := by
    funext x y
    exact propext h.rel.bases_iff
  rw [hswap, Relation.reflTransGen_swap, ne_comm]

/-! ### The candidates at a call site -/

/-- A stored edge from `a` to `c` at call site `s` that both views show. -/
def ShownAt (g : CallGraph) (a c s : SId) (r : EdgeRef) : Prop :=
  (∃ idx se, LiveAt g.edges idx se ∧ se.kind ≠ .functionPointerReturn ∧ se.toEdge = r) ∧
    r.caller = a ∧ r.callee = c ∧ r.callSite = s

/-- The dispatch at `s` that the callee side expands to `c`: the first one leaving `a`. -/
def outDispatch (g : CallGraph) (a c s : SId) : Option StoredEdge :=
  (g.storedOut a).find? fun se => se.dispatches &&
    decide (c ∈ g.transitiveClosure se.callee g.methodOverrides ∧ se.callSite = s)

/-- The deferred row at `s` that the callee side expands to `c`. -/
def outReturn (g : CallGraph) (a c s : SId) : Option StoredEdge :=
  (g.storedOut a).find? fun se => se.defers &&
    decide (c ∈ g.functionReturns se.callee ∧ se.callSite = s)

/-- The dispatch at `s` that the caller side expands: the first from `a` among the edges of
the bases of `c`. -/
def inDispatch (g : CallGraph) (a c s : SId) : Option StoredEdge :=
  ((g.transitiveClosure c g.overrideBases).flatMap g.storedIn).find? fun se =>
    se.dispatches && decide (se.caller = a ∧ se.callSite = s)

/-- The deferred row at `s` that the caller side expands. -/
def inReturn (g : CallGraph) (a c s : SId) : Option StoredEdge :=
  ((g.returnedBy c).flatMap g.storedIn).find? fun se =>
    se.defers && decide (se.caller = a ∧ se.callSite = s)

/-- The edge the callee side would synthesize from `a` to `c` at `s`. -/
def outSynth (g : CallGraph) (a c s : SId) : Option EdgeRef :=
  ((g.outDispatch a c s).map (·.dispatchTo c)).or ((g.outReturn a c s).map (·.returnTo c))

/-- The edge the caller side would synthesize from `a` to `c` at `s`. -/
def inSynth (g : CallGraph) (a c s : SId) : Option EdgeRef :=
  ((g.inDispatch a c s).map (·.dispatchTo c)).or ((g.inReturn a c s).map (·.returnTo c))

/-- The edge one view synthesizes: the first dispatch candidate whose key is not stored,
or the first return candidate if there is none. -/
theorem mem_synthesized {κ : Type*} [DecidableEq κ] {seen : List κ}
    {dispatch returns : List (κ × EdgeRef)} {r : EdgeRef} :
    r ∈ (admitNew seen dispatch).2 ++ (admitNew (admitNew seen dispatch).1 returns).2 ↔
      ∃ k, k ∉ seen ∧ ((dispatch.find? fun c => decide (c.1 = k)).or
        (returns.find? fun c => decide (c.1 = k))) = some (k, r) := by
  rw [List.mem_append, mem_admitNew_snd, mem_admitNew_snd]
  have hnone : ∀ k, k ∉ dispatch.map Prod.fst ↔
      dispatch.find? (fun c => decide (c.1 = k)) = none := by
    intro k
    simp only [List.mem_map, Prod.exists, exists_and_right, exists_eq_right, not_exists,
      List.find?_eq_none, decide_eq_true_eq, Prod.forall]
    exact ⟨fun h a b hm he => h b (he ▸ hm), fun h x hm => h k x hm rfl⟩
  constructor
  · rintro (⟨k, hk, hf⟩ | ⟨k, hk, hf⟩)
    · exact ⟨k, hk, by rw [hf]; rfl⟩
    · rw [mem_admitNew_fst, not_or, hnone] at hk
      exact ⟨k, hk.1, by rw [hk.2, hf]; rfl⟩
  · rintro ⟨k, hk, hf⟩
    rcases hd : dispatch.find? (fun c => decide (c.1 = k)) with _ | d
    · rw [hd, Option.none_or] at hf
      refine .inr ⟨k, ?_, hf⟩
      rw [mem_admitNew_fst, not_or, hnone]
      exact ⟨hk, hd⟩
    · rw [hd, Option.some_or] at hf
      exact .inl ⟨k, hk, by rw [hd, hf]⟩

theorem callSite_outSynth {a c s : SId} {r : EdgeRef} (h : g.outSynth a c s = some r) :
    r.callee = c ∧ r.callSite = s := by
  unfold outSynth at h
  rcases hd : g.outDispatch a c s with _ | se
  · rw [hd, Option.map_none, Option.none_or] at h
    obtain ⟨se, hse, rfl⟩ := Option.map_eq_some_iff.mp h
    have := List.find?_some hse
    simp only [Bool.and_eq_true, decide_eq_true_eq] at this
    exact ⟨rfl, this.2.2⟩
  · rw [hd, Option.map_some, Option.some_or] at h
    obtain rfl := Option.some_injective _ h
    have := List.find?_some hd
    simp only [Bool.and_eq_true, decide_eq_true_eq] at this
    exact ⟨rfl, this.2.2⟩

theorem callSite_inSynth {a c s : SId} {r : EdgeRef} (h : g.inSynth a c s = some r) :
    r.caller = a ∧ r.callee = c ∧ r.callSite = s := by
  unfold inSynth at h
  rcases hd : g.inDispatch a c s with _ | se
  · rw [hd, Option.map_none, Option.none_or] at h
    obtain ⟨se, hse, rfl⟩ := Option.map_eq_some_iff.mp h
    have := List.find?_some hse
    simp only [Bool.and_eq_true, decide_eq_true_eq] at this
    exact ⟨this.2.1, rfl, this.2.2⟩
  · rw [hd, Option.map_some, Option.some_or] at h
    obtain rfl := Option.some_injective _ h
    have := List.find?_some hd
    simp only [Bool.and_eq_true, decide_eq_true_eq] at this
    exact ⟨this.2.1, rfl, this.2.2⟩

theorem shown_iff {se : StoredEdge} :
    se.shown = true ↔ 0 < se.refs ∧ se.kind ≠ .functionPointerReturn := by
  simp [StoredEdge.shown, Nat.pos_iff_ne_zero]

/-- **The callee view of a pair of ids at a call site**: the stored edges, and the
synthesized one unless a virtual dispatch is stored. -/
theorem Inv.mem_calleeRefsOf (h : g.Inv) {a c s : SId} {r : EdgeRef} :
    (r ∈ g.calleeRefsOf a ∧ r.callee = c ∧ r.callSite = s) ↔
      g.ShownAt a c s r ∨ (g.outSynth a c s = some r ∧
        ¬ ∃ r', g.ShownAt a c s r' ∧ r'.kind = .virtualDispatch) := by
  have hseen : ∀ s, (c, s) ∈ g.calleeSeen a ↔
      ∃ r', g.ShownAt a c s r' ∧ r'.kind = .virtualDispatch := by
    intro s
    simp only [calleeSeen, List.mem_map, List.mem_filter, h.mem_storedOut, shown_iff,
      decide_eq_true_eq, Prod.mk.injEq]
    constructor
    · rintro ⟨se, ⟨⟨⟨idx, he, rfl⟩, -, hk⟩, hv⟩, rfl, rfl⟩
      exact ⟨se.toEdge, ⟨⟨idx, se, he, hk, rfl⟩, rfl, rfl, rfl⟩, hv⟩
    · rintro ⟨r', ⟨⟨idx, se, he, hk, rfl⟩, rfl, rfl, rfl⟩, hv⟩
      exact ⟨se, ⟨⟨⟨idx, he, rfl⟩, he.2, hk⟩, hv⟩, rfl, rfl⟩
  have hfind : ∀ k : SId × SId, ((g.calleeDispatch a).find? fun c => decide (c.1 = k)).or
      ((g.calleeReturns a).find? fun c => decide (c.1 = k)) =
        (g.outSynth a k.1 k.2).map fun r => (k, r) := by
    rintro ⟨c, s⟩
    rw [calleeDispatch, calleeReturns, find?_expand, find?_expand, outSynth, Option.map_or,
      Option.map_map, Option.map_map]
    rfl
  rw [calleeRefsOf, List.append_assoc, List.mem_append, mem_synthesized]
  simp only [hfind, Option.map_eq_some_iff, Prod.mk.injEq]
  constructor
  · rintro ⟨hst | ⟨k, hk, r', hr', hk', rfl⟩, rfl, rfl⟩
    · obtain ⟨se, hse, rfl⟩ := List.mem_map.mp hst
      obtain ⟨hmem, hsh⟩ := List.mem_filter.mp hse
      obtain ⟨idx, he, rfl⟩ := h.mem_storedOut.mp hmem
      exact .inl ⟨⟨idx, se, he, (shown_iff.mp hsh).2, rfl⟩, rfl, rfl, rfl⟩
    · obtain ⟨hc, hs⟩ := callSite_outSynth hr'
      obtain ⟨k1, k2⟩ := k
      dsimp only at hr' hc hs
      subst hc hs
      exact .inr ⟨hr', fun hv => hk ((hseen _).mpr hv)⟩
  · rintro (⟨⟨idx, se, he, hk, rfl⟩, rfl, rfl, rfl⟩ | ⟨hr, hno⟩)
    · refine ⟨.inl (List.mem_map.mpr ⟨se, ?_, rfl⟩), rfl, rfl⟩
      exact List.mem_filter.mpr ⟨h.mem_storedOut.mpr ⟨idx, he, rfl⟩, shown_iff.mpr ⟨he.2, hk⟩⟩
    · refine ⟨.inr ⟨(c, s), fun hm => hno ((hseen s).mp hm), r, hr, trivial, rfl⟩, ?_⟩
      exact callSite_outSynth hr

/-- **The caller view of a pair of ids at a call site**: the stored edges, and the
synthesized one unless any edge is stored. -/
theorem Inv.mem_callerRefsOf (h : g.Inv) {a c s : SId} {r : EdgeRef} :
    (r ∈ g.callerRefsOf c ∧ r.caller = a ∧ r.callSite = s) ↔
      g.ShownAt a c s r ∨ (g.inSynth a c s = some r ∧ ¬ ∃ r', g.ShownAt a c s r') := by
  have hseen : ∀ a s, (a, s) ∈ g.callerSeen c ↔ ∃ r', g.ShownAt a c s r' := by
    intro a s
    simp only [callerSeen, List.mem_map, List.mem_filter, h.mem_storedIn, shown_iff,
      Prod.mk.injEq]
    constructor
    · rintro ⟨se, ⟨⟨idx, he, rfl⟩, -, hk⟩, rfl, rfl⟩
      exact ⟨se.toEdge, ⟨idx, se, he, hk, rfl⟩, rfl, rfl, rfl⟩
    · rintro ⟨r', ⟨idx, se, he, hk, rfl⟩, rfl, rfl, rfl⟩
      exact ⟨se, ⟨⟨idx, he, rfl⟩, he.2, hk⟩, rfl, rfl⟩
  have hfind : ∀ k : SId × SId, ((g.callerDispatch c).find? fun c => decide (c.1 = k)).or
      ((g.callerReturns c).find? fun c => decide (c.1 = k)) =
        (g.inSynth k.1 c k.2).map fun r => (k, r) := by
    rintro ⟨a, s⟩
    rw [callerDispatch, callerReturns, find?_collect, find?_collect, inSynth, Option.map_or,
      Option.map_map, Option.map_map]
    simp only [inDispatch, inReturn, Prod.mk.injEq]
    rfl
  rw [callerRefsOf, List.append_assoc, List.mem_append, mem_synthesized]
  simp only [hfind, Option.map_eq_some_iff, Prod.mk.injEq]
  constructor
  · rintro ⟨hst | ⟨k, hk, r', hr', hk', rfl⟩, rfl, rfl⟩
    · obtain ⟨se, hse, rfl⟩ := List.mem_map.mp hst
      obtain ⟨hmem, hsh⟩ := List.mem_filter.mp hse
      obtain ⟨idx, he, rfl⟩ := h.mem_storedIn.mp hmem
      exact .inl ⟨⟨idx, se, he, (shown_iff.mp hsh).2, rfl⟩, rfl, rfl, rfl⟩
    · obtain ⟨ha, -, hs⟩ := callSite_inSynth hr'
      obtain ⟨k1, k2⟩ := k
      dsimp only at hr' ha hs
      subst ha hs
      exact .inr ⟨hr', fun hv => hk ((hseen _ _).mpr hv)⟩
  · rintro (⟨⟨idx, se, he, hk, rfl⟩, rfl, rfl, rfl⟩ | ⟨hr, hno⟩)
    · refine ⟨.inl (List.mem_map.mpr ⟨se, ?_, rfl⟩), rfl, rfl⟩
      exact List.mem_filter.mpr ⟨h.mem_storedIn.mpr ⟨idx, he, rfl⟩, shown_iff.mpr ⟨he.2, hk⟩⟩
    · obtain ⟨ha, -, hs⟩ := callSite_inSynth hr
      exact ⟨.inr ⟨(a, s), fun hm => hno ((hseen a s).mp hm), r, hr, trivial, rfl⟩, ha, hs⟩

/-! ### Agreement -/

/-- The candidates of the two sides are the same edges, whatever order they come in. -/
theorem Inv.outSynth_isSome (h : g.Inv) {a c s : SId} :
    (g.outSynth a c s).isSome ↔ (g.inSynth a c s).isSome := by
  have hd : (g.outDispatch a c s).isSome ↔ (g.inDispatch a c s).isSome := by
    simp only [outDispatch, inDispatch, List.find?_isSome, Bool.and_eq_true, decide_eq_true_eq,
      List.mem_flatMap, h.mem_storedOut, h.mem_storedIn, h.mem_overrides_iff_mem_bases]
    constructor
    · rintro ⟨se, ⟨idx, he, rfl⟩, hdis, hc, rfl⟩
      exact ⟨se, ⟨se.callee, hc, idx, he, rfl⟩, hdis, rfl, rfl⟩
    · rintro ⟨se, ⟨b, hb, idx, he, rfl⟩, hdis, rfl, rfl⟩
      exact ⟨se, ⟨idx, he, rfl⟩, hdis, hb, rfl⟩
  have hr : (g.outReturn a c s).isSome ↔ (g.inReturn a c s).isSome := by
    simp only [outReturn, inReturn, List.find?_isSome, Bool.and_eq_true, decide_eq_true_eq,
      List.mem_flatMap, h.mem_storedOut, h.mem_storedIn, h.rel.returnedBy_iff]
    constructor
    · rintro ⟨se, ⟨idx, he, rfl⟩, hdis, hc, rfl⟩
      exact ⟨se, ⟨se.callee, hc, idx, he, rfl⟩, hdis, rfl, rfl⟩
    · rintro ⟨se, ⟨b, hb, idx, he, rfl⟩, hdis, rfl, rfl⟩
      exact ⟨se, ⟨idx, he, rfl⟩, hdis, hb, rfl⟩
  simp only [outSynth, inSynth, Option.isSome_or, Option.isSome_map, Bool.or_eq_true, hd, hr]

/-- One view shows an edge from `a` to `c` at a call site exactly when the other does. -/
theorem Inv.exists_callee_iff_exists_caller (h : g.Inv) {a c s : SId} :
    (∃ r ∈ g.calleeRefsOf a, r.callee = c ∧ r.callSite = s) ↔
      ∃ r ∈ g.callerRefsOf c, r.caller = a ∧ r.callSite = s := by
  simp only [h.mem_calleeRefsOf, h.mem_callerRefsOf]
  have hiff := h.outSynth_isSome (a := a) (c := c) (s := s)
  simp only [Option.isSome_iff_exists] at hiff
  constructor
  · rintro ⟨r, hr | ⟨hr, -⟩⟩
    · exact ⟨r, .inl hr⟩
    · by_cases hsh : ∃ r', g.ShownAt a c s r'
      · exact hsh.imp fun _ hr' => .inl hr'
      · obtain ⟨r', hr'⟩ := hiff.mp ⟨r, hr⟩
        exact ⟨r', .inr ⟨hr', hsh⟩⟩
  · rintro ⟨r, hr | ⟨hr, hno⟩⟩
    · exact ⟨r, .inl hr⟩
    · obtain ⟨r', hr'⟩ := hiff.mpr ⟨r, hr⟩
      exact ⟨r', .inr ⟨hr', fun ⟨r'', h', _⟩ => hno ⟨r'', h'⟩⟩⟩

/-! ### Edges of the caller view -/

theorem Inv.callee_of_mem_callerRefsOf (h : g.Inv) {c : SId} {r : EdgeRef}
    (hr : r ∈ g.callerRefsOf c) : r.callee = c := by
  rcases h.mem_callerRefsOf.mp ⟨hr, rfl, rfl⟩ with hsh | ⟨hsyn, -⟩
  · exact hsh.2.2.1
  · exact (callSite_inSynth hsyn).2.1

theorem Inv.caller_of_mem_calleeRefsOf (h : g.Inv) {a : SId} {r : EdgeRef}
    (hr : r ∈ g.calleeRefsOf a) : ∃ r' ∈ g.callerRefsOf r.callee, r'.caller = a := by
  obtain ⟨r', hr', ha, -⟩ := h.exists_callee_iff_exists_caller.mp ⟨r, hr, rfl, rfl⟩
  exact ⟨r', hr', ha⟩

/-- The names of an edge the caller side shows are interned. -/
theorem Inv.below_of_mem_callerRefsOf (h : g.Inv) {c : SId} {r : EdgeRef}
    (hr : r ∈ g.callerRefsOf c) : r.Below g.interner.size := by
  rcases h.mem_callerRefsOf.mp ⟨hr, rfl, rfl⟩ with ⟨⟨idx, se, he, -, hse⟩, -⟩ | ⟨hsyn, -⟩
  · rw [← hse]
    exact h.edge.edge_ids he.1
  · unfold inSynth at hsyn
    rcases hd : g.inDispatch r.caller c r.callSite with _ | se
    · -- a deferred return: the returned function is a name of the relation
      rw [hd, Option.map_none, Option.none_or] at hsyn
      obtain ⟨se, hse, rfl⟩ := Option.map_eq_some_iff.mp hsyn
      obtain ⟨fn, hfn, hmem⟩ := List.mem_flatMap.mp (List.mem_of_find?_eq_some hse)
      obtain ⟨idx, he, rfl⟩ := h.mem_storedIn.mp hmem
      have hb := h.edge.edge_ids he.1
      exact ⟨hb.1, (h.rel.return_ids (h.rel.returnedBy_iff.mp hfn)).2, hb.2.2⟩
    · -- a dispatch: the override is a name of the relation, being the end of a chain of it
      rw [hd, Option.map_some, Option.some_or] at hsyn
      obtain rfl := Option.some_injective _ hsyn
      obtain ⟨base, hbase, hmem⟩ := List.mem_flatMap.mp (List.mem_of_find?_eq_some hd)
      obtain ⟨idx, he, rfl⟩ := h.mem_storedIn.mp hmem
      have hb := h.edge.edge_ids he.1
      rw [← h.mem_overrides_iff_mem_bases,
        mem_transitiveClosure fun hj => (h.rel.override_ids hj).2] at hbase
      obtain heq | ⟨m, -, hlast⟩ := hbase.2.cases_tail
      · exact absurd heq hbase.1
      · exact ⟨hb.1, (h.rel.override_ids hlast).2, hb.2.2⟩

/-- The caller side lists an edge once. -/
theorem Inv.nodup_callerRefsOf (h : g.Inv) (c : SId) : (g.callerRefsOf c).Nodup := by
  let key : EdgeRef → SId × SId := fun r => (r.caller, r.callSite)
  have hstored : (((g.storedIn c).filter StoredEdge.shown).map (·.toEdge)).Nodup := by
    refine List.Nodup.sublist (List.Sublist.map _ List.filter_sublist) ?_
    refine List.pairwise_map.mpr (List.pairwise_filterMap.mpr ?_)
    refine (h.edge.in_nodup c).imp_of_mem fun {i j} hi hj hij se hse se' hse' heq => hij ?_
    -- two live positions of one content are one position
    obtain ⟨e, he, -⟩ := h.edge.in_iff.mp hi
    obtain ⟨e', he', -⟩ := h.edge.in_iff.mp hj
    obtain rfl := Option.some_injective _ (he.1.symm.trans hse)
    obtain rfl := Option.some_injective _ (he'.1.symm.trans hse')
    exact (h.edge.live_unique he he' heq).1
  obtain ⟨hdis, hdisSeen⟩ := nodup_admitNew key (g.callerSeen c) (g.callerDispatch c) (by
    intro k hk
    obtain ⟨b, -, hk⟩ := List.mem_flatMap.mp hk
    obtain ⟨se, -, rfl⟩ := List.mem_map.mp hk
    rfl)
  obtain ⟨hret, hretSeen⟩ := nodup_admitNew key
    (admitNew (g.callerSeen c) (g.callerDispatch c)).1 (g.callerReturns c) (by
    intro k hk
    obtain ⟨b, -, hk⟩ := List.mem_flatMap.mp hk
    obtain ⟨se, -, rfl⟩ := List.mem_map.mp hk
    rfl)
  have hseen : ∀ r ∈ ((g.storedIn c).filter StoredEdge.shown).map (·.toEdge),
      key r ∈ g.callerSeen c := by
    intro r hr
    obtain ⟨se, hse, rfl⟩ := List.mem_map.mp hr
    exact List.mem_map.mpr ⟨se, hse, rfl⟩
  -- an admitted key is seen from then on
  have hkept : ∀ r ∈ (admitNew (g.callerSeen c) (g.callerDispatch c)).2,
      key r ∈ (admitNew (g.callerSeen c) (g.callerDispatch c)).1 := by
    intro r hr
    obtain ⟨k, -, hf⟩ := mem_admitNew_snd.mp hr
    have hmem := List.mem_of_find?_eq_some hf
    have hk : key r = k := by
      obtain ⟨b, -, hk⟩ := List.mem_flatMap.mp hmem
      obtain ⟨se, -, hse⟩ := List.mem_map.mp hk
      cases hse
      rfl
    exact mem_admitNew_fst.mpr (.inr (List.mem_map.mpr ⟨(k, r), hmem, hk.symm⟩))
  unfold callerRefsOf
  refine List.nodup_append.mpr ⟨List.nodup_append.mpr ⟨hstored, hdis.of_map _, ?_⟩,
    hret.of_map _, ?_⟩
  · rintro r hr r' hr' rfl
    exact hdisSeen r hr' (hseen r hr)
  · rintro r hr r' hr' rfl
    refine hretSeen r hr' ?_
    rcases List.mem_append.mp hr with hr | hr
    · exact mem_admitNew_fst.mpr (.inl (hseen r hr))
    · exact hkept r hr

/-! ### Exactly when the views coincide -/

/-- The two views of `a` and `c` can agree at call site `s`. Where nothing is stored, both
sides pick the same attributes for the synthesized edge; where something is stored, but no
virtual dispatch, the callee side synthesizes nothing that is not stored as well. -/
structure ViewsAgreeAt (g : CallGraph) (a c s : SId) : Prop where
  bare : (¬ ∃ r, g.ShownAt a c s r) → g.outSynth a c s = g.inSynth a c s
  hidden : (∃ r, g.ShownAt a c s r) → (¬ ∃ r, g.ShownAt a c s r ∧ r.kind = .virtualDispatch) →
    ∀ r, g.outSynth a c s = some r → g.ShownAt a c s r

/-- **The forward and the backward view of a pair of ids coincide exactly when they can
agree at every call site.** -/
theorem calleeRefsOf_eq_callerRefsOf_iff {log : List Registration} (hg : Reachable g log)
    (a c : SId) :
    ({r | r ∈ g.calleeRefsOf a ∧ r.callee = c} : Set EdgeRef) =
      {r | r ∈ g.callerRefsOf c ∧ r.caller = a} ↔ ∀ s, g.ViewsAgreeAt a c s := by
  have h := hg.inv.1
  -- both sets are decided call site by call site
  have hsites : ({r | r ∈ g.calleeRefsOf a ∧ r.callee = c} : Set EdgeRef) =
      {r | r ∈ g.callerRefsOf c ∧ r.caller = a} ↔ ∀ s r,
        (r ∈ g.calleeRefsOf a ∧ r.callee = c ∧ r.callSite = s) ↔
          (r ∈ g.callerRefsOf c ∧ r.caller = a ∧ r.callSite = s) := by
    rw [Set.ext_iff]
    constructor
    · intro hset s r
      have := hset r
      simp only [Set.mem_ofPred_eq] at this
      tauto
    · intro hall r
      have := hall r.callSite r
      simp only [Set.mem_ofPred_eq]
      tauto
  rw [hsites]
  refine forall_congr' fun s => ?_
  simp only [h.mem_calleeRefsOf, h.mem_callerRefsOf]
  constructor
  · intro hall
    refine ⟨fun hno => Option.ext fun r => ?_, fun hex hno r hr => ?_⟩
    · have := hall r
      have hv : ¬ ∃ r', g.ShownAt a c s r' ∧ r'.kind = .virtualDispatch :=
        fun ⟨r', h', _⟩ => hno ⟨r', h'⟩
      simpa [hno, hv, not_exists.mp hno r] using this
    · exact ((hall r).mp (.inr ⟨hr, hno⟩)).resolve_right fun hc => hc.2 hex
  · intro hag r
    by_cases hex : ∃ r', g.ShownAt a c s r'
    · simp only [hex, not_true, and_false, or_false]
      constructor
      · rintro (hr | ⟨hr, hno⟩)
        exacts [hr, hag.hidden hex hno r hr]
      · exact .inl
    · have hv : ¬ ∃ r', g.ShownAt a c s r' ∧ r'.kind = .virtualDispatch :=
        fun ⟨r', h', _⟩ => hex ⟨r', h'⟩
      simp only [hex, hv, hag.bare hex]

/-- `D` overrides `B`; `a` calls `B` by plausible virtual dispatch and `D` directly, at one
call site. Ids in order: `B`, `D`, `a`, the call site. -/
def sharedSite : List Registration :=
  [.methodOverride [66] [68] [],
    .edge ⟨[97], [66], .virtualDispatch, .Plausible, [115], 0, .synchronous, [], []⟩ [],
    .edge ⟨[97], [68], .directCall, .Proven, [115], 0, .synchronous, [], []⟩ []]

/-- The condition holds for the pair of the caller and the base, whose edge is stored. -/
theorem calleeRefsOf_eq_callerRefsOf_base :
    let g := ({} : CallGraph).registerAll sharedSite
    (({r | r ∈ g.calleeRefsOf 2 ∧ r.callee = 0} : Set EdgeRef) =
      {r | r ∈ g.callerRefsOf 0 ∧ r.caller = 2}) ∧ ∀ s, g.ViewsAgreeAt 2 0 s := by
  intro g
  have hg : Reachable g ([] ++ sharedSite) := BuiltFrom.empty.registerAll fun _ _ => trivial
  have hset : ({r | r ∈ g.calleeRefsOf 2 ∧ r.callee = 0} : Set EdgeRef) =
      {r | r ∈ g.callerRefsOf 0 ∧ r.caller = 2} := by
    have hl : (g.calleeRefsOf 2).filter (·.callee = 0) =
        (g.callerRefsOf 0).filter (·.caller = 2) := by decide +kernel
    ext r
    have := congrArg (r ∈ ·) hl
    simpa using this
  exact ⟨hset, (calleeRefsOf_eq_callerRefsOf_iff hg 2 0).mp hset⟩

/-- The callee side shows a dispatch edge from `a` to `D` that the caller side hides behind
the direct call. -/
theorem calleeRefsOf_ne_callerRefsOf :
    ¬ ∀ (g : CallGraph) (log : List Registration), Reachable g log → ∀ a c : SId,
      ({r | r ∈ g.calleeRefsOf a ∧ r.callee = c} : Set EdgeRef) =
        {r | r ∈ g.callerRefsOf c ∧ r.caller = a} := by
  intro hall
  have hg : Reachable (({} : CallGraph).registerAll sharedSite) ([] ++ sharedSite) :=
    BuiltFrom.empty.registerAll fun _ _ => trivial
  have hset := hall _ _ hg 2 1
  let r : EdgeRef := ⟨2, 1, 3, .virtualDispatch, .Plausible, .synchronous, 0⟩
  have hmem : r ∈ (({} : CallGraph).registerAll sharedSite).calleeRefsOf 2 := by decide +kernel
  have hnot : r ∉ (({} : CallGraph).registerAll sharedSite).callerRefsOf 1 := by decide +kernel
  have hin : r ∈ {r | r ∈ (({} : CallGraph).registerAll sharedSite).callerRefsOf 1 ∧
      r.caller = 2} := hset ▸ ⟨hmem, rfl⟩
  exact hnot hin.1

end CallGraph

end Vycor
