import Vycor.CallGraph.Absorb

/-!
# Removing TUs and compaction

`removeTUs` first releases every registration of the removed TUs, leaving tombstones, then
scrubs the adjacency vectors of the edges that died, then takes the TUs out of the node
contributors. Its first pass is a fold over the concatenated registration lists
(`ReleaseSpec`), its second is one node update for each removed TU (`DropSpec`). On the
ledger the whole operation is `Ledger.remove`.

That no registration of a remaining TU ends up on a tombstone needs `Covered`: an edge has
at least as many registrations as its TUs recorded. `compact` only moves records.
-/

namespace Vycor

/-! ### Removal on the ledger -/

namespace Ledger

/-- Every registration a TU recorded is counted. -/
def Covered (L : Ledger) : Prop := ∀ f, (L.regs f).card ≤ L.refs f

/-- A removal drops a node: it had contributors, and all of them are removed. -/
def Dropped (L : Ledger) (S : Set Bytes) (u : Bytes) : Prop :=
  (∃ tu ∈ S, L.contributors u tu) ∧ ∀ tu, L.contributors u tu → tu ∈ S

open Classical in
/-- Take a set of TUs out: their registrations are released, and a node goes with its last
contributor. -/
noncomputable def remove (L : Ledger) (S : Set Bytes) : Ledger where
  nodes u := if L.Dropped S u then none else L.nodes u
  contributors u tu := L.contributors u tu ∧ tu ∉ S
  refs f := L.refs f - ((L.regs f).filter (· ∈ S)).card
  regs f := (L.regs f).filter (· ∉ S)
  derived := L.derived
  overrides := L.overrides
  impls := L.impls
  returns := L.returns

/-- The node part of a removal. -/
noncomputable def dropNodes (L : Ledger) (S : Set Bytes) : Ledger :=
  { L with nodes := (L.remove S).nodes, contributors := (L.remove S).contributors }

theorem dropped_insert (L : Ledger) (s : Bytes) (S : Set Bytes) (u : Bytes) :
    L.Dropped (insert s S) u ↔ L.Dropped {s} u ∨ (L.dropNodes {s}).Dropped S u := by
  constructor
  · rintro ⟨⟨tu, -, hu⟩, hall⟩
    by_cases hex : ∃ tu' ∈ S, L.contributors u tu' ∧ tu' ≠ s
    · exact .inr ⟨hex, fun tu' hu' => (hall tu' hu'.1).resolve_left hu'.2⟩
    · have hs : ∀ tu', L.contributors u tu' → tu' = s := fun tu' hu' => by
        by_contra hne
        exact hex ⟨tu', (hall tu' hu').resolve_left hne, hu', hne⟩
      exact .inl ⟨⟨s, rfl, hs tu hu ▸ hu⟩, hs⟩
  · rintro (⟨⟨tu, rfl, hu⟩, hall⟩ | ⟨⟨tu, hS, hu, -⟩, hall⟩)
    · exact ⟨⟨tu, .inl rfl, hu⟩, fun tu' hu' => .inl (hall tu' hu')⟩
    · exact ⟨⟨tu, .inr hS, hu⟩, fun tu' hu' => or_iff_not_imp_left.mpr fun hne =>
        hall tu' ⟨hu', hne⟩⟩

/-- TUs may be taken out of the nodes one at a time. -/
theorem dropNodes_insert (L : Ledger) (s : Bytes) (S : Set Bytes) :
    (L.dropNodes {s}).dropNodes S = L.dropNodes (insert s S) := by
  classical
  refine Ledger.ext (funext fun u => ?_) (funext fun u => funext fun tu => propext ?_) rfl rfl rfl
    rfl rfl rfl
  · change (if (L.dropNodes {s}).Dropped S u then none else
      if L.Dropped {s} u then none else L.nodes u) = if L.Dropped (insert s S) u then none else _
    rw [if_congr (dropped_insert L s S u) rfl rfl]
    by_cases h1 : (L.dropNodes {s}).Dropped S u <;> by_cases h2 : L.Dropped {s} u <;> simp [h1, h2]
  · simp only [dropNodes, remove, Set.mem_singleton_iff, Set.mem_insert_iff, not_or]
    exact and_assoc

theorem dropNodes_empty (L : Ledger) : L.dropNodes ∅ = L := by
  refine Ledger.ext (funext fun u => ?_) (funext fun u => funext fun tu => propext ?_) rfl rfl rfl
    rfl rfl rfl <;> simp [dropNodes, remove, Dropped]

/-- The number of edges a removal removes for good. -/
noncomputable def removedCount (L : Ledger) (S : Set Bytes) : ℕ :=
  Set.ncard {f | 0 < L.refs f ∧ (L.remove S).refs f = 0}

end Ledger

/-- The TUs a list of paths names. -/
def tuSet (tuPaths : List Bytes) : Set Bytes := {tu | ∃ p ∈ tuPaths, toIndexText p = tu}

namespace CallGraph

variable {g : CallGraph}

/-! ### Counts of a live record -/

theorem Inv.refs_of_live (h : g.Inv) {idx : ℕ} {e : StoredEdge} (he : LiveAt g.edges idx e) :
    g.ledger.refs (e.toEdge.map g.interner.resolve) = e.refs := by
  refine (sum_map_single _ he.1 fun i e' he' hi => ?_).trans (if_pos rfl)
  split_ifs with hf
  · by_contra hr
    exact hi (h.edge.fact_unique h.strings_nodup ⟨he', Nat.pos_of_ne_zero hr⟩ he hf).1
  · rfl

theorem Inv.refs_pos_iff (h : g.Inv) {f : EdgeFact} : 0 < g.ledger.refs f ↔
    ∃ idx e, LiveAt g.edges idx e ∧ e.toEdge.map g.interner.resolve = f := by
  constructor
  · intro hf
    have hne : g.ledger.refs f ≠ 0 := hf.ne'
    have hex : ∃ x ∈ g.edges.map fun e =>
        if e.toEdge.map g.interner.resolve = f then e.refs else 0, x ≠ 0 := by
      by_contra hall
      push Not at hall
      exact hne (List.sum_eq_zero hall)
    obtain ⟨x, hx, hx0⟩ := hex
    obtain ⟨e, he, rfl⟩ := List.mem_map.mp hx
    obtain ⟨idx, hidx⟩ := List.mem_iff_getElem?.mp he
    split_ifs at hx0 with hfe
    · exact ⟨idx, e, ⟨hidx, Nat.pos_of_ne_zero hx0⟩, hfe⟩
    · exact absurd rfl hx0
  · rintro ⟨idx, e, he, rfl⟩
    rw [h.refs_of_live he]
    exact he.2

/-- The registrations of a live record, by TU. -/
theorem Inv.regs_of_live (h : g.Inv) {idx : ℕ} {e : StoredEdge} (he : LiveAt g.edges idx e) :
    g.ledger.regs (e.toEdge.map g.interner.resolve) =
      ∑ tu ∈ Finset.range g.interner.size,
        Multiset.replicate ((g.tuEdges tu).count idx) (g.interner.resolve tu) := by
  change regsIn _ _ _ _ = _
  unfold regsIn
  refine Finset.sum_congr rfl fun tu _ => ?_
  rw [List.count]
  congr 1
  refine List.countP_congr fun i hi => ?_
  obtain ⟨-, e', he'⟩ := h.edge.tag_live hi
  simp only [factAt, he'.1, Option.map_some, Option.some.injEq, decide_eq_true_eq, beq_iff_eq]
  constructor
  · exact fun hf => (h.edge.fact_unique h.strings_nodup he' he hf).1
  · rintro rfl
    rw [Option.some_injective _ (he'.1.symm.trans he.1)]

/-! ### Releasing registrations -/

/-- The first pass of `removeTUs` over a list of registrations: every record loses as many
registrations as the list names it, and dies when none is left. -/
structure ReleaseSpec (g : CallGraph) (l : List ℕ) (r : Release) : Prop where
  edges : ∀ i : ℕ, r.edges[i]? =
    (g.edges[i]?).map fun e => { e with refs := e.refs - l.count i }
  dead : ∀ i, i ∈ r.dead ↔ ∃ e, LiveAt g.edges i e ∧ e.refs ≤ l.count i
  nodup : r.dead.Nodup
  removed : r.removed = r.dead.length
  live : r.liveEdgeCount = r.edges.countP fun e => decide (0 < e.refs)
  callers : ∀ c, c ∈ r.affectedCallers ↔ ∃ i ∈ r.dead, ∃ e, g.edges[i]? = some e ∧ e.caller = c
  callees : ∀ c, c ∈ r.affectedCallees ↔ ∃ i ∈ r.dead, ∃ e, g.edges[i]? = some e ∧ e.callee = c
  index : ∀ k j, r.edgeIndex k = some j ↔ g.edgeIndex k = some j ∧
    ∀ i ∈ r.dead, ∀ e, g.edges[i]? = some e → keyOf e ≠ k

theorem ReleaseSpec.nil (h : g.Inv) : ReleaseSpec g []
    { edges := g.edges, edgeIndex := g.edgeIndex, liveEdgeCount := g.liveEdgeCount } where
  edges i := by
    rcases g.edges[i]? with _ | e
    exacts [rfl, rfl]
  dead i := by
    simp only [List.not_mem_nil, List.count_nil, Nat.le_zero, false_iff, not_exists, not_and]
    exact fun e he => he.2.ne'
  nodup := List.nodup_nil
  removed := rfl
  live := h.edge.live_count
  callers c := by simp
  callees c := by simp
  index k j := by simp

theorem count_snoc (l : List ℕ) (idx i : ℕ) :
    (l ++ [idx]).count i = l.count i + if idx = i then 1 else 0 := by
  rw [List.count_append, List.count_singleton]
  simp

/-- One more registration of a record, subtracted with truncation. -/
theorem ReleaseSpec.edges_snoc {l : List ℕ} {r : Release} (hr : ReleaseSpec g l r) (idx i : ℕ) :
    (r.edges.modify idx fun e => { e with refs := e.refs - 1 })[i]? =
      (g.edges[i]?).map fun e => { e with refs := e.refs - (l ++ [idx]).count i } := by
  rw [List.getElem?_modify, hr.edges i]
  rcases g.edges[i]? with _ | e
  · rfl
  · simp only [Option.map_some, count_snoc]
    split_ifs
    · rfl
    · rfl

theorem ReleaseSpec.snoc {l : List ℕ} {r : Release} (hr : ReleaseSpec g l r) (idx : ℕ) :
    ReleaseSpec g (l ++ [idx]) (r.edge idx) := by
  have hold := hr.edges idx
  unfold Release.edge
  rcases hidx : g.edges[idx]? with _ | e₀
  · -- no such record: the list may name it, nothing happens
    rw [hidx, Option.map_none] at hold
    rw [hold]
    refine { hr with edges := fun i => ?_, dead := fun i => ?_ }
    · rw [← hr.edges_snoc idx i, List.getElem?_modify]
      split_ifs with hi
      · rw [← hi, hold]
        rfl
      · simp
    · rw [hr.dead i]
      refine exists_congr fun e => and_congr_right fun he => ?_
      have hi : idx ≠ i := by
        rintro rfl
        rw [LiveAt, hidx] at he
        cases he.1
      rw [count_snoc, if_neg hi, Nat.add_zero]
  · have hdead : ∀ i, (∃ e, LiveAt g.edges i e ∧ e.refs ≤ (l ++ [idx]).count i) ↔
        i ∈ r.dead ∨ (i = idx ∧ 0 < e₀.refs ∧ e₀.refs ≤ l.count idx + 1) := by
      intro i
      rw [hr.dead i]
      simp only [count_snoc]
      by_cases hi : idx = i
      · subst hi
        have hlive : ∀ e, LiveAt g.edges idx e ↔ e = e₀ ∧ 0 < e₀.refs := fun e => by
          rw [LiveAt, hidx, Option.some.injEq]
          constructor
          · rintro ⟨rfl, hr⟩
            exact ⟨rfl, hr⟩
          · rintro ⟨rfl, hr⟩
            exact ⟨rfl, hr⟩
        simp only [hlive, if_true, true_and]
        constructor
        · rintro ⟨e, ⟨rfl, h1⟩, h2⟩
          exact .inr ⟨h1, h2⟩
        · rintro (⟨e, ⟨rfl, h1⟩, h2⟩ | ⟨h1, h2⟩)
          exacts [⟨e, ⟨rfl, h1⟩, by omega⟩, ⟨e₀, ⟨rfl, h1⟩, h2⟩]
      · simp [hi, Ne.symm hi]
    rw [hidx, Option.map_some] at hold
    rw [hold]
    dsimp only
    split_ifs with h0 h1
    · -- already a tombstone
      refine { hr with edges := fun i => ?_, dead := fun i => ?_ }
      · rw [← hr.edges_snoc idx i, List.getElem?_modify]
        split_ifs with hi
        · subst hi
          simp only [hold, h0, Option.map_eq_map, Option.map_some, Nat.zero_sub]
        · simp
      · rw [hdead, iff_self_or]
        rintro ⟨rfl, hpos, -⟩
        exact (hr.dead i).mpr ⟨e₀, ⟨hidx, hpos⟩, by omega⟩
    · -- other registrations remain
      refine { hr with edges := hr.edges_snoc idx, dead := fun i => ?_, live := ?_ }
      · rw [hdead, iff_self_or]
        rintro ⟨-, -, hle⟩
        omega
      · have hc := countP_modify (fun e : StoredEdge => { e with refs := e.refs - 1 })
          (fun e => decide (0 < e.refs)) hold
        have hpos : 0 < e₀.refs - l.count idx := by omega
        simp only [hpos, h1, decide_true, if_true] at hc
        dsimp only
        rw [hr.live]
        omega
    · -- the last registration goes
      have hpos : 0 < e₀.refs - l.count idx := Nat.pos_of_ne_zero h0
      have hnew : idx ∉ r.dead := fun hm => by
        obtain ⟨e, he, hle⟩ := (hr.dead idx).mp hm
        obtain rfl := Option.some_injective _ (hidx.symm.trans he.1)
        omega
      have hex : ∀ {p : StoredEdge → Prop}, (∃ i ∈ idx :: r.dead, ∃ e, g.edges[i]? = some e ∧ p e)
          ↔ p e₀ ∨ ∃ i ∈ r.dead, ∃ e, g.edges[i]? = some e ∧ p e := by
        intro p
        simp [hidx]
      exact
        { edges := hr.edges_snoc idx
          dead := fun i => by
            rw [hdead, List.mem_cons, or_comm]
            refine or_congr_right ⟨?_, fun h => h.1⟩
            exact fun h => ⟨h, by omega, by omega⟩
          nodup := List.nodup_cons.mpr ⟨hnew, hr.nodup⟩
          removed := by rw [List.length_cons, hr.removed]
          live := by
            have hc := countP_modify (fun e : StoredEdge => { e with refs := e.refs - 1 })
              (fun e => decide (0 < e.refs)) hold
            simp only [hpos, h1, decide_true, decide_false, if_true, Bool.false_eq_true,
              if_false] at hc
            dsimp only
            rw [hr.live]
            omega
          callers := fun c => by
            rw [hex, List.mem_cons, hr.callers, eq_comm]
          callees := fun c => by
            rw [hex, List.mem_cons, hr.callees, eq_comm]
          index := fun k j => by
            dsimp only
            rw [Function.update_apply]
            split_ifs with hk
            · simp only [false_iff, not_and, not_forall]
              exact fun _ => ⟨idx, List.mem_cons_self, e₀, hidx, fun hne => hne hk.symm⟩
            · rw [hr.index, List.forall_mem_cons]
              refine and_congr_right fun _ => ⟨fun h => ⟨fun e he => ?_, h⟩, fun h => h.2⟩
              obtain rfl := Option.some_injective _ (hidx.symm.trans he)
              exact fun hke => hk hke.symm }

theorem Inv.release (h : g.Inv) (l : List ℕ) : ReleaseSpec g l (l.foldl Release.edge
    { edges := g.edges, edgeIndex := g.edgeIndex, liveEdgeCount := g.liveEdgeCount }) := by
  induction l using List.reverseRecOn with
  | nil => exact .nil h
  | append_singleton l idx ih =>
    rw [List.foldl_append]
    exact ih.snoc idx

/-- The registrations of the removed TUs. -/
def released (g : CallGraph) (tuIds : List SId) : List ℕ := tuIds.flatMap g.tuEdges

theorem Inv.releaseTUs (h : g.Inv) (tuIds : List SId) :
    ReleaseSpec g (g.released tuIds) (g.releaseTUs tuIds) := by
  unfold CallGraph.releaseTUs released
  rw [← List.foldl_flatMap]
  exact h.release _

/-! ### The scrubbed graph -/

section Scrub

variable {tuIds : List SId}

/-- The strings of a list of ids. -/
def idSet (g : CallGraph) (tuIds : List SId) : Set Bytes :=
  {s | ∃ tu ∈ tuIds, g.interner.resolve tu = s}

theorem Inv.mem_idSet (h : g.Inv) (hlt : ∀ tu ∈ tuIds, tu < g.interner.size) {tu : SId}
    (htu : tu < g.interner.size) : g.interner.resolve tu ∈ g.idSet tuIds ↔ tu ∈ tuIds := by
  constructor
  · rintro ⟨tu', hmem, heq⟩
    rwa [← (StringInterner.resolve_inj h.strings_nodup (hlt tu' hmem) htu).mp heq]
  · exact fun hmem => ⟨tu, hmem, rfl⟩

open Classical in
/-- The released registrations of a live record are those its removed TUs recorded. -/
theorem Inv.count_released (h : g.Inv) (hT : tuIds.Nodup)
    (hlt : ∀ tu ∈ tuIds, tu < g.interner.size) {idx : ℕ} {e : StoredEdge}
    (he : LiveAt g.edges idx e) :
    (g.released tuIds).count idx =
      ((g.ledger.regs (e.toEdge.map g.interner.resolve)).filter (· ∈ g.idSet tuIds)).card := by
  rw [h.regs_of_live he, filter_sum_replicate, Multiset.card_sum]
  simp only [Multiset.card_replicate]
  have hif : ∀ tu ∈ Finset.range g.interner.size,
      (if g.interner.resolve tu ∈ g.idSet tuIds then (g.tuEdges tu).count idx else 0) =
        if tu ∈ tuIds.toFinset then (g.tuEdges tu).count idx else 0 := by
    intro tu htu
    simp only [h.mem_idSet hlt (Finset.mem_range.mp htu), List.mem_toFinset]
  have hsub : tuIds.toFinset ⊆ Finset.range g.interner.size := fun tu htu =>
    Finset.mem_range.mpr (hlt tu (List.mem_toFinset.mp htu))
  rw [Finset.sum_congr rfl hif, ← Finset.sum_filter, Finset.filter_mem_eq_inter,
    Finset.inter_eq_right.mpr hsub, List.sum_toFinset _ hT, released, List.count_flatMap]
  rfl

open Classical in
theorem Inv.count_released_add (h : g.Inv) (hc : g.ledger.Covered) (hT : tuIds.Nodup)
    (hlt : ∀ tu ∈ tuIds, tu < g.interner.size) {idx : ℕ} {e : StoredEdge}
    (he : LiveAt g.edges idx e) :
    (g.released tuIds).count idx +
      ((g.ledger.regs (e.toEdge.map g.interner.resolve)).filter (· ∉ g.idSet tuIds)).card ≤
        e.refs := by
  rw [h.count_released hT hlt he, ← Multiset.card_add, Multiset.filter_add_not,
    ← h.refs_of_live he]
  exact hc _

theorem Inv.liveAt_scrubbed (h : g.Inv) (tuIds : List SId) {i : ℕ} {e : StoredEdge} :
    LiveAt (g.scrubbed tuIds).edges i e ↔ ∃ e₀, LiveAt g.edges i e₀ ∧
      (g.released tuIds).count i < e₀.refs ∧
      e = { e₀ with refs := e₀.refs - (g.released tuIds).count i } := by
  have hr := (h.releaseTUs tuIds).edges i
  change (g.scrubbed tuIds).edges[i]? = _ at hr
  unfold LiveAt
  rw [hr]
  constructor
  · rintro ⟨he, hpos⟩
    obtain ⟨e₀, he₀, rfl⟩ := Option.map_eq_some_iff.mp he
    exact ⟨e₀, ⟨he₀, by dsimp only at hpos; omega⟩, by dsimp only at hpos; omega, rfl⟩
  · rintro ⟨e₀, ⟨he₀, -⟩, hlt, rfl⟩
    exact ⟨by rw [he₀]; rfl, by dsimp only; omega⟩

theorem Inv.not_mem_dead (h : g.Inv) (tuIds : List SId) {i : ℕ} {e : StoredEdge}
    (he : LiveAt g.edges i e) :
    i ∉ (g.releaseTUs tuIds).dead ↔ (g.released tuIds).count i < e.refs := by
  rw [(h.releaseTUs tuIds).dead]
  push Not
  constructor
  · exact fun hall => hall e he
  · intro hlt e' he'
    rwa [Option.some_injective _ (he'.1.symm.trans he.1)]

/-- Scrubbing the adjacency lists of the affected endpoints takes out every dead edge. -/
theorem Inv.scrub_iff (h : g.Inv) (tuIds : List SId) {lists : SId → List ℕ}
    {affected : List SId} {endpoint : EdgeRef → SId}
    (hiff : ∀ {c idx}, idx ∈ lists c ↔ ∃ e, LiveAt g.edges idx e ∧ endpoint e.toEdge = c)
    (haff : ∀ c, c ∈ affected ↔ ∃ i ∈ (g.releaseTUs tuIds).dead, ∃ e, g.edges[i]? = some e ∧
      endpoint e.toEdge = c) {c : SId} {idx : ℕ} :
    (idx ∈ if c ∈ affected then (lists c).filter (· ∉ (g.releaseTUs tuIds).dead) else lists c) ↔
      ∃ e, LiveAt (g.scrubbed tuIds).edges idx e ∧ endpoint e.toEdge = c := by
  have hmem : (idx ∈ if c ∈ affected then (lists c).filter (· ∉ (g.releaseTUs tuIds).dead)
      else lists c) ↔ idx ∈ lists c ∧ idx ∉ (g.releaseTUs tuIds).dead := by
    split_ifs with hc
    · simp
    · refine ⟨fun hi => ⟨hi, fun hd => hc ?_⟩, fun hi => hi.1⟩
      obtain ⟨e, he, hec⟩ := hiff.mp hi
      exact (haff c).mpr ⟨idx, hd, e, he.1, hec⟩
  rw [hmem, hiff]
  constructor
  · rintro ⟨⟨e, he, hc⟩, hd⟩
    exact ⟨_, (h.liveAt_scrubbed tuIds).mpr ⟨e, he, (h.not_mem_dead tuIds he).mp hd, rfl⟩, hc⟩
  · rintro ⟨e, he, hc⟩
    obtain ⟨e₀, he₀, hlt, rfl⟩ := (h.liveAt_scrubbed tuIds).mp he
    exact ⟨⟨e₀, he₀, hc⟩, (h.not_mem_dead tuIds he₀).mpr hlt⟩

theorem Inv.scrubbed (h : g.Inv) (hc : g.ledger.Covered) (hT : tuIds.Nodup)
    (hlt : ∀ tu ∈ tuIds, tu < g.interner.size) : (g.scrubbed tuIds).Inv := by
  have hr := h.releaseTUs tuIds
  refine ⟨h.mutable, h.strings_nodup, h.strings_text, h.node, ?_, h.rel⟩
  refine
    { edge_ids := fun {i e} he => ?_
      index_iff := fun {k i} => ?_
      out_iff := h.scrub_iff tuIds h.edge.out_iff hr.callers
      out_nodup := fun c => ?_
      in_iff := h.scrub_iff tuIds h.edge.in_iff hr.callees
      in_nodup := fun c => ?_
      live_count := hr.live
      tag_live := fun {tu i} hi => ?_ }
  · rw [show (g.scrubbed tuIds).edges[i]? = _ from hr.edges i] at he
    obtain ⟨e₀, he₀, rfl⟩ := Option.map_eq_some_iff.mp he
    have hb := h.edge.edge_ids he₀
    exact hb
  · refine (hr.index k i).trans ?_
    rw [h.edge.index_iff]
    constructor
    · rintro ⟨⟨e, he, rfl⟩, hd⟩
      refine ⟨_, (h.liveAt_scrubbed tuIds).mpr ⟨e, he, ?_, rfl⟩, rfl⟩
      exact (h.not_mem_dead tuIds he).mp fun hm => hd i hm e he.1 rfl
    · rintro ⟨e, he, rfl⟩
      obtain ⟨e₀, he₀, hlt, rfl⟩ := (h.liveAt_scrubbed tuIds).mp he
      refine ⟨⟨e₀, he₀, rfl⟩, fun j hj e' he' hk => ?_⟩
      obtain ⟨e'', he'', -⟩ := (hr.dead j).mp hj
      obtain rfl := Option.some_injective _ (he''.1.symm.trans he')
      obtain ⟨rfl, -⟩ := h.edge.live_unique he'' he₀ hk
      exact (h.not_mem_dead tuIds he₀).mpr hlt hj
  · dsimp only [CallGraph.scrubbed]
    split_ifs
    exacts [(h.edge.out_nodup c).filter _, h.edge.out_nodup c]
  · dsimp only [CallGraph.scrubbed]
    split_ifs
    exacts [(h.edge.in_nodup c).filter _, h.edge.in_nodup c]
  · dsimp only [CallGraph.scrubbed] at hi
    split_ifs at hi with htu
    · simp at hi
    · obtain ⟨hsize, e, he⟩ := h.edge.tag_live hi
      refine ⟨hsize, _, (h.liveAt_scrubbed tuIds).mpr ⟨e, he, ?_, rfl⟩⟩
      classical
      have hsum := h.count_released_add hc hT hlt he
      have hone : 0 < ((g.ledger.regs (e.toEdge.map g.interner.resolve)).filter
          (· ∉ g.idSet tuIds)).card := by
        refine Multiset.card_pos_iff_exists_mem.mpr ⟨g.interner.resolve tu, ?_⟩
        rw [Multiset.mem_filter, h.mem_idSet hlt hsize]
        refine ⟨?_, htu⟩
        rw [h.regs_of_live he, Multiset.mem_sum]
        refine ⟨tu, Finset.mem_range.mpr hsize, ?_⟩
        exact Multiset.mem_replicate.mpr ⟨(List.count_pos_iff.mpr hi).ne', rfl⟩
      omega

theorem Inv.factAt_scrubbed (h : g.Inv) (tuIds : List SId) (i : ℕ) :
    factAt g.interner (g.scrubbed tuIds).edges i = factAt g.interner g.edges i := by
  unfold factAt
  rw [show (g.scrubbed tuIds).edges[i]? = _ from (h.releaseTUs tuIds).edges i]
  rcases g.edges[i]? with _ | e
  exacts [rfl, rfl]

open Classical in
/-- The first pass and the scrubbing release the registrations of the removed TUs. -/
theorem Inv.ledger_scrubbed (h : g.Inv) (hc : g.ledger.Covered) (hT : tuIds.Nodup)
    (hlt : ∀ tu ∈ tuIds, tu < g.interner.size) :
    (g.scrubbed tuIds).ledger =
      { g.ledger with
        refs := (g.ledger.remove (g.idSet tuIds)).refs
        regs := (g.ledger.remove (g.idSet tuIds)).regs } := by
  have h' := h.scrubbed hc hT hlt
  refine Ledger.ext rfl rfl (funext fun f => ?_) (funext fun f => ?_) rfl rfl rfl rfl
  · change _ = g.ledger.refs f - _
    by_cases hf : ∃ idx e, LiveAt g.edges idx e ∧ e.toEdge.map g.interner.resolve = f
    · obtain ⟨idx, e, he, rfl⟩ := hf
      rw [← h.count_released hT hlt he, h.refs_of_live he]
      by_cases hdead : (g.released tuIds).count idx < e.refs
      · exact h'.refs_of_live ((h.liveAt_scrubbed tuIds).mpr ⟨e, he, hdead, rfl⟩)
      · rw [Nat.sub_eq_zero_of_le (not_lt.mp hdead), ← Nat.le_zero, ← not_lt, h'.refs_pos_iff]
        rintro ⟨j, e', he', hfact⟩
        obtain ⟨e₀, he₀, hlt₀, rfl⟩ := (h.liveAt_scrubbed tuIds).mp he'
        obtain ⟨rfl, rfl⟩ := h.edge.fact_unique h.strings_nodup he₀ he hfact
        exact hdead hlt₀
    · have hz : g.ledger.refs f = 0 := by
        rw [← Nat.le_zero, ← not_lt, h.refs_pos_iff]
        exact hf
      rw [hz, Nat.zero_sub, ← Nat.le_zero, ← not_lt, h'.refs_pos_iff]
      rintro ⟨j, e', he', hfact⟩
      obtain ⟨e₀, he₀, -, rfl⟩ := (h.liveAt_scrubbed tuIds).mp he'
      exact hf ⟨j, e₀, he₀, hfact⟩
  · change regsIn _ _ _ _ = (regsIn _ _ _ _).filter _
    unfold regsIn
    rw [filter_sum_replicate]
    refine Finset.sum_congr rfl fun tu htu => ?_
    rw [h.mem_idSet hlt (Finset.mem_range.mp htu)]
    dsimp only [CallGraph.scrubbed]
    by_cases hm : tu ∈ tuIds
    · simp [hm]
    · simp only [hm, if_false, not_false_eq_true, if_true]
      congr 1
      refine List.countP_congr fun i _ => ?_
      have hf := Iff.of_eq (congrArg (· = some f) (h.factAt_scrubbed tuIds i))
      exact decide_eq_true_iff.trans (hf.trans decide_eq_true_iff.symm)

/-- The number of edges the first pass removes. -/
theorem Inv.removed_eq (h : g.Inv) (hc : g.ledger.Covered) (hT : tuIds.Nodup)
    (hlt : ∀ tu ∈ tuIds, tu < g.interner.size) :
    (g.releaseTUs tuIds).removed = g.ledger.removedCount (g.idSet tuIds) := by
  have hr := h.releaseTUs tuIds
  have h' := h.scrubbed hc hT hlt
  have hrefs : ∀ f, (g.ledger.remove (g.idSet tuIds)).refs f = (g.scrubbed tuIds).ledger.refs f :=
    fun f => by rw [h.ledger_scrubbed hc hT hlt]
  have hset : {f | 0 < g.ledger.refs f ∧ (g.ledger.remove (g.idSet tuIds)).refs f = 0} =
      (fun i => (factAt g.interner g.edges i).getD default) '' {i | i ∈ (g.releaseTUs tuIds).dead}
      := by
    ext f
    simp only [Set.mem_ofPred_eq, Set.mem_image, hrefs]
    constructor
    · rintro ⟨hpos, hzero⟩
      obtain ⟨idx, e, he, rfl⟩ := h.refs_pos_iff.mp hpos
      refine ⟨idx, ?_, by simp [factAt, he.1]⟩
      by_contra hd
      have hlive := (h.liveAt_scrubbed tuIds).mpr ⟨e, he, (h.not_mem_dead tuIds he).mp hd, rfl⟩
      exact ((h'.refs_pos_iff).mpr ⟨idx, _, hlive, rfl⟩).ne' hzero
    · rintro ⟨i, hi, rfl⟩
      obtain ⟨e, he, hle⟩ := (hr.dead i).mp hi
      simp only [factAt, he.1, Option.map_some, Option.getD_some]
      refine ⟨h.refs_pos_iff.mpr ⟨i, e, he, rfl⟩, ?_⟩
      rw [← Nat.le_zero, ← not_lt, h'.refs_pos_iff]
      rintro ⟨j, e', he', hfact⟩
      obtain ⟨e₀, he₀, hlt₀, rfl⟩ := (h.liveAt_scrubbed tuIds).mp he'
      obtain ⟨rfl, rfl⟩ := h.edge.fact_unique h.strings_nodup he₀ he hfact
      omega
  have hinj : Set.InjOn (fun i => (factAt g.interner g.edges i).getD default)
      {i | i ∈ (g.releaseTUs tuIds).dead} := by
    intro i hi j hj hij
    obtain ⟨e, he, -⟩ := (hr.dead i).mp hi
    obtain ⟨e', he', -⟩ := (hr.dead j).mp hj
    simp only [factAt, he.1, he'.1, Option.map_some, Option.getD_some] at hij
    exact (h.edge.fact_unique h.strings_nodup he he' hij).1
  rw [Ledger.removedCount, hset, hinj.ncard_image, hr.removed]
  have : {i | i ∈ (g.releaseTUs tuIds).dead} = ↑(g.releaseTUs tuIds).dead.toFinset := by
    ext i
    simp
  rw [this, Set.ncard_coe_finset, List.toFinset_card_of_nodup hr.nodup]

end Scrub

/-! ### Dropping contributions -/

/-- The node group after a TU has been taken out of the contributors of the listed nodes;
everything else is as before. -/
structure DropSpec (g : CallGraph) (tu : SId) (l : List SId) (g' : CallGraph) : Prop where
  rest : g' = { g with
    nodes := g'.nodes, byName := g'.byName, nodeContributors := g'.nodeContributors }
  contributors : ∀ id, g'.nodeContributors id =
    if id ∈ l then (g.nodeContributors id).filter (· ≠ tu) else g.nodeContributors id
  nodes : ∀ id, g'.nodes id =
    if id ∈ l ∧ (g.nodeContributors id).filter (· ≠ tu) = [] then none else g.nodes id
  byName : ∀ d id, id ∈ g'.byName d ↔ id ∈ g.byName d ∧ (g'.nodes id).isSome
  byName_nodup : ∀ d, (g'.byName d).Nodup

theorem DropSpec.nil (h : g.Inv) (tu : SId) : DropSpec g tu [] g where
  rest := rfl
  contributors id := by simp
  nodes id := by simp
  byName d id := by
    refine ⟨fun hm => ⟨hm, ?_⟩, fun hm => hm.1⟩
    obtain ⟨n, hn, -⟩ := h.node.byName_iff.mp hm
    simp [hn]
  byName_nodup := h.node.byName_nodup

theorem DropSpec.snoc (h : g.Inv) {tu : SId} {l : List SId} {g' : CallGraph}
    (hg : DropSpec g tu l g') {id : SId} (hid : id ∉ l) (hmem : tu ∈ g.nodeContributors id) :
    DropSpec g tu (l ++ [id]) (dropContribution tu g' id) := by
  have hcon : g'.nodeContributors id = g.nodeContributors id := by
    rw [hg.contributors, if_neg hid]
  have hint : g'.interner = g.interner := by rw [hg.rest]
  have hmem_snoc : ∀ i, i ∈ l ++ [id] ↔ i ∈ l ∨ i = id := by simp
  unfold dropContribution
  rw [hcon, if_neg (List.ne_nil_of_mem hmem)]
  have hcontrib : ∀ i, Function.update g'.nodeContributors id
      ((g.nodeContributors id).filter (· ≠ tu)) i =
      if i ∈ l ++ [id] then (g.nodeContributors i).filter (· ≠ tu) else g.nodeContributors i := by
    intro i
    rw [Function.update_apply]
    split_ifs with h1 h2 h2
    · rw [h1]
    · exact absurd ((hmem_snoc i).mpr (.inr h1)) h2
    · rw [hg.contributors, if_pos (((hmem_snoc i).mp h2).resolve_right h1)]
    · rw [hg.contributors, if_neg fun hm => h2 ((hmem_snoc i).mpr (.inl hm))]
  dsimp only
  split_ifs with hrest
  · -- other contributors remain
    refine ⟨?_, hcontrib, fun i => ?_, hg.byName, hg.byName_nodup⟩
    · conv_lhs => rw [hg.rest]
    · dsimp only
      rw [hg.nodes]
      refine if_congr ?_ rfl rfl
      rw [hmem_snoc]
      refine ⟨fun hm => ⟨.inl hm.1, hm.2⟩, ?_⟩
      rintro ⟨hm | rfl, hnil⟩
      exacts [⟨hm, hnil⟩, absurd hnil hrest]
  · -- the last contributor goes, and the node with it
    rw [not_not] at hrest
    obtain ⟨-, hs⟩ := h.node.contributors_ids hmem
    obtain ⟨n, hn⟩ := Option.isSome_iff_exists.mp hs
    obtain ⟨-, d, hd⟩ := h.node.node_key hn
    have hn' : g'.nodes id = some n := by
      rw [hg.nodes, if_neg fun hm => hid hm.1, hn]
    rw [hn']
    dsimp only
    rw [hint, hd]
    dsimp only
    have hnodes : ∀ i, Function.update g'.nodes id none i =
        if i ∈ l ++ [id] ∧ (g.nodeContributors i).filter (· ≠ tu) = [] then none
        else g.nodes i := by
      intro i
      rw [Function.update_apply]
      by_cases hi : i = id
      · subst hi
        rw [if_pos rfl, if_pos ⟨(hmem_snoc i).mpr (.inr rfl), hrest⟩]
      · rw [if_neg hi, hg.nodes]
        refine if_congr ?_ rfl rfl
        rw [hmem_snoc, or_iff_left hi]
    refine ⟨?_, hcontrib, hnodes, fun d' i => ?_, fun d' => ?_⟩
    · conv_lhs => rw [hg.rest]
    · dsimp only
      rw [Function.update_apply, Function.update_apply]
      by_cases hi : i = id
      · subst hi
        simp only [if_true, Option.isSome_none, Bool.false_eq_true, and_false, iff_false]
        split_ifs with hdd
        · simp
        · intro hm
          obtain ⟨n', hn'', hd'⟩ := h.node.byName_iff.mp ((hg.byName d' i).mp hm).1
          rw [hn] at hn''
          obtain rfl := Option.some_injective _ hn''
          exact hdd (Option.some_injective _ (hd'.symm.trans hd))
      · rw [if_neg hi, ← hg.byName]
        split_ifs with hdd
        · subst hdd
          simp [hi]
        · rfl
    · dsimp only
      rw [Function.update_apply]
      split_ifs
      exacts [(hg.byName_nodup d).filter _, hg.byName_nodup d']

theorem Inv.dropContributions (h : g.Inv) {tu : SId} {l : List SId} (hl : l.Nodup)
    (hmem : ∀ id ∈ l, tu ∈ g.nodeContributors id) :
    DropSpec g tu l (l.foldl (dropContribution tu) g) := by
  induction l using List.reverseRecOn with
  | nil => exact .nil h tu
  | append_singleton l id ih =>
    rw [List.nodup_append] at hl
    rw [List.foldl_append]
    refine (ih hl.1 fun i hi => hmem i (by simp [hi])).snoc h ?_ (hmem id (by simp))
    exact fun hid => hl.2.2 id hid id (by simp) rfl

/-- What `dropTuNodes` leaves of the node group. -/
theorem Inv.dropTuNodes_spec (h : g.Inv) (tu : SId) :
    DropSpec g tu (g.tuNodes tu) ((g.tuNodes tu).foldl (dropContribution tu) g) ∧
      ∀ id, ((g.tuNodes tu).foldl (dropContribution tu) g).nodeContributors id =
        (g.nodeContributors id).filter (· ≠ tu) := by
  have hd := h.dropContributions (h.node.tuNodes_nodup tu) fun id hid => h.node.tuNodes_iff.mp hid
  refine ⟨hd, fun id => ?_⟩
  rw [hd.contributors]
  split_ifs with hid
  · rfl
  · refine (List.filter_eq_self.mpr fun tu' htu' => ?_).symm
    rw [decide_eq_true_iff]
    rintro rfl
    exact hid (h.node.tuNodes_iff.mpr htu')

theorem Inv.dropTuNodes (h : g.Inv) (tu : SId) : (g.dropTuNodes tu).Inv := by
  obtain ⟨hd, hcon⟩ := h.dropTuNodes_spec tu
  unfold CallGraph.dropTuNodes
  dsimp only
  generalize (g.tuNodes tu).foldl (dropContribution tu) g = g' at *
  have hsub : ∀ {id n}, g'.nodes id = some n → g.nodes id = some n := by
    intro id n hn
    rw [hd.nodes] at hn
    split_ifs at hn
    exact hn
  have hrest := hd.rest
  obtain ⟨_, nodes', byName', _, _, _, _, _, _, _, _, _, _, _, contributors', _, _, _⟩ := g'
  simp only [CallGraph.mk.injEq] at hrest
  obtain ⟨rfl, -, -, rfl, rfl, rfl, rfl, rfl, rfl, rfl, rfl, rfl, rfl, rfl, -, rfl, rfl, rfl⟩ := hrest
  refine ⟨h.mutable, h.strings_nodup, h.strings_text, ?_, h.edge, h.rel⟩
  exact
    { node_key := fun hn => h.node.node_key (hsub hn)
      byName_iff := fun {d id} => by
        refine (hd.byName d id).trans ?_
        rw [h.node.byName_iff]
        constructor
        · rintro ⟨⟨n, hn, hf⟩, hs⟩
          obtain ⟨n', hn'⟩ := Option.isSome_iff_exists.mp hs
          obtain rfl := Option.some_injective _ (hn.symm.trans (hsub hn'))
          exact ⟨n, hn', hf⟩
        · rintro ⟨n, hn, hf⟩
          exact ⟨⟨n, hsub hn, hf⟩, Option.isSome_iff_exists.mpr ⟨n, hn⟩⟩
      byName_nodup := hd.byName_nodup
      tuNodes_iff := fun {tu' id} => by
        dsimp only at hcon ⊢
        rw [hcon, Function.update_apply, List.mem_filter, decide_eq_true_iff]
        split_ifs with htu
        · simp [htu]
        · rw [h.node.tuNodes_iff]
          simp [htu]
      tuNodes_nodup := fun tu' => by
        dsimp only
        rw [Function.update_apply]
        split_ifs
        exacts [List.nodup_nil, h.node.tuNodes_nodup tu']
      contributors_nodup := fun id => by
        dsimp only at hcon ⊢
        rw [hcon]
        exact (h.node.contributors_nodup id).filter _
      contributors_ids := fun {id tu'} hm => by
        dsimp only at hcon hm ⊢
        rw [hcon] at hm
        refine (h.node.contributors_ids (List.mem_of_mem_filter hm)).imp_right fun hs => ?_
        rw [show nodes' id = _ from hd.nodes id, if_neg fun hc => ?_]
        · exact hs
        · rw [hc.2] at hm
          simp at hm
      node_text := fun hn => h.node.node_text (hsub hn) }

theorem dropTuNodes_interner (g : CallGraph) (tu : SId) (h : g.Inv) :
    (g.dropTuNodes tu).interner = g.interner := by
  have hrest := (h.dropTuNodes_spec tu).1.rest
  unfold CallGraph.dropTuNodes
  dsimp only
  rw [hrest]

theorem mem_filter_ne_nil {l : List SId} {tu : SId} :
    l.filter (· ≠ tu) = [] ↔ ∀ tu' ∈ l, tu' = tu := by
  rw [List.filter_eq_nil_iff]
  simp

/-- On the ledger, `dropTuNodes` takes the TU out of the contributors. -/
theorem Inv.ledger_dropTuNodes (h : g.Inv) {tu : SId} (htu : tu < g.interner.size) :
    (g.dropTuNodes tu).ledger =
      { g.ledger with
        nodes := (g.ledger.remove {g.interner.resolve tu}).nodes
        contributors := (g.ledger.remove {g.interner.resolve tu}).contributors } := by
  obtain ⟨hd, hcon⟩ := h.dropTuNodes_spec tu
  have hfind := StringInterner.find_resolve h.strings_nodup htu
  have hnodes := hd.nodes
  have hrest := hd.rest
  unfold CallGraph.dropTuNodes
  dsimp only
  generalize (g.tuNodes tu).foldl (dropContribution tu) g = g' at *
  obtain ⟨_, nodes', byName', _, _, _, _, _, _, _, _, _, _, _, contributors', _, _, _⟩ := g'
  simp only [CallGraph.mk.injEq] at hrest
  obtain ⟨rfl, -, -, rfl, rfl, rfl, rfl, rfl, rfl, rfl, rfl, rfl, rfl, rfl, -, rfl, rfl, rfl⟩ := hrest
  dsimp only at hcon hnodes
  refine Ledger.ext (funext fun u => ?_) (funext fun u => funext fun s => propext ?_) rfl rfl rfl
    rfl rfl rfl
  · dsimp only [ledger, Ledger.remove]
    rcases hu : g.interner.find u with _ | id
    · simp
    · simp only [Option.bind_some]
      rw [hnodes]
      classical
      refine if_congr ?_ rfl rfl
      rw [h.node.tuNodes_iff, mem_filter_ne_nil]
      constructor
      · rintro ⟨hmem, hall⟩
        refine ⟨⟨_, rfl, id, tu, hu, hfind, hmem⟩, ?_⟩
        rintro s ⟨id', tu', hu', hs', hmem'⟩
        obtain rfl := Option.some_injective _ (hu.symm.trans hu')
        rw [hall tu' hmem'] at hs'
        exact StringInterner.find_inj hs' hfind
      · rintro ⟨⟨s, rfl, id', tu', hu', hs', hmem'⟩, hall⟩
        obtain rfl := Option.some_injective _ (hu.symm.trans hu')
        obtain rfl := Option.some_injective _ (hfind.symm.trans hs')
        refine ⟨hmem', fun tu' htu' => ?_⟩
        have hlt := (h.node.contributors_ids htu').1
        have := hall _ ⟨id, tu', hu, StringInterner.find_resolve h.strings_nodup hlt, htu'⟩
        exact (StringInterner.resolve_inj h.strings_nodup hlt htu).mp this
  · dsimp only [ledger, Ledger.remove]
    unfold StringInterner.pairs
    simp only [hcon, List.mem_filter, decide_eq_true_iff, Set.mem_singleton_iff]
    constructor
    · rintro ⟨i, j, hi, hj, hmem, hne⟩
      refine ⟨⟨i, j, hi, hj, hmem⟩, ?_⟩
      rintro rfl
      exact hne (Option.some_injective _ (hj.symm.trans hfind))
    · rintro ⟨⟨i, j, hi, hj, hmem⟩, hne⟩
      refine ⟨i, j, hi, hj, hmem, ?_⟩
      rintro rfl
      exact hne (StringInterner.resolve_of_find hj).symm

theorem Inv.dropTuNodes_foldl (h : g.Inv) {tuIds : List SId}
    (hlt : ∀ tu ∈ tuIds, tu < g.interner.size) :
    (tuIds.foldl CallGraph.dropTuNodes g).Inv ∧
      (tuIds.foldl CallGraph.dropTuNodes g).ledger = g.ledger.dropNodes (g.idSet tuIds) := by
  induction tuIds generalizing g with
  | nil =>
    refine ⟨h, ?_⟩
    rw [show g.idSet [] = ∅ by ext; simp [idSet], Ledger.dropNodes_empty]
    rfl
  | cons tu rest ih =>
    have hint := dropTuNodes_interner g tu h
    refine (ih (h.dropTuNodes tu) fun tu' htu' => ?_).imp_right fun hl => ?_
    · rw [hint]
      exact hlt tu' (List.mem_cons_of_mem _ htu')
    · have hset : g.idSet (tu :: rest) = insert (g.interner.resolve tu) (g.idSet rest) := by
        ext s
        simp [idSet, eq_comm]
      have hrest : (g.dropTuNodes tu).idSet rest = g.idSet rest := by
        rw [idSet, hint]
        rfl
      rw [List.foldl_cons, hl, h.ledger_dropTuNodes (hlt tu List.mem_cons_self), hrest, hset,
        ← Ledger.dropNodes_insert]
      rfl

/-! ### The whole removal -/

theorem removedIds_nodup (g : CallGraph) (tuPaths : List Bytes) : (g.removedIds tuPaths).Nodup :=
  nodup_freshOf _ _

theorem mem_removedIds {tuPaths : List Bytes} {tu : SId} :
    tu ∈ g.removedIds tuPaths ↔ ∃ p ∈ tuPaths, g.interner.find (toIndexText p) = some tu := by
  simp [removedIds, mem_freshOf]

theorem lt_of_mem_removedIds {tuPaths : List Bytes} {tu : SId} (h : tu ∈ g.removedIds tuPaths) :
    tu < g.interner.size := by
  obtain ⟨p, -, hp⟩ := mem_removedIds.mp h
  exact StringInterner.lt_of_find hp

/-- Strings the graph does not know contribute to nothing. -/
theorem Inv.remove_congr (h : g.Inv) {S S' : Set Bytes}
    (hS : ∀ s, (∃ i, g.interner.find s = some i) → (s ∈ S ↔ s ∈ S')) :
    g.ledger.remove S = g.ledger.remove S' := by
  have hcon : ∀ u s, g.ledger.contributors u s → (s ∈ S ↔ s ∈ S') := by
    rintro u s ⟨i, j, -, hj, -⟩
    exact hS s ⟨j, hj⟩
  have hreg : ∀ f, ∀ s ∈ g.ledger.regs f, (s ∈ S ↔ s ∈ S') := by
    intro f s hs
    change s ∈ regsIn _ _ _ _ at hs
    rw [regsIn, Multiset.mem_sum] at hs
    obtain ⟨tu, htu, hm⟩ := hs
    rw [Multiset.eq_of_mem_replicate hm]
    exact hS _ ⟨tu, StringInterner.find_resolve h.strings_nodup (Finset.mem_range.mp htu)⟩
  classical
  refine Ledger.ext (funext fun u => ?_) (funext fun u => funext fun s => propext ?_)
    (funext fun f => ?_) (funext fun f => ?_) rfl rfl rfl rfl
  · refine if_congr (and_congr ?_ ?_) rfl rfl
    · exact exists_congr fun s => and_congr_left fun hc => hcon u s hc
    · exact forall_congr' fun s => imp_congr_right fun hc => hcon u s hc
  · exact and_congr_right fun hc => not_congr (hcon u s hc)
  · change _ - _ = _ - _
    rw [Multiset.filter_congr (hreg f)]
  · exact Multiset.filter_congr fun s hs => not_congr (hreg f s hs)

theorem idSet_removedIds (tuPaths : List Bytes) (s : Bytes)
    (hs : ∃ i, g.interner.find s = some i) :
    s ∈ g.idSet (g.removedIds tuPaths) ↔ s ∈ tuSet tuPaths := by
  obtain ⟨i, hi⟩ := hs
  constructor
  · rintro ⟨tu, htu, rfl⟩
    obtain ⟨p, hp, hf⟩ := mem_removedIds.mp htu
    exact ⟨p, hp, (StringInterner.resolve_of_find hf).symm⟩
  · rintro ⟨p, hp, rfl⟩
    exact ⟨i, mem_removedIds.mpr ⟨p, hp, hi⟩, StringInterner.resolve_of_find hi⟩

/-- **`removeTUs` keeps the invariant, takes the TUs out of the ledger and returns the
number of edges that had no other registration.** -/
theorem Inv.removeTUs (h : g.Inv) (hc : g.ledger.Covered) (tuPaths : List Bytes) :
    (g.removeTUs tuPaths).1.Inv ∧
      (g.removeTUs tuPaths).1.ledger = g.ledger.remove (tuSet tuPaths) ∧
      (g.removeTUs tuPaths).2 = g.ledger.removedCount (tuSet tuPaths) := by
  have hT := removedIds_nodup g tuPaths
  have hlt : ∀ tu ∈ g.removedIds tuPaths, tu < g.interner.size := fun tu => lt_of_mem_removedIds
  have hS := h.remove_congr (idSet_removedIds tuPaths)
  unfold CallGraph.removeTUs
  rw [if_neg (by simp [h.mutable])]
  dsimp only
  obtain ⟨h1, hl⟩ := (h.scrubbed hc hT hlt).dropTuNodes_foldl hlt
  refine ⟨h1, hl.trans ?_, ?_⟩
  · rw [h.ledger_scrubbed hc hT hlt, ← hS]
    rfl
  · rw [h.removed_eq hc hT hlt, Ledger.removedCount, hS]
    rfl

end CallGraph

end Vycor
