import Vycor.CallGraph.Refresh
import Vycor.PathSearch.Walks
import Mathlib.Data.Prod.Lex

/-!
# What a search reads, over strings

The ids of a graph follow the order of its registrations, and so do the adjacency lists. Over
strings the order drops out of everything a search reads: which edges reach a usr
(`CallerText`), how many are stored, what a name resolves to and what it is shown as, and, by
the canonical sort, the list of the callers. What stays is the donor of a synthesized edge,
the first stored row that could supply it (`synthText`).
-/

namespace Vycor

namespace Ledger

/-- Two ledgers that the edge views and the names cannot tell apart. -/
structure SameViews (L M : Ledger) : Prop where
  nodes : ∀ u, (L.nodes u).map (·.qualifiedName) = (M.nodes u).map (·.qualifiedName)
  live : ∀ f, L.Live f ↔ M.Live f
  overrides : L.overrides = M.overrides
  returns : L.returns = M.returns

variable {L M : Ledger}

theorem SameViews.symm (h : L.SameViews M) : M.SameViews L :=
  ⟨fun u => (h.nodes u).symm, fun f => (h.live f).symm, h.overrides.symm, h.returns.symm⟩

theorem Agree.sameViews (h : L.Agree M) : L.SameViews M :=
  ⟨h.nodes, fun f => by rw [Live, Live, h.refs], h.overrides, h.returns⟩

theorem SameViews.trans {N : Ledger} (h : L.SameViews M) (h' : M.SameViews N) : L.SameViews N :=
  ⟨fun u => (h.nodes u).trans (h'.nodes u), fun f => (h.live f).trans (h'.live f),
    h.overrides.trans h'.overrides, h.returns.trans h'.returns⟩

theorem SameViews.node_iff (h : L.SameViews M) {u q : Bytes} :
    (∃ n, L.nodes u = some n ∧ n.qualifiedName = q) ↔
      ∃ n, M.nodes u = some n ∧ n.qualifiedName = q := by
  have hu := h.nodes u
  have hiff : ∀ N : Ledger, (∃ n, N.nodes u = some n ∧ n.qualifiedName = q) ↔
      (N.nodes u).map (·.qualifiedName) = some q := fun N => by rw [Option.map_eq_some_iff]
  rw [hiff, hiff, hu]

theorem SameViews.nodes_isSome (h : L.SameViews M) (u : Bytes) :
    (L.nodes u).isSome = (M.nodes u).isSome := by
  rw [← Option.isSome_map (f := (·.qualifiedName)), h.nodes, Option.isSome_map]

theorem SameViews.names (h : L.SameViews M) : L.Names = M.Names := by
  have hnone : ∀ u, L.nodes u = none ↔ M.nodes u = none := fun u => by
    rw [← Option.not_isSome_iff_eq_none, ← Option.not_isSome_iff_eq_none, h.nodes_isSome]
  funext t u
  simp only [Names, h.nodes_isSome, hnone, h.node_iff]

theorem SameViews.display (h : L.SameViews M) : L.display = M.display := by
  funext u
  rw [Ledger.display, Ledger.display, h.nodes]

theorem SameViews.shownAt (h : L.SameViews M) : L.ShownAt = M.ShownAt := by
  funext a c s f
  simp only [ShownAt, h.live]

open Classical in
/-- The order of a log does not show in the views. -/
theorem sameViews_of_perm {disp : Bytes → Bytes} {log log' : List Registration}
    (hlog : ∀ r ∈ log, r.tuPath ≠ []) (hdisp : ∀ r ∈ log, r.DisplayedBy disp)
    (hperm : log.Perm log') :
    (empty.registerAll log).SameViews (empty.registerAll log') := by
  have hmem : ∀ {r}, r ∈ log ↔ r ∈ log' := hperm.mem_iff
  have hrel : ∀ k, (empty.registerAll log).rel k = (empty.registerAll log').rel k := by
    intro k
    funext a b
    simp only [rel_registerAll, hmem]
  refine ⟨fun u => ?_, fun f => ?_, hrel .override, hrel .returned⟩
  · rw [nodes_registerAll hdisp, nodes_registerAll fun r hr => hdisp r (hmem.mpr hr)]
    have hin : (∃ tu, NodeIn log u tu) ↔ ∃ tu, NodeIn log' u tu := by simp only [NodeIn, hmem]
    exact if_congr hin rfl rfl
  · rw [live_registerAll hlog, live_registerAll fun r hr => hlog r (hmem.mpr hr)]
    simp only [hmem]

end Ledger

namespace CallGraph

variable {g g' : CallGraph}

theorem sameViews_of_perm {disp : Bytes → Bytes} {log log' : List Registration}
    (hg : BuiltFrom (Tagged disp) g log) (hg' : BuiltFrom (Tagged disp) g' log')
    (hperm : log.Perm log') : g.ledger.SameViews g'.ledger :=
  hg.agree.sameViews.trans <| (Ledger.sameViews_of_perm (fun r hr => (hg.log_forall r hr).1)
    (fun r hr => (hg.log_forall r hr).2) hperm).trans hg'.agree.sameViews.symm

/-! ### The caller view -/

/-- The caller view of a usr shows an edge. -/
def CallerText (g : CallGraph) (u : Bytes) (e : EdgeFact) : Prop :=
  ∃ c, c < g.interner.size ∧ g.interner.resolve c = u ∧
    ∃ r ∈ g.callerRefsOf c, r.map g.interner.resolve = e

/-- The edge the caller side would synthesize between two usrs at a call site: that of the
first dispatch row in table order that could supply it, else of the first deferred row. -/
def synthText (g : CallGraph) (x y z : Bytes) : Option EdgeFact :=
  (g.interner.find x).bind fun a => (g.interner.find y).bind fun c =>
    (g.interner.find z).bind fun s => (g.inSynth a c s).map (·.map g.interner.resolve)

theorem Inv.synthText_resolve (h : g.Inv) {a c s : SId} (ha : a < g.interner.size)
    (hc : c < g.interner.size) (hs : s < g.interner.size) :
    g.synthText (g.interner.resolve a) (g.interner.resolve c) (g.interner.resolve s) =
      (g.inSynth a c s).map (·.map g.interner.resolve) := by
  simp only [synthText, h.find_resolve ha, h.find_resolve hc, h.find_resolve hs, Option.bind_some]

theorem synthText_eq_some {x y z : Bytes} {e : EdgeFact} (he : g.synthText x y z = some e) :
    ∃ a c s, (a < g.interner.size ∧ c < g.interner.size ∧ s < g.interner.size) ∧
      g.interner.resolve a = x ∧ g.interner.resolve c = y ∧ g.interner.resolve s = z ∧
        ∃ r, g.inSynth a c s = some r ∧ r.map g.interner.resolve = e := by
  simp only [synthText, Option.bind_eq_some_iff, Option.map_eq_some_iff] at he
  obtain ⟨a, ha, c, hc, s, hs, r, hr, hre⟩ := he
  exact ⟨a, c, s, ⟨StringInterner.lt_of_find ha, StringInterner.lt_of_find hc,
    StringInterner.lt_of_find hs⟩, StringInterner.resolve_of_find ha,
    StringInterner.resolve_of_find hc, StringInterner.resolve_of_find hs, r, hr, hre⟩

/-- **The caller view over strings**, with the donor as the table gives it. -/
theorem Inv.callerText_iff (h : g.Inv) {u : Bytes} {e : EdgeFact} :
    g.CallerText u e ↔ e.callee = u ∧ (g.ledger.ShownAt e.caller u e.callSite e ∨
      (g.synthText e.caller u e.callSite = some e ∧
        ¬ ∃ f, g.ledger.ShownAt e.caller u e.callSite f)) := by
  constructor
  · rintro ⟨c, hc, rfl, r, hr, rfl⟩
    have hb := h.below_of_mem_callerRefsOf hr
    have hcallee := h.callee_of_mem_callerRefsOf hr
    refine ⟨by rw [← hcallee]; rfl, ?_⟩
    rcases h.mem_callerRefsOf.mp ⟨hr, rfl, rfl⟩ with hsh | ⟨hsyn, hno⟩
    · exact .inl ((h.shownAt_iff hb.1 hc hb.2.2).mpr ⟨r, hsh, rfl⟩)
    · refine .inr ⟨?_, ?_⟩
      · exact (h.synthText_resolve hb.1 hc hb.2.2).trans (by rw [hsyn, Option.map_some])
      · rintro ⟨f, hf⟩
        obtain ⟨r', hr', -⟩ := (h.shownAt_iff hb.1 hc hb.2.2).mp hf
        exact hno ⟨r', hr'⟩
  · rintro ⟨hcallee, hsh | ⟨hsyn, hno⟩⟩
    · obtain ⟨a, c, s, ⟨ha, hc, hs⟩, haa, hcc, hss⟩ := h.shownAt_names hsh
      rw [← haa, ← hcc, ← hss] at hsh
      obtain ⟨r, hr, hre⟩ := (h.shownAt_iff ha hc hs).mp hsh
      exact ⟨c, hc, hcc, r, (h.mem_callerRefsOf.mpr (.inl hr)).1, hre⟩
    · obtain ⟨a, c, s, ⟨ha, hc, hs⟩, haa, hcc, hss, r, hr, hre⟩ := synthText_eq_some hsyn
      rw [← haa, ← hcc, ← hss] at hno
      refine ⟨c, hc, hcc, r, (h.mem_callerRefsOf.mpr (.inr ⟨hr, ?_⟩)).1, hre⟩
      rintro ⟨r', hr'⟩
      exact hno ⟨_, (h.shownAt_iff ha hc hs).mpr ⟨r', hr', rfl⟩⟩

/-- The edges reaching an id are those of the caller view of its string. -/
theorem Inv.callerText_resolve (h : g.Inv) {c : SId} (hc : c < g.interner.size) {e : EdgeFact} :
    g.CallerText (g.interner.resolve c) e ↔
      ∃ r ∈ g.callerRefsOf c, r.map g.interner.resolve = e := by
  constructor
  · rintro ⟨c', hc', heq, hr⟩
    obtain rfl := (h.resolve_inj hc' hc).mp heq
    exact hr
  · exact fun hr => ⟨c, hc, rfl, hr⟩

/-- The ends of an edge of the caller view are interned. -/
theorem Inv.caller_of_callerText (h : g.Inv) {u : Bytes} {e : EdgeFact} (he : g.CallerText u e) :
    ∃ a, a < g.interner.size ∧ g.interner.resolve a = e.caller := by
  obtain ⟨c, hc, rfl, r, hr, rfl⟩ := he
  exact ⟨r.caller, (h.below_of_mem_callerRefsOf hr).1, rfl⟩

/-- The callee view shows an edge to exactly the usrs whose caller view shows one back. -/
theorem Inv.callee_iff_callerText (h : g.Inv) {a c : SId} (ha : a < g.interner.size)
    (hc : c < g.interner.size) : c ∈ (g.calleeRefsOf a).map (·.callee) ↔
      ∃ e, g.CallerText (g.interner.resolve c) e ∧ e.caller = g.interner.resolve a := by
  simp only [h.callerText_resolve hc]
  constructor
  · intro hm
    obtain ⟨r, hr, rfl⟩ := List.mem_map.mp hm
    obtain ⟨r', hr', rfl⟩ := h.caller_of_mem_calleeRefsOf hr
    exact ⟨_, ⟨r', hr', rfl⟩, rfl⟩
  · rintro ⟨_, ⟨r, hr, rfl⟩, hcaller⟩
    have hra : r.caller = a := (h.resolve_inj (h.below_of_mem_callerRefsOf hr).1 ha).mp hcaller
    obtain ⟨r', hr', hc', -⟩ := h.exists_callee_iff_exists_caller.mpr ⟨r, hr, rfl, rfl⟩
    rw [hra] at hr'
    exact List.mem_map.mpr ⟨r', hr', hc'⟩

end CallGraph

/-! ### The canonical order -/

theorem EdgeKind.value_injective : Function.Injective EdgeKind.value := by
  intro a b h
  cases a with
  | unnamed c =>
    cases b with
    | unnamed c' => rw [Subtype.ext (UInt8.toNat_inj.mp h)]
    | _ =>
      have hc := c.2
      simp only [value] at h
      omega
  | _ =>
    cases b with
    | unnamed c =>
      have hc := c.2
      simp only [value] at h
      omega
    | _ => first | rfl | cases h

theorem Confidence.value_injective : Function.Injective Confidence.value := by
  intro a b h
  cases a with
  | unnamed c =>
    cases b with
    | unnamed c' => rw [Subtype.ext (UInt8.toNat_inj.mp h)]
    | _ =>
      have hc := c.2
      simp only [value] at h
      omega
  | _ =>
    cases b with
    | unnamed c =>
      have hc := c.2
      simp only [value] at h
      omega
    | _ => first | rfl | cases h

theorem ExecutionContext.value_injective : Function.Injective ExecutionContext.value := by
  intro a b h
  cases a with
  | unnamed c =>
    cases b with
    | unnamed c' => rw [Subtype.ext (UInt8.toNat_inj.mp h)]
    | _ =>
      have hc := c.2
      simp only [value] at h
      omega
  | _ =>
    cases b with
    | unnamed c =>
      have hc := c.2
      simp only [value] at h
      omega
    | _ => first | rfl | cases h

/-- What the canonical order compares, most significant first. -/
def Edge.canonicalKey (e : EdgeFact) : Bytes ×ₗ Bytes ×ₗ ℕ ×ₗ ℕ ×ₗ ℕ ×ₗ ℕ :=
  toLex (e.caller, toLex (e.callSite, toLex (e.kind.value, toLex (e.confidence.value,
    toLex (e.execContext.value, e.indirectionDepth)))))

/-- Edges to one callee are determined by their key. -/
theorem Edge.canonicalKey_inj {e e' : EdgeFact} (hc : e.callee = e'.callee)
    (hk : e.canonicalKey = e'.canonicalKey) : e = e' := by
  simp only [canonicalKey, EmbeddingLike.apply_eq_iff_eq, Prod.mk.injEq,
    EdgeKind.value_injective.eq_iff, Confidence.value_injective.eq_iff,
    ExecutionContext.value_injective.eq_iff] at hk
  obtain ⟨h₁, h₂, h₃, h₄, h₅, h₆⟩ := hk
  cases e
  cases e'
  simp_all

namespace CallGraph

variable {g g' : CallGraph}

theorem Inv.canonicalLess_iff (h : g.Inv) {a b : EdgeRef} (ha : a.Below g.interner.size)
    (hb : b.Below g.interner.size) : g.canonicalLess a b = true ↔
      (a.map g.interner.resolve).canonicalKey < (b.map g.interner.resolve).canonicalKey := by
  have hcaller := h.resolve_inj ha.1 hb.1
  have hsite := h.resolve_inj ha.2.2 hb.2.2
  simp only [Edge.canonicalKey, Edge.map, Prod.Lex.toLex_lt_toLex, hcaller, hsite,
    EdgeKind.value_injective.eq_iff, Confidence.value_injective.eq_iff,
    ExecutionContext.value_injective.eq_iff]
  unfold canonicalLess
  by_cases h₁ : a.caller = b.caller
  · by_cases h₂ : a.callSite = b.callSite
    · by_cases h₃ : a.kind = b.kind
      · by_cases h₄ : a.confidence = b.confidence
        · by_cases h₅ : a.execContext = b.execContext
          · simp [h₁, h₂, h₃, h₄, h₅]
          · simp [h₁, h₂, h₃, h₄, h₅]
        · simp [h₁, h₂, h₃, h₄]
      · simp [h₁, h₂, h₃]
    · simp [h₁, h₂]
  · simp [h₁]

/-- **The sorted callers over strings** are the caller view sorted by key. -/
theorem Inv.map_sortCallerRefsCanonically (h : g.Inv) (c : SId) :
    (g.sortCallerRefsCanonically (g.callerRefsOf c)).map (·.map g.interner.resolve) =
      ((g.callerRefsOf c).map (·.map g.interner.resolve)).insertionSort
        fun x y => x.canonicalKey ≤ y.canonicalKey := by
  refine List.map_insertionSort _ _ _ _ fun a ha b hb => ?_
  rw [← Bool.not_eq_true, h.canonicalLess_iff (h.below_of_mem_callerRefsOf hb)
    (h.below_of_mem_callerRefsOf ha), not_lt]

/-- The caller view lists a fact once. -/
theorem Inv.nodup_map_callerRefsOf (h : g.Inv) (c : SId) :
    ((g.callerRefsOf c).map (·.map g.interner.resolve)).Nodup := by
  refine (h.nodup_callerRefsOf c).map_on fun a ha b hb hab => ?_
  exact (Edge.map_resolve_inj h.strings_nodup (h.below_of_mem_callerRefsOf ha)
    (h.below_of_mem_callerRefsOf hb)).mp hab

/-- Two graphs with the same caller view of a usr list its callers alike. -/
theorem Inv.sorted_callers_eq (h : g.Inv) (h' : g'.Inv) {c c' : SId} (hc : c < g.interner.size)
    (hc' : c' < g'.interner.size) (hcc : g.interner.resolve c = g'.interner.resolve c')
    (hview : ∀ u e, g.CallerText u e ↔ g'.CallerText u e) :
    (g.sortCallerRefsCanonically (g.callerRefsOf c)).map (·.map g.interner.resolve) =
      (g'.sortCallerRefsCanonically (g'.callerRefsOf c')).map (·.map g'.interner.resolve) := by
  rw [h.map_sortCallerRefsCanonically, h'.map_sortCallerRefsCanonically]
  have hperm : ((g.callerRefsOf c).map (·.map g.interner.resolve)).Perm
      ((g'.callerRefsOf c').map (·.map g'.interner.resolve)) := by
    refine (List.perm_ext_iff_of_nodup (h.nodup_map_callerRefsOf c)
      (h'.nodup_map_callerRefsOf c')).mpr fun e => ?_
    have := hview (g.interner.resolve c) e
    rw [h.callerText_resolve hc, hcc, h'.callerText_resolve hc'] at this
    rw [List.mem_map, List.mem_map]
    exact this
  have hcallee : ∀ e ∈ (g.callerRefsOf c).map (·.map g.interner.resolve),
      e.callee = g.interner.resolve c := by
    intro e he
    obtain ⟨r, hr, rfl⟩ := List.mem_map.mp he
    rw [← h.callee_of_mem_callerRefsOf hr]
    rfl
  refine List.Perm.eq_of_pairwise (fun x y hx hy hxy hyx => ?_) (List.pairwise_insertionSort _ _)
    (List.pairwise_insertionSort _ _)
    ((List.perm_insertionSort _ _).trans (hperm.trans (List.perm_insertionSort _ _).symm))
  rw [List.mem_insertionSort] at hx hy
  refine Edge.canonicalKey_inj ?_ (le_antisymm hxy hyx)
  rw [hcallee x hx, hcallee y (hperm.mem_iff.mpr hy)]

/-! ### The in-degree -/

/-- The live edges stored at an id, over strings. -/
theorem Inv.storedInDegree_eq (h : g.Inv) (h' : g'.Inv) {c c' : SId} (hc : c < g.interner.size)
    (hc' : c' < g'.interner.size) (hcc : g.interner.resolve c = g'.interner.resolve c')
    (hlive : ∀ f, g.ledger.Live f ↔ g'.ledger.Live f) :
    g.storedInDegree c = g'.storedInDegree c' := by
  have hdegree : ∀ {g : CallGraph}, g.Inv → ∀ {c : SId}, c < g.interner.size →
      g.storedInDegree c = ((g.storedIn c).map (·.toEdge.map g.interner.resolve)).length ∧
      ((g.storedIn c).map (·.toEdge.map g.interner.resolve)).Nodup ∧
      ∀ f, f ∈ (g.storedIn c).map (·.toEdge.map g.interner.resolve) ↔
        g.ledger.Live f ∧ f.callee = g.interner.resolve c := by
    intro g h c hc
    refine ⟨?_, ?_, fun f => ?_⟩
    · rw [storedInDegree, List.length_map, List.countP_eq_length]
      intro se hse
      obtain ⟨idx, he, -⟩ := h.mem_storedIn.mp hse
      exact decide_eq_true he.2
    · refine List.pairwise_map.mpr (List.pairwise_filterMap.mpr ?_)
      refine (h.edge.in_nodup c).imp_of_mem fun {i j} hi hj hij se hse se' hse' heq => hij ?_
      -- two live positions of one fact are one position
      obtain ⟨e, he, -⟩ := h.edge.in_iff.mp hi
      obtain ⟨e', he', -⟩ := h.edge.in_iff.mp hj
      obtain rfl := Option.some_injective _ (he.1.symm.trans hse)
      obtain rfl := Option.some_injective _ (he'.1.symm.trans hse')
      exact (h.edge.live_unique he he' ((Edge.map_resolve_inj h.strings_nodup
        (h.edge.edge_ids he.1) (h.edge.edge_ids he'.1)).mp heq)).1
    · rw [List.mem_map, h.live_iff]
      constructor
      · rintro ⟨se, hse, rfl⟩
        obtain ⟨idx, he, rfl⟩ := h.mem_storedIn.mp hse
        exact ⟨⟨se, ⟨idx, he⟩, rfl⟩, rfl⟩
      · rintro ⟨⟨se, ⟨idx, he⟩, rfl⟩, hcallee⟩
        exact ⟨se, h.mem_storedIn.mpr ⟨idx, he,
          (h.resolve_inj (h.edge.edge_ids he.1).2.1 hc).mp hcallee⟩, rfl⟩
  obtain ⟨hlen, hnd, hmem⟩ := hdegree h hc
  obtain ⟨hlen', hnd', hmem'⟩ := hdegree h' hc'
  rw [hlen, hlen']
  refine ((List.perm_ext_iff_of_nodup hnd hnd').mpr fun f => ?_).length_eq
  rw [hmem, hmem', hlive, hcc]

/-! ### Names -/

/-- A usr or text that is a node or the display name of one. -/
def Mentions (g : CallGraph) (u : Bytes) : Prop :=
  (g.ledger.nodes u).isSome ∨ ∃ v n, g.ledger.nodes v = some n ∧ n.qualifiedName = u

/-- The graph references a string: as a node, or as an end of an edge that is shown. -/
def ReferencedText (g : CallGraph) (u : Bytes) : Prop :=
  g.Mentions u ∨ (∃ e, g.CallerText u e) ∨ ∃ v e, g.CallerText v e ∧ e.caller = u

/-- What a name given to a search stands for. -/
def KnownAs (g : CallGraph) (ll : Llvm) (name u : Bytes) : Prop :=
  g.ReferencedText u ∧ (g.ledger.Names (lookupText ll name) u ∨
    ((¬ ∃ v, g.ledger.Names (lookupText ll name) v ∧ g.ReferencedText v) ∧ u = name))

section Names

variable (ll : Llvm)

theorem Inv.find_of_mentions (h : g.Inv) {u : Bytes} (hu : g.Mentions u) :
    ∃ i, g.interner.find u = some i := by
  rcases hu with hu | ⟨v, n, hn, rfl⟩
  · obtain ⟨n, hn⟩ := Option.isSome_iff_exists.mp hu
    obtain ⟨rfl, i, hi⟩ := h.node_iff.mp hn
    exact ⟨i, (h.node.node_key hi).1⟩
  · obtain ⟨-, i, hi⟩ := h.node_iff.mp hn
    exact (h.node.node_key hi).2

theorem Inv.find_of_referencedText (h : g.Inv) {u : Bytes} (hu : g.ReferencedText u) :
    ∃ i, g.interner.find u = some i := by
  rcases hu with hu | ⟨e, c, hc, rfl, -⟩ | ⟨v, e, he, rfl⟩
  · exact h.find_of_mentions hu
  · exact ⟨c, h.find_resolve hc⟩
  · obtain ⟨a, ha, heq⟩ := h.caller_of_callerText he
    exact ⟨a, by rw [← heq, h.find_resolve ha]⟩

/-- The text of an id is looked up as it is. -/
theorem Inv.lookupText_resolve (h : g.Inv) (hll : ll.AcceptsUtf8) {i : SId}
    (hi : i < g.interner.size) : lookupText ll (g.interner.resolve i) = g.interner.resolve i :=
  lookupText_eq ll hll (h.utf8_of_find (h.find_resolve hi))

/-- `findNode` of an id's own text finds something exactly when the graph mentions it. -/
theorem Inv.findNode_resolve_isSome (h : g.Inv) (hll : ll.AcceptsUtf8) {i : SId}
    (hi : i < g.interner.size) :
    (g.findNode ll (g.interner.resolve i)).isSome ↔ g.Mentions (g.interner.resolve i) := by
  constructor
  · intro hs
    obtain ⟨n, hn⟩ := Option.isSome_iff_exists.mp hs
    rw [h.findNode_iff, h.lookupText_resolve ll hll hi] at hn
    obtain ⟨⟨u, hu | ⟨-, m, hm, hq⟩ | ⟨hnone, -, rfl⟩, hn⟩, -⟩ := hn
    · exact .inl hu.1
    · exact .inr ⟨u, m, hm, hq⟩
    · rw [hnone] at hn
      cases hn
  · intro hm
    -- the pick among no candidates is none
    by_contra hnone
    rw [Option.not_isSome_iff_eq_none, findNode,
      (foldl_betterNode ((g.resolveUsrIds ll (g.interner.resolve i)).filterMap g.nodes) none).1]
      at hnone
    have hall : ∀ u n, g.ledger.Names (g.interner.resolve i) u → g.ledger.nodes u ≠ some n := by
      intro u n hu hn
      obtain ⟨rfl, k, hk⟩ := h.node_iff.mp hn
      have hlt := h.lt_of_node hk
      have hres : g.interner.resolve k = n.usr :=
        StringInterner.resolve_of_find (h.node.node_key hk).1
      have hmem : k ∈ g.resolveUsrIds ll (g.interner.resolve i) := by
        rw [h.mem_resolveUsrIds, h.lookupText_resolve ll hll hi, hres]
        exact ⟨hlt, ⟨i, h.find_resolve hi⟩, hu⟩
      have := List.mem_filterMap.mpr ⟨k, hmem, hk⟩
      rw [hnone.2] at this
      cases this
    rcases hnode : g.ledger.nodes (g.interner.resolve i) with _ | n
    · rcases hm with hm | ⟨v, n, hn, hq⟩
      · rw [hnode] at hm
        cases hm
      · exact hall v n (.inr (.inl ⟨hnode, n, hn, hq⟩)) hn
    · exact hall _ n (.inl ⟨by rw [hnode]; rfl, rfl⟩) hnode

theorem Inv.referenced_iff (h : g.Inv) (hll : ll.AcceptsUtf8) {i : SId}
    (hi : i < g.interner.size) :
    g.referenced ll i = true ↔ g.ReferencedText (g.interner.resolve i) := by
  have hcallers : (g.callerRefsOf i ≠ []) ↔ ∃ e, g.CallerText (g.interner.resolve i) e := by
    simp only [h.callerText_resolve hi]
    constructor
    · intro hne
      obtain ⟨r, hr⟩ := List.exists_mem_of_ne_nil _ hne
      exact ⟨_, r, hr, rfl⟩
    · rintro ⟨_, r, hr, -⟩
      exact List.ne_nil_of_mem hr
  have hcallees : (g.calleeRefsOf i ≠ []) ↔
      ∃ v e, g.CallerText v e ∧ e.caller = g.interner.resolve i := by
    constructor
    · intro hne
      obtain ⟨r, hr⟩ := List.exists_mem_of_ne_nil _ hne
      have hc := (h.below_of_mem_calleeRefsOf hr).2.2.1
      exact ⟨_, (h.callee_iff_callerText hi hc).mp (List.mem_map_of_mem hr)⟩
    · rintro ⟨v, e, he, hcaller⟩
      obtain ⟨c, hc, rfl, -⟩ := id he
      obtain ⟨r, hr, -⟩ := List.mem_map.mp ((h.callee_iff_callerText hi hc).mpr ⟨e, he, hcaller⟩)
      exact List.ne_nil_of_mem hr
  rw [referenced, Bool.or_eq_true, Bool.or_eq_true, h.findNode_resolve_isSome ll hll hi,
    Bool.not_eq_true', List.isEmpty_eq_false_iff, Bool.not_eq_true', List.isEmpty_eq_false_iff,
    hcallers, hcallees, or_assoc]
  rfl

/-- **What a search resolves a name to, over strings.** -/
theorem Inv.mem_resolveKnownIds (h : g.Inv) (hll : ll.AcceptsUtf8) {name : Bytes} {i : SId} :
    i ∈ g.resolveKnownIds ll name ↔
      i < g.interner.size ∧ g.KnownAs ll name (g.interner.resolve i) := by
  have husrs : ∀ {i}, i ∈ ((g.usrsForName ll name).filterMap g.interner.find).filter
      (g.referenced ll) ↔ i < g.interner.size ∧
        g.ledger.Names (lookupText ll name) (g.interner.resolve i) ∧
          g.ReferencedText (g.interner.resolve i) := by
    intro i
    rw [List.mem_filter, usrsForName, List.mem_filterMap]
    constructor
    · rintro ⟨⟨s, hs, hfind⟩, href⟩
      obtain ⟨j, hj, rfl⟩ := List.mem_map.mp hs
      obtain ⟨hlt, -, hn⟩ := (h.mem_resolveUsrIds ll).mp hj
      obtain rfl := Option.some_injective _ ((h.find_resolve hlt).symm.trans hfind)
      exact ⟨hlt, hn, (h.referenced_iff ll hll hlt).mp href⟩
    · rintro ⟨hlt, hn, href⟩
      refine ⟨⟨_, List.mem_map.mpr ⟨i, (h.mem_resolveUsrIds ll).mpr ⟨hlt, ?_, hn⟩, rfl⟩,
        h.find_resolve hlt⟩, (h.referenced_iff ll hll hlt).mpr href⟩
      -- the text is the usr itself or the display name of a node
      rcases hn with ⟨-, heq⟩ | ⟨-, n, hnode, hq⟩ | ⟨-, -, heq⟩
      · exact ⟨i, by rw [← heq, h.find_resolve hlt]⟩
      · exact h.find_of_mentions (.inr ⟨_, n, hnode, hq⟩)
      · exact ⟨i, by rw [← heq, h.find_resolve hlt]⟩
  have hempty : ((g.usrsForName ll name).filterMap g.interner.find).filter (g.referenced ll) = [] ↔
      ¬ ∃ v, g.ledger.Names (lookupText ll name) v ∧ g.ReferencedText v := by
    rw [List.eq_nil_iff_forall_not_mem]
    constructor
    · rintro hall ⟨v, hn, href⟩
      obtain ⟨i, hi⟩ := h.find_of_referencedText href
      have hv := StringInterner.resolve_of_find hi
      refine hall i (husrs.mpr ⟨StringInterner.lt_of_find hi, ?_, ?_⟩)
      · rwa [hv]
      · rwa [hv]
    · intro hno i hi
      obtain ⟨-, hn, href⟩ := husrs.mp hi
      exact hno ⟨_, hn, href⟩
  unfold resolveKnownIds KnownAs
  rw [List.mem_dedup, List.mem_insertionSort]
  split_ifs with he
  · rw [List.mem_filter, Option.mem_toList]
    have hno := hempty.mp he
    constructor
    · rintro ⟨hf, href⟩
      have hlt := StringInterner.lt_of_find hf
      exact ⟨hlt, (h.referenced_iff ll hll hlt).mp href,
        .inr ⟨hno, StringInterner.resolve_of_find hf⟩⟩
    · rintro ⟨hlt, href, hn | ⟨-, rfl⟩⟩
      · exact absurd ⟨_, hn, href⟩ hno
      · exact ⟨h.find_resolve hlt, (h.referenced_iff ll hll hlt).mpr href⟩
  · rw [husrs]
    constructor
    · exact fun ⟨hlt, hn, href⟩ => ⟨hlt, href, .inl hn⟩
    · rintro ⟨hlt, href, hn | ⟨hno, -⟩⟩
      · exact ⟨hlt, hn, href⟩
      · exact absurd (hempty.mpr hno) he

/-- The display name in a result is that of the ledger. -/
theorem Inv.displayOf_eq (h : g.Inv) (hll : ll.AcceptsUtf8) {i : SId} (hi : i < g.interner.size) :
    g.displayOf ll i = g.ledger.display (g.interner.resolve i) := by
  unfold displayOf Ledger.display
  rcases hnode : g.ledger.nodes (g.interner.resolve i) with _ | n
  · rcases hfind : g.findNode ll (g.interner.resolve i) with _ | n
    · rfl
    · -- a text that is no node finds the nodes it is the display name of
      rw [h.findNode_iff, h.lookupText_resolve ll hll hi] at hfind
      obtain ⟨⟨u, hu | ⟨-, m, hm, hq⟩ | ⟨-, -, rfl⟩, hn⟩, -⟩ := hfind
      · rw [hnode] at hu
        cases hu.1
      · obtain rfl := Option.some_injective _ (hm.symm.trans hn)
        exact hq
      · rw [hnode] at hn
        cases hn
  · rw [h.findNode_usr ll hll hnode]
    rfl

end Names

end CallGraph

end Vycor
