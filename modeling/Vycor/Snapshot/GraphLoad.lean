import Vycor.CallGraph.Answers
import Vycor.CallGraph.Runs
import Vycor.Snapshot.GraphSection

/-!
# Loading the graph section

A load for changes installs the records of the section directly, without the probes of the
public mutators. On the records of a graph the probes would find nothing, so the load is a run
of the primitive updates of the mutators, and it builds a graph with the ids, the live edges
and the ledger of the saved one (`CallGraph.Inv.install_records`).
-/

namespace Vycor

namespace CallGraph

/-! ### Installing records -/

/-- The node of a record. -/
def nodeOf (t : StringInterner) (r : NodeRecord) : CallGraphNode where
  qualifiedName := t.resolve r.displayId
  file := r.file
  line := r.line
  isEntryPoint := r.isEntryPoint
  isVirtual := r.isVirtual
  enclosingClass := r.enclosingClass
  usr := t.resolve r.nameId

/-- A node of the section. -/
def loadNode (g : CallGraph) (r : NodeRecord) : CallGraph :=
  let g := { g with
    byName := pushNew g.byName r.displayId r.nameId
    nodes := emplaceAt g.nodes r.nameId (nodeOf g.interner r) }
  r.contributors.foldl (fun g tu => g.contribute r.nameId tu) g

/-- An edge of the section. -/
def loadEdge (g : CallGraph) (r : EdgeRecord) : CallGraph :=
  let idx := g.edges.length
  let g := { g with
    outEdges := pushAt g.outEdges r.edge.caller idx
    inEdges := pushAt g.inEdges r.edge.callee idx
    edgeIndex := emplaceAt g.edgeIndex (keyOf r.edge) idx
    edges := g.edges ++ [r.edge]
    liveEdgeCount := g.liveEdgeCount + 1 }
  r.tus.foldl (fun g tu => g.tagEdge tu idx) g

/-- A pair of the class hierarchy. -/
def loadDerived (g : CallGraph) (base derived : SId) : CallGraph :=
  { g with derivedClasses := pushAt g.derivedClasses base derived }

/-- A pair of the override relation. -/
def loadOverride (g : CallGraph) (base override : SId) : CallGraph :=
  { g with
    methodOverrides := pushAt g.methodOverrides base override
    overrideBases := pushAt g.overrideBases override base }

/-- A pair of the effective-implementation relation. -/
def loadImpl (g : CallGraph) (impl cls : SId) : CallGraph :=
  { g with effectiveImplClasses := insertAt g.effectiveImplClasses impl cls }

/-- A pair of the function-return relation. -/
def loadReturn (g : CallGraph) (fn ret : SId) : CallGraph :=
  { g with
    functionReturns := insertAt g.functionReturns fn ret
    returnedBy := pushAt g.returnedBy ret fn }

/-- The pairs of a relation. -/
def loadPairs (load : CallGraph → SId → SId → CallGraph) (pairs : List (ℕ × ℕ)) (g : CallGraph) :
    CallGraph :=
  pairs.foldl (fun g p => load g p.1 p.2) g

end CallGraph

/-- The graph that `SnapshotIO::load` builds in mutable mode. -/
def GraphRecords.install (r : GraphRecords) : CallGraph :=
  let g : CallGraph := { interner := ⟨r.strings⟩ }
  let g := r.nodes.foldl CallGraph.loadNode g
  let g := r.edges.foldl CallGraph.loadEdge g
  let g := CallGraph.loadPairs CallGraph.loadDerived r.derivedClasses g
  let g := CallGraph.loadPairs CallGraph.loadOverride r.methodOverrides g
  let g := CallGraph.loadPairs CallGraph.loadImpl r.effectiveImplClasses g
  CallGraph.loadPairs CallGraph.loadReturn r.functionReturns g

/-- The graph section in `SnapshotIO::load`, for a load in mutable mode. -/
def loadGraph (ll : Llvm) (bytes : Bytes) : Option CallGraph :=
  (decodeSection (readGraph ll) bytes).map GraphRecords.install

namespace CallGraph

variable {g g' : CallGraph} {t : StringInterner}

/-- The ids of a table without repeats stand for themselves. -/
theorem Inv.remaps_self (h : g.Inv) : Remaps g.interner g.interner id :=
  fun _ hid => h.find_resolve hid

/-- The graph a load starts with. -/
theorem Inv.absorbing_start (h : g.Inv) : Absorbing g.interner { interner := g.interner } := by
  refine ⟨⟨rfl, h.strings_nodup, h.strings_text, ?_, ?_, ?_⟩, rfl⟩
  · constructor <;> simp
  · constructor <;> simp [LiveAt]
  · constructor <;> simp

theorem pairs_none (t : StringInterner) : t.pairs (fun _ => []) = fun _ _ => False := by
  funext a b
  simp [StringInterner.pairs]

theorem ledger_start (t : StringInterner) : ledger { interner := t } = Ledger.empty := by
  refine Ledger.ext (funext fun u => ?_) (pairs_none t) (funext fun f => rfl) (funext fun f => ?_)
    (pairs_none t) (pairs_none t) (pairs_none t) (pairs_none t)
  · simp [ledger, Ledger.empty]
  · simp [ledger, Ledger.empty, regsIn]

/-! ### Nodes -/

@[simp] theorem contribute_interner (g : CallGraph) (nameId tuId : SId) :
    (g.contribute nameId tuId).interner = g.interner := by
  unfold CallGraph.contribute
  split_ifs <;> rfl

@[simp] theorem contribute_nodes (g : CallGraph) (nameId tuId : SId) :
    (g.contribute nameId tuId).nodes = g.nodes := by
  unfold CallGraph.contribute
  split_ifs <;> rfl

@[simp] theorem contribute_edges (g : CallGraph) (nameId tuId : SId) :
    (g.contribute nameId tuId).edges = g.edges := by
  unfold CallGraph.contribute
  split_ifs <;> rfl

theorem foldl_contribute_keeps (g : CallGraph) (nameId : SId) (tus : List SId) :
    (tus.foldl (fun g tu => g.contribute nameId tu) g).interner = g.interner ∧
      (tus.foldl (fun g tu => g.contribute nameId tu) g).nodes = g.nodes ∧
      (tus.foldl (fun g tu => g.contribute nameId tu) g).edges = g.edges := by
  induction tus generalizing g with
  | nil => exact ⟨rfl, rfl, rfl⟩
  | cons tu rest ih =>
    obtain ⟨h1, h2, h3⟩ := ih (g.contribute nameId tu)
    rw [contribute_interner] at h1
    rw [contribute_nodes] at h2
    rw [contribute_edges] at h3
    exact ⟨h1, h2, h3⟩

/-- The record of a node gives the node back. -/
theorem Inv.nodeOf_nodeRecord (h : g.Inv) {id : SId} {node : CallGraphNode}
    (hnode : g.nodes id = some node) : nodeOf g.interner (g.nodeRecord id node) = node := by
  obtain ⟨hu, d, hd⟩ := h.node.node_key hnode
  simp only [nodeOf, nodeRecord, hd, Option.getD_some, StringInterner.resolve_of_find hu,
    StringInterner.resolve_of_find hd]

/-- A record is loaded as `absorb` takes over the node it is of. -/
theorem Inv.loadNode_eq (h : g.Inv) {i : SId} {node : CallGraphNode}
    (hnode : g.nodes i = some node) (hint : g'.interner = g.interner) (hnew : g'.nodes i = none) :
    g'.loadNode (g.nodeRecord i node) = absorbNode g id g' i := by
  obtain ⟨-, d, hd⟩ := h.node.node_key hnode
  have hintern : g'.intern node.qualifiedName = (g', d) := by
    simp only [CallGraph.intern, StringInterner.intern_of_find (hint ▸ hd)]
  have hid : (g.nodeRecord i node).nameId = i := rfl
  have hdisplay : (g.nodeRecord i node).displayId = d := by
    simp only [nodeRecord, hd, Option.getD_some]
  have hof : nodeOf g'.interner (g.nodeRecord i node) = node := by
    rw [hint, h.nodeOf_nodeRecord hnode]
  simp only [loadNode, absorbNode, hnode, id_eq, hnew, hintern, hid, hdisplay, hof,
    emplaceAt_of_none _ hnew]
  rfl

theorem loadNode_keeps (g : CallGraph) (r : NodeRecord) :
    (g.loadNode r).interner = g.interner ∧ (g.loadNode r).edges = g.edges ∧
      ∀ i ≠ r.nameId, (g.loadNode r).nodes i = g.nodes i := by
  obtain ⟨h1, h2, h3⟩ := foldl_contribute_keeps { g with
    byName := pushNew g.byName r.displayId r.nameId
    nodes := emplaceAt g.nodes r.nameId (nodeOf g.interner r) } r.nameId r.contributors
  refine ⟨h1, h3, fun i hi => ?_⟩
  rw [loadNode, h2]
  exact emplaceAt_of_ne _ _ hi

/-- The records of the nodes are loaded as `absorb` takes over the nodes. -/
theorem Inv.foldl_loadNode (h : g.Inv) (g' : CallGraph) {l : List SId} (hl : l.Nodup)
    (hint : g'.interner = g.interner) (hnew : ∀ i ∈ l, g'.nodes i = none) :
    (l.filterMap fun i => (g.nodes i).map (g.nodeRecord i)).foldl loadNode g' =
        l.foldl (absorbNode g id) g' ∧ (l.foldl (absorbNode g id) g').edges = g'.edges := by
  induction l generalizing g' with
  | nil => exact ⟨rfl, rfl⟩
  | cons i rest ih =>
    obtain ⟨hi, hrest⟩ := List.nodup_cons.mp hl
    rw [List.foldl_cons]
    rcases hnode : g.nodes i with _ | node
    · have hskip : absorbNode g id g' i = g' := by rw [absorbNode, hnode]
      rw [List.filterMap_cons_none (by rw [hnode]; rfl), hskip]
      exact ih _ hrest hint fun j hj => hnew j (.tail _ hj)
    · have hstep := h.loadNode_eq hnode hint (hnew i (.head _))
      obtain ⟨h1, h2, h3⟩ := loadNode_keeps g' (g.nodeRecord i node)
      rw [List.filterMap_cons_some (by rw [hnode]; rfl), List.foldl_cons, ← hstep, ← h2]
      refine ih _ hrest (h1.trans hint) fun j hj => ?_
      rw [h3 j (show j ≠ i from fun hji => hi (hji ▸ hj))]
      exact hnew j (.tail _ hj)

/-- The ledger after the nodes. -/
def nodeLedger (g : CallGraph) : Ledger :=
  { Ledger.empty with nodes := g.ledger.nodes, contributors := g.ledger.contributors }

/-- The nodes of a graph are loaded with their contributors. -/
theorem Inv.loadNodes (h : g.Inv) :
    Absorbing g.interner (g.records.nodes.foldl loadNode { interner := g.interner }) ∧
      (g.records.nodes.foldl loadNode { interner := g.interner }).edges = [] ∧
      (g.records.nodes.foldl loadNode { interner := g.interner }).ledger = g.nodeLedger := by
  have hl : (List.range g.interner.size).Nodup := List.nodup_range
  obtain ⟨h1, h2⟩ := h.foldl_loadNode { interner := g.interner } hl rfl fun _ _ => rfl
  obtain ⟨h3, h4⟩ := foldl_simulates ledger (Absorbing g.interner) (u := absorbedNode g)
    (l := List.range g.interner.size) (fun _ hg i _ => hg.node h h.remaps_self i) h.absorbing_start
  rw [show g.records.nodes = (List.range g.interner.size).filterMap fun i =>
    (g.nodes i).map (g.nodeRecord i) from rfl, h1]
  refine ⟨h3, h2, ?_⟩
  rw [h4, ledger_start, absorbedNode_foldl h hl, nodesOf_eq (.refl _)]
  have hpairs := pairsOf_eq h.strings_nodup h.contributor_ids (.refl _)
  refine Ledger.ext (funext fun u => ?_) ?_ rfl rfl rfl rfl rfl rfl
  · dsimp only [nodeLedger, Ledger.empty]
    cases g.ledger.nodes u with
    | none => rfl
    | some n => rfl
  · funext u tu
    refine (congrArg (False ∨ ·) (congrFun (congrFun hpairs u) tu)).trans ?_
    exact false_or _

/-! ### Edges -/

/-- The fact of a record. -/
def factOf (t : StringInterner) (r : EdgeRecord) : EdgeFact := r.edge.toEdge.map t.resolve

/-- The TUs of the records of a fact. -/
def tusIn (t : StringInterner) (l : List EdgeRecord) (f : EdgeFact) : Multiset Bytes :=
  (l.map fun r => if factOf t r = f then (r.tus.map t.resolve : Multiset Bytes) else 0).sum

/-- The ids of a record are known, and it is live. -/
structure KnownEdge (t : StringInterner) (r : EdgeRecord) : Prop where
  below : r.edge.toEdge.Below t.size
  tus : ∀ tu ∈ r.tus, tu < t.size
  live : 0 < r.edge.refs

/-- The TUs of one edge. -/
theorem foldl_tagEdge {i : ℕ} {e : StoredEdge} {tus : List SId} (htus : ∀ tu ∈ tus, tu < t.size)
    (h : Absorbing t g) (he : LiveAt g.edges i e) :
    Absorbing t (tus.foldl (fun g tu => g.tagEdge tu i) g) ∧
      (tus.foldl (fun g tu => g.tagEdge tu i) g).edges = g.edges ∧
      (tus.foldl (fun g tu => g.tagEdge tu i) g).ledger =
        { g.ledger with
          regs := fun f => g.ledger.regs f +
            if e.toEdge.map t.resolve = f then (tus.map t.resolve : Multiset Bytes) else 0 } := by
  induction tus generalizing g with
  | nil => exact ⟨h, rfl, by simp⟩
  | cons tu rest ih =>
    have htu : tu < g.interner.size := h.2 ▸ htus tu (.head _)
    have hf : factAt g.interner g.edges i = some (e.toEdge.map t.resolve) := by
      rw [factAt, he.1, Option.map_some, h.2]
    obtain ⟨h1, h2, h3⟩ := ih (fun tu' htu' => htus tu' (.tail _ htu'))
      (show Absorbing t (g.tagEdge tu i) from ⟨h.1.tagEdge he htu, h.2⟩) he
    refine ⟨h1, h2, ?_⟩
    rw [List.foldl_cons, h3, ledger_tagEdge htu hf, h.2]
    refine Ledger.ext rfl rfl rfl (funext fun f => ?_) rfl rfl rfl rfl
    simp only [Ledger.tagEdge, eq_comm (a := f), add_assoc]
    congr 1
    split_ifs
    · rw [List.map_cons, ← Multiset.cons_coe, ← Multiset.singleton_add]
    · rfl

/-- An edge that is not stored is loaded as the mutators register it. -/
theorem loadEdge_eq {r : EdgeRecord} (hnew : g.edgeIndex (keyOf r.edge) = none) :
    g.loadEdge r =
      r.tus.foldl (fun g' tu => g'.tagEdge tu g.edges.length) (g.registerEdge r.edge).1 := by
  simp only [loadEdge, registerEdge, hnew, emplaceAt_of_none _ hnew]

/-- Edges with different contents are loaded one by one. -/
theorem foldl_loadEdge {l : List EdgeRecord} (hl : ∀ r ∈ l, KnownEdge t r)
    (hkeys : ((g.edges ++ l.map EdgeRecord.edge).map keyOf).Nodup) (h : Absorbing t g) :
    Absorbing t (l.foldl loadEdge g) ∧
      (l.foldl loadEdge g).edges = g.edges ++ l.map EdgeRecord.edge ∧
      (l.foldl loadEdge g).ledger =
        { g.ledger with
          refs := fun f => g.ledger.refs f + refsIn t (l.map EdgeRecord.edge) f
          regs := fun f => g.ledger.regs f + tusIn t l f } := by
  induction l generalizing g with
  | nil => exact ⟨h, by simp, by simp [refsIn, tusIn]⟩
  | cons r rest ih =>
    obtain ⟨hbelow, htus, hlive⟩ := hl r (.head _)
    have hnew : g.edgeIndex (keyOf r.edge) = none := by
      by_contra hne
      obtain ⟨i, hi⟩ := Option.ne_none_iff_exists'.mp hne
      obtain ⟨e, he, hk⟩ := h.1.edge.index_iff.mp hi
      rw [List.map_append, List.nodup_append] at hkeys
      exact hkeys.2.2 _ (List.mem_map_of_mem (List.mem_of_getElem? he.1)) _ (.head _) hk
    have hedges : (g.registerEdge r.edge).1.edges = g.edges ++ [r.edge] := by
      simp only [registerEdge, hnew]
    have hbelow' : r.edge.toEdge.Below g.interner.size := h.2 ▸ hbelow
    have h1 : Absorbing t (g.registerEdge r.edge).1 :=
      ⟨h.1.registerEdge hbelow' hlive, (registerEdge_interner g r.edge).trans h.2⟩
    have hat : LiveAt (g.registerEdge r.edge).1.edges g.edges.length r.edge := by
      rw [hedges]
      exact (liveAt_append hlive).mpr (.inr ⟨rfl, rfl⟩)
    obtain ⟨h2, h3, h4⟩ := foldl_tagEdge htus h1 hat
    rw [List.foldl_cons, loadEdge_eq hnew]
    rw [hedges] at h3
    obtain ⟨h5, h6, h7⟩ := ih (fun r' hr' => hl r' (.tail _ hr')) (by simpa [h3] using hkeys) h2
    refine ⟨h5, by simp [h6, h3], h7.trans ?_⟩
    rw [h4, h.1.ledger_registerEdge, h.2]
    refine Ledger.ext rfl rfl (funext fun f => ?_) (funext fun f => ?_) rfl rfl rfl rfl
    · simp only [Ledger.putEdge, refsIn, List.map_cons, List.sum_cons, eq_comm (a := f)]
      exact Nat.add_assoc _ _ _
    · simp only [Ledger.putEdge, tusIn, List.map_cons, List.sum_cons, factOf]
      exact add_assoc _ _ _

theorem coe_flatMap {α β : Type*} (l : List α) (k : α → List β) :
    (l.flatMap k : Multiset β) = (l.map fun a => (k a : Multiset β)).sum := by
  induction l with
  | nil => rfl
  | cons a l ih => rw [List.flatMap_cons, ← Multiset.coe_add, ih, List.map_cons, List.sum_cons]

/-- The TUs of an edge, as often as they registered it. -/
theorem coe_edgeTus (g : CallGraph) (i : ℕ) :
    ((g.edgeTus i).map g.interner.resolve : Multiset Bytes) =
      ∑ tu ∈ Finset.range g.interner.size,
        Multiset.replicate ((g.tuEdges tu).count i) (g.interner.resolve tu) := by
  have htu (tu : SId) : ((((g.tuEdges tu).filter (· = i)).map fun _ => tu).map g.interner.resolve :
      Multiset Bytes) = Multiset.replicate ((g.tuEdges tu).count i) (g.interner.resolve tu) := by
    rw [List.map_map, ← Multiset.coe_replicate, List.count, List.countP_eq_length_filter]
    exact congrArg _ List.map_const'
  rw [edgeTus, List.map_flatMap, coe_flatMap]
  simp only [htu]
  rfl

/-- The live records of the log with their positions. -/
def livePositions (g : CallGraph) : List (StoredEdge × ℕ) :=
  g.edges.zipIdx.filter fun p => p.1.refs ≠ 0

theorem mem_livePositions {p : StoredEdge × ℕ} : p ∈ g.livePositions ↔ LiveAt g.edges p.2 p.1 := by
  rw [livePositions, List.mem_filter, List.mem_zipIdx_iff_getElem?, LiveAt, decide_eq_true_eq,
    Nat.pos_iff_ne_zero]

theorem nodup_livePositions (g : CallGraph) : g.livePositions.Nodup := by
  refine List.Nodup.filter _ (List.Nodup.of_map Prod.snd ?_)
  rw [List.zipIdx_map_snd]
  exact List.nodup_range'

/-- The records state of every fact by which TUs it was registered. -/
theorem Inv.tusIn_records (h : g.Inv) (f : EdgeFact) :
    tusIn g.interner g.records.edges f = g.ledger.regs f := by
  rw [tusIn, show g.records.edges = g.livePositions.map fun p => ⟨p.1, g.edgeTus p.2⟩ from rfl,
    List.map_map]
  have hterm (p : StoredEdge × ℕ) (hp : p ∈ g.livePositions) :
      ((g.edgeTus p.2).map g.interner.resolve : Multiset Bytes) =
        g.ledger.regs (p.1.toEdge.map g.interner.resolve) := by
    rw [coe_edgeTus, h.regs_of_live (mem_livePositions.mp hp)]
  by_cases hf : ∃ p ∈ g.livePositions, p.1.toEdge.map g.interner.resolve = f
  · obtain ⟨p, hp, rfl⟩ := hf
    rw [← List.sum_toFinset _ g.nodup_livePositions]
    rw [Finset.sum_eq_single_of_mem p (List.mem_toFinset.mpr hp)]
    · exact (if_pos rfl).trans (hterm p hp)
    · intro q hq hne
      refine if_neg fun hfact => hne ?_
      have hq := mem_livePositions.mp (List.mem_toFinset.mp hq)
      obtain ⟨h1, h2⟩ := h.edge.fact_unique h.strings_nodup hq (mem_livePositions.mp hp) hfact
      exact Prod.ext h2 h1
  · push Not at hf
    rw [List.sum_eq_zero]
    · refine Eq.symm (Finset.sum_eq_zero fun tu _ => ?_ : regsIn _ _ _ f = 0)
      have hnone : ∀ i ∈ g.tuEdges tu, ¬ decide (factAt g.interner g.edges i = some f) := by
        intro i hi hfact
        obtain ⟨-, e, he⟩ := h.edge.tag_live hi
        rw [decide_eq_true_eq, factAt, he.1, Option.map_some, Option.some_inj] at hfact
        exact hf (e, i) (mem_livePositions.mpr he) hfact
      rw [List.countP_eq_zero.mpr hnone, Multiset.replicate_zero]
    · intro s hs
      obtain ⟨p, hp, rfl⟩ := List.mem_map.mp hs
      exact if_neg (hf p hp)

/-- The live records of a graph state different facts. -/
theorem Inv.nodup_keys (h : g.Inv) : ((g.livePositions.map Prod.fst).map keyOf).Nodup := by
  rw [List.map_map]
  refine g.nodup_livePositions.map_on fun p hp q hq hk => ?_
  obtain ⟨h1, h2⟩ :=
    h.edge.live_unique (mem_livePositions.mp hp) (mem_livePositions.mp hq) hk
  exact Prod.ext h2 h1

/-- The records of the live edges know their ids. -/
theorem Inv.known_records (h : g.Inv) : ∀ r ∈ g.records.edges, KnownEdge g.interner r := by
  intro r hr
  obtain ⟨p, hp, rfl⟩ := List.mem_map.mp hr
  have hlive : LiveAt g.edges p.2 p.1 := mem_livePositions.mp hp
  refine ⟨h.edge.edge_ids hlive.1, fun tu htu => ?_, hlive.2⟩
  obtain ⟨tu', htu', hmem⟩ := List.mem_flatMap.mp htu
  obtain ⟨-, -, rfl⟩ := List.mem_map.mp hmem
  exact List.mem_range.mp htu'

theorem refsIn_live (t : StringInterner) (edges : List StoredEdge) (f : EdgeFact) :
    refsIn t (edges.filter fun e => e.refs ≠ 0) f = refsIn t edges f := by
  induction edges with
  | nil => rfl
  | cons e rest ih =>
    unfold refsIn at ih ⊢
    by_cases he : e.refs = 0
    · rw [List.filter_cons_of_neg (by simp [he]), ih, List.map_cons, List.sum_cons, he, ite_self,
        Nat.zero_add]
    · rw [List.filter_cons_of_pos (by simp [he]), List.map_cons, List.sum_cons, ih, List.map_cons,
        List.sum_cons]

theorem livePositions_fst (g : CallGraph) :
    g.livePositions.map Prod.fst = g.edges.filter fun e => e.refs ≠ 0 := by
  have hfilter : (g.edges.zipIdx.map Prod.fst).filter (fun e => decide (e.refs ≠ 0)) =
      g.livePositions.map Prod.fst := List.filter_map
  rw [← hfilter, List.zipIdx_map_fst]

/-! ### Relations -/

section Relation

variable {load relate : CallGraph → SId → SId → CallGraph} {get : Ledger → Bytes → Bytes → Prop}
  {set : Ledger → (Bytes → Bytes → Prop) → Ledger}

/-- A load that adds a pair like the mutators as long as the relation does not hold it. -/
structure LoadsLike (load relate : CallGraph → SId → SId → CallGraph)
    (get : Ledger → Bytes → Bytes → Prop) : Prop where
  edges : ∀ (g : CallGraph) (i j : SId), (load g i j).edges = g.edges
  eq : ∀ {g : CallGraph} {i j : SId}, g.Inv → i < g.interner.size → j < g.interner.size →
    ¬ get g.ledger (g.interner.resolve i) (g.interner.resolve j) → load g i j = relate g i j

theorem loadsLike_derived : LoadsLike loadDerived relateDerived Ledger.derived := by
  refine ⟨fun _ _ _ => rfl, fun {g i j} h hi hj hnew => ?_⟩
  have hmem : j ∉ g.derivedClasses i := fun hm => hnew ((h.pairs_resolve hi hj).mpr hm)
  rw [loadDerived, relateDerived, pushNew, if_neg hmem]

theorem loadsLike_override : LoadsLike loadOverride relateOverride Ledger.overrides := by
  refine ⟨fun _ _ _ => rfl, fun {g i j} h hi hj hnew => ?_⟩
  have hmem : j ∉ g.methodOverrides i := fun hm => hnew ((h.pairs_resolve hi hj).mpr hm)
  have hbase : i ∉ g.overrideBases j := fun hm => hmem (h.rel.bases_iff.mp hm)
  rw [loadOverride, relateOverride, pushNew, pushNew, if_neg hmem, if_neg hbase]

theorem loadsLike_impl : LoadsLike loadImpl relateImpl Ledger.impls :=
  ⟨fun _ _ _ => rfl, fun _ _ _ _ => rfl⟩

theorem loadsLike_return : LoadsLike loadReturn relateReturn Ledger.returns := by
  refine ⟨fun _ _ _ => rfl, fun {g i j} h hi hj hnew => ?_⟩
  have hmem : j ∉ g.functionReturns i := fun hm => hnew ((h.pairs_resolve hi hj).mpr hm)
  rw [loadReturn, relateReturn, if_neg hmem]

theorem LoadsLike.loadPairs_edges (hload : LoadsLike load relate get) (pairs : List (ℕ × ℕ))
    (g : CallGraph) : (loadPairs load pairs g).edges = g.edges := by
  induction pairs generalizing g with
  | nil => rfl
  | cons p rest ih => exact (ih (load g p.1 p.2)).trans (hload.edges g p.1 p.2)

/-- New pairs are loaded as the mutators relate them. -/
theorem loadPairs_eq (hR : Relates relate get set) (hload : LoadsLike load relate get)
    (hn : t.strings.Nodup) {pairs : List (ℕ × ℕ)} (hnodup : pairs.Nodup)
    (hids : ∀ p ∈ pairs, p.1 < t.size ∧ p.2 < t.size) (h : Absorbing t g)
    (hnew : ∀ p ∈ pairs, ¬ get g.ledger (t.resolve p.1) (t.resolve p.2)) :
    loadPairs load pairs g = pairs.foldl (fun g p => relate g p.1 p.2) g := by
  induction pairs generalizing g with
  | nil => rfl
  | cons p rest ih =>
    obtain ⟨hp, hrest⟩ := List.nodup_cons.mp hnodup
    obtain ⟨hi, hj⟩ := hids p (.head _)
    have hi' : p.1 < g.interner.size := h.2 ▸ hi
    have hj' : p.2 < g.interner.size := h.2 ▸ hj
    have hstep : load g p.1 p.2 = relate g p.1 p.2 :=
      hload.eq h.1 hi' hj' (by rw [h.2]; exact hnew p (.head _))
    rw [loadPairs, List.foldl_cons, List.foldl_cons, hstep]
    refine ih hrest (fun q hq => hids q (.tail _ hq))
      ⟨hR.inv h.1 hi' hj', (hR.interner g _ _).trans h.2⟩ fun q hq => ?_
    rw [hR.ledger (h.1.find_resolve hi') (h.1.find_resolve hj'), hR.get_set, h.2]
    rintro (hold | ⟨h1, h2⟩)
    · exact hnew q (.tail _ hq) hold
    · have hq1 := (StringInterner.resolve_inj hn (hids q (.tail _ hq)).1 hi).mp h1
      have hq2 := (StringInterner.resolve_inj hn (hids q (.tail _ hq)).2 hj).mp h2
      exact hp (Prod.ext hq1 hq2 ▸ hq)

/-- The pairs of a relation are loaded by key. -/
theorem Inv.loadPairs_pairsByKey (hs : g.Inv) (hR : Relates relate get set)
    (hload : LoadsLike load relate get) {m : SId → List SId}
    (hids : ∀ {i j}, j ∈ m i → i < g.interner.size ∧ j < g.interner.size)
    (hnodup : ∀ i, (m i).Nodup) (h : Absorbing g.interner g')
    (hnew : get g'.ledger = fun _ _ => False) :
    Absorbing g.interner (loadPairs load (g.pairsByKey m) g') ∧
      (loadPairs load (g.pairsByKey m) g').edges = g'.edges ∧
      (loadPairs load (g.pairsByKey m) g').ledger = set g'.ledger (g.interner.pairs m) := by
  have hedges := hload.loadPairs_edges (g.pairsByKey m) g'
  have hpairs : (g.pairsByKey m).Nodup := by
    refine List.nodup_flatMap.mpr ⟨fun i _ => (hnodup i).map fun _ _ hp => (Prod.mk.inj hp).2, ?_⟩
    refine List.nodup_range.imp fun hij p hp hq => hij ?_
    obtain ⟨_, _, rfl⟩ := List.mem_map.mp hp
    obtain ⟨_, _, hpq⟩ := List.mem_map.mp hq
    exact (Prod.mk.inj hpq).1.symm
  have hbound : ∀ p ∈ g.pairsByKey m, p.1 < g.interner.size ∧ p.2 < g.interner.size := by
    intro p hp
    obtain ⟨i, -, hp⟩ := List.mem_flatMap.mp hp
    obtain ⟨j, hj, rfl⟩ := List.mem_map.mp hp
    exact hids hj
  have hfold : (g.pairsByKey m).foldl (fun g p => relate g p.1 p.2) g' =
      (List.range g.interner.size).foldl (absorbRelation id m relate) g' := by
    rw [pairsByKey, List.foldl_flatMap]
    congr 1
    funext g i
    rw [List.foldl_map]
    rfl
  rw [loadPairs_eq hR hload hs.strings_nodup hpairs hbound h fun p _ => by rw [hnew]; exact id,
    hfold] at hedges ⊢
  obtain ⟨h1, h2⟩ := hR.table m hs.remaps_self hids (fun i hi => List.mem_range.mp hi) h
  refine ⟨h1, hedges, h2.trans ?_⟩
  rw [pairsOf_eq hs.strings_nodup hids (.refl _), hnew]
  congr 1
  funext a b
  exact false_or _

end Relation

/-- **The records of a graph install a graph like it**: the ids and the ledger are the same, and
the edges are the live ones in their order. -/
theorem Inv.install_records (h : g.Inv) :
    g.records.install.Inv ∧ g.records.install.interner = g.interner ∧
      g.records.install.edges = g.edges.filter (fun e => e.refs ≠ 0) ∧
      g.records.install.ledger = g.ledger := by
  have hedges : g.records.edges.map EdgeRecord.edge = g.edges.filter fun e => e.refs ≠ 0 := by
    rw [← livePositions_fst]
    exact List.map_map
  obtain ⟨h1, he1, hl1⟩ := h.loadNodes
  unfold GraphRecords.install
  dsimp only
  rw [show (⟨g.records.strings⟩ : StringInterner) = g.interner from rfl]
  generalize g.records.nodes.foldl loadNode { interner := g.interner } = g1 at *
  have hkeys : ((g1.edges ++ g.records.edges.map EdgeRecord.edge).map keyOf).Nodup := by
    rw [he1, List.nil_append, hedges, ← livePositions_fst]
    exact h.nodup_keys
  obtain ⟨h2, he2, hl2⟩ := foldl_loadEdge h.known_records hkeys h1
  rw [he1, List.nil_append, hedges] at he2
  generalize g.records.edges.foldl loadEdge g1 = g2 at *
  obtain ⟨h3, he3, hl3⟩ := h.loadPairs_pairsByKey relates_derived loadsLike_derived
    h.rel.derived_ids h.rel.derived_nodup h2 (by rw [hl2, hl1]; rfl)
  rw [show g.records.derivedClasses = g.pairsByKey g.derivedClasses from rfl]
  generalize loadPairs loadDerived (g.pairsByKey g.derivedClasses) g2 = g3 at *
  obtain ⟨h4, he4, hl4⟩ := h.loadPairs_pairsByKey relates_override loadsLike_override
    h.rel.override_ids h.rel.override_nodup h3 (by rw [hl3, hl2, hl1]; rfl)
  rw [show g.records.methodOverrides = g.pairsByKey g.methodOverrides from rfl]
  generalize loadPairs loadOverride (g.pairsByKey g.methodOverrides) g3 = g4 at *
  obtain ⟨h5, he5, hl5⟩ := h.loadPairs_pairsByKey relates_impl loadsLike_impl
    h.rel.impl_ids h.rel.impl_nodup h4 (by rw [hl4, hl3, hl2, hl1]; rfl)
  rw [show g.records.effectiveImplClasses = g.pairsByKey g.effectiveImplClasses from rfl]
  generalize loadPairs loadImpl (g.pairsByKey g.effectiveImplClasses) g4 = g5 at *
  obtain ⟨h6, he6, hl6⟩ := h.loadPairs_pairsByKey relates_return loadsLike_return
    h.rel.return_ids h.rel.return_nodup h5 (by rw [hl5, hl4, hl3, hl2, hl1]; rfl)
  rw [show g.records.functionReturns = g.pairsByKey g.functionReturns from rfl]
  refine ⟨h6.1, h6.2, he6.trans ?_, ?_⟩
  · rw [he5, he4, he3, he2]
  rw [hl6, hl5, hl4, hl3, hl2, hl1, hedges]
  refine Ledger.ext rfl rfl (funext fun f => ?_) (funext fun f => ?_) rfl rfl rfl rfl
  · exact (Nat.zero_add _).trans (refsIn_live g.interner g.edges f)
  · exact (zero_add _).trans (h.tusIn_records f)

/-! ### The numbers of the format -/

/-- The numbers of a graph fit the format. -/
structure FitsSection (g : CallGraph) : Prop where
  strings : g.interner.size < 2 ^ 32 ∧ ∀ s ∈ g.interner.strings, s.length < 2 ^ 32
  nodes : ∀ i n, g.nodes i = some n →
    n.file.length < 2 ^ 32 ∧ n.enclosingClass.length < 2 ^ 32 ∧ n.line < 2 ^ 32
  edge_count : g.edges.length < 2 ^ 32
  edges : ∀ e ∈ g.edges, e.refs < 2 ^ 32 ∧ e.indirectionDepth < 2 ^ 32
  pairs : ∀ m ∈ [g.derivedClasses, g.methodOverrides, g.effectiveImplClasses, g.functionReturns],
    (g.pairsByKey m).length < 2 ^ 32

/-- An edge has no more TUs than registrations. -/
theorem Inv.length_edgeTus_le (h : g.Inv) (hc : g.ledger.Covered) {i : ℕ} {e : StoredEdge}
    (he : LiveAt g.edges i e) : (g.edgeTus i).length ≤ e.refs := by
  have hcard := hc (e.toEdge.map g.interner.resolve)
  rw [h.refs_of_live he, h.regs_of_live he, ← coe_edgeTus, Multiset.coe_card,
    List.length_map] at hcard
  exact hcard

theorem mem_records_nodes {r : NodeRecord} (hr : r ∈ g.records.nodes) :
    ∃ i n, i < g.interner.size ∧ g.nodes i = some n ∧ r = g.nodeRecord i n := by
  obtain ⟨i, hi, hri⟩ := List.mem_filterMap.mp hr
  obtain ⟨n, hn, rfl⟩ := Option.map_eq_some_iff.mp hri
  exact ⟨i, n, List.mem_range.mp hi, hn, rfl⟩

/-- The records of a graph can be stored. -/
theorem Inv.storable_records (h : g.Inv) (hc : g.ledger.Covered) (hfits : g.FitsSection) :
    g.records.Storable where
  strings := ⟨hfits.strings.1, fun s hs => ⟨h.strings_text s hs, hfits.strings.2 s hs⟩⟩
  node_count := by
    refine (List.length_filterMap_le _ _).trans_lt ?_
    rw [List.length_range]
    exact hfits.strings.1
  node_ids := by
    intro r hr
    obtain ⟨i, n, hi, hn, rfl⟩ := mem_records_nodes hr
    obtain ⟨-, d, hd⟩ := h.node.node_key hn
    refine ⟨hi, ?_, fun tu htu => (h.node.contributors_ids htu).1⟩
    rw [nodeRecord, hd, Option.getD_some]
    exact StringInterner.lt_of_find hd
  node_texts := by
    intro r hr
    obtain ⟨i, n, hi, hn, rfl⟩ := mem_records_nodes hr
    exact h.node.node_text hn
  node_fits := by
    intro r hr
    obtain ⟨i, n, hi, hn, rfl⟩ := mem_records_nodes hr
    obtain ⟨h1, h2, h3⟩ := hfits.nodes i n hn
    refine ⟨h1, h2, h3, lt_of_le_of_lt ?_ hfits.strings.1⟩
    have hsub : g.nodeContributors i ⊆ List.range g.interner.size :=
      fun tu htu => List.mem_range.mpr (h.node.contributors_ids htu).1
    have hlen := ((h.node.contributors_nodup i).subperm hsub).length_le
    rwa [List.length_range] at hlen
  edge_count := by
    rw [records, List.length_map]
    refine (List.length_filter_le _ _).trans_lt ?_
    rw [List.length_zipIdx]
    exact hfits.edge_count
  edge_ids := fun r hr => ⟨(h.known_records r hr).below, (h.known_records r hr).tus⟩
  edge_fits := by
    intro r hr
    have hlive := (h.known_records r hr).live
    obtain ⟨p, hp, rfl⟩ := List.mem_map.mp hr
    have hat : LiveAt g.edges p.2 p.1 := mem_livePositions.mp hp
    obtain ⟨h1, h2⟩ := hfits.edges p.1 (List.mem_of_getElem? hat.1)
    exact ⟨hlive.ne', h1, h2, (h.length_edgeTus_le hc hat).trans_lt h1⟩
  pairs := by
    have hids {m : SId → List SId} (hm : ∀ {i j}, j ∈ m i → i < g.interner.size ∧
        j < g.interner.size) : ∀ p ∈ g.pairsByKey m, p.1 < g.interner.size ∧
          p.2 < g.interner.size := by
      intro p hp
      obtain ⟨i, -, hp⟩ := List.mem_flatMap.mp hp
      obtain ⟨j, hj, rfl⟩ := List.mem_map.mp hp
      exact hm hj
    have hlen := hfits.pairs
    simp only [List.forall_mem_cons, List.not_mem_nil, false_implies, implies_true, and_true]
      at hlen ⊢
    exact ⟨⟨hlen.1, hids h.rel.derived_ids⟩, ⟨hlen.2.1, hids h.rel.override_ids⟩,
      ⟨hlen.2.2.1, hids h.rel.impl_ids⟩, ⟨hlen.2.2.2, hids h.rel.return_ids⟩⟩

/-- **The graph section is loaded.** -/
theorem Inv.loadGraph_saveGraph {ll : Llvm} (hll : ll.AcceptsUtf8) (h : g.Inv)
    (hc : g.ledger.Covered) (hfits : g.FitsSection) :
    loadGraph ll g.saveGraph = some g.records.install := by
  rw [loadGraph, saveGraph, readGraph_putGraph hll (h.storable_records hc hfits)]
  rfl

end CallGraph

end Vycor
