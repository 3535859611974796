import Vycor.CallGraph.Invariant

/-!
# The ledger of a call graph

What a `CallGraph` is for, without its ids and indexes: which nodes are known with which
attributes, which TUs contributed to each, how often each edge was registered and by which
TUs, and the four relations, all over strings. `CallGraph.ledger` reads the ledger off a
graph, and every mutator acts on it by a closed formula (`Ledger.addNode`,
`Ledger.addEdge`, the relation updates). Two graphs with the same ledger stay equal under
every later sequence of mutators, whatever their ids, tombstones and hash orders.
-/

namespace Vycor

/-! ### The abstract state -/

/-- The observable content of a call graph. `regs f` is the multiset of the TUs that
registered the edge `f`, with multiplicity; `refs f` also counts registrations without a
TU. -/
@[ext] structure Ledger where
  nodes : Bytes → Option CallGraphNode
  contributors : Bytes → Bytes → Prop
  refs : EdgeFact → ℕ
  regs : EdgeFact → Multiset Bytes
  derived : Bytes → Bytes → Prop
  overrides : Bytes → Bytes → Prop
  impls : Bytes → Bytes → Prop
  returns : Bytes → Bytes → Prop

/-- Merge a registration into the node known so far. -/
def mergeNode : Option CallGraphNode → CallGraphNode → CallGraphNode
  | none, node => node
  | some old, node => old.backfill node

/-- Add one pair to a relation. -/
def relAdd (R : Bytes → Bytes → Prop) (a b : Bytes) : Bytes → Bytes → Prop :=
  fun x y => R x y ∨ (x = a ∧ y = b)

namespace Ledger

/-- The ledger of an empty graph. -/
def empty : Ledger :=
  ⟨fun _ => none, fun _ _ => False, fun _ => 0, fun _ => 0, fun _ _ => False, fun _ _ => False,
    fun _ _ => False, fun _ _ => False⟩

/-- Record a TU, unless the registration carries none. -/
def contribute (L : Ledger) (usr tuPath : Bytes) : Ledger :=
  if tuPath = [] then L
  else { L with contributors := relAdd L.contributors usr (toIndexText tuPath) }

/-- Merge a node. -/
def putNode (L : Ledger) (node : CallGraphNode) : Ledger :=
  { L with nodes := Function.update L.nodes node.usr (some (mergeNode (L.nodes node.usr) node)) }

/-- One registration of a node. -/
def addNode (L : Ledger) (node : CallGraphNode) (tuPath : Bytes) : Ledger :=
  (L.putNode node.stored).contribute node.stored.usr tuPath

/-- `n` registrations of an edge, no TU recorded. -/
def putEdge (L : Ledger) (f : EdgeFact) (n : ℕ) : Ledger :=
  { L with refs := fun f' => L.refs f' + if f' = f then n else 0 }

/-- Attribute a registration of an edge to a TU. -/
def tagEdge (L : Ledger) (f : EdgeFact) (tu : Bytes) : Ledger :=
  { L with regs := fun f' => L.regs f' + if f' = f then {tu} else 0 }

/-- One registration of an edge. -/
def addEdge (L : Ledger) (edge : CallGraphEdge) (tuPath : Bytes) : Ledger :=
  if tuPath = [] then L.putEdge edge.fact 1
  else (L.putEdge edge.fact 1).tagEdge edge.fact (toIndexText tuPath)

/-- One pair of the class hierarchy. -/
def relateDerived (L : Ledger) (a b : Bytes) : Ledger := { L with derived := relAdd L.derived a b }

/-- One pair of the override relation. -/
def relateOverride (L : Ledger) (a b : Bytes) : Ledger :=
  { L with overrides := relAdd L.overrides a b }

/-- One pair of the effective-implementation relation. -/
def relateImpl (L : Ledger) (a b : Bytes) : Ledger := { L with impls := relAdd L.impls a b }

/-- One pair of the function-return relation. -/
def relateReturn (L : Ledger) (a b : Bytes) : Ledger := { L with returns := relAdd L.returns a b }

/-- The effect of one registration. -/
def register (L : Ledger) : Registration → Ledger
  | .node n tu => L.addNode n tu
  | .edge e tu => L.addEdge e tu
  | .derivedClass b d _ => L.relateDerived (toIndexText b) (toIndexText d)
  | .methodOverride b o _ => L.relateOverride (toIndexText b) (toIndexText o)
  | .effectiveImpl c m _ => L.relateImpl (toIndexText m) (toIndexText c)
  | .functionReturn f r _ => L.relateReturn (toIndexText f) (toIndexText r)

/-- The effect of a list of registrations. -/
def registerAll (L : Ledger) (rs : List Registration) : Ledger := rs.foldl register L

end Ledger

/-! ### Reading tables through the interner -/

/-- The relation over strings that a table of id lists holds. -/
def StringInterner.pairs (t : StringInterner) (m : SId → List SId) (a b : Bytes) : Prop :=
  ∃ i j, t.find a = some i ∧ t.find b = some j ∧ j ∈ m i

/-- The fact an edge position states. -/
def factAt (t : StringInterner) (edges : List StoredEdge) (idx : ℕ) : Option EdgeFact :=
  (edges[idx]?).map fun e => e.toEdge.map t.resolve

/-- The registrations of an edge, summed over the records of the log that state it. -/
def refsIn (t : StringInterner) (edges : List StoredEdge) (f : EdgeFact) : ℕ :=
  (edges.map fun e => if e.toEdge.map t.resolve = f then e.refs else 0).sum

/-- The TUs that registered an edge, with multiplicity. -/
def regsIn (t : StringInterner) (edges : List StoredEdge) (tuEdges : SId → List ℕ)
    (f : EdgeFact) : Multiset Bytes :=
  ∑ tu ∈ Finset.range t.size, Multiset.replicate
    ((tuEdges tu).countP fun i => decide (factAt t edges i = some f)) (t.resolve tu)

/-- The ledger a graph represents. -/
def CallGraph.ledger (g : CallGraph) : Ledger where
  nodes u := (g.interner.find u).bind g.nodes
  contributors := g.interner.pairs g.nodeContributors
  refs := refsIn g.interner g.edges
  regs := regsIn g.interner g.edges g.tuEdges
  derived := g.interner.pairs g.derivedClasses
  overrides := g.interner.pairs g.methodOverrides
  impls := g.interner.pairs g.effectiveImplClasses
  returns := g.interner.pairs g.functionReturns

section Tables

variable {t t' : StringInterner} {m m' : SId → List SId} {edges : List StoredEdge}
  {tuEdges : SId → List ℕ}

/-- New strings relate to nothing. -/
theorem pairs_extend (ht : t.Extends t') (hm : ∀ {i j}, j ∈ m i → i < t.size ∧ j < t.size) :
    t'.pairs m = t.pairs m := by
  have key : ∀ {i s}, i < t.size → t'.find s = some i → t.find s = some i := by
    intro i s hi hs
    obtain ⟨j, hj⟩ := StringInterner.exists_find hi
    rw [← ht.resolve_eq hi, StringInterner.resolve_of_find hs] at hj
    rw [hj, ← hs, ht.find_eq hj]
  funext a b
  refine propext ⟨?_, ?_⟩
  · rintro ⟨i, j, hi, hj, hij⟩
    exact ⟨i, j, key (hm hij).1 hi, key (hm hij).2 hj, hij⟩
  · rintro ⟨i, j, hi, hj, hij⟩
    exact ⟨i, j, ht.find_eq hi, ht.find_eq hj, hij⟩

/-- A table with one more pair. -/
theorem pairs_insert {i j : SId} {a b : Bytes} (ha : t.find a = some i) (hb : t.find b = some j)
    (hm : ∀ i' j', j' ∈ m' i' ↔ j' ∈ m i' ∨ (i' = i ∧ j' = j)) :
    t.pairs m' = relAdd (t.pairs m) a b := by
  funext x y
  refine propext ⟨?_, ?_⟩
  · rintro ⟨i', j', hi, hj, hij⟩
    rcases (hm i' j').mp hij with hij | ⟨rfl, rfl⟩
    · exact .inl ⟨i', j', hi, hj, hij⟩
    · exact .inr ⟨StringInterner.find_inj hi ha, StringInterner.find_inj hj hb⟩
  · rintro (⟨i', j', hi, hj, hij⟩ | ⟨rfl, rfl⟩)
    · exact ⟨i', j', hi, hj, (hm i' j').mpr (.inl hij)⟩
    · exact ⟨i, j, ha, hb, (hm i j).mpr (.inr ⟨rfl, rfl⟩)⟩

theorem factAt_extend (ht : t.Extends t')
    (hids : ∀ {idx : ℕ} {e : StoredEdge}, edges[idx]? = some e → e.toEdge.Below t.size) (idx : ℕ) :
    factAt t' edges idx = factAt t edges idx := by
  unfold factAt
  rcases he : edges[idx]? with _ | e
  · rfl
  · simp only [Option.map_some, Edge.map_resolve_of_extends ht (hids he)]

theorem refsIn_extend (ht : t.Extends t')
    (hids : ∀ {idx : ℕ} {e : StoredEdge}, edges[idx]? = some e → e.toEdge.Below t.size) :
    refsIn t' edges = refsIn t edges := by
  funext f
  unfold refsIn
  refine congrArg List.sum (List.map_congr_left fun e he => ?_)
  obtain ⟨idx, hidx⟩ := List.mem_iff_getElem?.mp he
  rw [Edge.map_resolve_of_extends ht (hids hidx)]

theorem regsIn_extend (ht : t.Extends t')
    (hids : ∀ {idx : ℕ} {e : StoredEdge}, edges[idx]? = some e → e.toEdge.Below t.size)
    (htu : ∀ {tu idx}, idx ∈ tuEdges tu → tu < t.size) :
    regsIn t' edges tuEdges = regsIn t edges tuEdges := by
  funext f
  unfold regsIn
  symm
  calc _ = ∑ tu ∈ Finset.range t.size, Multiset.replicate
        ((tuEdges tu).countP fun i => decide (factAt t' edges i = some f)) (t'.resolve tu) := by
        refine Finset.sum_congr rfl fun tu htu => ?_
        simp only [factAt_extend ht hids, ht.resolve_eq (Finset.mem_range.mp htu)]
    _ = _ := by
        refine Finset.sum_subset (Finset.range_subset_range.mpr ht.size_le) fun tu _ hnot => ?_
        rcases htl : tuEdges tu with _ | ⟨i, l⟩
        · simp
        · exact absurd (Finset.mem_range.mpr (htu (show i ∈ tuEdges tu by rw [htl]; simp))) hnot

/-- Records of an unchanged fact at every position give the same registrations. -/
theorem regsIn_congr {edges' : List StoredEdge}
    (h : ∀ tu, ∀ i ∈ tuEdges tu, factAt t edges' i = factAt t edges i) :
    regsIn t edges' tuEdges = regsIn t edges tuEdges := by
  funext f
  unfold regsIn
  refine Finset.sum_congr rfl fun tu _ => ?_
  congr 1
  refine List.countP_congr fun i hi => ?_
  rw [h tu i hi]

end Tables

namespace CallGraph

variable {g : CallGraph}

/-! ### Primitive updates -/

theorem Inv.contributor_ids (h : g.Inv) {id tu : SId} (hm : tu ∈ g.nodeContributors id) :
    id < g.interner.size ∧ tu < g.interner.size := by
  obtain ⟨htu, hs⟩ := h.node.contributors_ids hm
  obtain ⟨n, hnode⟩ := Option.isSome_iff_exists.mp hs
  exact ⟨StringInterner.lt_of_find (h.node.node_key hnode).1, htu⟩

/-- Interning strings changes nothing observable. -/
theorem Inv.ledger_extend (h : g.Inv) {t : StringInterner} (ht : g.interner.Extends t) :
    ledger { g with interner := t } = g.ledger := by
  have hnode : ∀ u, (t.find u).bind g.nodes = (g.interner.find u).bind g.nodes := by
    intro u
    rcases hu : t.find u with _ | id
    · rcases hu' : g.interner.find u with _ | id'
      · rfl
      · rw [ht.find_eq hu'] at hu
        cases hu
    · rcases hnode : g.nodes id with _ | n
      · rcases hu' : g.interner.find u with _ | id'
        · simp [hnode]
        · rw [ht.find_eq hu'] at hu
          obtain rfl := Option.some_injective _ hu
          simp
      · obtain ⟨hid, -⟩ := h.node.node_key hnode
        rw [← StringInterner.find_inj (ht.find_eq hid) hu, hid]
  simp only [ledger, Ledger.mk.injEq]
  exact ⟨funext hnode, pairs_extend ht h.contributor_ids, refsIn_extend ht h.edge.edge_ids,
    regsIn_extend ht h.edge.edge_ids fun hm => (h.edge.tag_live hm).1,
    pairs_extend ht h.rel.derived_ids, pairs_extend ht h.rel.override_ids,
    pairs_extend ht h.rel.impl_ids, pairs_extend ht h.rel.return_ids⟩

theorem Inv.ledger_intern (h : g.Inv) (s : Bytes) : (g.intern s).1.ledger = g.ledger :=
  h.ledger_extend (StringInterner.extends_intern _ _)

theorem Inv.ledger_internRaw (h : g.Inv) (s : Bytes) : (g.internRaw s).1.ledger = g.ledger :=
  h.ledger_intern _

theorem ledger_insertNode {nameId displayId : SId} {node : CallGraphNode}
    (hnew : g.nodes nameId = none) (hu : g.interner.find node.usr = some nameId) :
    (g.insertNode nameId displayId node).ledger = g.ledger.putNode node := by
  refine Ledger.ext (funext fun u => ?_) rfl rfl rfl rfl rfl rfl rfl
  simp only [ledger, CallGraph.insertNode, Ledger.putNode, Function.update_apply]
  split_ifs with hu'
  · simp [hu', hu, hnew, mergeNode]
  · rcases hf : g.interner.find u with _ | id
    · rfl
    · have hid : id ≠ nameId := fun he => hu' (StringInterner.find_inj (he ▸ hf) hu)
      simp [hid]

theorem ledger_backfillNode {nameId : SId} {old node : CallGraphNode}
    (hold : g.nodes nameId = some old) (hu : g.interner.find node.usr = some nameId) :
    (g.backfillNode nameId old node).ledger = g.ledger.putNode node := by
  refine Ledger.ext (funext fun u => ?_) rfl rfl rfl rfl rfl rfl rfl
  simp only [ledger, CallGraph.backfillNode, Ledger.putNode, Function.update_apply]
  split_ifs with hu'
  · simp [hu', hu, hold, mergeNode]
  · rcases hf : g.interner.find u with _ | id
    · rfl
    · have hid : id ≠ nameId := fun he => hu' (StringInterner.find_inj (he ▸ hf) hu)
      simp [hid]

theorem ledger_contribute {nameId tuId : SId} {u tu : Bytes}
    (hu : g.interner.find u = some nameId) (ht : g.interner.find tu = some tuId) :
    (g.contribute nameId tuId).ledger =
      { g.ledger with contributors := relAdd g.ledger.contributors u tu } := by
  unfold CallGraph.contribute
  split_ifs with hm
  · refine Ledger.ext rfl (pairs_insert hu ht fun i' j' => ⟨.inl, ?_⟩) rfl rfl rfl rfl rfl rfl
    rintro (h | ⟨rfl, rfl⟩)
    exacts [h, hm]
  · exact Ledger.ext rfl (pairs_insert hu ht fun i' j' => mem_insertAt) rfl rfl rfl rfl rfl rfl

/-- Registering an edge adds to the count of its fact. -/
theorem Inv.ledger_registerEdge (h : g.Inv) (se : StoredEdge) :
    (g.registerEdge se).1.ledger =
      g.ledger.putEdge (se.toEdge.map g.interner.resolve) se.refs := by
  unfold CallGraph.registerEdge
  split
  next idx hidx =>
    obtain ⟨e, he, hk⟩ := h.edge.index_iff.mp hidx
    refine Ledger.ext rfl rfl (funext fun f => ?_) ?_ rfl rfl rfl rfl
    · have hsum := sum_map_modify (addRefs se.refs)
        (fun e => if e.toEdge.map g.interner.resolve = f then e.refs else 0) he.1
      have hk' : e.toEdge = se.toEdge := hk
      change refsIn _ (g.edges.modify idx (addRefs se.refs)) f = refsIn _ g.edges f + _
      simp only [refsIn, addRefs, hk'] at hsum ⊢
      by_cases hf : se.toEdge.map g.interner.resolve = f
      · simp only [hf, if_true] at hsum ⊢
        omega
      · simp only [hf, Ne.symm hf, if_false] at hsum ⊢
        omega
    · refine regsIn_congr fun tu i hi => ?_
      simp only [factAt, List.getElem?_modify]
      rcases g.edges[i]? with _ | e'
      · rfl
      · simp only [Option.map_some]
        split_ifs <;> rfl
  next hnew =>
    refine Ledger.ext rfl rfl (funext fun f => ?_) ?_ rfl rfl rfl rfl
    · simp [ledger, refsIn, Ledger.putEdge, eq_comm]
    · refine regsIn_congr fun tu i hi => ?_
      obtain ⟨-, e, he⟩ := h.edge.tag_live hi
      have hlt := (List.getElem?_eq_some_iff.mp he.1).1
      simp only [factAt, List.getElem?_append_left hlt]

/-- Tagging a position records the TU for its fact. -/
theorem ledger_tagEdge {tuId : SId} {idx : ℕ} {f : EdgeFact} (ht : tuId < g.interner.size)
    (hf : factAt g.interner g.edges idx = some f) :
    (g.tagEdge tuId idx).ledger = g.ledger.tagEdge f (g.interner.resolve tuId) := by
  refine Ledger.ext rfl rfl rfl (funext fun f' => ?_) rfl rfl rfl rfl
  have hpush : ∀ tu, (pushAt g.tuEdges tuId idx tu).countP
      (fun i => decide (factAt g.interner g.edges i = some f')) =
      (g.tuEdges tu).countP (fun i => decide (factAt g.interner g.edges i = some f')) +
        if tu = tuId ∧ f' = f then 1 else 0 := by
    intro tu
    rw [countP_pushAt]
    simp only [hf, Option.some.injEq, decide_eq_true_eq, eq_comm (a := f)]
  change regsIn g.interner g.edges (pushAt g.tuEdges tuId idx) f' = regsIn _ _ g.tuEdges f' + _
  simp only [regsIn, hpush, Multiset.replicate_add, Finset.sum_add_distrib]
  congr 1
  split_ifs with hff
  · rw [Finset.sum_eq_single_of_mem tuId (Finset.mem_range.mpr ht)]
    · simp [hff]
    · intro tu _ hne
      simp [hne]
  · simp [hff]

section Relations

variable {i j : SId} {a b : Bytes}

theorem ledger_relateDerived (ha : g.interner.find a = some i) (hb : g.interner.find b = some j) :
    (g.relateDerived i j).ledger = g.ledger.relateDerived a b :=
  Ledger.ext rfl rfl rfl rfl (pairs_insert ha hb fun _ _ => mem_pushNew) rfl rfl rfl

theorem ledger_relateOverride (ha : g.interner.find a = some i)
    (hb : g.interner.find b = some j) :
    (g.relateOverride i j).ledger = g.ledger.relateOverride a b :=
  Ledger.ext rfl rfl rfl rfl rfl (pairs_insert ha hb fun _ _ => mem_pushNew) rfl rfl

theorem ledger_relateImpl (ha : g.interner.find a = some i) (hb : g.interner.find b = some j) :
    (g.relateImpl i j).ledger = g.ledger.relateImpl a b :=
  Ledger.ext rfl rfl rfl rfl rfl rfl (pairs_insert ha hb fun _ _ => mem_insertAt) rfl

theorem ledger_relateReturn (ha : g.interner.find a = some i) (hb : g.interner.find b = some j) :
    (g.relateReturn i j).ledger = g.ledger.relateReturn a b := by
  unfold CallGraph.relateReturn
  split_ifs with hm
  · refine Ledger.ext rfl rfl rfl rfl rfl rfl rfl (pairs_insert ha hb fun i' j' => ⟨.inl, ?_⟩)
    rintro (h | ⟨rfl, rfl⟩)
    exacts [h, hm]
  · exact Ledger.ext rfl rfl rfl rfl rfl rfl rfl (pairs_insert ha hb fun _ _ => mem_insertAt)

end Relations

/-! ### The mutators -/

theorem utf8Text_stored (n : CallGraphNode) : Utf8Text n.stored.usr ∧
    Utf8Text n.stored.qualifiedName ∧ Utf8Text n.stored.file ∧ Utf8Text n.stored.enclosingClass :=
  ⟨utf8Text_toIndexText _, utf8Text_toIndexText _, utf8Text_toIndexText _,
    utf8Text_toIndexText _⟩

theorem Inv.putNode (h : g.Inv) {nameId displayId : SId} {node : CallGraphNode}
    (hu : g.interner.find node.usr = some nameId)
    (hd : g.interner.find node.qualifiedName = some displayId)
    (ht : Utf8Text node.file ∧ Utf8Text node.enclosingClass) :
    (g.putNode nameId displayId node).Inv ∧
      (g.putNode nameId displayId node).ledger = g.ledger.putNode node ∧
      (g.putNode nameId displayId node).interner = g.interner ∧
      ((g.putNode nameId displayId node).nodes nameId).isSome := by
  unfold CallGraph.putNode
  split
  next hnew =>
    exact ⟨h.insertNode hnew hu hd ht, ledger_insertNode hnew hu, rfl, by
      simp [CallGraph.insertNode]⟩
  next old hold =>
    exact ⟨h.backfillNode hold ht, ledger_backfillNode hold hu, rfl, by
      simp [CallGraph.backfillNode]⟩

theorem extends_intern (g : CallGraph) (s : Bytes) : g.interner.Extends (g.intern s).1.interner :=
  StringInterner.extends_intern _ _

theorem find_intern (g : CallGraph) (s : Bytes) :
    (g.intern s).1.interner.find s = some (g.intern s).2 :=
  StringInterner.find_intern _ _

/-- An id stays valid when a second string is interned. -/
theorem find_intern_intern (g : CallGraph) (s s' : Bytes) :
    ((g.intern s).1.intern s').1.interner.find s = some (g.intern s).2 :=
  (extends_intern _ _).find_eq (find_intern g s)

theorem Inv.contributeRaw (h : g.Inv) {nameId : SId} {u : Bytes}
    (hu : g.interner.find u = some nameId) (hs : (g.nodes nameId).isSome) (tuPath : Bytes) :
    ((g.internRaw tuPath).1.contribute nameId (g.internRaw tuPath).2).Inv ∧
      ((g.internRaw tuPath).1.contribute nameId (g.internRaw tuPath).2).ledger =
        { g.ledger with
          contributors := relAdd g.ledger.contributors u (toIndexText tuPath) } := by
  have ht := find_intern g (toIndexText tuPath)
  refine ⟨(h.internRaw tuPath).contribute hs (StringInterner.lt_of_find ht), ?_⟩
  refine (ledger_contribute ((extends_intern g _).find_eq hu) ht).trans ?_
  rw [h.ledger_intern]

theorem Inv.tagRaw (h : g.Inv) {idx : ℕ} {e : StoredEdge} (he : LiveAt g.edges idx e)
    (tuPath : Bytes) :
    ((g.internRaw tuPath).1.tagEdge (g.internRaw tuPath).2 idx).Inv ∧
      ((g.internRaw tuPath).1.tagEdge (g.internRaw tuPath).2 idx).ledger =
        g.ledger.tagEdge (e.toEdge.map g.interner.resolve) (toIndexText tuPath) := by
  have ht := find_intern g (toIndexText tuPath)
  have hlt := StringInterner.lt_of_find ht
  refine ⟨(h.internRaw tuPath).tagEdge he hlt, ?_⟩
  have hf : factAt (g.internRaw tuPath).1.interner (g.internRaw tuPath).1.edges idx =
      some (e.toEdge.map g.interner.resolve) := by
    refine (factAt_extend (extends_intern g _) h.edge.edge_ids idx).trans ?_
    rw [factAt, he.1, Option.map_some]
  rw [ledger_tagEdge hlt hf, h.ledger_internRaw]
  exact congrArg _ (StringInterner.resolve_of_find ht)

/-- `addNode` keeps the invariant and registers the node in the ledger. -/
theorem Inv.addNode (h : g.Inv) (node : CallGraphNode) (tuPath : Bytes) :
    (g.addNode node tuPath).Inv ∧
      (g.addNode node tuPath).ledger = g.ledger.addNode node tuPath := by
  obtain ⟨husr, hdisp, htext⟩ := utf8Text_stored node
  have h1 := h.intern husr
  have hu := find_intern_intern g node.stored.usr node.stored.qualifiedName
  obtain ⟨h3, hl, hint, hsome⟩ := (h1.intern hdisp).putNode hu (find_intern _ _) htext
  rw [h1.ledger_intern, h.ledger_intern] at hl
  unfold CallGraph.addNode Ledger.addNode Ledger.contribute
  rw [h.mutable]
  simp only [Bool.false_eq_true, if_false]
  split_ifs with htu
  · exact ⟨h3, hl⟩
  · have h4 := h3.contributeRaw (hint ▸ hu) hsome tuPath
    exact ⟨h4.1, h4.2.trans (by rw [hl])⟩

/-- The part of `addEdge` after the interning of its names. -/
theorem Inv.registerRaw (h : g.Inv) {se : StoredEdge} (hids : se.toEdge.Below g.interner.size)
    (hse : 0 < se.refs) {f : EdgeFact} (hf : se.toEdge.map g.interner.resolve = f)
    (tuPath : Bytes) {g' : CallGraph}
    (hg' : g' = if tuPath = [] then (g.registerEdge se).1
      else ((g.registerEdge se).1.internRaw tuPath).1.tagEdge
        ((g.registerEdge se).1.internRaw tuPath).2 (g.registerEdge se).2) :
    g'.Inv ∧ g'.ledger = if tuPath = [] then g.ledger.putEdge f se.refs
      else (g.ledger.putEdge f se.refs).tagEdge f (toIndexText tuPath) := by
  obtain ⟨e, he, hk⟩ := h.registerEdge_live hse
  have h4 := h.registerEdge hids hse
  have hl4 := h.ledger_registerEdge se
  subst hg' hf
  split_ifs with htu
  · exact ⟨h4, hl4⟩
  · have h5 := h4.tagRaw he tuPath
    rw [registerEdge_interner, hk, hl4] at h5
    exact h5

/-- `addEdge` keeps the invariant and registers the edge in the ledger. -/
theorem Inv.addEdge (h : g.Inv) (edge : CallGraphEdge) (tuPath : Bytes) :
    (g.addEdge edge tuPath).Inv ∧
      (g.addEdge edge tuPath).ledger = g.ledger.addEdge edge tuPath := by
  have h1 := h.internRaw edge.callerName
  have h2 := h1.internRaw edge.calleeName
  have hl := (h2.ledger_internRaw edge.callSite).trans
    ((h1.ledger_internRaw edge.calleeName).trans (h.ledger_internRaw edge.callerName))
  have hcaller := (extends_intern _ (toIndexText edge.callSite)).find_eq
    (find_intern_intern g (toIndexText edge.callerName) (toIndexText edge.calleeName))
  have hcallee := find_intern_intern (g.internRaw edge.callerName).1
    (toIndexText edge.calleeName) (toIndexText edge.callSite)
  have hsite := find_intern ((g.internRaw edge.callerName).1.internRaw edge.calleeName).1
    (toIndexText edge.callSite)
  unfold CallGraph.addEdge Ledger.addEdge
  rw [h.mutable, ← hl]
  simp only [Bool.false_eq_true, if_false]
  refine (h2.internRaw edge.callSite).registerRaw ⟨StringInterner.lt_of_find hcaller,
    StringInterner.lt_of_find hcallee, StringInterner.lt_of_find hsite⟩ Nat.one_pos ?_ tuPath rfl
  simp only [Edge.map, CallGraphEdge.fact, StringInterner.resolve_of_find hcaller,
    StringInterner.resolve_of_find hcallee, StringInterner.resolve_of_find hsite]

/-- A relation mutator does what its primitive does, on the interned names. -/
theorem Inv.relateRaw (h : g.Inv) {relate : CallGraph → SId → SId → CallGraph}
    {update : Ledger → Bytes → Bytes → Ledger} (a b : Bytes)
    (hinv : ∀ {g : CallGraph} {i j : SId}, g.Inv → i < g.interner.size → j < g.interner.size →
      (relate g i j).Inv)
    (hledger : ∀ {g : CallGraph} {i j : SId} {a b : Bytes}, g.interner.find a = some i →
      g.interner.find b = some j → (relate g i j).ledger = update g.ledger a b) :
    (g.relateRaw relate a b).Inv ∧ (g.relateRaw relate a b).ledger =
      update g.ledger (toIndexText a) (toIndexText b) := by
  have h1 := h.internRaw a
  have h2 := h1.internRaw b
  have ha := find_intern_intern g (toIndexText a) (toIndexText b)
  have hb := find_intern (g.internRaw a).1 (toIndexText b)
  unfold CallGraph.relateRaw
  rw [h.mutable]
  simp only [Bool.false_eq_true, if_false]
  refine ⟨hinv h2 (StringInterner.lt_of_find ha) (StringInterner.lt_of_find hb), ?_⟩
  rw [hledger ha hb, h1.ledger_internRaw, h.ledger_internRaw]

/-- **Every registration keeps the invariant and acts on the ledger by its formula.** -/
theorem Inv.register (h : g.Inv) (r : Registration) :
    (g.register r).Inv ∧ (g.register r).ledger = g.ledger.register r := by
  cases r with
  | node n tu => exact h.addNode n tu
  | edge e tu => exact h.addEdge e tu
  | derivedClass b d tu => exact h.relateRaw b d Inv.relateDerived ledger_relateDerived
  | methodOverride b o tu => exact h.relateRaw b o Inv.relateOverride ledger_relateOverride
  | effectiveImpl c m tu => exact h.relateRaw m c Inv.relateImpl ledger_relateImpl
  | functionReturn f r tu => exact h.relateRaw f r Inv.relateReturn ledger_relateReturn

theorem Inv.registerAll (h : g.Inv) (rs : List Registration) :
    (g.registerAll rs).Inv ∧ (g.registerAll rs).ledger = g.ledger.registerAll rs := by
  induction rs generalizing g with
  | nil => exact ⟨h, rfl⟩
  | cons r rest ih =>
    obtain ⟨h1, hl⟩ := h.register r
    obtain ⟨h2, hl2⟩ := ih h1
    exact ⟨h2, by rw [Ledger.registerAll, List.foldl_cons, ← hl]; exact hl2⟩

end CallGraph

end Vycor
