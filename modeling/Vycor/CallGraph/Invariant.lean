import Vycor.CallGraph.Basic

/-!
# The representation invariant of the call graph

The redundant tables of a `CallGraph` fall into three groups that no mutator mixes: the
node table with its disambiguation index and contributor maps (`NodeInv`), the edge log
with its content index, adjacency vectors and per-TU registrations (`EdgeInv`), and the
relations with their reverse maps (`RelInv`). Each group's invariant is stated over the
tables it needs, so that an update of one group leaves the others' invariants untouched by
definition.

How the registration counts add up is no part of it: that is an equation of the abstract
ledger (`CallGraph.Ledger`), where bulk updates are easier to account for.
-/

namespace Vycor

/-! ### Statement -/

/-- All names of an edge are below a bound. -/
def Edge.Below (n : ℕ) (e : EdgeRef) : Prop := e.caller < n ∧ e.callee < n ∧ e.callSite < n

/-- A record of the edge log with at least one registration. -/
def LiveAt (edges : List StoredEdge) (idx : ℕ) (e : StoredEdge) : Prop :=
  edges[idx]? = some e ∧ 0 < e.refs

/-- The node group: nodes are keyed by their usr, `byName` lists exactly the nodes of each
display name, and the two contributor maps are inverse to each other. -/
structure NodeInv (t : StringInterner) (nodes : SId → Option CallGraphNode)
    (byName nodeContributors tuNodes : SId → List SId) : Prop where
  node_key : ∀ {id n}, nodes id = some n →
    t.find n.usr = some id ∧ ∃ d, t.find n.qualifiedName = some d
  byName_iff : ∀ {d id}, id ∈ byName d ↔
    ∃ n, nodes id = some n ∧ t.find n.qualifiedName = some d
  byName_nodup : ∀ d, (byName d).Nodup
  tuNodes_iff : ∀ {tu id}, id ∈ tuNodes tu ↔ tu ∈ nodeContributors id
  tuNodes_nodup : ∀ tu, (tuNodes tu).Nodup
  contributors_nodup : ∀ id, (nodeContributors id).Nodup
  contributors_ids : ∀ {id tu}, tu ∈ nodeContributors id → tu < t.size ∧ (nodes id).isSome
  node_text : ∀ {id n}, nodes id = some n → Utf8Text n.file ∧ Utf8Text n.enclosingClass

/-- The edge group. -/
structure EdgeInv (t : StringInterner) (edges : List StoredEdge)
    (edgeIndex : EdgeRef → Option ℕ) (outEdges inEdges : SId → List ℕ) (liveEdgeCount : ℕ)
    (tuEdges : SId → List ℕ) : Prop where
  edge_ids : ∀ {idx : ℕ} {e : StoredEdge}, edges[idx]? = some e → e.toEdge.Below t.size
  index_iff : ∀ {k idx}, edgeIndex k = some idx ↔ ∃ e, LiveAt edges idx e ∧ keyOf e = k
  out_iff : ∀ {c idx}, idx ∈ outEdges c ↔ ∃ e, LiveAt edges idx e ∧ e.caller = c
  out_nodup : ∀ c, (outEdges c).Nodup
  in_iff : ∀ {c idx}, idx ∈ inEdges c ↔ ∃ e, LiveAt edges idx e ∧ e.callee = c
  in_nodup : ∀ c, (inEdges c).Nodup
  live_count : liveEdgeCount = edges.countP fun e => decide (0 < e.refs)
  tag_live : ∀ {tu idx}, idx ∈ tuEdges tu → tu < t.size ∧ ∃ e, LiveAt edges idx e

/-- The relation group. -/
structure RelInv (t : StringInterner) (derivedClasses methodOverrides overrideBases
    effectiveImplClasses functionReturns returnedBy : SId → List SId) : Prop where
  derived_ids : ∀ {a b}, b ∈ derivedClasses a → a < t.size ∧ b < t.size
  derived_nodup : ∀ a, (derivedClasses a).Nodup
  override_ids : ∀ {a b}, b ∈ methodOverrides a → a < t.size ∧ b < t.size
  override_nodup : ∀ a, (methodOverrides a).Nodup
  bases_iff : ∀ {a b}, a ∈ overrideBases b ↔ b ∈ methodOverrides a
  bases_nodup : ∀ b, (overrideBases b).Nodup
  impl_ids : ∀ {a b}, b ∈ effectiveImplClasses a → a < t.size ∧ b < t.size
  impl_nodup : ∀ a, (effectiveImplClasses a).Nodup
  return_ids : ∀ {a b}, b ∈ functionReturns a → a < t.size ∧ b < t.size
  return_nodup : ∀ a, (functionReturns a).Nodup
  returnedBy_iff : ∀ {a b}, a ∈ returnedBy b ↔ b ∈ functionReturns a
  returnedBy_nodup : ∀ b, (returnedBy b).Nodup

/-- The representation invariant of a mutable call graph. -/
structure CallGraph.Inv (g : CallGraph) : Prop where
  mutable : g.readOnly = false
  strings_nodup : g.interner.strings.Nodup
  strings_text : ∀ s ∈ g.interner.strings, Utf8Text s
  node : NodeInv g.interner g.nodes g.byName g.nodeContributors g.tuNodes
  edge : EdgeInv g.interner g.edges g.edgeIndex g.outEdges g.inEdges g.liveEdgeCount g.tuEdges
  rel : RelInv g.interner g.derivedClasses g.methodOverrides g.overrideBases
    g.effectiveImplClasses g.functionReturns g.returnedBy

/-! ### The interner may grow -/

section Growth

variable {t t' : StringInterner}

theorem Edge.Below.mono {e : EdgeRef} {m n : ℕ} (h : e.Below m) (hmn : m ≤ n) : e.Below n :=
  ⟨h.1.trans_le hmn, h.2.1.trans_le hmn, h.2.2.trans_le hmn⟩

/-- Names below the size of the smaller table resolve to the same strings. -/
theorem Edge.map_resolve_of_extends {e : EdgeRef} (ht : t.Extends t') (h : e.Below t.size) :
    e.map t'.resolve = e.map t.resolve := by
  simp only [Edge.map, ht.resolve_eq h.1, ht.resolve_eq h.2.1, ht.resolve_eq h.2.2]

variable {nodes : SId → Option CallGraphNode} {byName nodeContributors tuNodes : SId → List SId}

theorem NodeInv.extend (h : NodeInv t nodes byName nodeContributors tuNodes)
    (ht : t.Extends t') : NodeInv t' nodes byName nodeContributors tuNodes where
  node_key hn := by
    obtain ⟨hu, d, hd⟩ := h.node_key hn
    exact ⟨ht.find_eq hu, d, ht.find_eq hd⟩
  byName_iff {d id} := by
    rw [h.byName_iff]
    refine exists_congr fun n => and_congr_right fun hn => ?_
    obtain ⟨-, d', hd'⟩ := h.node_key hn
    rw [hd', ht.find_eq hd']
  byName_nodup := h.byName_nodup
  tuNodes_iff := h.tuNodes_iff
  tuNodes_nodup := h.tuNodes_nodup
  contributors_nodup := h.contributors_nodup
  contributors_ids hm := (h.contributors_ids hm).imp_left (lt_of_lt_of_le · ht.size_le)
  node_text := h.node_text

theorem EdgeInv.extend {edges : List StoredEdge} {edgeIndex : EdgeRef → Option ℕ}
    {outEdges inEdges tuEdges : SId → List ℕ} {live : ℕ}
    (h : EdgeInv t edges edgeIndex outEdges inEdges live tuEdges)
    (ht : t.Extends t') :
    EdgeInv t' edges edgeIndex outEdges inEdges live tuEdges where
  edge_ids he := (h.edge_ids he).mono ht.size_le
  index_iff := h.index_iff
  out_iff := h.out_iff
  out_nodup := h.out_nodup
  in_iff := h.in_iff
  in_nodup := h.in_nodup
  live_count := h.live_count
  tag_live hm := (h.tag_live hm).imp_left (lt_of_lt_of_le · ht.size_le)

theorem RelInv.extend {der ovr bas imp ret rby : SId → List SId}
    (h : RelInv t der ovr bas imp ret rby) (ht : t.Extends t') :
    RelInv t' der ovr bas imp ret rby where
  derived_ids hm := (h.derived_ids hm).imp (lt_of_lt_of_le · ht.size_le)
    (lt_of_lt_of_le · ht.size_le)
  derived_nodup := h.derived_nodup
  override_ids hm := (h.override_ids hm).imp (lt_of_lt_of_le · ht.size_le)
    (lt_of_lt_of_le · ht.size_le)
  override_nodup := h.override_nodup
  bases_iff := h.bases_iff
  bases_nodup := h.bases_nodup
  impl_ids hm := (h.impl_ids hm).imp (lt_of_lt_of_le · ht.size_le)
    (lt_of_lt_of_le · ht.size_le)
  impl_nodup := h.impl_nodup
  return_ids hm := (h.return_ids hm).imp (lt_of_lt_of_le · ht.size_le)
    (lt_of_lt_of_le · ht.size_le)
  return_nodup := h.return_nodup
  returnedBy_iff := h.returnedBy_iff
  returnedBy_nodup := h.returnedBy_nodup

end Growth

/-! ### The edge log -/

/-- Names below the size of a table without repeats are determined by their strings. -/
theorem Edge.map_resolve_inj {t : StringInterner} (hn : t.strings.Nodup) {e e' : EdgeRef}
    (h : e.Below t.size) (h' : e'.Below t.size) :
    e.map t.resolve = e'.map t.resolve ↔ e = e' := by
  constructor
  · intro heq
    simp only [Edge.map, Edge.mk.injEq] at heq
    obtain ⟨h1, h2, h3, h4, h5, h6, h7⟩ := heq
    rw [StringInterner.resolve_inj hn h.1 h'.1] at h1
    rw [StringInterner.resolve_inj hn h.2.1 h'.2.1] at h2
    rw [StringInterner.resolve_inj hn h.2.2 h'.2.2] at h3
    cases e; cases e'
    simp_all
  · rintro rfl; rfl

theorem liveAt_append {edges : List StoredEdge} {se : StoredEdge} (hse : 0 < se.refs) {idx : ℕ}
    {e : StoredEdge} :
    LiveAt (edges ++ [se]) idx e ↔ LiveAt edges idx e ∨ (idx = edges.length ∧ e = se) := by
  unfold LiveAt
  rcases Nat.lt_trichotomy idx edges.length with h | h | h
  · rw [List.getElem?_append_left h]
    simp [h.ne]
  · subst h
    simp only [List.getElem?_concat_length, Option.some.injEq, List.getElem?_length, reduceCtorEq,
      false_and, true_and, false_or]
    constructor
    · rintro ⟨rfl, -⟩; rfl
    · rintro rfl; exact ⟨rfl, hse⟩
  · rw [List.getElem?_eq_none (by simp; omega), List.getElem?_eq_none (by omega)]
    simp [h.ne']

/-- Adding registrations to a live record. -/
def addRefs (n : ℕ) (e : StoredEdge) : StoredEdge := { e with refs := e.refs + n }

theorem liveAt_modify_addRefs {edges : List StoredEdge} {i n : ℕ} {e₀ : StoredEdge}
    (h₀ : LiveAt edges i e₀) {idx : ℕ} {e : StoredEdge} :
    LiveAt (edges.modify i (addRefs n)) idx e ↔
      ∃ e', LiveAt edges idx e' ∧ e = if i = idx then addRefs n e' else e' := by
  unfold LiveAt
  rw [List.getElem?_modify]
  constructor
  · rintro ⟨he, hr⟩
    obtain ⟨e', he', rfl⟩ := Option.map_eq_some_iff.mp he
    refine ⟨e', ⟨he', ?_⟩, rfl⟩
    split_ifs at hr with hi
    · subst hi
      rw [h₀.1] at he'
      obtain rfl := Option.some_injective _ he'
      exact h₀.2
    · exact hr
  · rintro ⟨e', ⟨he', hr⟩, rfl⟩
    refine ⟨by rw [he']; rfl, ?_⟩
    split_ifs
    · exact Nat.add_pos_left hr n
    · exact hr

@[simp] theorem toEdge_addRefs (n : ℕ) (e : StoredEdge) : (addRefs n e).toEdge = e.toEdge := rfl

section EdgeInv

variable {t : StringInterner} {edges : List StoredEdge} {edgeIndex : EdgeRef → Option ℕ}
  {outEdges inEdges tuEdges : SId → List ℕ} {live : ℕ}

/-- Two live records with the same content are the same record. -/
theorem EdgeInv.live_unique
    (h : EdgeInv t edges edgeIndex outEdges inEdges live tuEdges) {i j : ℕ}
    {e e' : StoredEdge} (he : LiveAt edges i e) (he' : LiveAt edges j e')
    (hk : e.toEdge = e'.toEdge) : i = j ∧ e = e' := by
  have hi := h.index_iff.mpr ⟨e, he, rfl⟩
  have hj := h.index_iff.mpr ⟨e', he', rfl⟩
  have hij : i = j := by
    rw [show keyOf e = keyOf e' from hk, hj] at hi
    exact (Option.some_injective _ hi).symm
  subst hij
  exact ⟨rfl, Option.some_injective _ (he.1.symm.trans he'.1)⟩

theorem EdgeInv.fact_unique (hn : t.strings.Nodup)
    (h : EdgeInv t edges edgeIndex outEdges inEdges live tuEdges) {i j : ℕ}
    {e e' : StoredEdge} (he : LiveAt edges i e) (he' : LiveAt edges j e')
    (hk : e.toEdge.map t.resolve = e'.toEdge.map t.resolve) : i = j ∧ e = e' :=
  h.live_unique he he'
    ((Edge.map_resolve_inj hn (h.edge_ids he.1) (h.edge_ids he'.1)).mp hk)

/-- A further registration of a stored edge. -/
theorem EdgeInv.addRefs (h : EdgeInv t edges edgeIndex outEdges inEdges live tuEdges) {i n : ℕ}
    {e₀ : StoredEdge} (h₀ : LiveAt edges i e₀) :
    EdgeInv t (edges.modify i (Vycor.addRefs n)) edgeIndex outEdges inEdges live tuEdges where
  edge_ids {idx e} he := by
    rw [List.getElem?_modify] at he
    obtain ⟨e', he', rfl⟩ := Option.map_eq_some_iff.mp he
    have hb : e'.toEdge.Below t.size := h.edge_ids he'
    split_ifs
    exacts [hb, hb]
  index_iff {k idx} := by
    simp only [h.index_iff, liveAt_modify_addRefs h₀]
    constructor
    · rintro ⟨e, he, rfl⟩
      exact ⟨_, ⟨e, he, rfl⟩, by split_ifs <;> rfl⟩
    · rintro ⟨_, ⟨e, he, rfl⟩, hk⟩
      exact ⟨e, he, by rw [← hk]; split_ifs <;> rfl⟩
  out_iff {c idx} := by
    simp only [h.out_iff, liveAt_modify_addRefs h₀]
    constructor
    · rintro ⟨e, he, rfl⟩
      exact ⟨_, ⟨e, he, rfl⟩, by split_ifs <;> rfl⟩
    · rintro ⟨_, ⟨e, he, rfl⟩, hk⟩
      exact ⟨e, he, by rw [← hk]; split_ifs <;> rfl⟩
  out_nodup := h.out_nodup
  in_iff {c idx} := by
    simp only [h.in_iff, liveAt_modify_addRefs h₀]
    constructor
    · rintro ⟨e, he, rfl⟩
      exact ⟨_, ⟨e, he, rfl⟩, by split_ifs <;> rfl⟩
    · rintro ⟨_, ⟨e, he, rfl⟩, hk⟩
      exact ⟨e, he, by rw [← hk]; split_ifs <;> rfl⟩
  in_nodup := h.in_nodup
  live_count := by
    have hc := countP_modify (Vycor.addRefs n) (fun e : StoredEdge => decide (0 < e.refs)) h₀.1
    have h1 : 0 < (Vycor.addRefs n e₀).refs := Nat.add_pos_left h₀.2 n
    simp only [h1, h₀.2, decide_true, if_true] at hc
    rw [h.live_count]
    omega
  tag_live {tu idx} hm := by
    refine (h.tag_live hm).imp_right ?_
    rintro ⟨e, he⟩
    exact ⟨_, (liveAt_modify_addRefs h₀).mpr ⟨e, he, rfl⟩⟩

/-- The first registration of an edge. -/
theorem EdgeInv.append (h : EdgeInv t edges edgeIndex outEdges inEdges live tuEdges) {se : StoredEdge}
    (hids : se.toEdge.Below t.size) (hse : 0 < se.refs) (hnew : edgeIndex (keyOf se) = none) :
    EdgeInv t (edges ++ [se]) (Function.update edgeIndex (keyOf se) (some edges.length))
      (pushAt outEdges se.caller edges.length) (pushAt inEdges se.callee edges.length)
      (live + 1) tuEdges := by
  have hlt : ∀ {idx e}, LiveAt edges idx e → idx < edges.length := fun he =>
    (List.getElem?_eq_some_iff.mp he.1).1
  have hne : ∀ {idx e}, LiveAt edges idx e → e.toEdge ≠ se.toEdge := fun he hk => by
    have := h.index_iff.mpr ⟨_, he, hk⟩
    rw [show se.toEdge = keyOf se from rfl, hnew] at this
    cases this
  exact
    { edge_ids := by
        intro idx e he
        rcases Nat.lt_or_ge idx edges.length with hi | hi
        · rw [List.getElem?_append_left hi] at he
          exact h.edge_ids he
        · rw [List.getElem?_append_right hi] at he
          obtain ⟨-, rfl⟩ : idx - edges.length = 0 ∧ se = e := by
            simpa [List.getElem?_singleton] using he
          exact hids
      index_iff := by
        intro k idx
        simp only [liveAt_append hse, Function.update_apply]
        split_ifs with hk
        · subst hk
          constructor
          · intro he
            exact ⟨se, .inr ⟨(Option.some_injective _ he).symm, rfl⟩, rfl⟩
          · rintro ⟨e, he | ⟨rfl, rfl⟩, hke⟩
            exacts [absurd hke (hne he), rfl]
        · rw [h.index_iff]
          constructor
          · rintro ⟨e, he, rfl⟩
            exact ⟨e, .inl he, rfl⟩
          · rintro ⟨e, he | ⟨rfl, rfl⟩, hke⟩
            exacts [⟨e, he, hke⟩, absurd hke.symm hk]
      out_iff := by
        intro c idx
        simp only [mem_pushAt, h.out_iff, liveAt_append hse]
        constructor
        · rintro (⟨e, he, hc⟩ | ⟨rfl, rfl⟩)
          exacts [⟨e, .inl he, hc⟩, ⟨se, .inr ⟨rfl, rfl⟩, rfl⟩]
        · rintro ⟨e, he | ⟨rfl, rfl⟩, hc⟩
          exacts [.inl ⟨e, he, hc⟩, .inr ⟨hc.symm, rfl⟩]
      out_nodup := by
        intro c
        refine nodup_pushAt (h.out_nodup c) fun hm => ?_
        obtain ⟨e, he, -⟩ := h.out_iff.mp hm
        exact (hlt he).false
      in_iff := by
        intro c idx
        simp only [mem_pushAt, h.in_iff, liveAt_append hse]
        constructor
        · rintro (⟨e, he, hc⟩ | ⟨rfl, rfl⟩)
          exacts [⟨e, .inl he, hc⟩, ⟨se, .inr ⟨rfl, rfl⟩, rfl⟩]
        · rintro ⟨e, he | ⟨rfl, rfl⟩, hc⟩
          exacts [.inl ⟨e, he, hc⟩, .inr ⟨hc.symm, rfl⟩]
      in_nodup := by
        intro c
        refine nodup_pushAt (h.in_nodup c) fun hm => ?_
        obtain ⟨e, he, -⟩ := h.in_iff.mp hm
        exact (hlt he).false
      live_count := by simp [h.live_count, hse]
      tag_live := by
        intro tu idx hm
        refine (h.tag_live hm).imp_right ?_
        rintro ⟨e, he⟩
        exact ⟨e, (liveAt_append hse).mpr (.inl he)⟩ }

/-- Attribute a registration of a live edge to a TU. -/
theorem EdgeInv.tag (h : EdgeInv t edges edgeIndex outEdges inEdges live tuEdges) {i : ℕ}
    {e₀ : StoredEdge} (h₀ : LiveAt edges i e₀) {tu : SId} (ht : tu < t.size) :
    EdgeInv t edges edgeIndex outEdges inEdges live (pushAt tuEdges tu i) where
  edge_ids := h.edge_ids
  index_iff := h.index_iff
  out_iff := h.out_iff
  out_nodup := h.out_nodup
  in_iff := h.in_iff
  in_nodup := h.in_nodup
  live_count := h.live_count
  tag_live {tu' idx} hm := by
    rcases mem_pushAt.mp hm with hm | ⟨rfl, rfl⟩
    exacts [h.tag_live hm, ⟨ht, e₀, h₀⟩]

end EdgeInv

@[simp] theorem CallGraphNode.backfill_usr (old node : CallGraphNode) :
    (old.backfill node).usr = old.usr := rfl

@[simp] theorem CallGraphNode.backfill_qualifiedName (old node : CallGraphNode) :
    (old.backfill node).qualifiedName = old.qualifiedName := rfl

namespace CallGraph

variable {g : CallGraph}

theorem Inv.extend (h : g.Inv) {t : StringInterner} (ht : g.interner.Extends t)
    (hn : t.strings.Nodup) (hu : ∀ s ∈ t.strings, Utf8Text s) :
    Inv { g with interner := t } :=
  ⟨h.mutable, hn, hu, h.node.extend ht, h.edge.extend ht, h.rel.extend ht⟩

theorem Inv.intern (h : g.Inv) {s : Bytes} (hs : Utf8Text s) : (g.intern s).1.Inv := by
  refine h.extend (StringInterner.extends_intern _ _)
    (StringInterner.nodup_intern h.strings_nodup _) fun s' hs' => ?_
  rcases StringInterner.mem_intern.mp hs' with hm | rfl
  exacts [h.strings_text s' hm, hs]

theorem Inv.internRaw (h : g.Inv) (s : Bytes) : (g.internRaw s).1.Inv :=
  h.intern (utf8Text_toIndexText s)

theorem Inv.empty : Inv {} where
  mutable := rfl
  strings_nodup := by simp
  strings_text := by simp
  node := by constructor <;> simp
  edge := by constructor <;> simp [LiveAt]
  rel := by constructor <;> simp

/-! ### Nodes -/

theorem Inv.insertNode (h : g.Inv) {nameId displayId : SId} {node : CallGraphNode}
    (hnew : g.nodes nameId = none) (hu : g.interner.find node.usr = some nameId)
    (hd : g.interner.find node.qualifiedName = some displayId)
    (ht : Utf8Text node.file ∧ Utf8Text node.enclosingClass) :
    (g.insertNode nameId displayId node).Inv where
  mutable := h.mutable
  strings_nodup := h.strings_nodup
  strings_text := h.strings_text
  edge := h.edge
  rel := h.rel
  node :=
    { node_key := by
        intro id n hn
        simp only [CallGraph.insertNode, Function.update_apply] at hn
        split_ifs at hn with hid
        · obtain rfl := Option.some_injective _ hn
          exact ⟨hid ▸ hu, displayId, hd⟩
        · exact h.node.node_key hn
      byName_iff := by
        intro d id
        simp only [CallGraph.insertNode, mem_pushNew, h.node.byName_iff, Function.update_apply]
        constructor
        · rintro (⟨n, hn, hf⟩ | ⟨rfl, rfl⟩)
          · refine ⟨n, ?_, hf⟩
            rw [if_neg (fun he => by rw [he, hnew] at hn; cases hn), hn]
          · exact ⟨node, by simp, hd⟩
        · rintro ⟨n, hn, hf⟩
          split_ifs at hn with hid
          · obtain rfl := Option.some_injective _ hn
            rw [hd] at hf
            exact .inr ⟨(Option.some_injective _ hf).symm, hid⟩
          · exact .inl ⟨n, hn, hf⟩
      byName_nodup := fun d => nodup_pushNew (h.node.byName_nodup d)
      tuNodes_iff := h.node.tuNodes_iff
      tuNodes_nodup := h.node.tuNodes_nodup
      contributors_nodup := h.node.contributors_nodup
      contributors_ids := by
        intro id tu hm
        refine (h.node.contributors_ids hm).imp_right fun hs => ?_
        simp only [CallGraph.insertNode, Function.update_apply]
        split_ifs
        exacts [rfl, hs]
      node_text := by
        intro id n hn
        simp only [CallGraph.insertNode, Function.update_apply] at hn
        split_ifs at hn with hid
        · obtain rfl := Option.some_injective _ hn
          exact ht
        · exact h.node.node_text hn }

theorem Inv.backfillNode (h : g.Inv) {nameId : SId} {old : CallGraphNode}
    {node : CallGraphNode} (hold : g.nodes nameId = some old)
    (ht : Utf8Text node.file ∧ Utf8Text node.enclosingClass) :
    (g.backfillNode nameId old node).Inv where
  mutable := h.mutable
  strings_nodup := h.strings_nodup
  strings_text := h.strings_text
  edge := h.edge
  rel := h.rel
  node :=
    { node_key := by
        intro id n hn
        simp only [CallGraph.backfillNode, Function.update_apply] at hn
        split_ifs at hn with hid
        · obtain rfl := Option.some_injective _ hn
          subst hid
          have hkey := h.node.node_key hold
          exact hkey
        · exact h.node.node_key hn
      byName_iff := by
        intro d id
        simp only [CallGraph.backfillNode, h.node.byName_iff, Function.update_apply]
        by_cases hid : id = nameId
        · subst hid
          simp [hold]
        · simp [hid]
      byName_nodup := h.node.byName_nodup
      tuNodes_iff := h.node.tuNodes_iff
      tuNodes_nodup := h.node.tuNodes_nodup
      contributors_nodup := h.node.contributors_nodup
      contributors_ids := by
        intro id tu hm
        refine (h.node.contributors_ids hm).imp_right fun hs => ?_
        simp only [CallGraph.backfillNode, Function.update_apply]
        split_ifs
        exacts [rfl, hs]
      node_text := by
        intro id n hn
        simp only [CallGraph.backfillNode, Function.update_apply] at hn
        split_ifs at hn with hid
        · obtain rfl := Option.some_injective _ hn
          have hold' := h.node.node_text hold
          simp only [CallGraphNode.backfill]
          constructor <;> split_ifs
          exacts [hold'.1, ht.1, hold'.2, ht.2]
        · exact h.node.node_text hn }

theorem Inv.contribute (h : g.Inv) {nameId tuId : SId}
    (hn : (g.nodes nameId).isSome) (ht : tuId < g.interner.size) :
    (g.contribute nameId tuId).Inv := by
  unfold CallGraph.contribute
  split_ifs with hm
  · exact h
  · refine ⟨h.mutable, h.strings_nodup, h.strings_text, ?_, h.edge, h.rel⟩
    exact
      { node_key := h.node.node_key
        byName_iff := h.node.byName_iff
        byName_nodup := h.node.byName_nodup
        tuNodes_iff := by
          intro tu id
          rw [mem_pushAt, mem_insertAt, h.node.tuNodes_iff]
          tauto
        tuNodes_nodup := fun tu =>
          nodup_pushAt (h.node.tuNodes_nodup tu) (fun hc => hm (h.node.tuNodes_iff.mp hc))
        contributors_nodup := fun id => nodup_insertAt (h.node.contributors_nodup id)
        contributors_ids := by
          intro id tu hc
          rcases mem_insertAt.mp hc with hc | ⟨rfl, rfl⟩
          exacts [h.node.contributors_ids hc, ⟨ht, hn⟩]
        node_text := h.node.node_text }

/-! ### Edges -/

theorem Inv.registerEdge (h : g.Inv) {se : StoredEdge}
    (hids : se.toEdge.Below g.interner.size) (hse : 0 < se.refs) : (g.registerEdge se).1.Inv := by
  unfold CallGraph.registerEdge
  split
  next idx hidx =>
    obtain ⟨e, he, -⟩ := h.edge.index_iff.mp hidx
    exact ⟨h.mutable, h.strings_nodup, h.strings_text, h.node, h.edge.addRefs he, h.rel⟩
  next hnew =>
    exact ⟨h.mutable, h.strings_nodup, h.strings_text, h.node, h.edge.append hids hse hnew, h.rel⟩

/-- The position `registerEdge` returns holds the edge. -/
theorem Inv.registerEdge_live (h : g.Inv) {se : StoredEdge} (hse : 0 < se.refs) :
    ∃ e, LiveAt (g.registerEdge se).1.edges (g.registerEdge se).2 e ∧ e.toEdge = se.toEdge := by
  unfold CallGraph.registerEdge
  split
  next idx hidx =>
    obtain ⟨e, he, hk⟩ := h.edge.index_iff.mp hidx
    exact ⟨_, (liveAt_modify_addRefs he).mpr ⟨e, he, rfl⟩, by rw [if_pos rfl]; exact hk⟩
  next hnew => exact ⟨se, (liveAt_append hse).mpr (.inr ⟨rfl, rfl⟩), rfl⟩

@[simp] theorem registerEdge_interner (g : CallGraph) (se : StoredEdge) :
    (g.registerEdge se).1.interner = g.interner := by
  unfold CallGraph.registerEdge
  split <;> rfl

theorem Inv.tagEdge (h : g.Inv) {idx : ℕ} {e : StoredEdge} (he : LiveAt g.edges idx e)
    {tuId : SId} (ht : tuId < g.interner.size) : (g.tagEdge tuId idx).Inv :=
  ⟨h.mutable, h.strings_nodup, h.strings_text, h.node, h.edge.tag he ht, h.rel⟩

/-! ### Relations -/

section Relations

variable {a b : SId}

theorem Inv.relateDerived (h : g.Inv) (ha : a < g.interner.size) (hb : b < g.interner.size) :
    (g.relateDerived a b).Inv := by
  refine ⟨h.mutable, h.strings_nodup, h.strings_text, h.node, h.edge, ?_⟩
  refine { h.rel with derived_ids := ?_, derived_nodup := ?_ }
  · intro a' b' hm
    rcases mem_pushNew.mp hm with hm | ⟨rfl, rfl⟩
    exacts [h.rel.derived_ids hm, ⟨ha, hb⟩]
  · exact fun a' => nodup_pushNew (h.rel.derived_nodup a')

theorem Inv.relateOverride (h : g.Inv) (ha : a < g.interner.size) (hb : b < g.interner.size) :
    (g.relateOverride a b).Inv := by
  refine ⟨h.mutable, h.strings_nodup, h.strings_text, h.node, h.edge, ?_⟩
  refine { h.rel with
    override_ids := ?_, override_nodup := ?_, bases_iff := ?_, bases_nodup := ?_ }
  · intro a' b' hm
    rcases mem_pushNew.mp hm with hm | ⟨rfl, rfl⟩
    exacts [h.rel.override_ids hm, ⟨ha, hb⟩]
  · exact fun a' => nodup_pushNew (h.rel.override_nodup a')
  · intro a' b'
    simp only [CallGraph.relateOverride, mem_pushNew, h.rel.bases_iff]
    tauto
  · exact fun b' => nodup_pushNew (h.rel.bases_nodup b')

theorem Inv.relateImpl (h : g.Inv) (ha : a < g.interner.size) (hb : b < g.interner.size) :
    (g.relateImpl a b).Inv := by
  refine ⟨h.mutable, h.strings_nodup, h.strings_text, h.node, h.edge, ?_⟩
  refine { h.rel with impl_ids := ?_, impl_nodup := ?_ }
  · intro a' b' hm
    rcases mem_insertAt.mp hm with hm | ⟨rfl, rfl⟩
    exacts [h.rel.impl_ids hm, ⟨ha, hb⟩]
  · exact fun a' => nodup_insertAt (h.rel.impl_nodup a')

theorem Inv.relateReturn (h : g.Inv) (ha : a < g.interner.size) (hb : b < g.interner.size) :
    (g.relateReturn a b).Inv := by
  unfold CallGraph.relateReturn
  split_ifs with hnew
  · exact h
  refine ⟨h.mutable, h.strings_nodup, h.strings_text, h.node, h.edge, ?_⟩
  refine { h.rel with
    return_ids := ?_, return_nodup := ?_, returnedBy_iff := ?_, returnedBy_nodup := ?_ }
  · intro a' b' hm
    rcases mem_insertAt.mp hm with hm | ⟨rfl, rfl⟩
    exacts [h.rel.return_ids hm, ⟨ha, hb⟩]
  · exact fun a' => nodup_insertAt (h.rel.return_nodup a')
  · intro a' b'
    rw [mem_pushAt, mem_insertAt, h.rel.returnedBy_iff]
    tauto
  · exact fun b' => nodup_pushAt (h.rel.returnedBy_nodup b')
      fun hm => hnew (h.rel.returnedBy_iff.mp hm)

end Relations

end CallGraph

end Vycor
