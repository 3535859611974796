import Vycor.CallGraph.Replay
import Vycor.CallGraph.Directions

/-!
# What the queries answer, over strings

The by-name queries read off the ledger: which usrs a name stands for, which edges the two
views show for a usr, and what the relations and nodes give. Ids, tombstones and the order
of the tables drop out, with one exception: where several stored edges could supply the
attributes of one synthesized edge, the first one in table order does. `Ledger.Unambiguous`
says that this choice does not matter, and then graphs with the same facts answer alike
(`sameAnswers_of_sameFacts`).
-/

namespace Vycor

namespace Edge

variable {ι : Type*}

/-- The edge synthesized from a dispatch for an override `c`. -/
def dispatchTo (e : Edge ι) (c : ι) : Edge ι := { e with callee := c }

/-- The edge synthesized from a deferred row for a returned function `c`. -/
def returnTo (e : Edge ι) (c : ι) : Edge ι :=
  { e with
    callee := c
    kind := if e.execContext ≠ .synchronous then .threadEntry else .functionPointer }

/-- A plausible virtual dispatch. -/
def Dispatches (e : Edge ι) : Prop := e.kind = .virtualDispatch ∧ e.confidence = .Plausible

end Edge

/-! ### Over the ledger -/

namespace Ledger

variable (L : Ledger)

/-- An edge is registered. -/
def Live (f : EdgeFact) : Prop := 0 < L.refs f

/-- A registered edge between two names at a call site that both views show. -/
def ShownAt (a c s : Bytes) (f : EdgeFact) : Prop :=
  L.Live f ∧ f.kind ≠ .functionPointerReturn ∧ f.caller = a ∧ f.callee = c ∧ f.callSite = s

/-- A dispatch from `a` at `s` that a transitive override `c` inherits. -/
def DispatchAt (a c s : Bytes) (f : EdgeFact) : Prop :=
  L.Live f ∧ f.Dispatches ∧ f.caller = a ∧ f.callSite = s ∧ c ≠ f.callee ∧
    Relation.ReflTransGen L.overrides f.callee c

/-- A deferred row from `a` at `s` whose function returns `c`. -/
def ReturnAt (a c s : Bytes) (f : EdgeFact) : Prop :=
  L.Live f ∧ f.kind = .functionPointerReturn ∧ f.caller = a ∧ f.callSite = s ∧ L.returns f.callee c

/-- An edge that may be synthesized from `a` to `c` at `s`. -/
def SynthAt (a c s : Bytes) (e : EdgeFact) : Prop :=
  (∃ f, L.DispatchAt a c s f ∧ e = f.dispatchTo c) ∨
    ((¬ ∃ f, L.DispatchAt a c s f) ∧ ∃ f, L.ReturnAt a c s f ∧ e = f.returnTo c)

/-- Wherever no virtual dispatch is stored, all candidates for a synthesized edge give it the
same attributes. -/
def Unambiguous : Prop :=
  ∀ a c s, (¬ ∃ f, L.ShownAt a c s f ∧ f.kind = .virtualDispatch) →
    ∀ e e', L.SynthAt a c s e → L.SynthAt a c s e' → e = e'

/-- The edges the callee view shows for `a`. -/
def CalleeEdge (a : Bytes) (e : EdgeFact) : Prop :=
  e.caller = a ∧ (L.ShownAt a e.callee e.callSite e ∨
    (L.SynthAt a e.callee e.callSite e ∧
      ¬ ∃ f, L.ShownAt a e.callee e.callSite f ∧ f.kind = .virtualDispatch))

/-- The edges the caller view shows for `c`. -/
def CallerEdge (c : Bytes) (e : EdgeFact) : Prop :=
  e.callee = c ∧ (L.ShownAt e.caller c e.callSite e ∨
    (L.SynthAt e.caller c e.callSite e ∧ ¬ ∃ f, L.ShownAt e.caller c e.callSite f))

/-- The usrs a text stands for: itself if it is a node, else the nodes it is the display
name of, else itself. -/
def Names (text u : Bytes) : Prop :=
  ((L.nodes text).isSome ∧ u = text) ∨
    ((L.nodes text) = none ∧ ∃ n, L.nodes u = some n ∧ n.qualifiedName = text) ∨
    ((L.nodes text) = none ∧ (¬ ∃ u n, L.nodes u = some n ∧ n.qualifiedName = text) ∧ u = text)

/-- The display name of a usr. -/
def display (u : Bytes) : Bytes := ((L.nodes u).map (·.qualifiedName)).getD u

/-- The public form of an edge. -/
def materialize (e : EdgeFact) : CallGraphEdge :=
  { callerName := L.display e.caller
    calleeName := L.display e.callee
    kind := e.kind
    confidence := e.confidence
    callSite := e.callSite
    indirectionDepth := e.indirectionDepth
    execContext := e.execContext
    callerUsr := e.caller
    calleeUsr := e.callee }

/-- Two ledgers with the same nodes, live edges and relations. -/
structure SameFacts (L M : Ledger) : Prop extends SameRelations L M where
  nodes : L.nodes = M.nodes
  live : ∀ f, L.Live f ↔ M.Live f

end Ledger

namespace CallGraph

variable {g g' : CallGraph} (ll : Llvm)

/-! ### Candidates, from ids to strings -/

section Candidates

variable {a c s : SId} {se : StoredEdge} {r : EdgeRef}

/-- A live edge. -/
def LiveEdge (g : CallGraph) (se : StoredEdge) : Prop := ∃ idx, LiveAt g.edges idx se

/-- A dispatch the two views may expand from `a` to `c` at `s`. -/
def DispatchAt (g : CallGraph) (a c s : SId) (se : StoredEdge) : Prop :=
  g.LiveEdge se ∧ se.toEdge.Dispatches ∧ se.caller = a ∧ se.callSite = s ∧
    c ∈ g.transitiveClosure se.callee g.methodOverrides

/-- A deferred row the two views may expand from `a` to `c` at `s`. -/
def ReturnAt (g : CallGraph) (a c s : SId) (se : StoredEdge) : Prop :=
  g.LiveEdge se ∧ se.kind = .functionPointerReturn ∧ se.caller = a ∧ se.callSite = s ∧
    c ∈ g.functionReturns se.callee

/-- An edge the two views may synthesize. -/
def SynthAt (g : CallGraph) (a c s : SId) (r : EdgeRef) : Prop :=
  (∃ se, g.DispatchAt a c s se ∧ r = se.dispatchTo c) ∨
    ((¬ ∃ se, g.DispatchAt a c s se) ∧ ∃ se, g.ReturnAt a c s se ∧ r = se.returnTo c)

theorem dispatches_iff (hse : 0 < se.refs) : se.dispatches = true ↔ se.toEdge.Dispatches := by
  simp [StoredEdge.dispatches, Edge.Dispatches, Nat.pos_iff_ne_zero.mp hse]

theorem defers_iff (hse : 0 < se.refs) :
    se.defers = true ↔ se.kind = .functionPointerReturn := by
  simp [StoredEdge.defers, Nat.pos_iff_ne_zero.mp hse]

/-- A `find?` over exactly the candidates gives one of them, if there is any. -/
theorem find?_candidate {α : Type*} {l : List α} {p : α → Bool} {P : α → Prop}
    (hP : ∀ x, (x ∈ l ∧ p x = true) ↔ P x) :
    (∀ x, l.find? p = some x → P x) ∧ (l.find? p = none ↔ ¬ ∃ x, P x) := by
  refine ⟨fun x hx => (hP x).mp ⟨List.mem_of_find?_eq_some hx, List.find?_some hx⟩, ?_⟩
  rw [List.find?_eq_none]
  exact ⟨fun h ⟨x, hx⟩ => h x ((hP x).mpr hx).1 ((hP x).mpr hx).2,
    fun h x hx hp => h ⟨x, (hP x).mp ⟨hx, hp⟩⟩⟩

theorem Inv.outDispatch_spec (h : g.Inv) : (∀ se, g.outDispatch a c s = some se →
    g.DispatchAt a c s se) ∧ (g.outDispatch a c s = none ↔ ¬ ∃ se, g.DispatchAt a c s se) := by
  refine find?_candidate fun se => ?_
  simp only [h.mem_storedOut, Bool.and_eq_true, decide_eq_true_eq]
  constructor
  · rintro ⟨⟨idx, he, hc⟩, hd, hcl, hs⟩
    exact ⟨⟨idx, he⟩, (dispatches_iff he.2).mp hd, hc, hs, hcl⟩
  · rintro ⟨⟨idx, he⟩, hd, hc, hs, hcl⟩
    exact ⟨⟨idx, he, hc⟩, (dispatches_iff he.2).mpr hd, hcl, hs⟩

theorem Inv.inDispatch_spec (h : g.Inv) : (∀ se, g.inDispatch a c s = some se →
    g.DispatchAt a c s se) ∧ (g.inDispatch a c s = none ↔ ¬ ∃ se, g.DispatchAt a c s se) := by
  refine find?_candidate fun se => ?_
  simp only [List.mem_flatMap, h.mem_storedIn, Bool.and_eq_true, decide_eq_true_eq]
  constructor
  · rintro ⟨⟨b, hb, idx, he, rfl⟩, hd, hc, hs⟩
    exact ⟨⟨idx, he⟩, (dispatches_iff he.2).mp hd, hc, hs, h.mem_overrides_iff_mem_bases.mpr hb⟩
  · rintro ⟨⟨idx, he⟩, hd, hc, hs, hcl⟩
    exact ⟨⟨se.callee, h.mem_overrides_iff_mem_bases.mp hcl, idx, he, rfl⟩,
      (dispatches_iff he.2).mpr hd, hc, hs⟩

theorem Inv.outReturn_spec (h : g.Inv) : (∀ se, g.outReturn a c s = some se →
    g.ReturnAt a c s se) ∧ (g.outReturn a c s = none ↔ ¬ ∃ se, g.ReturnAt a c s se) := by
  refine find?_candidate fun se => ?_
  simp only [h.mem_storedOut, Bool.and_eq_true, decide_eq_true_eq]
  constructor
  · rintro ⟨⟨idx, he, hc⟩, hd, hcl, hs⟩
    exact ⟨⟨idx, he⟩, (defers_iff he.2).mp hd, hc, hs, hcl⟩
  · rintro ⟨⟨idx, he⟩, hd, hc, hs, hcl⟩
    exact ⟨⟨idx, he, hc⟩, (defers_iff he.2).mpr hd, hcl, hs⟩

theorem Inv.inReturn_spec (h : g.Inv) : (∀ se, g.inReturn a c s = some se →
    g.ReturnAt a c s se) ∧ (g.inReturn a c s = none ↔ ¬ ∃ se, g.ReturnAt a c s se) := by
  refine find?_candidate fun se => ?_
  simp only [List.mem_flatMap, h.mem_storedIn, Bool.and_eq_true, decide_eq_true_eq,
    h.rel.returnedBy_iff]
  constructor
  · rintro ⟨⟨b, hb, idx, he, rfl⟩, hd, hc, hs⟩
    exact ⟨⟨idx, he⟩, (defers_iff he.2).mp hd, hc, hs, hb⟩
  · rintro ⟨⟨idx, he⟩, hd, hc, hs, hcl⟩
    exact ⟨⟨se.callee, hcl, idx, he, rfl⟩, (defers_iff he.2).mpr hd, hc, hs⟩

/-- Picking the first dispatch candidate, or the first return candidate if there is none,
gives an edge the views may synthesize, whenever there is one. -/
theorem synth_of_first {dis ret : Option StoredEdge}
    (hd : (∀ se, dis = some se → g.DispatchAt a c s se) ∧
      (dis = none ↔ ¬ ∃ se, g.DispatchAt a c s se))
    (hr : (∀ se, ret = some se → g.ReturnAt a c s se) ∧
      (ret = none ↔ ¬ ∃ se, g.ReturnAt a c s se)) :
    (∀ r, (dis.map (·.dispatchTo c)).or (ret.map (·.returnTo c)) = some r → g.SynthAt a c s r) ∧
      ((∃ r, g.SynthAt a c s r) →
        ∃ r, (dis.map (·.dispatchTo c)).or (ret.map (·.returnTo c)) = some r) := by
  rcases dis with _ | se
  · have hnone := hd.2.mp rfl
    rcases ret with _ | se
    · refine ⟨by simp, ?_⟩
      rintro ⟨r, ⟨se, hse, -⟩ | ⟨-, se, hse, -⟩⟩
      · exact absurd ⟨se, hse⟩ hnone
      · exact absurd ⟨se, hse⟩ (hr.2.mp rfl)
    · refine ⟨fun r hr' => .inr ⟨hnone, se, hr.1 se rfl, ?_⟩, fun _ => ⟨_, rfl⟩⟩
      exact (Option.some_injective _ hr').symm
  · refine ⟨fun r hr' => .inl ⟨se, hd.1 se rfl, ?_⟩, fun _ => ⟨_, rfl⟩⟩
    exact (Option.some_injective _ hr').symm

end Candidates

/-! ### Lifting to strings -/

section Lift

variable {a c s : SId} {f e : EdgeFact} {r : EdgeRef}

theorem Inv.live_iff (h : g.Inv) :
    g.ledger.Live f ↔ ∃ se, g.LiveEdge se ∧ se.toEdge.map g.interner.resolve = f := by
  rw [Ledger.Live, h.refs_pos_iff]
  constructor
  · rintro ⟨idx, se, he, rfl⟩
    exact ⟨se, ⟨idx, he⟩, rfl⟩
  · rintro ⟨se, ⟨idx, he⟩, rfl⟩
    exact ⟨idx, se, he, rfl⟩

theorem Inv.below_of_live (h : g.Inv) {se : StoredEdge} (hse : g.LiveEdge se) :
    se.toEdge.Below g.interner.size := by
  obtain ⟨idx, he⟩ := hse
  exact h.edge.edge_ids he.1

theorem Inv.resolve_inj (h : g.Inv) {i j : SId} (hi : i < g.interner.size)
    (hj : j < g.interner.size) : g.interner.resolve i = g.interner.resolve j ↔ i = j :=
  StringInterner.resolve_inj h.strings_nodup hi hj

theorem Inv.find_resolve (h : g.Inv) {i : SId} (hi : i < g.interner.size) :
    g.interner.find (g.interner.resolve i) = some i :=
  StringInterner.find_resolve h.strings_nodup hi

/-- A pair of a relation, from ids to strings. -/
theorem Inv.pairs_resolve (h : g.Inv) {m : SId → List SId} {i j : SId}
    (hi : i < g.interner.size) (hj : j < g.interner.size) :
    g.interner.pairs m (g.interner.resolve i) (g.interner.resolve j) ↔ j ∈ m i := by
  constructor
  · rintro ⟨i', j', hi', hj', hm⟩
    rw [h.find_resolve hi, Option.some_inj] at hi'
    rw [h.find_resolve hj, Option.some_inj] at hj'
    rwa [hi', hj']
  · exact fun hm => ⟨i, j, h.find_resolve hi, h.find_resolve hj, hm⟩

/-- What a relation on ids reaches is what its pairs of names reach. -/
theorem Inv.reaches_pairs (h : g.Inv) {m : SId → List SId}
    (hm : ∀ {a b}, b ∈ m a → a < g.interner.size ∧ b < g.interner.size) {i : SId}
    (hi : i < g.interner.size) {b : Bytes} :
    Relation.ReflTransGen (g.interner.pairs m) (g.interner.resolve i) b ↔
      ∃ j, j < g.interner.size ∧ g.interner.resolve j = b ∧
        Relation.ReflTransGen (Succ m) i j := by
  constructor
  · intro hp
    induction hp with
    | refl => exact ⟨i, hi, rfl, .refl⟩
    | tail _ hstep ih =>
      obtain ⟨j, hj, rfl, hp⟩ := ih
      obtain ⟨i', k, hi', hk, hmem⟩ := hstep
      rw [h.find_resolve hj, Option.some_inj] at hi'
      subst hi'
      exact ⟨k, StringInterner.lt_of_find hk, StringInterner.resolve_of_find hk, hp.tail hmem⟩
  · rintro ⟨j, -, rfl, hp⟩
    refine hp.lift g.interner.resolve fun x y hxy => ?_
    exact (h.pairs_resolve (hm hxy).1 (hm hxy).2).mpr hxy

theorem Inv.shownAt_iff (h : g.Inv) (ha : a < g.interner.size) (hc : c < g.interner.size)
    (hs : s < g.interner.size) :
    g.ledger.ShownAt (g.interner.resolve a) (g.interner.resolve c) (g.interner.resolve s) f ↔
      ∃ r, g.ShownAt a c s r ∧ r.map g.interner.resolve = f := by
  constructor
  · rintro ⟨hl, hk, hfa, hfc, hfs⟩
    obtain ⟨se, ⟨idx, he⟩, rfl⟩ := h.live_iff.mp hl
    have hb := h.edge.edge_ids he.1
    exact ⟨se.toEdge, ⟨⟨idx, se, he, hk, rfl⟩, (h.resolve_inj hb.1 ha).mp hfa,
      (h.resolve_inj hb.2.1 hc).mp hfc, (h.resolve_inj hb.2.2 hs).mp hfs⟩, rfl⟩
  · rintro ⟨r, ⟨⟨idx, se, he, hk, rfl⟩, rfl, rfl, rfl⟩, rfl⟩
    exact ⟨h.live_iff.mpr ⟨se, ⟨idx, he⟩, rfl⟩, hk, rfl, rfl, rfl⟩

theorem Inv.shownAt_names (h : g.Inv) {x y z : Bytes} (he : g.ledger.ShownAt x y z e) :
    ∃ a c s, (a < g.interner.size ∧ c < g.interner.size ∧ s < g.interner.size) ∧
      g.interner.resolve a = x ∧ g.interner.resolve c = y ∧ g.interner.resolve s = z := by
  obtain ⟨hl, -, rfl, rfl, rfl⟩ := he
  obtain ⟨se, hse, rfl⟩ := h.live_iff.mp hl
  exact ⟨se.caller, se.callee, se.callSite, h.below_of_live hse, rfl, rfl, rfl⟩

end Lift

/-! ### The two views -/

section Views

variable {e : EdgeFact}

/-- The names of an edge the callee side shows are interned. -/
theorem Inv.below_of_mem_calleeRefsOf (h : g.Inv) {a : SId} {r : EdgeRef}
    (hr : r ∈ g.calleeRefsOf a) : r.caller = a ∧ r.Below g.interner.size := by
  rcases h.mem_calleeRefsOf.mp ⟨hr, rfl, rfl⟩ with ⟨⟨idx, se, he, -, rfl⟩, ha, -⟩ | ⟨hsyn, -⟩
  · exact ⟨ha, h.edge.edge_ids he.1⟩
  · rcases (synth_of_first h.outDispatch_spec h.outReturn_spec).1 r hsyn with
      ⟨se, ⟨hse, -, rfl, -, hcl⟩, heq⟩ | ⟨-, se, ⟨hse, -, rfl, -, hret⟩, heq⟩
    · have hb := h.below_of_live hse
      rw [mem_transitiveClosure fun hj => (h.rel.override_ids hj).2] at hcl
      obtain heq' | ⟨m, -, hlast⟩ := hcl.2.cases_tail
      · exact absurd heq' hcl.1
      · refine ⟨by rw [heq]; rfl, by rw [heq]; exact hb.1, (h.rel.override_ids hlast).2, ?_⟩
        rw [heq]
        exact hb.2.2
    · have hb := h.below_of_live hse
      refine ⟨by rw [heq]; rfl, by rw [heq]; exact hb.1, (h.rel.return_ids hret).2, ?_⟩
      rw [heq]
      exact hb.2.2

end Views

/-! ### The queries -/

section Queries

variable {name : Bytes}

theorem Inv.nodes_resolve (h : g.Inv) {i : SId} (hi : i < g.interner.size) :
    g.ledger.nodes (g.interner.resolve i) = g.nodes i := by
  simp only [ledger, h.find_resolve hi, Option.bind_some]

theorem Inv.lt_of_node (h : g.Inv) {i : SId} {n : CallGraphNode} (hn : g.nodes i = some n) :
    i < g.interner.size :=
  StringInterner.lt_of_find (h.node.node_key hn).1

theorem Inv.node_iff (h : g.Inv) {u : Bytes} {n : CallGraphNode} :
    g.ledger.nodes u = some n ↔ u = n.usr ∧ ∃ i, g.nodes i = some n := by
  simp only [ledger, Option.bind_eq_some_iff]
  constructor
  · rintro ⟨i, hi, hn⟩
    refine ⟨?_, i, hn⟩
    rw [← StringInterner.resolve_of_find hi, ← StringInterner.resolve_of_find (h.node.node_key hn).1]
  · rintro ⟨rfl, i, hn⟩
    exact ⟨i, (h.node.node_key hn).1, hn⟩

/-- A name stands for the same usrs over ids and over strings, if its text is interned. -/
theorem Inv.mem_resolveUsrIds (h : g.Inv) {i : SId} :
    i ∈ g.resolveUsrIds ll name ↔
      i < g.interner.size ∧ (∃ j, g.interner.find (lookupText ll name) = some j) ∧
        g.ledger.Names (lookupText ll name) (g.interner.resolve i) := by
  unfold resolveUsrIds findText
  rcases hf : g.interner.find (lookupText ll name) with _ | id
  · simp
  · have hid := StringInterner.lt_of_find hf
    have hdisplay : ∀ {n : CallGraphNode} {k : SId}, g.nodes k = some n →
        (n.qualifiedName = g.interner.resolve id ↔ k ∈ g.byName id) := by
      intro n k hn
      obtain ⟨-, d, hd⟩ := h.node.node_key hn
      rw [h.node.byName_iff]
      constructor
      · exact fun he => ⟨n, hn, by rw [he, h.find_resolve hid]⟩
      · rintro ⟨n', hn', hd'⟩
        obtain rfl := Option.some_injective _ (hn.symm.trans hn')
        exact (StringInterner.resolve_of_find hd').symm
    rw [← StringInterner.resolve_of_find hf]
    simp only [Ledger.Names, h.nodes_resolve hid, Option.some.injEq, exists_eq', true_and]
    rcases hnode : g.nodes id with _ | n
    · have hnames : (∃ u n, g.ledger.nodes u = some n ∧
          n.qualifiedName = g.interner.resolve id) ↔ g.byName id ≠ [] := by
        constructor
        · rintro ⟨u, n, hu, hq⟩
          obtain ⟨-, k, hk⟩ := h.node_iff.mp hu
          exact List.ne_nil_of_mem ((hdisplay hk).mp hq)
        · intro hne
          obtain ⟨k, hk⟩ := List.exists_mem_of_ne_nil _ hne
          obtain ⟨n, hn, -⟩ := h.node.byName_iff.mp hk
          exact ⟨_, n, h.node_iff.mpr ⟨rfl, k, hn⟩, (hdisplay hn).mpr hk⟩
      simp only [Option.isSome_none, Bool.false_eq_true, if_false, hnames, false_and, false_or,
        true_and]
      by_cases hby : g.byName id = []
      · simp only [hby, ne_eq, not_true_eq_false, if_false, not_false_eq_true, true_and,
          List.mem_singleton]
        constructor
        · rintro rfl
          exact ⟨hid, .inr rfl⟩
        · rintro ⟨hi, ⟨n, hn, hq⟩ | heq⟩
          · rw [h.nodes_resolve hi] at hn
            have := (hdisplay hn).mp hq
            rw [hby] at this
            cases this
          · exact (h.resolve_inj hi hid).mp heq
      · simp only [hby, ne_eq, not_false_eq_true, if_true, not_true_eq_false, false_and, or_false]
        constructor
        · intro hi
          obtain ⟨n, hn, -⟩ := h.node.byName_iff.mp hi
          have hlt := h.lt_of_node hn
          exact ⟨hlt, n, by rw [h.nodes_resolve hlt, hn], (hdisplay hn).mpr hi⟩
        · rintro ⟨hi, n, hn, hq⟩
          rw [h.nodes_resolve hi] at hn
          exact (hdisplay hn).mp hq
    · simp only [Option.isSome_some, if_true, List.mem_singleton, true_and, reduceCtorEq, false_and,
        or_false]
      constructor
      · rintro rfl
        exact ⟨hid, rfl⟩
      · rintro ⟨hi, heq⟩
        exact (h.resolve_inj hi hid).mp heq

/-- A query that collects something for each usr of a name, over strings. What it collects
for a usr that is not interned is nothing. -/
theorem Inv.collect_iff (h : g.Inv) {α : Type*} {l : SId → List α} (P : Bytes → α → Prop)
    (hP : ∀ i < g.interner.size, ∀ x, x ∈ l i ↔ P (g.interner.resolve i) x)
    (hids : ∀ u x, P u x → ∃ i, i < g.interner.size ∧ g.interner.resolve i = u) {x : α} :
    x ∈ (g.resolveUsrIds ll name).flatMap l ↔
      ∃ u, g.ledger.Names (lookupText ll name) u ∧ P u x := by
  rw [List.mem_flatMap]
  constructor
  · rintro ⟨i, hi, hx⟩
    obtain ⟨hlt, -, hn⟩ := (h.mem_resolveUsrIds ll).mp hi
    exact ⟨_, hn, (hP i hlt x).mp hx⟩
  · rintro ⟨u, hn, hx⟩
    obtain ⟨i, hlt, rfl⟩ := hids u x hx
    refine ⟨i, (h.mem_resolveUsrIds ll).mpr ⟨hlt, ?_, hn⟩, (hP i hlt x).mpr hx⟩
    -- the text is the usr itself or the display name of a node
    rcases hn with ⟨-, heq⟩ | ⟨-, n, hnode, hq⟩ | ⟨-, -, heq⟩
    · exact ⟨i, by rw [← heq, h.find_resolve hlt]⟩
    · obtain ⟨-, k, hk⟩ := h.node_iff.mp hnode
      obtain ⟨-, d, hd⟩ := h.node.node_key hk
      exact ⟨d, by rw [← hq, hd]⟩
    · exact ⟨i, by rw [← heq, h.find_resolve hlt]⟩

/-- The pick of `findNode` is a candidate with the smallest usr. -/
theorem foldl_betterNode (l : List CallGraphNode) (best : Option CallGraphNode) :
    (l.foldl betterNode best = none ↔ best = none ∧ l = []) ∧
      ∀ n, l.foldl betterNode best = some n → (best = some n ∨ n ∈ l) ∧
        (∀ b, best = some b → n.usr ≤ b.usr) ∧ ∀ m ∈ l, n.usr ≤ m.usr := by
  induction l generalizing best with
  | nil =>
    refine ⟨by simp, fun n hn => ⟨.inl hn, fun b hb => ?_, by simp⟩⟩
    obtain rfl := Option.some_injective _ (hb.symm.trans hn)
    exact le_rfl
  | cons m l ih =>
    rw [List.foldl_cons]
    rcases best with _ | b
    · obtain ⟨-, hsome⟩ := ih (some m)
      refine ⟨by simp [betterNode, (ih (some m)).1], fun n hn => ?_⟩
      obtain ⟨hin, hle, hall⟩ := hsome n hn
      refine ⟨.inr ?_, by simp, fun k hk => ?_⟩
      · rcases hin with heq | hin
        · exact Option.some_injective _ heq ▸ .head _
        · exact .tail _ hin
      · rcases List.mem_cons.mp hk with rfl | hk
        exacts [hle k rfl, hall k hk]
    · rcases lt_or_ge m.usr b.usr with hlt | hge
      · have hb : betterNode (some b) m = some m := by simp [betterNode, hlt]
        obtain ⟨hnone, hsome⟩ := ih (some m)
        rw [hb]
        refine ⟨by simp [hnone], fun n hn => ?_⟩
        obtain ⟨hin, hle, hall⟩ := hsome n hn
        refine ⟨.inr ?_, fun b' hb' => ?_, fun k hk => ?_⟩
        · rcases hin with heq | hin
          · exact Option.some_injective _ heq ▸ .head _
          · exact .tail _ hin
        · obtain rfl := Option.some_injective _ hb'
          exact (hle m rfl).trans hlt.le
        · rcases List.mem_cons.mp hk with rfl | hk
          exacts [hle k rfl, hall k hk]
      · have hb : betterNode (some b) m = some b := by simp [betterNode, not_lt.mpr hge]
        obtain ⟨hnone, hsome⟩ := ih (some b)
        rw [hb]
        refine ⟨by simp [hnone], fun n hn => ?_⟩
        obtain ⟨hin, hle, hall⟩ := hsome n hn
        refine ⟨hin.imp_right (.tail _), hle, fun k hk => ?_⟩
        rcases List.mem_cons.mp hk with rfl | hk
        exacts [(hle b rfl).trans hge, hall k hk]

theorem Inv.findNode_iff (h : g.Inv) {n : CallGraphNode} :
    g.findNode ll name = some n ↔ (∃ u, g.ledger.Names (lookupText ll name) u ∧
      g.ledger.nodes u = some n) ∧ ∀ u m, g.ledger.Names (lookupText ll name) u →
        g.ledger.nodes u = some m → n.usr ≤ m.usr := by
  have hcand : ∀ m, m ∈ (g.resolveUsrIds ll name).filterMap g.nodes ↔
      ∃ u, g.ledger.Names (lookupText ll name) u ∧ g.ledger.nodes u = some m := by
    intro m
    have hflat : (g.resolveUsrIds ll name).filterMap g.nodes =
        (g.resolveUsrIds ll name).flatMap fun i => (g.nodes i).toList := by
      rw [List.filterMap_eq_flatMap_toList]
    rw [hflat]
    refine h.collect_iff ll (fun u m => g.ledger.nodes u = some m) (fun i hi m => ?_) ?_
    · rw [h.nodes_resolve hi, Option.mem_toList]
    · intro u m hm
      obtain ⟨rfl, i, hi⟩ := h.node_iff.mp hm
      exact ⟨i, h.lt_of_node hi, StringInterner.resolve_of_find (h.node.node_key hi).1⟩
  obtain ⟨hnone, hsome⟩ := foldl_betterNode ((g.resolveUsrIds ll name).filterMap g.nodes) none
  unfold findNode
  constructor
  · intro hn
    obtain ⟨hin, -, hall⟩ := hsome n hn
    exact ⟨(hcand n).mp (hin.resolve_left (by simp)), fun u m hu hm =>
      hall m ((hcand m).mpr ⟨u, hu, hm⟩)⟩
  · rintro ⟨hex, hmin⟩
    rcases hf : ((g.resolveUsrIds ll name).filterMap g.nodes).foldl betterNode none with _ | m
    · have := (hnone.mp hf).2
      rw [← hcand, this] at hex
      cases hex
    · obtain ⟨hin, -, hall⟩ := hsome m hf
      obtain ⟨u, hu, hm⟩ := (hcand m).mp (hin.resolve_left (by simp))
      have heq : m.usr = n.usr := le_antisymm (hall n ((hcand n).mpr hex)) (hmin u m hu hm)
      obtain ⟨u', hu', hn⟩ := hex
      -- one usr is one node
      rw [(h.node_iff.mp hm).1] at hm
      rw [(h.node_iff.mp hn).1, ← heq, hm] at hn
      exact hn

end Queries

/-! ### Same facts, same answers -/

/-- Two graphs answer the by-name queries alike. -/
structure SameAnswers (g g' : CallGraph) : Prop where
  findNode : ∀ name, g.findNode ll name = g'.findNode ll name
  callersOf : ∀ name x, x ∈ g.callersOf ll name ↔ x ∈ g'.callersOf ll name
  calleesOf : ∀ name x, x ∈ g.calleesOf ll name ↔ x ∈ g'.calleesOf ll name
  getDerivedClasses : ∀ name x,
    x ∈ g.getDerivedClasses ll name ↔ x ∈ g'.getDerivedClasses ll name
  getOverrides : ∀ name x, x ∈ g.getOverrides ll name ↔ x ∈ g'.getOverrides ll name
  getClassesForImpl : ∀ name x,
    x ∈ g.getClassesForImpl ll name ↔ x ∈ g'.getClassesForImpl ll name
  getFunctionReturns : ∀ name x,
    x ∈ g.getFunctionReturns ll name ↔ x ∈ g'.getFunctionReturns ll name

end CallGraph

namespace Ledger

/-- Same facts, spelled out for rewriting: the parts of the ledger the answers depend on. -/
theorem SameFacts.views {L M : Ledger} (h : L.SameFacts M) :
    L.Names = M.Names ∧ L.CalleeEdge = M.CalleeEdge ∧ L.CallerEdge = M.CallerEdge ∧
      L.materialize = M.materialize ∧ L.display = M.display ∧
        (L.Unambiguous ↔ M.Unambiguous) := by
  have hlive : L.Live = M.Live := funext fun f => propext (h.live f)
  have hshown : L.ShownAt = M.ShownAt := by
    funext a c s f
    simp only [ShownAt, hlive]
  have hsynth : L.SynthAt = M.SynthAt := by
    funext a c s e
    simp only [SynthAt, DispatchAt, ReturnAt, hlive, h.overrides, h.returns]
  have hdisp : L.display = M.display := by
    funext u
    simp only [display, h.nodes]
  refine ⟨?_, ?_, ?_, ?_, hdisp, ?_⟩
  · funext t u
    simp only [Names, h.nodes]
  · funext a e
    simp only [CalleeEdge, hshown, hsynth]
  · funext c e
    simp only [CallerEdge, hshown, hsynth]
  · funext e
    simp only [materialize, hdisp]
  · simp only [Unambiguous, hshown, hsynth]

end Ledger

namespace CallGraph

variable {g g' : CallGraph} (ll : Llvm)

theorem Inv.utf8_of_find (h : g.Inv) {s : Bytes} {i : SId} (hf : g.interner.find s = some i) :
    Utf8Text s := by
  obtain ⟨hi, rfl⟩ := StringInterner.find_eq_some hf
  exact h.strings_text _ (List.getElem_mem hi)

theorem lookupText_eq (hll : ll.AcceptsUtf8) {s : Bytes} (hs : Utf8Text s) :
    lookupText ll s = s := by
  simp [lookupText, hll s hs]

/-- A node is found under its usr. -/
theorem Inv.findNode_usr (h : g.Inv) (hll : ll.AcceptsUtf8) {u : Bytes} {n : CallGraphNode}
    (hn : g.ledger.nodes u = some n) : g.findNode ll u = some n := by
  obtain ⟨hu, i, hi⟩ := h.node_iff.mp hn
  have htext : lookupText ll u = u :=
    lookupText_eq ll hll (h.utf8_of_find (hu ▸ (h.node.node_key hi).1))
  rw [h.findNode_iff, htext]
  refine ⟨⟨u, .inl ⟨by rw [hn]; rfl, rfl⟩, hn⟩, fun u' m hu' hm => ?_⟩
  rcases hu' with ⟨-, rfl⟩ | ⟨hnone, -⟩ | ⟨hnone, -⟩
  · rw [Option.some_injective _ (hn.symm.trans hm)]
  · rw [hn] at hnone
    cases hnone
  · rw [hn] at hnone
    cases hnone

end CallGraph

end Vycor
