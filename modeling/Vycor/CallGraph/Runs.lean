import Vycor.CallGraph.Compact

/-!
# Graphs reachable through the public mutators

The invariant and the account of registrations, carried through every run: each mutator
keeps them by its own lemma, and `BuiltFrom.inv` assembles these by induction on the run.
`RepInv` is the representation invariant in terms of the stored tables alone.
-/

namespace Vycor

/-! ### The account -/

/-- The registrations of an edge in a log that carry no TU. -/
def untaggedIn (log : List Registration) (f : EdgeFact) : ℕ :=
  log.countP fun r => match r with
    | .edge e tu => decide (tu = [] ∧ e.fact = f)
    | _ => false

theorem untaggedIn_append (log log' : List Registration) (f : EdgeFact) :
    untaggedIn (log ++ log') f = untaggedIn log f + untaggedIn log' f :=
  List.countP_append

/-- No removal withdraws a registration without a TU. -/
theorem untaggedIn_filter (log : List Registration) (tuPaths : List Bytes) (f : EdgeFact) :
    untaggedIn (log.filter fun r => !r.removedBy tuPaths) f = untaggedIn log f := by
  unfold untaggedIn
  rw [List.countP_filter]
  refine List.countP_congr fun r _ => ?_
  cases r with
  | edge e tu =>
    simp only [Registration.removedBy, Registration.hasProvenance, Bool.and_eq_true,
      decide_eq_true_eq, Bool.not_eq_true', Bool.and_eq_false_iff, decide_eq_false_iff_not]
    tauto
  | _ => simp

namespace Ledger

variable {L M : Ledger} {u v : EdgeFact → ℕ}

/-- Every registration of an edge either carries a TU or is counted by `untagged`. -/
def Accounts (L : Ledger) (untagged : EdgeFact → ℕ) : Prop :=
  ∀ f, L.refs f = untagged f + (L.regs f).card

theorem Accounts.covered (h : L.Accounts u) : L.Covered := fun f => by
  rw [h f]
  exact Nat.le_add_left _ _

theorem Accounts.register (h : L.Accounts u) (r : Registration) :
    (L.register r).Accounts fun f => u f + untaggedIn [r] f := by
  intro f
  have hf := h f
  cases r with
  | node n tu =>
    simp only [Ledger.register, addNode, contribute, putNode]
    split_ifs <;> simpa [untaggedIn] using hf
  | edge e tu =>
    simp only [Ledger.register, addEdge]
    split_ifs with htu
    · simp only [putEdge, untaggedIn, htu, hf, eq_comm (a := f), List.countP_cons,
        List.countP_nil, true_and, decide_eq_true_eq]
      split_ifs <;> omega
    · simp only [putEdge, tagEdge, untaggedIn, htu, hf, eq_comm (a := f), List.countP_cons,
        List.countP_nil, false_and, decide_false, Bool.false_eq_true, if_false]
      split_ifs <;> simp [add_assoc]
  | derivedClass => simpa [Ledger.register, relateDerived, untaggedIn] using hf
  | methodOverride => simpa [Ledger.register, relateOverride, untaggedIn] using hf
  | effectiveImpl => simpa [Ledger.register, relateImpl, untaggedIn] using hf
  | functionReturn => simpa [Ledger.register, relateReturn, untaggedIn] using hf

theorem Accounts.absorb (h : L.Accounts u) (h' : M.Accounts v) :
    (L.absorb M).Accounts fun f => u f + v f := by
  intro f
  simp only [Ledger.absorb, h f, h' f, Multiset.card_add]
  omega

theorem Accounts.remove (h : L.Accounts u) (S : Set Bytes) : (L.remove S).Accounts u := by
  intro f
  classical
  have hsplit := congrArg Multiset.card (Multiset.filter_add_not (· ∈ S) (L.regs f))
  rw [Multiset.card_add] at hsplit
  change L.refs f - Multiset.card (Multiset.filter (· ∈ S) (L.regs f)) =
    u f + Multiset.card (Multiset.filter (· ∉ S) (L.regs f))
  rw [h f]
  omega

end Ledger

namespace CallGraph

variable {g : CallGraph} {log : List Registration} {P : Registration → Prop}

theorem ledger_empty : ({} : CallGraph).ledger = Ledger.empty := by
  refine Ledger.ext ?_ ?_ ?_ ?_ ?_ ?_ ?_ ?_ <;>
    simp [ledger, Ledger.empty, StringInterner.pairs, StringInterner.find, StringInterner.size,
      refsIn, regsIn, funext_iff]

/-- **Every reachable graph satisfies the invariant, and its registrations add up.** -/
theorem BuiltFrom.inv (h : BuiltFrom P g log) : g.Inv ∧ g.ledger.Accounts (untaggedIn log) := by
  induction h with
  | empty =>
    refine ⟨Inv.empty, fun f => ?_⟩
    rw [ledger_empty]
    rfl
  | register r _ _ ih =>
    obtain ⟨h1, h2⟩ := ih.1.register r
    refine ⟨h1, ?_⟩
    rw [h2]
    intro f
    rw [untaggedIn_append]
    exact ih.2.register r f
  | absorb ord _ _ hord ih ih' =>
    obtain ⟨h1, h2⟩ := ih.1.absorb ih'.1 hord
    refine ⟨h1, ?_⟩
    rw [h2]
    intro f
    rw [untaggedIn_append]
    exact ih.2.absorb ih'.2 f
  | removeTUs tuPaths _ ih =>
    obtain ⟨h1, h2, -⟩ := ih.1.removeTUs ih.2.covered tuPaths
    refine ⟨h1, ?_⟩
    rw [h2]
    intro f
    rw [untaggedIn_filter]
    exact ih.2.remove _ f
  | compact _ ih =>
    obtain ⟨h1, h2⟩ := ih.1.compact
    exact ⟨h1, h2 ▸ ih.2⟩

/-! ### The representation invariant -/

/-- Occurrences of an edge position over all `tuEdges_` lists. -/
def occurrences (g : CallGraph) (idx : ℕ) : ℕ :=
  ∑ tu ∈ Finset.range g.interner.size, (g.tuEdges tu).count idx

/-- The representation invariant of the stored tables. -/
structure RepInv (g : CallGraph) (untagged : EdgeFact → ℕ) : Prop where
  refs_eq : ∀ idx e, LiveAt g.edges idx e →
    e.refs = untagged (e.toEdge.map g.interner.resolve) + g.occurrences idx
  tombstone : ∀ (idx : ℕ) e, g.edges[idx]? = some e → e.refs = 0 → g.occurrences idx = 0
  untagged_live : ∀ f, untagged f ≠ 0 →
    ∃ idx e, LiveAt g.edges idx e ∧ e.toEdge.map g.interner.resolve = f
  edgeIndex_iff : ∀ k idx, g.edgeIndex k = some idx ↔ ∃ e, LiveAt g.edges idx e ∧ keyOf e = k
  outEdges_once : ∀ idx e, LiveAt g.edges idx e → (g.outEdges e.caller).count idx = 1
  outEdges_live : ∀ c, ∀ idx ∈ g.outEdges c, ∃ e, LiveAt g.edges idx e ∧ e.caller = c
  inEdges_once : ∀ idx e, LiveAt g.edges idx e → (g.inEdges e.callee).count idx = 1
  inEdges_live : ∀ c, ∀ idx ∈ g.inEdges c, ∃ e, LiveAt g.edges idx e ∧ e.callee = c
  liveEdgeCount_eq : g.liveEdgeCount = g.edges.countP fun e => decide (0 < e.refs)
  tuEdges_live : ∀ tu, ∀ idx ∈ g.tuEdges tu, tu < g.interner.size ∧ ∃ e, LiveAt g.edges idx e
  byName_iff : ∀ d id, id ∈ g.byName d ↔
    ∃ n, g.nodes id = some n ∧ g.interner.find n.qualifiedName = some d
  byName_nodup : ∀ d, (g.byName d).Nodup
  contributors_inverse : ∀ tu id, id ∈ g.tuNodes tu ↔ tu ∈ g.nodeContributors id
  tuNodes_nodup : ∀ tu, (g.tuNodes tu).Nodup
  nodeContributors_nodup : ∀ id, (g.nodeContributors id).Nodup
  overrides_inverse : ∀ a b, a ∈ g.overrideBases b ↔ b ∈ g.methodOverrides a
  returns_inverse : ∀ a b, a ∈ g.returnedBy b ↔ b ∈ g.functionReturns a

theorem Inv.occurrences_eq (h : g.Inv) {idx : ℕ} {e : StoredEdge} (he : LiveAt g.edges idx e) :
    g.occurrences idx = (g.ledger.regs (e.toEdge.map g.interner.resolve)).card := by
  rw [h.regs_of_live he, Multiset.card_sum]
  simp only [Multiset.card_replicate]
  rfl

theorem Inv.repInv (h : g.Inv) {untagged : EdgeFact → ℕ} (ha : g.ledger.Accounts untagged) :
    g.RepInv untagged where
  refs_eq idx e he := by
    rw [h.occurrences_eq he, ← ha, h.refs_of_live he]
  tombstone idx e he h0 := by
    refine Finset.sum_eq_zero fun tu _ => List.count_eq_zero.mpr fun hm => ?_
    obtain ⟨-, e', he'⟩ := h.edge.tag_live hm
    obtain rfl := Option.some_injective _ (he.symm.trans he'.1)
    exact he'.2.ne' h0
  untagged_live f hf := by
    refine h.refs_pos_iff.mp ?_
    rw [ha f]
    omega
  edgeIndex_iff _ _ := h.edge.index_iff
  outEdges_once idx e he :=
    List.count_eq_one_of_mem (h.edge.out_nodup _) (h.edge.out_iff.mpr ⟨e, he, rfl⟩)
  outEdges_live _ _ := h.edge.out_iff.mp
  inEdges_once idx e he :=
    List.count_eq_one_of_mem (h.edge.in_nodup _) (h.edge.in_iff.mpr ⟨e, he, rfl⟩)
  inEdges_live _ _ := h.edge.in_iff.mp
  liveEdgeCount_eq := h.edge.live_count
  tuEdges_live _ _ := h.edge.tag_live
  byName_iff _ _ := h.node.byName_iff
  byName_nodup := h.node.byName_nodup
  contributors_inverse _ _ := h.node.tuNodes_iff
  tuNodes_nodup := h.node.tuNodes_nodup
  nodeContributors_nodup := h.node.contributors_nodup
  overrides_inverse _ _ := h.rel.bases_iff
  returns_inverse _ _ := h.rel.returnedBy_iff

/-- **The representation invariant holds after every sequence of public mutators.** -/
theorem reachable_repInv (h : Reachable g log) : g.RepInv (untaggedIn log) :=
  h.inv.1.repInv h.inv.2

/-- A run that registers an edge twice, once without a TU, and removes the TU. -/
theorem reachable_repInv_run :
    let e : CallGraphEdge := ⟨[97], [98], .directCall, .Proven, [99], 0, .synchronous, [], []⟩
    let rs : List Registration := [.edge e [116], .edge e []]
    ((({} : CallGraph).registerAll rs).removeTUs [[116]]).1.RepInv
      (untaggedIn (rs.filter fun r => !r.removedBy [[116]])) :=
  reachable_repInv (.removeTUs [[116]] (BuiltFrom.empty.registerAll fun _ _ => trivial))

end CallGraph

end Vycor
