import Vycor.CallGraph.Runs

/-!
# Absorbing and replaying

Merging a registration commutes with `absorb` (`Ledger.absorb_register`), because
`backfill` is associative and everything else is a sum or a union. Hence absorbing a graph
whose ledger is that of a log is the same as replaying the log (`Ledger.absorb_registerAll`).
A graph built from registrations that all carry a TU has the ledger of its live log, up to
node attributes that a removed TU left behind (`BuiltFrom.agree`): together they give
`absorb_agree_replay`.
-/

namespace Vycor

/-! ### Absorbing a log -/

theorem CallGraphNode.backfill_assoc (a b c : CallGraphNode) :
    a.backfill (b.backfill c) = (a.backfill b).backfill c := by
  simp only [CallGraphNode.backfill, Bool.or_assoc, CallGraphNode.mk.injEq, true_and, and_true]
  refine ⟨?_, ?_, ?_⟩
  · by_cases hc : c.file = [] <;> simp [hc]
  · by_cases hc : c.line = 0 <;> simp [hc]
  · by_cases hc : c.enclosingClass = [] <;> simp [hc]

theorem mergeNode_assoc (a : Option CallGraphNode) (b : CallGraphNode) (c : CallGraphNode) :
    mergeNode (some (mergeNode a b)) c = mergeNode a (b.backfill c) := by
  cases a with
  | none => rfl
  | some a => exact (CallGraphNode.backfill_assoc a b c).symm

/-- Every registration of a node uses the display name `disp` gives its usr. -/
def Registration.DisplayedBy (disp : Bytes → Bytes) : Registration → Prop
  | .node n _ => n.stored.qualifiedName = disp n.stored.usr
  | _ => True

namespace Ledger

variable {L M : Ledger}

theorem absorb_empty (L : Ledger) : L.absorb empty = L := by
  refine Ledger.ext rfl ?_ rfl ?_ ?_ ?_ ?_ ?_ <;> simp [absorb, empty]

theorem absorb_putNode (L M : Ledger) (n : CallGraphNode) :
    L.absorb (M.putNode n) = (L.absorb M).putNode n := by
  refine Ledger.ext (funext fun u => ?_) rfl rfl rfl rfl rfl rfl rfl
  simp only [absorb, putNode, Function.update_apply]
  by_cases hu : u = n.usr
  · subst hu
    rcases hM : M.nodes n.usr with _ | m
    · simp [mergeNode]
    · simpa [mergeNode] using (mergeNode_assoc (L.nodes n.usr) m n).symm
  · simp [hu]

theorem absorb_contribute (L M : Ledger) (u tuPath : Bytes) :
    L.absorb (M.contribute u tuPath) = (L.absorb M).contribute u tuPath := by
  unfold contribute
  split_ifs with htu
  · rfl
  · refine Ledger.ext rfl (funext fun u' => funext fun tu => propext ?_) rfl rfl rfl rfl rfl rfl
    exact or_assoc.symm

theorem absorb_addEdge (L M : Ledger) (e : CallGraphEdge) (tuPath : Bytes) :
    L.absorb (M.addEdge e tuPath) = (L.absorb M).addEdge e tuPath := by
  unfold addEdge
  split_ifs with htu
  · refine Ledger.ext rfl rfl (funext fun f => ?_) rfl rfl rfl rfl rfl
    exact (Nat.add_assoc _ _ _).symm
  · refine Ledger.ext rfl rfl (funext fun f => ?_) (funext fun f => ?_) rfl rfl rfl rfl
    · exact (Nat.add_assoc _ _ _).symm
    · exact (add_assoc _ _ _).symm

/-- A registration may be made before or after the ledger is absorbed. -/
theorem absorb_register (L M : Ledger) (r : Registration) :
    L.absorb (M.register r) = (L.absorb M).register r := by
  cases r with
  | node n tu =>
    simp only [register, addNode, absorb_contribute, absorb_putNode]
  | edge e tu => exact absorb_addEdge L M e tu
  | derivedClass b d tu =>
    refine Ledger.ext rfl rfl rfl rfl ?_ rfl rfl rfl
    exact funext fun a => funext fun b => propext or_assoc.symm
  | methodOverride b o tu =>
    refine Ledger.ext rfl rfl rfl rfl rfl ?_ rfl rfl
    exact funext fun a => funext fun b => propext or_assoc.symm
  | effectiveImpl c m tu =>
    refine Ledger.ext rfl rfl rfl rfl rfl rfl ?_ rfl
    exact funext fun a => funext fun b => propext or_assoc.symm
  | functionReturn f r tu =>
    refine Ledger.ext rfl rfl rfl rfl rfl rfl rfl ?_
    exact funext fun a => funext fun b => propext or_assoc.symm

/-- **Absorbing the ledger of a log is replaying the log.** -/
theorem absorb_registerAll (L : Ledger) (log : List Registration) :
    L.absorb (empty.registerAll log) = L.registerAll log := by
  induction log using List.reverseRecOn with
  | nil => exact absorb_empty L
  | append_singleton log r ih =>
    simp only [registerAll, List.foldl_append, List.foldl_cons, List.foldl_nil] at ih ⊢
    rw [absorb_register, ih]

/-! ### Agreement up to node attributes -/

/-- Two ledgers with the same nodes under the same display names, the same contributors,
registrations and relations. Files, lines, flags and classes of the nodes may differ. -/
structure Agree (L M : Ledger) : Prop where
  nodes : ∀ u, (L.nodes u).map (·.qualifiedName) = (M.nodes u).map (·.qualifiedName)
  contributors : L.contributors = M.contributors
  refs : L.refs = M.refs
  regs : L.regs = M.regs
  derived : L.derived = M.derived
  overrides : L.overrides = M.overrides
  impls : L.impls = M.impls
  returns : L.returns = M.returns

theorem Agree.refl (L : Ledger) : L.Agree L := ⟨fun _ => rfl, rfl, rfl, rfl, rfl, rfl, rfl, rfl⟩

theorem Agree.trans {N : Ledger} (h : L.Agree M) (h' : M.Agree N) : L.Agree N :=
  ⟨fun u => (h.nodes u).trans (h'.nodes u), h.contributors.trans h'.contributors,
    h.refs.trans h'.refs, h.regs.trans h'.regs, h.derived.trans h'.derived,
    h.overrides.trans h'.overrides, h.impls.trans h'.impls, h.returns.trans h'.returns⟩

theorem display_mergeNode (a : Option CallGraphNode) (n : CallGraphNode) :
    (mergeNode a n).qualifiedName = (a.map (·.qualifiedName)).getD n.qualifiedName := by
  cases a <;> rfl

theorem Agree.putNode (h : L.Agree M) (n : CallGraphNode) : (L.putNode n).Agree (M.putNode n) := by
  refine { h with nodes := fun u => ?_ }
  simp only [Ledger.putNode, Function.update_apply]
  split_ifs
  · simp only [Option.map_some, display_mergeNode, h.nodes]
  · exact h.nodes u

theorem Agree.contribute (h : L.Agree M) (u tuPath : Bytes) :
    (L.contribute u tuPath).Agree (M.contribute u tuPath) := by
  unfold Ledger.contribute
  split_ifs
  · exact h
  · exact { h with contributors := by simp only [h.contributors] }

theorem Agree.register (h : L.Agree M) (r : Registration) :
    (L.register r).Agree (M.register r) := by
  cases r with
  | node n tu => exact (h.putNode _).contribute _ _
  | edge e tu =>
    simp only [Ledger.register, addEdge]
    split_ifs
    · exact { h with refs := by simp only [putEdge, h.refs] }
    · exact { h with
        refs := by simp only [putEdge, tagEdge, h.refs]
        regs := by simp only [putEdge, tagEdge, h.regs] }
  | derivedClass b d tu =>
    exact { h with derived := by simp only [Ledger.register, relateDerived, h.derived] }
  | methodOverride b o tu =>
    exact { h with overrides := by simp only [Ledger.register, relateOverride, h.overrides] }
  | effectiveImpl c m tu =>
    exact { h with impls := by simp only [Ledger.register, relateImpl, h.impls] }
  | functionReturn f r tu =>
    exact { h with returns := by simp only [Ledger.register, relateReturn, h.returns] }

theorem Agree.absorb {L' M' : Ledger} (h : L.Agree M) (h' : L'.Agree M') :
    (L.absorb L').Agree (M.absorb M') := by
  refine ⟨fun u => ?_, ?_, ?_, ?_, ?_, ?_, ?_, ?_⟩
  · have hu := h'.nodes u
    simp only [Ledger.absorb]
    rcases hL : L'.nodes u with _ | n <;> rcases hM : M'.nodes u with _ | m <;>
      rw [hL, hM] at hu
    · exact h.nodes u
    · cases hu
    · cases hu
    · simp only [Option.map_some, Option.some.injEq] at hu
      simp only [Option.map_some, display_mergeNode, h.nodes, hu]
  all_goals simp only [Ledger.absorb, h.contributors, h'.contributors, h.refs, h'.refs, h.regs,
    h'.regs, h.derived, h'.derived, h.overrides, h'.overrides, h.impls, h'.impls, h.returns,
    h'.returns]

theorem Agree.remove (h : L.Agree M) (S : Set Bytes) : (L.remove S).Agree (M.remove S) := by
  refine ⟨fun u => ?_, ?_, ?_, ?_, h.derived, h.overrides, h.impls, h.returns⟩
  · have hd : L.Dropped S u ↔ M.Dropped S u := by rw [Dropped, Dropped, h.contributors]
    by_cases hM : M.Dropped S u
    · simp [Ledger.remove, hM, hd]
    · simpa [Ledger.remove, hM, hd] using h.nodes u
  all_goals simp only [Ledger.remove, h.contributors, h.refs, h.regs]

theorem Agree.removedCount (h : L.Agree M) (S : Set Bytes) :
    L.removedCount S = M.removedCount S := by
  simp only [Ledger.removedCount, h.refs, (h.remove S).refs]

/-! ### The ledger of a log with provenance -/

/-- The TUs that registered an edge, in log order. -/
def edgeTus (log : List Registration) (f : EdgeFact) : List Bytes :=
  log.filterMap fun r => match r with
    | .edge e tu => if e.fact = f then some (toIndexText tu) else none
    | _ => none

/-- A TU registered a node. -/
def NodeIn (log : List Registration) (u tu : Bytes) : Prop :=
  ∃ n p, Registration.node n p ∈ log ∧ n.stored.usr = u ∧ toIndexText p = tu

section Tagged

variable {log : List Registration}

theorem regs_registerAll (hlog : ∀ r ∈ log, r.tuPath ≠ []) (f : EdgeFact) :
    (empty.registerAll log).regs f = ↑(edgeTus log f) := by
  induction log using List.reverseRecOn with
  | nil => rfl
  | append_singleton log r ih =>
    have hr := hlog r (by simp)
    have ih := ih fun r' hr' => hlog r' (by simp [hr'])
    simp only [registerAll, List.foldl_append, List.foldl_cons, List.foldl_nil] at ih ⊢
    rw [edgeTus, List.filterMap_append, ← Multiset.coe_add, ← edgeTus, ← ih]
    cases r with
    | edge e tu =>
      have htu : tu ≠ [] := hr
      simp only [register, addEdge, htu, if_false, tagEdge, putEdge, List.filterMap_cons,
        List.filterMap_nil, eq_comm (a := f)]
      split_ifs <;> rfl
    | node n tu =>
      simp only [register, addNode, contribute, putNode]
      split_ifs <;> exact (add_zero _).symm
    | derivedClass => exact (add_zero _).symm
    | methodOverride => exact (add_zero _).symm
    | effectiveImpl => exact (add_zero _).symm
    | functionReturn => exact (add_zero _).symm

theorem refs_registerAll (hlog : ∀ r ∈ log, r.tuPath ≠ []) (f : EdgeFact) :
    (empty.registerAll log).refs f = (edgeTus log f).length := by
  have hacc : (empty.registerAll log).Accounts (untaggedIn log) := by
    have h := CallGraph.BuiltFrom.empty.registerAll
      (show ∀ r ∈ log, (fun _ => True) r from fun _ _ => trivial)
    have := h.inv.2
    rwa [(CallGraph.Inv.empty.registerAll log).2, CallGraph.ledger_empty] at this
  have hu : untaggedIn log f = 0 := by
    refine List.countP_eq_zero.mpr fun r hr => ?_
    cases r with
    | edge e tu =>
      have htu : tu ≠ [] := hlog _ hr
      simp [htu]
    | _ => simp
  rw [hacc f, hu, regs_registerAll hlog, Nat.zero_add, Multiset.coe_card]

theorem contributors_registerAll (hlog : ∀ r ∈ log, r.tuPath ≠ []) :
    (empty.registerAll log).contributors = NodeIn log := by
  induction log using List.reverseRecOn with
  | nil =>
    funext u tu
    simp [registerAll, empty, NodeIn]
  | append_singleton log r ih =>
    have hr := hlog r (by simp)
    have ih := ih fun r' hr' => hlog r' (by simp [hr'])
    simp only [registerAll, List.foldl_append, List.foldl_cons, List.foldl_nil] at ih ⊢
    funext u tu
    rw [NodeIn]
    simp only [List.mem_append, List.mem_singleton]
    cases r with
    | node n p =>
      have hp : p ≠ [] := hr
      simp only [register, addNode, contribute, hp, if_false, putNode, relAdd, ih, NodeIn,
        Registration.node.injEq]
      refine propext ⟨?_, ?_⟩
      · rintro (⟨n', p', hm, hu, ht⟩ | ⟨rfl, rfl⟩)
        exacts [⟨n', p', .inl hm, hu, ht⟩, ⟨n, p, .inr ⟨rfl, rfl⟩, rfl, rfl⟩]
      · rintro ⟨n', p', hm | ⟨rfl, rfl⟩, hu, ht⟩
        exacts [.inl ⟨n', p', hm, hu, ht⟩, .inr ⟨hu.symm, ht.symm⟩]
    | edge e p =>
      simp only [register, addEdge]
      split_ifs <;> simp [putEdge, tagEdge, ih, NodeIn]
    | derivedClass => simp [register, relateDerived, ih, NodeIn]
    | methodOverride => simp [register, relateOverride, ih, NodeIn]
    | effectiveImpl => simp [register, relateImpl, ih, NodeIn]
    | functionReturn => simp [register, relateReturn, ih, NodeIn]

open Classical in
theorem nodes_registerAll {disp : Bytes → Bytes} (hlog : ∀ r ∈ log, r.DisplayedBy disp)
    (u : Bytes) : ((empty.registerAll log).nodes u).map (·.qualifiedName) =
      if ∃ tu, NodeIn log u tu then some (disp u) else none := by
  induction log using List.reverseRecOn with
  | nil => simp [registerAll, empty, NodeIn]
  | append_singleton log r ih =>
    have hr := hlog r (by simp)
    have ih := ih fun r' hr' => hlog r' (by simp [hr'])
    simp only [registerAll, List.foldl_append, List.foldl_cons, List.foldl_nil] at ih ⊢
    have hother : (∀ n p, r ≠ .node n p) →
        ((∃ tu, NodeIn (log ++ [r]) u tu) ↔ ∃ tu, NodeIn log u tu) := fun hne => by
      refine exists_congr fun tu => exists_congr fun n => exists_congr fun p => ?_
      simp [(hne n p).symm]
    cases r with
    | node n p =>
      have hn : n.stored.qualifiedName = disp n.stored.usr := hr
      have hnodes : ∀ L : Ledger, ((L.register (.node n p)).nodes u) =
          (L.putNode n.stored).nodes u := fun L => by
        simp only [register, addNode, contribute]
        split_ifs <;> rfl
      rw [hnodes]
      simp only [putNode, Function.update_apply]
      by_cases hu : u = n.stored.usr
      · have hin : ∃ tu, NodeIn (log ++ [.node n p]) u tu :=
          ⟨_, n, p, by simp, hu.symm, rfl⟩
        rw [if_pos hu, if_pos hin, Option.map_some, display_mergeNode, ← hu, ih, hn, hu]
        split_ifs <;> rfl
      · have hin : (∃ tu, NodeIn (log ++ [.node n p]) u tu) ↔ ∃ tu, NodeIn log u tu := by
          refine exists_congr fun tu => ⟨?_, ?_⟩
          · rintro ⟨n', p', hm, hu', ht⟩
            rcases List.mem_append.mp hm with hm | hm
            · exact ⟨n', p', hm, hu', ht⟩
            · obtain ⟨rfl, rfl⟩ : n' = n ∧ p' = p := by simpa using hm
              exact absurd hu'.symm hu
          · rintro ⟨n', p', hm, hu', ht⟩
            exact ⟨n', p', List.mem_append_left _ hm, hu', ht⟩
        rw [if_neg hu, if_congr hin rfl rfl]
        exact ih
    | edge e p =>
      rw [if_congr (hother (by simp)) rfl rfl, ← ih]
      simp only [register, addEdge]
      split_ifs <;> rfl
    | derivedClass => rw [if_congr (hother (by simp)) rfl rfl, ← ih]; rfl
    | methodOverride => rw [if_congr (hother (by simp)) rfl rfl, ← ih]; rfl
    | effectiveImpl => rw [if_congr (hother (by simp)) rfl rfl, ← ih]; rfl
    | functionReturn => rw [if_congr (hother (by simp)) rfl rfl, ← ih]; rfl

/-- The four relations only. -/
structure SameRelations (L M : Ledger) : Prop where
  derived : L.derived = M.derived
  overrides : L.overrides = M.overrides
  impls : L.impls = M.impls
  returns : L.returns = M.returns

/-- Registrations of nodes and edges do not touch the relations. -/
theorem sameRelations_register (h : L.SameRelations M) {r : Registration}
    (hr : r.hasProvenance = true) : (L.register r).SameRelations M := by
  cases r with
  | node n tu =>
    simp only [register, addNode, contribute]
    split_ifs <;> exact ⟨h.derived, h.overrides, h.impls, h.returns⟩
  | edge e tu =>
    simp only [register, addEdge]
    split_ifs <;> exact ⟨h.derived, h.overrides, h.impls, h.returns⟩
  | _ => cases hr

theorem SameRelations.register (h : L.SameRelations M) (r : Registration) :
    (L.register r).SameRelations (M.register r) := by
  cases r with
  | node n tu =>
    simp only [Ledger.register, addNode, contribute]
    split_ifs <;> exact ⟨h.derived, h.overrides, h.impls, h.returns⟩
  | edge e tu =>
    simp only [Ledger.register, addEdge]
    split_ifs <;> exact ⟨h.derived, h.overrides, h.impls, h.returns⟩
  | derivedClass b d tu =>
    exact { h with derived := by simp only [Ledger.register, relateDerived, h.derived] }
  | methodOverride b o tu =>
    exact { h with overrides := by simp only [Ledger.register, relateOverride, h.overrides] }
  | effectiveImpl c m tu =>
    exact { h with impls := by simp only [Ledger.register, relateImpl, h.impls] }
  | functionReturn f r tu =>
    exact { h with returns := by simp only [Ledger.register, relateReturn, h.returns] }

/-- A removal withdraws no pair of a relation. -/
theorem sameRelations_filter (L : Ledger) (log : List Registration) (tuPaths : List Bytes) :
    (L.registerAll log).SameRelations
      (L.registerAll (log.filter fun r => !r.removedBy tuPaths)) := by
  induction log using List.reverseRecOn with
  | nil => exact ⟨rfl, rfl, rfl, rfl⟩
  | append_singleton log r ih =>
    simp only [registerAll, List.foldl_append, List.filter_append, List.foldl_cons,
      List.foldl_nil] at ih ⊢
    by_cases hr : r.removedBy tuPaths = true
    · have hnil : [r].filter (fun r => !r.removedBy tuPaths) = [] := by simp [hr]
      rw [hnil]
      refine sameRelations_register ih ?_
      rw [Registration.removedBy, Bool.and_eq_true] at hr
      exact hr.1
    · have hone : [r].filter (fun r => !r.removedBy tuPaths) = [r] := by simp [hr]
      rw [hone]
      exact ih.register r

theorem mem_tuSet {tuPaths : List Bytes} {p : Bytes} :
    toIndexText p ∈ tuSet tuPaths ↔ p ∈ tuPaths := by
  constructor
  · rintro ⟨p', hp', he⟩
    rwa [← toIndexText_injective he]
  · exact fun hp => ⟨p, hp, rfl⟩

theorem removedBy_iff {r : Registration} (htu : r.tuPath ≠ []) (tuPaths : List Bytes)
    (hr : (∃ n p, r = .node n p) ∨ ∃ e p, r = .edge e p) :
    r.removedBy tuPaths = true ↔ r.tuPath ∈ tuPaths := by
  rcases hr with ⟨n, p, rfl⟩ | ⟨e, p, rfl⟩
  all_goals
    have hp : p ≠ [] := htu
    simp only [Registration.removedBy, Registration.hasProvenance, Registration.tuPath, hp, ne_eq,
      not_false_eq_true, decide_true, Bool.true_and]
    exact decide_eq_true_iff

open Classical in
theorem edgeTus_filter (hlog : ∀ r ∈ log, r.tuPath ≠ []) (tuPaths : List Bytes) (f : EdgeFact) :
    edgeTus (log.filter fun r => !r.removedBy tuPaths) f =
      (edgeTus log f).filter fun tu => tu ∉ tuSet tuPaths := by
  induction log with
  | nil => rfl
  | cons r rest ih =>
    have hr := hlog r List.mem_cons_self
    have ih := ih fun r' hr' => hlog r' (List.mem_cons_of_mem _ hr')
    unfold edgeTus at ih ⊢
    cases r with
    | edge e p =>
      have hrem := removedBy_iff hr tuPaths (.inr ⟨e, p, rfl⟩)
      by_cases hp : p ∈ tuPaths
      · have hkeep : (Registration.edge e p).removedBy tuPaths = true := hrem.mpr hp
        rw [List.filter_cons_of_neg (by simp [hkeep]), ih, List.filterMap_cons]
        by_cases hf : e.fact = f
        · simp only [hf, if_true]
          rw [List.filter_cons_of_neg (by simp [mem_tuSet, hp])]
        · simp only [hf, if_false]
      · have hkeep : (Registration.edge e p).removedBy tuPaths = false := by
          rw [← Bool.not_eq_true, hrem]
          exact hp
        rw [List.filter_cons_of_pos (by simp [hkeep]), List.filterMap_cons, List.filterMap_cons, ih]
        by_cases hf : e.fact = f
        · simp only [hf, if_true]
          rw [List.filter_cons_of_pos (by simp [mem_tuSet, hp])]
        · simp only [hf, if_false]
    | node n p =>
      rw [List.filter_cons, List.filterMap_cons]
      split_ifs
      · rw [List.filterMap_cons, ih]
      · rw [ih]
    | derivedClass b d p => simpa [Registration.removedBy, Registration.hasProvenance] using ih
    | methodOverride b o p => simpa [Registration.removedBy, Registration.hasProvenance] using ih
    | effectiveImpl c m p => simpa [Registration.removedBy, Registration.hasProvenance] using ih
    | functionReturn g r p => simpa [Registration.removedBy, Registration.hasProvenance] using ih

theorem nodeIn_filter (hlog : ∀ r ∈ log, r.tuPath ≠ []) (tuPaths : List Bytes) {u tu : Bytes} :
    NodeIn (log.filter fun r => !r.removedBy tuPaths) u tu ↔
      NodeIn log u tu ∧ tu ∉ tuSet tuPaths := by
  constructor
  · rintro ⟨n, p, hm, hu, rfl⟩
    obtain ⟨hm, hr⟩ := List.mem_filter.mp hm
    refine ⟨⟨n, p, hm, hu, rfl⟩, fun hp => ?_⟩
    rw [(removedBy_iff (hlog _ hm) tuPaths (.inl ⟨n, p, rfl⟩)).mpr (mem_tuSet.mp hp)] at hr
    cases hr
  · rintro ⟨⟨n, p, hm, hu, rfl⟩, hp⟩
    refine ⟨n, p, List.mem_filter.mpr ⟨hm, ?_⟩, hu, rfl⟩
    rw [Bool.not_eq_true', ← Bool.not_eq_true,
      removedBy_iff (hlog _ hm) tuPaths (.inl ⟨n, p, rfl⟩)]
    exact fun hm => hp (mem_tuSet.mpr hm)

theorem refs_remove_registerAll (hlog : ∀ r ∈ log, r.tuPath ≠ []) (tuPaths : List Bytes)
    (f : EdgeFact) : ((empty.registerAll log).remove (tuSet tuPaths)).refs f =
      (edgeTus (log.filter fun r => !r.removedBy tuPaths) f).length := by
  classical
  rw [edgeTus_filter hlog]
  change (empty.registerAll log).refs f - Multiset.card (Multiset.filter _ _) = _
  rw [refs_registerAll hlog, regs_registerAll hlog, Multiset.filter_coe, Multiset.coe_card]
  have hsplit := List.length_eq_length_filter_add (l := edgeTus log f)
    (fun tu => decide (tu ∈ tuSet tuPaths))
  simp only [decide_not]
  omega

/-- **Removing TUs from the ledger of a log with provenance withdraws their
registrations from the log.** -/
theorem remove_registerAll {disp : Bytes → Bytes} (hlog : ∀ r ∈ log, r.tuPath ≠ [])
    (hdisp : ∀ r ∈ log, r.DisplayedBy disp) (tuPaths : List Bytes) :
    ((empty.registerAll log).remove (tuSet tuPaths)).Agree
      (empty.registerAll (log.filter fun r => !r.removedBy tuPaths)) := by
  classical
  have hlog' : ∀ r ∈ log.filter fun r => !r.removedBy tuPaths, r.tuPath ≠ [] :=
    fun r hr => hlog r (List.mem_of_mem_filter hr)
  have hdisp' : ∀ r ∈ log.filter fun r => !r.removedBy tuPaths, r.DisplayedBy disp :=
    fun r hr => hdisp r (List.mem_of_mem_filter hr)
  have hrel := sameRelations_filter empty log tuPaths
  refine ⟨fun u => ?_, ?_, funext fun f => ?_, funext fun f => ?_, hrel.derived, hrel.overrides,
    hrel.impls, hrel.returns⟩
  · rw [nodes_registerAll hdisp']
    have hcon := contributors_registerAll hlog
    simp only [nodeIn_filter hlog]
    change Option.map _ (if (empty.registerAll log).Dropped _ u then none else _) = _
    by_cases hd : (empty.registerAll log).Dropped (tuSet tuPaths) u
    · rw [if_pos hd, if_neg]
      · rfl
      · rintro ⟨tu, hin, hout⟩
        exact hout (hd.2 tu (hcon ▸ hin))
    · rw [if_neg hd, nodes_registerAll hdisp]
      refine if_congr ?_ rfl rfl
      rw [Dropped, hcon] at hd
      constructor
      · rintro ⟨tu, hin⟩
        by_contra hall
        push Not at hall
        exact hd ⟨⟨tu, hall tu hin, hin⟩, hall⟩
      · rintro ⟨tu, hin, -⟩
        exact ⟨tu, hin⟩
  · rw [contributors_registerAll hlog']
    funext u tu
    rw [propext (nodeIn_filter hlog tuPaths), ← contributors_registerAll hlog]
    rfl
  · rw [refs_remove_registerAll hlog, refs_registerAll hlog']
  · rw [regs_registerAll hlog', edgeTus_filter hlog]
    change Multiset.filter _ _ = _
    rw [regs_registerAll hlog, Multiset.filter_coe]

end Tagged

end Ledger

namespace CallGraph

variable {g shard : CallGraph} {log log' : List Registration} {disp : Bytes → Bytes}

/-- The registrations of a graph with provenance: a TU is recorded, and every usr has one
display name. -/
def Tagged (disp : Bytes → Bytes) (r : Registration) : Prop := r.tuPath ≠ [] ∧ r.DisplayedBy disp

/-- **A graph built from tagged registrations has the ledger of its live log.** -/
theorem BuiltFrom.agree (h : BuiltFrom (Tagged disp) g log) :
    g.ledger.Agree (Ledger.empty.registerAll log) := by
  induction h with
  | empty => rw [ledger_empty]; exact .refl _
  | register r _ hg ih =>
    rw [(hg.inv.1.register r).2, Ledger.registerAll, List.foldl_append]
    exact ih.register r
  | @absorb g log shard log' ord hg hs hord ih ih' =>
    rw [(hg.inv.1.absorb hs.inv.1 hord).2]
    have happ : Ledger.empty.registerAll (log ++ log') =
        (Ledger.empty.registerAll log).absorb (Ledger.empty.registerAll log') := by
      rw [Ledger.absorb_registerAll, Ledger.registerAll, List.foldl_append]
      rfl
    rw [happ]
    exact ih.absorb ih'
  | removeTUs tuPaths hg ih =>
    rw [(hg.inv.1.removeTUs hg.inv.2.covered tuPaths).2.1]
    exact (ih.remove _).trans (Ledger.remove_registerAll (fun r hr => (hg.log_forall r hr).1)
      (fun r hr => (hg.log_forall r hr).2) tuPaths)
  | compact hg ih =>
    rw [hg.inv.1.compact.2]
    exact ih

/-- Absorbing a graph with provenance agrees with replaying its live registrations. -/
theorem absorb_agree_replay {P : Registration → Prop} (hg : BuiltFrom P g log)
    (hs : BuiltFrom (Tagged disp) shard log') {ord : IterOrder} (hord : ord.Valid shard) :
    (g.absorb shard ord).ledger.Agree (g.registerAll log').ledger := by
  rw [(hg.inv.1.absorb hs.inv.1 hord).2, (hg.inv.1.registerAll log').2,
    ← Ledger.absorb_registerAll]
  exact (Ledger.Agree.refl _).absorb hs.agree

/-- Graphs that agree answer a removal alike, and agree after it. -/
theorem Inv.removeTUs_agree {g' : CallGraph} (h : g.Inv) (hc : g.ledger.Covered) (h' : g'.Inv)
    (hc' : g'.ledger.Covered) (hag : g.ledger.Agree g'.ledger) (tuPaths : List Bytes) :
    (g.removeTUs tuPaths).2 = (g'.removeTUs tuPaths).2 ∧
      (g.removeTUs tuPaths).1.ledger.Agree (g'.removeTUs tuPaths).1.ledger := by
  obtain ⟨-, hl, hn⟩ := h.removeTUs hc tuPaths
  obtain ⟨-, hl', hn'⟩ := h'.removeTUs hc' tuPaths
  rw [hn, hn', hl, hl']
  exact ⟨hag.removedCount _, hag.remove _⟩

end CallGraph

end Vycor
