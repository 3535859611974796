import Vycor.Lib.Least
import Vycor.ControlFlow.Runs

/-!
# The choice of a context for an edge

Several contexts can share a call site and a caller: expansions of one macro,
instantiations of one template. `contextForEdge` sorts them by callee, TU and caller
spelling and takes the first, which is the first of the least ones (`pickForEdge_eq_firstLeast`).
What the order does not compare decides nothing only as long as the least contexts are
equal in all fields (`contextForEdge_order_free_iff`).
-/

namespace Vycor

/-- What `contextForEdge` compares, most significant first. -/
def CallSiteContext.edgeKey (calleeUsr : Bytes) (c : CallSiteContext) :
    Bool ×ₗ Bytes ×ₗ Bytes ×ₗ Bytes :=
  toLex (decide (c.calleeUsr ≠ calleeUsr), toLex (c.calleeUsr, toLex (c.tuPath, c.callerName)))

/-- A context is offered to a caller under its usr and under its spelling. -/
def CallSiteContext.OfCaller (caller : Bytes) (c : CallSiteContext) : Prop :=
  c.callerUsr = caller ∨ c.callerName = caller

instance (caller : Bytes) : DecidablePred (CallSiteContext.OfCaller caller) :=
  fun c => inferInstanceAs (Decidable (c.callerUsr = caller ∨ c.callerName = caller))

namespace ControlFlowIndex

theorem edgeContextBefore_eq (callee : Bytes) (a b : CallSiteContext) :
    edgeContextBefore callee a b = decide (a.edgeKey callee < b.edgeKey callee) := by
  rw [Bool.eq_iff_iff, decide_eq_true_eq]
  simp only [CallSiteContext.edgeKey, Prod.Lex.toLex_lt_toLex, edgeContextBefore]
  by_cases h₁ : a.calleeUsr = b.calleeUsr
  · by_cases h₂ : a.tuPath = b.tuPath
    · simp [h₁, h₂]
    · simp [h₁, h₂]
  · by_cases ha : a.calleeUsr = callee
    · simp [ha, Ne.symm (ha ▸ h₁)]
    · by_cases hb : b.calleeUsr = callee
      · simp [ha, hb]
      · simp [h₁, ha, hb]

/-- The choice is the first of the least contexts of the caller. -/
theorem pickForEdge_eq_firstLeast (caller callee : Bytes) (contexts : List CallSiteContext) :
    pickForEdge caller callee contexts =
      firstLeast (·.edgeKey callee) (contexts.filter (·.OfCaller caller)) := by
  rw [← head?_mergeSort_eq_firstLeast, pickForEdge]
  have hle : (fun a b => !edgeContextBefore callee b a) =
      fun a b : CallSiteContext => decide (a.edgeKey callee ≤ b.edgeKey callee) := by
    funext a b
    rw [edgeContextBefore_eq, Bool.eq_iff_iff]
    simp
  have hof : (fun c : CallSiteContext => c.callerUsr = caller || c.callerName = caller) =
      fun c => decide (c.OfCaller caller) := by
    funext c
    exact (Bool.decide_or _ _).symm
  rw [hle]
  simp only [hof]

/-! ### Order of insertion -/

variable {P : CallSiteContext → Prop} {cf cf' : ControlFlowIndex} {log log' : List CallSiteContext}
  {seen seen' : Seen}

/-- The contexts of a log that an edge may take, as the index stores them. -/
def edgeCandidates (ll : Llvm) (log : List CallSiteContext) (site caller : Bytes) :
    List CallSiteContext :=
  ((log.map CallSiteContext.stored).filter (·.callSite = lookupText ll site)).filter
    (·.OfCaller caller)

theorem BuiltFrom.contextForEdge (h : BuiltFrom P cf log seen) (ll : Llvm)
    (site caller callee : Bytes) : cf.contextForEdge ll site caller callee =
      some (firstLeast (·.edgeKey callee) (edgeCandidates ll log site caller)) := by
  obtain ⟨hinv, hent⟩ := h.inv
  rw [hinv.contextForEdge, pickForEdge_eq_firstLeast, hent, edgeCandidates]

theorem edgeCandidates_perm (hperm : log'.Perm log) (ll : Llvm) (site caller : Bytes) :
    (edgeCandidates ll log' site caller).Perm (edgeCandidates ll log site caller) :=
  ((hperm.map _).filter _).filter _

/-- A least candidate is the choice of the run that adds it first. -/
theorem exists_perm_firstLeast {ll : Llvm} {site caller callee : Bytes} {c : CallSiteContext}
    (hc : Least (·.edgeKey callee) (edgeCandidates ll log site caller) c) :
    ∃ log', log'.Perm log ∧
      firstLeast (·.edgeKey callee) (edgeCandidates ll log' site caller) = some c := by
  obtain ⟨hsite, hof⟩ := List.mem_filter.mp hc.mem
  obtain ⟨hmem, hsite⟩ := List.mem_filter.mp hsite
  obtain ⟨c, hlog, rfl⟩ := List.mem_map.mp hmem
  have hperm : (c :: log.erase c).Perm log := (List.perm_cons_erase hlog).symm
  have hcand : edgeCandidates ll (c :: log.erase c) site caller =
      c.stored :: edgeCandidates ll (log.erase c) site caller := by
    simp only [edgeCandidates, List.map_cons, List.filter_cons, hsite, hof, if_true]
  refine ⟨c :: log.erase c, hperm, ?_⟩
  rw [hcand]
  refine firstLeast_cons_of_le fun d hd => hc.le d ?_
  exact (edgeCandidates_perm hperm ll site caller).mem_iff.mp (hcand ▸ List.mem_cons_of_mem _ hd)

/-- **The choice for an edge is free of the order exactly when the least contexts agree.**
Any two runs whose logs hold the same contexts give the edge the same context, or both none,
if and only if the contexts at the call site that come first by callee, TU and caller
spelling are equal in all fields. -/
theorem contextForEdge_order_free_iff (ll : Llvm) (h : BuiltFrom (fun _ => True) cf log seen)
    (site caller callee : Bytes) :
    (∀ cf' log' seen', BuiltFrom (fun _ => True) cf' log' seen' → log'.Perm log →
        cf'.contextForEdge ll site caller callee = cf.contextForEdge ll site caller callee) ↔
      ∀ c c', Least (·.edgeKey callee) (edgeCandidates ll log site caller) c →
        Least (·.edgeKey callee) (edgeCandidates ll log site caller) c' → c = c' := by
  constructor
  · intro hall c c' hc hc'
    have hrun : ∀ l : List CallSiteContext, BuiltFrom (fun _ => True)
        (({} : ControlFlowIndex).addAll l) l _ :=
      fun l => BuiltFrom.empty.addAll fun _ _ => trivial
    obtain ⟨log₁, hperm₁, hpick₁⟩ := exists_perm_firstLeast hc
    obtain ⟨log₂, hperm₂, hpick₂⟩ := exists_perm_firstLeast hc'
    have h₁ := hall _ _ _ (hrun log₁) hperm₁
    have h₂ := hall _ _ _ (hrun log₂) hperm₂
    rw [(hrun log₁).contextForEdge, hpick₁] at h₁
    rw [(hrun log₂).contextForEdge, hpick₂, ← h₁] at h₂
    simpa using h₂.symm
  · intro hleast cf' log' seen' h' hperm
    rw [h.contextForEdge, h'.contextForEdge,
      firstLeast_eq_of_perm (edgeCandidates_perm hperm ll site caller) hleast]

/-- A call of `b` by `a` in the TU `t`. -/
def bareCall : CallSiteContext :=
  { callerName := [97], calleeName := [98], callSite := [115], tuPath := [116] }

/-- The same call in another expansion of the macro, inside a `try`. -/
def guardedCall : CallSiteContext :=
  { bareCall with enclosingTryCatches := [{ tryLocation := [119], handlers := [] }] }

/-- One context for the edge: every order gives it. -/
theorem contextForEdge_order_free_single :
    BuiltFrom (fun _ => True) (({} : ControlFlowIndex).addCallSiteContext bareCall) [bareCall]
        (Seen.none.add [bareCall.stored]) ∧
      ∀ cf' log' seen', BuiltFrom (fun _ => True) cf' log' seen' → log'.Perm [bareCall] →
        cf'.contextForEdge utf8Llvm [115] [97] [98] =
          (({} : ControlFlowIndex).addCallSiteContext bareCall).contextForEdge utf8Llvm
            [115] [97] [98] := by
  have hrun : BuiltFrom (fun _ => True) (({} : ControlFlowIndex).addCallSiteContext bareCall)
      [bareCall] (Seen.none.add [bareCall.stored]) := .add bareCall trivial .empty
  refine ⟨hrun, (contextForEdge_order_free_iff utf8Llvm hrun _ _ _).mpr ?_⟩
  intro c c' hc hc'
  have hcand : edgeCandidates utf8Llvm [bareCall] [115] [97] = [bareCall.stored] := by decide
  rw [hcand] at hc hc'
  exact (List.mem_singleton.mp hc.mem).trans (List.mem_singleton.mp hc'.mem).symm

/-- Two contexts of one edge and one TU that differ in their scopes come out in the order
they went in. -/
theorem contextForEdge_depends_on_order :
    ¬ ∀ (ll : Llvm) (cf cf' : ControlFlowIndex) (log log' : List CallSiteContext)
      (seen seen' : Seen) (site caller callee : Bytes), BuiltFrom (fun _ => True) cf log seen →
        BuiltFrom (fun _ => True) cf' log' seen' → log'.Perm log →
        cf'.contextForEdge ll site caller callee = cf.contextForEdge ll site caller callee := by
  intro hall
  have h₁ : BuiltFrom (fun _ => True) (({} : ControlFlowIndex).addAll [bareCall, guardedCall])
      [bareCall, guardedCall] _ := BuiltFrom.empty.addAll fun _ _ => trivial
  have h₂ : BuiltFrom (fun _ => True) (({} : ControlFlowIndex).addAll [guardedCall, bareCall])
      [guardedCall, bareCall] _ := BuiltFrom.empty.addAll fun _ _ => trivial
  have heq := hall utf8Llvm _ _ _ _ _ _ [115] [97] [98] h₁ h₂ (List.Perm.swap _ _ _)
  rw [h₁.contextForEdge, h₂.contextForEdge] at heq
  exact absurd heq (by decide)

end ControlFlowIndex

end Vycor
