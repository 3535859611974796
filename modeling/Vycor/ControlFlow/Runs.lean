import Vycor.ControlFlow.Answers
import Vycor.CallGraph.Answers

/-!
# Runs of the control-flow index

`BuiltFrom P cf log seen` says that a run of mutators leads to the index `cf`: `log` are the
contexts added and not removed since, in order, and `seen` the usrs whose entries in the
usr maps outlive their contexts. The index holds the contexts of its log
(`BuiltFrom.inv`), and `removed_leave_no_trace_iff` compares its answers with those of an
index to which only the contexts of the log were added.
-/

namespace Vycor

/-- For a context with a TU, removal goes by the TU alone. -/
theorem CallSiteContext.removedBy_stored {c : CallSiteContext} (hc : c.tuPath ≠ [])
    (tuPaths : List Bytes) : c.stored.removedBy tuPaths = decide (c.tuPath ∈ tuPaths) := by
  have hne : c.stored.tuPath ≠ [] := fun hnil => hc (toIndexText_eq_nil.mp hnil)
  rw [CallSiteContext.removedBy, if_neg hne, decide_eq_decide, List.mem_map]
  constructor
  · rintro ⟨t, ht, heq⟩
    rwa [← toIndexText_injective heq]
  · exact fun ht => ⟨_, ht, rfl⟩

namespace ControlFlowIndex

variable {P : CallSiteContext → Prop} {cf shard : ControlFlowIndex} {log log' : List CallSiteContext}
  {seen seen' : Seen}

/-- An index built by the mutators from contexts with a property, the contexts left in it
and the usrs seen since the last compaction. -/
inductive BuiltFrom (P : CallSiteContext → Prop) :
    ControlFlowIndex → List CallSiteContext → Seen → Prop where
  | empty : BuiltFrom P {} [] Seen.none
  | add {cf : ControlFlowIndex} {log : List CallSiteContext} {seen : Seen} (ctx : CallSiteContext)
      (hctx : P ctx) (h : BuiltFrom P cf log seen) :
      BuiltFrom P (cf.addCallSiteContext ctx) (log ++ [ctx]) (seen.add [ctx.stored])
  | absorb {cf shard : ControlFlowIndex} {log log' : List CallSiteContext} {seen seen' : Seen}
      (h : BuiltFrom P cf log seen) (hs : BuiltFrom P shard log' seen') :
      BuiltFrom P (cf.absorb shard) (log ++ log') (seen.add (log'.map CallSiteContext.stored))
  | removeTUs {cf : ControlFlowIndex} {log : List CallSiteContext} {seen : Seen}
      (tuPaths : List Bytes) (h : BuiltFrom P cf log seen) :
      BuiltFrom P (cf.removeTUs tuPaths).1
        (log.filter fun c => !c.stored.removedBy tuPaths) seen
  | compact {cf : ControlFlowIndex} {log : List CallSiteContext} {seen : Seen}
      (h : BuiltFrom P cf log seen) :
      BuiltFrom P cf.compact log (Seen.none.add (log.map CallSiteContext.stored))

/-- An index holds the contexts of its log. -/
theorem BuiltFrom.inv (h : BuiltFrom P cf log seen) :
    cf.Inv seen ∧ cf.entries = log.map CallSiteContext.stored := by
  induction h with
  | empty => exact ⟨.empty, rfl⟩
  | add ctx _ _ ih =>
    obtain ⟨hinv, hent⟩ := ih.1.addCallSiteContext ctx
    exact ⟨hinv, by rw [hent, ih.2, List.map_append, List.map_singleton]⟩
  | absorb _ _ ih ih' =>
    obtain ⟨hinv, hent⟩ := ih.1.absorb ih'.1
    rw [ih'.2] at hinv
    exact ⟨hinv, by rw [hent, ih.2, ih'.2, List.map_append]⟩
  | removeTUs tuPaths _ ih =>
    obtain ⟨hinv, hent, -⟩ := ih.1.removeTUs tuPaths
    exact ⟨hinv, by rw [hent, ih.2, List.filter_map]; rfl⟩
  | compact _ ih =>
    obtain ⟨hinv, hent⟩ := ih.1.compact
    rw [ih.2] at hinv
    exact ⟨hinv, hent.trans ih.2⟩

/-- The contexts of the log have the property of the contexts added. -/
theorem BuiltFrom.log_forall (h : BuiltFrom P cf log seen) : ∀ c ∈ log, P c := by
  induction h with
  | empty => simp
  | add ctx hctx _ ih =>
    intro c hc
    rcases List.mem_append.mp hc with hc | hc
    exacts [ih c hc, List.mem_singleton.mp hc ▸ hctx]
  | absorb _ _ ih ih' =>
    intro c hc
    rcases List.mem_append.mp hc with hc | hc
    exacts [ih c hc, ih' c hc]
  | removeTUs tuPaths _ ih => exact fun c hc => ih c (List.mem_of_mem_filter hc)
  | compact _ ih => exact ih

/-- Add contexts in order. -/
def addAll (cf : ControlFlowIndex) (log : List CallSiteContext) : ControlFlowIndex :=
  log.foldl addCallSiteContext cf

theorem BuiltFrom.addAll (h : BuiltFrom P cf log seen) (hlog' : ∀ c ∈ log', P c) :
    BuiltFrom P (cf.addAll log') (log ++ log')
      (seen.add (log'.map CallSiteContext.stored)) := by
  induction log' generalizing cf log seen with
  | nil => simpa [ControlFlowIndex.addAll, Seen.add_nil] using h
  | cons c rest ih =>
    have hrest := ih (h.add c (hlog' c (.head _))) fun c' hc' => hlog' c' (.tail _ hc')
    rw [List.append_assoc, List.singleton_append, ← Seen.add_append] at hrest
    exact hrest

/-- The usr of an entry is seen. -/
theorem Inv.seen_of_mem (h : cf.Inv seen) (side : Side) {c : CallSiteContext}
    (hc : c ∈ cf.entries) : seen side (side.usrOf c) := by
  obtain ⟨se, hse, rfl⟩ := List.mem_map.mp hc
  obtain ⟨hmem, hlive⟩ := List.mem_filter.mp hse
  obtain ⟨i, hi⟩ := List.mem_iff_getElem?.mp hmem
  have hpos : i ∈ (side.usrMap cf (side.usr se)).getD [] := by
    rw [h.usr_pos, livePos, mem_positions]
    exact ⟨se, hi, by simp [hlive]⟩
  have hsome : (side.usrMap cf (side.usr se)).isSome := by
    rcases hm : side.usrMap cf (side.usr se) with _ | v
    · rw [hm] at hpos
      cases hpos
    · rfl
  obtain ⟨n, hn, hfind⟩ := (h.usr_isSome side _).mp hsome
  rwa [usrOf_view, StringInterner.resolve_of_find hfind]

/-- A removed usr hides nothing: a usr seen since the last compaction is still the usr of a
context left, or it is the display name of no context with another usr. -/
def NothingHidden (log : List CallSiteContext) (seen : Seen) : Prop :=
  ∀ side n, seen side n → (∃ c ∈ log, side.usrOf c.stored = n) ∨
    ∀ c ∈ log, side.displayOf c.stored = n → side.usrOf c.stored = n

/-- Two runs with the same log answer alike as far as nothing is hidden in either. -/
theorem named_eq_of_nothingHidden (h : cf.Inv seen)
    (hent : cf.entries = log.map CallSiteContext.stored) (hidden : NothingHidden log seen)
    (side : Side) (n : Bytes) :
    named seen side n cf.entries = named (Seen.none.add cf.entries) side n cf.entries := by
  have hfresh : Seen.none.add cf.entries side n ↔ ∃ c ∈ cf.entries, side.usrOf c = n :=
    Iff.of_eq (false_or _)
  rw [named, named]
  by_cases hs : seen side n
  · rw [if_pos hs]
    by_cases hex : ∃ c ∈ cf.entries, side.usrOf c = n
    · rw [if_pos (hfresh.mpr hex)]
    · rw [if_neg (mt hfresh.mp hex)]
      -- neither the usr nor the display filter finds anything
      have husr : cf.entries.filter (fun c => side.usrOf c = n) = [] := by
        rw [List.filter_eq_nil_iff]
        exact fun c hc heq => hex ⟨c, hc, of_decide_eq_true heq⟩
      rw [husr, eq_comm, List.filter_eq_nil_iff]
      intro c hc hd
      obtain ⟨hd, hne⟩ := of_decide_eq_true hd
      obtain ⟨c, hc', rfl⟩ := List.mem_map.mp (hent ▸ hc)
      rcases hidden side n hs with ⟨c', hc'', heq⟩ | hall
      · exact hex ⟨_, hent ▸ List.mem_map_of_mem hc'', heq⟩
      · exact hne (hd.trans (hall c hc' hd).symm)
  · have hno : ¬ ∃ c ∈ cf.entries, side.usrOf c = n := by
      rintro ⟨c, hc, rfl⟩
      exact hs (h.seen_of_mem side hc)
    rw [if_neg hs, if_neg (mt hfresh.mp hno)]

/-- **Removed TUs leave no trace exactly when no removed usr hides a display name.** The
index to compare with is built from the contexts left, in the same order. -/
theorem removed_leave_no_trace_iff (ll : Llvm) (hll : ll.AcceptsUtf8)
    (h : BuiltFrom (fun c => c.tuPath ≠ []) cf log seen) :
    SameAnswers ll cf (({} : ControlFlowIndex).addAll log) ↔ NothingHidden log seen := by
  obtain ⟨hinv, hent⟩ := h.inv
  obtain ⟨hinv', hent'⟩ := (BuiltFrom.empty.addAll h.log_forall).inv
  rw [List.nil_append] at hent'
  have hsame : cf.entries = (({} : ControlFlowIndex).addAll log).entries := hent.trans hent'.symm
  rw [← hent, hsame] at hinv'
  constructor
  · intro hans side n hs
    by_contra hcon
    push Not at hcon
    obtain ⟨hno, c, hc, hd, hne⟩ := hcon
    have htext : lookupText ll n = n := by
      obtain ⟨id, hid⟩ := hinv.seen_known side n hs
      refine CallGraph.lookupText_eq ll hll (hinv.utf8 n ?_)
      rw [← StringInterner.resolve_of_find hid]
      exact StringInterner.resolve_mem (StringInterner.lt_of_find hid)
    have hnamed : named seen side n cf.entries =
        named (Seen.none.add (({} : ControlFlowIndex).addAll log).entries) side n
          (({} : ControlFlowIndex).addAll log).entries := by
      cases side with
      | caller =>
        have := hans.contextsForCaller n
        rwa [hinv.contextsForCaller, hinv'.contextsForCaller, htext, Option.some_inj] at this
      | callee =>
        have := hans.contextsForCallee n
        rwa [hinv.contextsForCallee, hinv'.contextsForCallee, htext, Option.some_inj] at this
    have hfresh : ¬ Seen.none.add (({} : ControlFlowIndex).addAll log).entries side n := by
      rintro (hf | ⟨c', hc', heq⟩)
      · exact hf
      · rw [← hsame, hent] at hc'
        obtain ⟨c', hc'', rfl⟩ := List.mem_map.mp hc'
        exact hno c' hc'' heq
    rw [named, named, if_pos hs, if_neg hfresh, ← hsame] at hnamed
    -- the fresh index finds the context, this one does not
    have hmem : c.stored ∈ cf.entries.filter fun c =>
        side.displayOf c = n ∧ side.displayOf c ≠ side.usrOf c := by
      rw [List.mem_filter, hent]
      exact ⟨List.mem_map_of_mem hc, decide_eq_true ⟨hd, fun heq => hne (heq.symm.trans hd)⟩⟩
    rw [← hnamed, List.mem_filter, hent] at hmem
    exact hne (of_decide_eq_true hmem.2)
  · intro hidden
    refine sameAnswers_of_named ll hinv hinv' hsame fun side n => ?_
    rw [named_eq_of_nothingHidden hinv hent hidden, hsame]

/-- A call of `f` by `a` in the TU `t`, given by names only. -/
def callByName : CallSiteContext :=
  { callerName := [97], calleeName := [102], callSite := [115], tuPath := [116] }

/-- A call of a function with the display name `f` and the usr `u`, in the TU `v`. -/
def callByUsr : CallSiteContext :=
  { callerName := [97], calleeName := [102], callSite := [115], calleeUsr := [117],
    tuPath := [118] }

/-- The two calls are added and the TU of the first is removed. -/
theorem builtFrom_removed : BuiltFrom (fun c => c.tuPath ≠ [])
    (((({} : ControlFlowIndex).addCallSiteContext callByName).addCallSiteContext
      callByUsr).removeTUs [[116]]).1 [callByUsr]
    ((Seen.none.add [callByName.stored]).add [callByUsr.stored]) :=
  .removeTUs [[116]] (.add callByUsr (by decide) (.add callByName (by decide) .empty))

/-- Compacted, the index answers like a fresh one. -/
theorem removed_leave_no_trace_compacted :
    BuiltFrom (fun c => c.tuPath ≠ [])
        (((({} : ControlFlowIndex).addCallSiteContext callByName).addCallSiteContext
          callByUsr).removeTUs [[116]]).1.compact [callByUsr]
        (Seen.none.add [callByUsr.stored]) ∧
      SameAnswers utf8Llvm
        (((({} : ControlFlowIndex).addCallSiteContext callByName).addCallSiteContext
          callByUsr).removeTUs [[116]]).1.compact
        (({} : ControlFlowIndex).addAll [callByUsr]) := by
  have hrun := builtFrom_removed.compact
  refine ⟨hrun, (removed_leave_no_trace_iff utf8Llvm acceptsUtf8_utf8Llvm hrun).mpr ?_⟩
  rintro side n (hs | ⟨c, hc, hn⟩)
  · exact hs.elim
  · obtain rfl := List.mem_singleton.mp hc
    exact .inl ⟨callByUsr, .head _, hn⟩

/-- Before, the removed usr `f` hides the call of the function displayed as `f`. -/
theorem removed_usr_hides_display :
    ¬ ∀ (ll : Llvm) (cf : ControlFlowIndex) (log : List CallSiteContext) (seen : Seen),
      ll.AcceptsUtf8 → BuiltFrom (fun c => c.tuPath ≠ []) cf log seen →
        SameAnswers ll cf (({} : ControlFlowIndex).addAll log) := by
  intro hall
  have hans := (hall utf8Llvm _ _ _ acceptsUtf8_utf8Llvm builtFrom_removed).contextsForCallee [102]
  obtain ⟨hinv, hent⟩ := builtFrom_removed.inv
  obtain ⟨hinv', hent'⟩ := (BuiltFrom.empty.addAll builtFrom_removed.log_forall).inv
  have htext : lookupText utf8Llvm [102] = [102] := by decide
  rw [hinv.contextsForCallee, hinv'.contextsForCallee, hent, hent', htext, Option.some_inj] at hans
  have hseen : ((Seen.none.add [callByName.stored]).add [callByUsr.stored]) .callee [102] :=
    .inl (.inr ⟨_, .head _, by decide⟩)
  have hfresh : ¬ Seen.none.add ([callByUsr].map CallSiteContext.stored) .callee [102] := by
    rintro (hs | ⟨c, hc, hn⟩)
    · exact hs
    · obtain rfl := List.mem_singleton.mp hc
      exact absurd hn (by decide)
  rw [named, named, if_pos hseen, if_neg hfresh] at hans
  exact absurd hans (by decide)

end ControlFlowIndex

end Vycor
