import Vycor.ControlFlow.Readable

/-!
# Records and shapes

A pass over a whole index walks the records and leaves the strings and sets behind their ids
(`forEachContextRecord`); what many contexts share, their shape, is materialized once
(`contextOfShape`). A record and its shape say what the context says
(`exists_forEachContextRecord`).
-/

namespace Vycor

/-- `ControlFlowIndex::ContextShape`. -/
structure ContextShape where
  scopeSet : ℕ
  guardSet : ℕ
  raiiSet : ℕ
  callerNoexcept : NoexceptSpec
  insideCatchBlock : Bool
  deriving DecidableEq, Repr

/-- `ControlFlowIndex::ContextRecord`. -/
structure ContextRecord where
  callSite : SId
  callerUsr : SId
  callerName : SId
  calleeUsr : SId
  tuPath : Option SId
  shape : ContextShape
  deriving DecidableEq, Repr

/-- The record `forEachContextRecord` emits. -/
def StoredContext.record (se : StoredContext) : ContextRecord where
  callSite := se.site
  callerUsr := se.caller
  callerName := se.callerDisplay
  calleeUsr := se.callee
  tuPath := se.tuPath
  shape := ⟨se.scopeSet, se.guardSet, se.raiiSet, se.callerNoexcept, se.insideCatchBlock⟩

namespace ControlFlowIndex

variable (ll : Llvm) (cf : ControlFlowIndex)

/-- The records of the live contexts at some positions. -/
def recordsAt : List ℕ → Option (List ContextRecord)
  | [] => some []
  | pos :: rest => do
    let se ← cf.storedAt pos
    let more ← recordsAt rest
    some (if se.live then se.record :: more else more)

/-- `forEachContextRecord`, the records visited in order. -/
def forEachContextRecord : Option (List ContextRecord) :=
  match cf.mapped with
  | some m => cf.recordsAt (List.range m.recordCount)
  | none => cf.recordsAt (List.range cf.contexts.length)

/-- `contextOfShape`. -/
def contextOfShape (shape : ContextShape) : Option CallSiteContext :=
  match cf.scopeSets[shape.scopeSet]?, cf.guardSets[shape.guardSet]?,
    cf.raiiSets[shape.raiiSet]? with
  | some scopes, some guards, some locals => do
    let liveRaiiLocals ← cf.localsOf ll locals
    some
      { callerName := [], calleeName := [], callSite := [], enclosingTryCatches := scopes
        enclosingGuards := guards, callerNoexcept := shape.callerNoexcept
        insideCatchBlock := shape.insideCatchBlock, liveRaiiLocals }
  | _, _, _ => some { callerName := [], calleeName := [], callSite := [] }

/-- Two contexts agree in everything but who calls whom, where. -/
structure SameShape (a b : CallSiteContext) : Prop where
  enclosingTryCatches : a.enclosingTryCatches = b.enclosingTryCatches
  enclosingGuards : a.enclosingGuards = b.enclosingGuards
  callerNoexcept : a.callerNoexcept = b.callerNoexcept
  insideCatchBlock : a.insideCatchBlock = b.insideCatchBlock
  liveRaiiLocals : a.liveRaiiLocals = b.liveRaiiLocals

/-- A record says what a context says. -/
structure Describes (r : ContextRecord) (ctx : CallSiteContext) : Prop where
  callSite : cf.stringOf ll r.callSite = some ctx.callSite
  callerUsr : cf.stringOf ll r.callerUsr = some ctx.callerUsr
  callerName : cf.stringOf ll r.callerName = some ctx.callerName
  calleeUsr : cf.stringOf ll r.calleeUsr = some ctx.calleeUsr
  tuPath : (match r.tuPath with
    | some tu => cf.stringOf ll tu
    | none => some []) = some ctx.tuPath
  shape : ∃ c, cf.contextOfShape ll r.shape = some c ∧ SameShape c ctx

variable {ll cf}

theorem describes_of_materialize {se : StoredContext} {ctx : CallSiteContext}
    (h : cf.materialize ll se = some ctx) : cf.Describes ll se.record ctx := by
  simp only [materialize, Option.bind_eq_bind, Option.bind_eq_some_iff] at h
  obtain ⟨callerName, h₁, calleeName, h₂, callerUsr, h₃, calleeUsr, h₄, callSite, h₅, tuPath, h₆,
    scopes, h₇, guards, h₈, locals, h₉, names, h₁₀, heq⟩ := h
  obtain rfl := Option.some_inj.mp heq
  refine ⟨h₅, h₃, h₁, h₄, h₆, ?_⟩
  rw [contextOfShape, StoredContext.record, h₇, h₈, h₉]
  simp only [h₁₀, Option.bind_eq_bind, Option.bind_some]
  exact ⟨_, rfl, rfl, rfl, rfl, rfl, rfl⟩

theorem exists_recordsAt {positions : List ℕ} {ctxs : List CallSiteContext}
    (h : cf.collect ll (fun _ => true) positions = some ctxs) :
    ∃ rs, cf.recordsAt positions = some rs ∧ List.Forall₂ (cf.Describes ll) rs ctxs := by
  induction positions generalizing ctxs with
  | nil =>
    obtain rfl := Option.some_inj.mp h
    exact ⟨[], rfl, .nil⟩
  | cons pos rest ih =>
    rw [collect] at h
    simp only [Option.bind_eq_bind, Option.bind_eq_some_iff, Bool.and_true] at h
    obtain ⟨se, hse, h⟩ := h
    rw [recordsAt, hse]
    split_ifs at h with hlive
    · simp only [Option.bind_eq_some_iff] at h
      obtain ⟨ctx, hctx, more, hmore, heq⟩ := h
      obtain rfl := Option.some_inj.mp heq
      obtain ⟨rs, hrs, hrel⟩ := ih hmore
      refine ⟨se.record :: rs, ?_, .cons (describes_of_materialize hctx) hrel⟩
      simp [hrs, hlive]
    · obtain ⟨rs, hrs, hrel⟩ := ih h
      refine ⟨rs, ?_, hrel⟩
      simp [hrs, hlive]

/-- **The records describe the contexts**, one by one and in order. -/
theorem exists_forEachContextRecord {ctxs : List CallSiteContext}
    (h : cf.forEachContext ll = some ctxs) :
    ∃ rs, cf.forEachContextRecord = some rs ∧ List.Forall₂ (cf.Describes ll) rs ctxs := by
  rw [forEachContext] at h
  rw [forEachContextRecord]
  cases hm : cf.mapped with
  | none =>
    rw [hm] at h
    exact exists_recordsAt h
  | some m =>
    rw [hm] at h
    exact exists_recordsAt h

end ControlFlowIndex

end Vycor
