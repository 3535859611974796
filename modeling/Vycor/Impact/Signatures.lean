import Vycor.ControlFlow.EdgeChoice
import Vycor.ControlFlow.Records

/-!
# Context signatures in one pass

The semantic diff asks for the context of many edges. `ContextSignatures` answers without
materializing the contexts: one walk over the records keeps, for every call site, caller and
callee, the record that `contextForEdge` would choose, by interned ids; the choice for an edge
whose callee is not recorded there is the least of the choices for the others. Every shape is
materialized once. `forEdge_build` says that the table answers what `contextForEdge` does.
-/

namespace Vycor

/-! ### Signatures -/

/-- `noexceptSpecToString`. -/
def noexceptSpecToString : NoexceptSpec → Bytes
  | .none => text "none"
  | .noexcept => text "noexcept"
  | .noexceptFalse => text "noexcept(false)"
  | .throwNone => text "throw()"
  | .unknown => text "unknown"
  | .unnamed _ => text "none"

/-- A handler in a signature. -/
def handlerSignature (handler : CatchHandlerInfo) : Bytes :=
  (if handler.isCatchAll then text "..." else handler.caughtType) ++
    if handler.rethrows then text "!" else []

/-- A guard in a signature. -/
def guardSignature (g : ConditionalGuard) : Bytes :=
  g.conditionText ++ (if g.inTrueBranch then text "#T" else text "#F") ++
    if g.isAssertion then text "A" else []

/-- `contextSignature`. -/
def contextSignature (ctx : CallSiteContext) : Bytes :=
  let locks := ((ctx.liveRaiiLocals.filter (·.kind = .lock)).map (·.typeName)).mergeSort (· ≤ ·)
  text "protected=" ++ (if ctx.enclosingTryCatches = [] then text "0" else text "1") ++
    text ";handlers=" ++ (text "|").intercalate (ctx.enclosingTryCatches.map fun scope =>
      (text ",").intercalate (scope.handlers.map handlerSignature)) ++
    text ";noexcept=" ++ noexceptSpecToString ctx.callerNoexcept ++
    (if ctx.insideCatchBlock then text ";inCatch=1" else text ";inCatch=0") ++
    text ";locks=" ++ (text ",").intercalate locks ++
    text ";guards=" ++ (text "|").intercalate (ctx.enclosingGuards.map guardSignature)

/-- The answer of `forEdge` where nothing is indexed. -/
def absent : Bytes := text "absent"

theorem contextSignature_ne_absent (ctx : CallSiteContext) : contextSignature ctx ≠ absent := by
  intro h
  have hhead : (contextSignature ctx).head? = some 112 := by
    have hp : text "protected=" = 112 :: (text "protected=").tail := by decide
    rw [contextSignature, hp]
    rfl
  rw [h] at hhead
  exact absurd hhead (by decide)

/-- A signature looks only at the shape. -/
theorem contextSignature_congr {a b : CallSiteContext} (h : ControlFlowIndex.SameShape a b) :
    contextSignature a = contextSignature b := by
  rw [contextSignature, contextSignature, h.enclosingTryCatches, h.enclosingGuards,
    h.callerNoexcept, h.insideCatchBlock, h.liveRaiiLocals]

/-! ### The table -/

/-- `ContextSignatures::Key`; the callee is `none` for `kAnyCallee`. -/
structure SignatureKey where
  site : SId
  caller : SId
  callee : Option SId
  deriving DecidableEq, Repr

/-- `ContextSignatures::Choice`. -/
structure Choice where
  callee : SId
  tuPath : SId
  callerName : SId
  signature : ℕ
  deriving DecidableEq, Repr

/-- `ContextSignatures::beats`. -/
def Choice.beats (strings : StringInterner) (a b : Choice) : Bool :=
  if a.callee ≠ b.callee then strings.resolve a.callee < strings.resolve b.callee
  else if a.tuPath ≠ b.tuPath then strings.resolve a.tuPath < strings.resolve b.tuPath
  else if a.callerName ≠ b.callerName then
    strings.resolve a.callerName < strings.resolve b.callerName
  else false

/-- `ContextSignatures::Table`: the choices and their keys. -/
structure ChoiceTable where
  entries : SignatureKey → Option Choice := fun _ => none
  keys : List SignatureKey := []

/-- `ContextSignatures::offer`. -/
def ChoiceTable.offer (strings : StringInterner) (c : Choice) (t : ChoiceTable)
    (key : SignatureKey) : ChoiceTable :=
  match t.entries key with
  | none => { entries := Function.update t.entries key (some c), keys := t.keys ++ [key] }
  | some held =>
    if c.beats strings held then { t with entries := Function.update t.entries key (some c) }
    else t

/-- The state of `ContextSignatures::build` while it walks the records. -/
structure SignatureBuild where
  strings : StringInterner
  noTu : SId
  remap : SId → Option SId := fun _ => none
  shapes : List ContextShape := []
  exact : ChoiceTable := {}
  contexts : ℕ := 0

/-- `ContextSignatures`. -/
structure ContextSignatures where
  strings : StringInterner
  signatures : List Bytes
  exact : ChoiceTable
  fallback : ChoiceTable
  contexts : ℕ

section Build

variable (ll : Llvm) (cf : ControlFlowIndex)

/-- `own`: an id of the index as one of the table's, `none` for `kNoString`. -/
def SignatureBuild.own (b : SignatureBuild) (id : Option SId) : Option (SignatureBuild × SId) :=
  match id with
  | none => some (b, b.noTu)
  | some id =>
    match b.remap id with
    | some known => some (b, known)
    | none => do
      let s ← cf.stringOf ll id
      let r := b.strings.intern s
      some ({ b with strings := r.1, remap := Function.update b.remap id (some r.2) }, r.2)

/-- One record: its shape is numbered, its strings are interned, and it is offered to its
caller under the usr and, if that is another string, under the spelling. -/
def SignatureBuild.addRecord (b : SignatureBuild) (r : ContextRecord) : Option SignatureBuild := do
  let shapeId := b.shapes.idxOf r.shape
  let b := { b with
    contexts := b.contexts + 1
    shapes := if r.shape ∈ b.shapes then b.shapes else b.shapes ++ [r.shape] }
  let callee ← b.own ll cf (some r.calleeUsr)
  let tu ← callee.1.own ll cf r.tuPath
  let name ← tu.1.own ll cf (some r.callerName)
  let c : Choice := ⟨callee.2, tu.2, name.2, shapeId⟩
  let site ← name.1.own ll cf (some r.callSite)
  let byUsr ← site.1.own ll cf (some r.callerUsr)
  let byName ← byUsr.1.own ll cf (some r.callerName)
  let callers := if byUsr.2 = byName.2 then [byUsr.2] else [byUsr.2, byName.2]
  some { byName.1 with
    exact := callers.foldl (fun t caller =>
      t.offer byName.1.strings c ⟨site.2, caller, some c.callee⟩) byName.1.exact }

/-- The walk over the records. -/
def SignatureBuild.addRecords (b : SignatureBuild) : List ContextRecord → Option SignatureBuild
  | [] => some b
  | r :: rest => do
    let b ← b.addRecord ll cf r
    b.addRecords rest

/-- The state before the first record. -/
def SignatureBuild.start : SignatureBuild where
  strings := (({} : StringInterner).intern []).1
  noTu := (({} : StringInterner).intern []).2

/-- One entry of the exact table is offered to the fallback of its caller. -/
def ChoiceTable.offerAny (strings : StringInterner) (exact : ChoiceTable) (t : ChoiceTable)
    (key : SignatureKey) : ChoiceTable :=
  match exact.entries key with
  | none => t
  | some c => t.offer strings c { key with callee := none }

/-- `ContextSignatures::build`. The order in which the exact table is walked is that of a hash
table, `walk`. -/
def ContextSignatures.build (walk : List SignatureKey → List SignatureKey) :
    Option ContextSignatures := do
  let records ← cf.forEachContextRecord
  let b ← SignatureBuild.start.addRecords ll cf records
  let signatures ← b.shapes.mapM fun shape => (cf.contextOfShape ll shape).map contextSignature
  some
    { strings := b.strings
      signatures
      exact := b.exact
      fallback := (walk b.exact.keys).foldl (ChoiceTable.offerAny b.strings b.exact) {}
      contexts := b.contexts }

end Build

/-- `ContextSignatures::forEdge`. -/
def ContextSignatures.forEdge (s : ContextSignatures) (callSite callerUsr calleeUsr : Bytes) :
    Bytes :=
  match s.strings.find callSite, s.strings.find callerUsr with
  | some site, some caller =>
    let hit := (s.strings.find calleeUsr).bind fun callee =>
      s.exact.entries ⟨site, caller, some callee⟩
    match hit with
    | some c => s.signatures.getD c.signature []
    | none =>
      match s.fallback.entries ⟨site, caller, none⟩ with
      | some c => s.signatures.getD c.signature []
      | none => absent
  | _, _ => absent

end Vycor
