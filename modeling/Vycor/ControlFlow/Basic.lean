import Vycor.Lib.PrefixCode
import Vycor.Lib.Bisect
import Vycor.Lib.Memory
import Vycor.Text.Interner
import Vycor.CallGraph.Basic

/-!
# Call-site contexts

The data of the control-flow index: what is known of one call site, its interned form, and
the canonical keys under which equal sets of try/catch scopes, guards and RAII locals are
shared. A key writes every field behind its length, so equal keys mean equal sets
(`scopeSetKey_injective` and its two siblings).

The keys of the source are byte strings; here a 32-bit word of a key is one letter, and so
is a character.
-/

namespace Vycor

/-! ### Contexts -/

/-- `RaiiKind`. -/
inductive RaiiKind where
  | lock | smartPtr | other
  | unnamed (code : UnnamedCode 3)
  deriving DecidableEq, Repr, Inhabited

/-- `RaiiLocal` over a type of names: strings in the public form, ids in the stored one
(`StoredRaiiLocal`). -/
structure RaiiLocal (ι : Type*) where
  typeName : ι
  varName : ι
  declLocation : ι
  kind : RaiiKind := .other
  deriving DecidableEq, Repr, Inhabited

/-- Rename the strings of a local. -/
def RaiiLocal.map {ι ι' : Type*} (f : ι → ι') (l : RaiiLocal ι) : RaiiLocal ι' :=
  ⟨f l.typeName, f l.varName, f l.declLocation, l.kind⟩

/-- `CatchHandlerInfo`. -/
structure CatchHandlerInfo where
  caughtType : Bytes
  isCatchAll : Bool := false
  location : Bytes := []
  bodySummary : Bytes := []
  rethrows : Bool := false
  deriving DecidableEq, Repr, Inhabited

/-- `TryCatchScope`. -/
structure TryCatchScope where
  tryLocation : Bytes
  enclosingFunction : Bytes := []
  handlers : List CatchHandlerInfo := []
  nestingDepth : ℕ := 0
  deriving DecidableEq, Repr, Inhabited

/-- `NoexceptSpec`. -/
inductive NoexceptSpec where
  | none | noexcept | noexceptFalse | throwNone | unknown
  | unnamed (code : UnnamedCode 5)
  deriving DecidableEq, Repr, Inhabited

/-- `ConditionalGuard`. -/
structure ConditionalGuard where
  conditionText : Bytes
  location : Bytes := []
  inTrueBranch : Bool := true
  isAssertion : Bool := false
  deriving DecidableEq, Repr, Inhabited

/-- `CallSiteContext`. -/
structure CallSiteContext where
  callerName : Bytes
  calleeName : Bytes
  callSite : Bytes
  callerUsr : Bytes := []
  calleeUsr : Bytes := []
  tuPath : Bytes := []
  enclosingTryCatches : List TryCatchScope := []
  enclosingGuards : List ConditionalGuard := []
  callerNoexcept : NoexceptSpec := .none
  insideCatchBlock : Bool := false
  liveRaiiLocals : List (RaiiLocal Bytes) := []
  deriving DecidableEq, Repr, Inhabited

/-! ### Conversion to index text -/

/-- A handler as index text. -/
def CatchHandlerInfo.stored (h : CatchHandlerInfo) : CatchHandlerInfo :=
  { h with caughtType := toIndexText h.caughtType, location := toIndexText h.location,
           bodySummary := toIndexText h.bodySummary }

/-- A scope as index text. -/
def TryCatchScope.stored (s : TryCatchScope) : TryCatchScope :=
  { s with tryLocation := toIndexText s.tryLocation,
           enclosingFunction := toIndexText s.enclosingFunction,
           handlers := s.handlers.map CatchHandlerInfo.stored }

/-- A guard as index text. -/
def ConditionalGuard.stored (g : ConditionalGuard) : ConditionalGuard :=
  { g with conditionText := toIndexText g.conditionText, location := toIndexText g.location }

/-- The conversions at the head of `addCallSiteContext`, with the fallback to the display
names for a context without usrs. -/
def CallSiteContext.stored (c : CallSiteContext) : CallSiteContext :=
  { c with
    callerName := toIndexText c.callerName
    calleeName := toIndexText c.calleeName
    callSite := toIndexText c.callSite
    callerUsr := toIndexText (if c.callerUsr = [] then c.callerName else c.callerUsr)
    calleeUsr := toIndexText (if c.calleeUsr = [] then c.calleeName else c.calleeUsr)
    tuPath := toIndexText c.tuPath
    enclosingTryCatches := c.enclosingTryCatches.map TryCatchScope.stored
    enclosingGuards := c.enclosingGuards.map ConditionalGuard.stored
    liveRaiiLocals := c.liveRaiiLocals.map (RaiiLocal.map toIndexText) }

/-! ### Canonical keys -/

/-- `keyStr`: a string behind its length. -/
def keyStr (s : Bytes) : List ℕ := s.length :: s.map UInt8.toNat

/-- A flag of a key. -/
def keyBool (b : Bool) : List ℕ := [if b then 1 else 0]

/-- The part of a key that one handler writes. -/
def handlerKey (h : CatchHandlerInfo) : List ℕ :=
  keyStr h.caughtType ++ keyBool h.isCatchAll ++ keyBool h.rethrows ++ keyStr h.location ++
    keyStr h.bodySummary

/-- The part of a key that one scope writes. -/
def scopeKey (s : TryCatchScope) : List ℕ :=
  keyStr s.tryLocation ++ keyStr s.enclosingFunction ++ [s.nestingDepth] ++
    (s.handlers.length :: s.handlers.flatMap handlerKey)

/-- `scopeSetKey`. -/
def scopeSetKey (scopes : List TryCatchScope) : List ℕ := scopes.flatMap scopeKey

/-- The part of a key that one guard writes. -/
def guardKey (g : ConditionalGuard) : List ℕ :=
  keyStr g.conditionText ++ keyStr g.location ++ keyBool g.inTrueBranch ++ keyBool g.isAssertion

/-- `guardSetKey`. -/
def guardSetKey (guards : List ConditionalGuard) : List ℕ := guards.flatMap guardKey

/-- The byte of a `RaiiKind`. -/
def RaiiKind.code : RaiiKind → UInt8
  | .lock => 0
  | .smartPtr => 1
  | .other => 2
  | .unnamed c => c

/-- `static_cast<RaiiKind>` of a byte. -/
def RaiiKind.ofCode (c : UInt8) : RaiiKind :=
  if h : 3 ≤ c.toNat then .unnamed ⟨c, h⟩
  else if c = 0 then .lock
  else if c = 1 then .smartPtr
  else .other

@[simp] theorem RaiiKind.ofCode_code (k : RaiiKind) : RaiiKind.ofCode k.code = k := by
  cases k with
  | unnamed c => simp [RaiiKind.ofCode, RaiiKind.code, c.2]
  | _ => rfl

theorem RaiiKind.code_injective : Function.Injective RaiiKind.code :=
  Function.LeftInverse.injective RaiiKind.ofCode_code

/-- The part of a key that one interned local writes. -/
def raiiKey (l : RaiiLocal SId) : List ℕ :=
  [l.typeName] ++ [l.varName] ++ [l.declLocation] ++ [l.kind.code.toNat]

/-- `raiiSetKey`. -/
def raiiSetKey (locals : List (RaiiLocal SId)) : List ℕ := locals.flatMap raiiKey

theorem selfDelimiting_keyStr : SelfDelimiting keyStr := by
  have hletters : SelfDelimiting fun b : UInt8 => [b.toNat] :=
    .letter fun a b h => UInt8.toNat_inj.mp h
  have hcounted := hletters.counted (f := fun n : ℕ => n) fun _ _ h => h
  intro s s' r r' h
  have hmap : ∀ s : Bytes, s.flatMap (fun b => [b.toNat]) = s.map UInt8.toNat :=
    fun s => (List.map_eq_flatMap).symm
  refine hcounted s s' r r' ?_
  simpa only [keyStr, hmap] using h

theorem selfDelimiting_keyBool : SelfDelimiting keyBool :=
  .letter fun a b h => by cases a <;> cases b <;> simp_all

theorem selfDelimiting_handlerKey : SelfDelimiting handlerKey :=
  ((((selfDelimiting_keyStr.pair selfDelimiting_keyBool).pair selfDelimiting_keyBool).pair
    selfDelimiting_keyStr).pair selfDelimiting_keyStr).comap
      (f := fun h : CatchHandlerInfo =>
        ((((h.caughtType, h.isCatchAll), h.rethrows), h.location), h.bodySummary))
      fun a b h => by cases a; cases b; simp_all

theorem selfDelimiting_scopeKey : SelfDelimiting scopeKey :=
  (((selfDelimiting_keyStr.pair selfDelimiting_keyStr).pair (.letter fun _ _ h => h)).pair
    (selfDelimiting_handlerKey.counted (f := fun n : ℕ => n) fun _ _ h => h)).comap
      (f := fun s : TryCatchScope =>
        (((s.tryLocation, s.enclosingFunction), s.nestingDepth), s.handlers))
      fun a b h => by cases a; cases b; simp_all

theorem selfDelimiting_guardKey : SelfDelimiting guardKey :=
  (((selfDelimiting_keyStr.pair selfDelimiting_keyStr).pair selfDelimiting_keyBool).pair
    selfDelimiting_keyBool).comap
      (f := fun g : ConditionalGuard =>
        (((g.conditionText, g.location), g.inTrueBranch), g.isAssertion))
      fun a b h => by cases a; cases b; simp_all

theorem selfDelimiting_raiiKey : SelfDelimiting raiiKey :=
  ((((SelfDelimiting.letter (f := fun n : ℕ => n) fun _ _ h => h).pair
    (.letter (f := fun n : ℕ => n) fun _ _ h => h)).pair
      (.letter (f := fun n : ℕ => n) fun _ _ h => h)).pair
        (.letter (f := fun k : RaiiKind => k.code.toNat) fun _ _ h =>
          RaiiKind.code_injective (UInt8.toNat_inj.mp h))).comap
      (f := fun l : RaiiLocal SId => (((l.typeName, l.varName), l.declLocation), l.kind))
      fun a b h => by cases a; cases b; simp_all

/-- Two scope sets with one key are field for field equal. -/
theorem scopeSetKey_injective : Function.Injective scopeSetKey :=
  selfDelimiting_scopeKey.flatMap_injective fun s => by simp [scopeKey, keyStr]

theorem guardSetKey_injective : Function.Injective guardSetKey :=
  selfDelimiting_guardKey.flatMap_injective fun g => by simp [guardKey, keyStr]

theorem raiiSetKey_injective : Function.Injective raiiSetKey :=
  selfDelimiting_raiiKey.flatMap_injective fun l => by simp [raiiKey]

/-! ### The stored form -/

/-- `StoredContext`. A context without provenance (`kNoString`) has no `tuPath`. -/
structure StoredContext where
  caller : SId := 0
  callee : SId := 0
  callerDisplay : SId := 0
  calleeDisplay : SId := 0
  site : SId := 0
  tuPath : Option SId := none
  scopeSet : ℕ := 0
  guardSet : ℕ := 0
  raiiSet : ℕ := 0
  callerNoexcept : NoexceptSpec := .none
  insideCatchBlock : Bool := false
  live : Bool := false
  deriving DecidableEq, Inhabited

end Vycor
