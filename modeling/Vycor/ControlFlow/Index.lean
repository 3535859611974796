import Vycor.ControlFlow.Mapped

/-!
# The control-flow index

`ControlFlowIndex` stores the contexts of call sites, interned and with shared sets, and
answers queries by call site, caller and callee. The mutators of the source that test
`mapped_` return at once on a mapped index. The queries run over positions: of the context
log, or of the records of the mapped file. They answer `none` when an access leaves its
table or region; the theorems say that this never happens.

Maps from ids to vectors of positions are functions to `Option (List ℕ)` where the source
asks whether an entry exists, which is not the same as whether it is empty.
-/

namespace Vycor

/-- The state of a `ControlFlowIndex`. -/
structure ControlFlowIndex where
  interner : StringInterner := {}
  contexts : List StoredContext := []
  scopeSets : List (List TryCatchScope) := [[]]
  guardSets : List (List ConditionalGuard) := [[]]
  raiiSets : List (List (RaiiLocal SId)) := [[]]
  scopeSetIds : List ℕ → Option ℕ := fun _ => none
  guardSetIds : List ℕ → Option ℕ := fun _ => none
  raiiSetIds : List ℕ → Option ℕ := fun _ => none
  byCallee : SId → Option (List ℕ) := fun _ => none
  byCaller : SId → Option (List ℕ) := fun _ => none
  byCalleeDisplay : SId → Option (List ℕ) := fun _ => none
  byCallerDisplay : SId → Option (List ℕ) := fun _ => none
  bySite : SId → Option (List ℕ) := fun _ => none
  byTu : SId → List ℕ := fun _ => []
  noProvenance : List ℕ := []
  liveCount : ℕ := 0
  mapped : Option MappedStore := none

instance : Inhabited ControlFlowIndex := ⟨{}⟩

/-- `m[k].push_back(i)` on a map whose entries are asked for. -/
def pushEntry (m : SId → Option (List ℕ)) (k : SId) (i : ℕ) : SId → Option (List ℕ) :=
  Function.update m k (some ((m k).getD [] ++ [i]))

namespace ControlFlowIndex

/-! ### Set tables -/

/-- `internScopeSet`, `internGuardSet` and `internRaiiSet` on a table and its key map: an
empty set is entry 0, a set with a known key is the entry of the key. -/
def internSet {α : Type*} (table : List (List α)) (ids : List ℕ → Option ℕ) (key : List ℕ)
    (set : List α) : List (List α) × (List ℕ → Option ℕ) × ℕ :=
  if set = [] then (table, ids, 0)
  else
    match ids key with
    | some id => (table, ids, id)
    | none => (table ++ [set], Function.update ids key (some table.length), table.length)

/-- `internScopeSet`. -/
def internScopeSet (cf : ControlFlowIndex) (scopes : List TryCatchScope) :
    ControlFlowIndex × ℕ :=
  let r := internSet cf.scopeSets cf.scopeSetIds (scopeSetKey scopes) scopes
  ({ cf with scopeSets := r.1, scopeSetIds := r.2.1 }, r.2.2)

/-- `internGuardSet`. -/
def internGuardSet (cf : ControlFlowIndex) (guards : List ConditionalGuard) :
    ControlFlowIndex × ℕ :=
  let r := internSet cf.guardSets cf.guardSetIds (guardSetKey guards) guards
  ({ cf with guardSets := r.1, guardSetIds := r.2.1 }, r.2.2)

/-- `internRaiiSet`. -/
def internRaiiSet (cf : ControlFlowIndex) (locals : List (RaiiLocal SId)) :
    ControlFlowIndex × ℕ :=
  let r := internSet cf.raiiSets cf.raiiSetIds (raiiSetKey locals) locals
  ({ cf with raiiSets := r.1, raiiSetIds := r.2.1 }, r.2.2)

/-! ### Adding -/

/-- `interner_.intern`. -/
def intern (cf : ControlFlowIndex) (s : Bytes) : ControlFlowIndex × SId :=
  ({ cf with interner := (cf.interner.intern s).1 }, (cf.interner.intern s).2)

/-- `insertStored`; the record is made live. `trackTu` is off for a read-only load. -/
def insertStored (cf : ControlFlowIndex) (se : StoredContext) (trackTu : Bool := true) :
    ControlFlowIndex :=
  let idx := cf.contexts.length
  { cf with
    byCallee := pushEntry cf.byCallee se.callee idx
    byCaller := pushEntry cf.byCaller se.caller idx
    byCalleeDisplay :=
      if se.calleeDisplay ≠ se.callee then pushEntry cf.byCalleeDisplay se.calleeDisplay idx
      else cf.byCalleeDisplay
    byCallerDisplay :=
      if se.callerDisplay ≠ se.caller then pushEntry cf.byCallerDisplay se.callerDisplay idx
      else cf.byCallerDisplay
    bySite := pushEntry cf.bySite se.site idx
    byTu := match trackTu, se.tuPath with
      | true, some tu => pushAt cf.byTu tu idx
      | _, _ => cf.byTu
    noProvenance := match trackTu, se.tuPath with
      | true, none => cf.noProvenance ++ [idx]
      | _, _ => cf.noProvenance
    contexts := cf.contexts ++ [{ se with live := true }]
    liveCount := cf.liveCount + 1 }

/-- Intern the strings of one local. -/
def internLocal (cf : ControlFlowIndex) (l : RaiiLocal Bytes) :
    ControlFlowIndex × RaiiLocal SId :=
  let t := cf.intern l.typeName
  let v := t.1.intern l.varName
  let d := v.1.intern l.declLocation
  (d.1, ⟨t.2, v.2, d.2, l.kind⟩)

/-- Intern the strings of the locals in order. -/
def internLocals : ControlFlowIndex → List (RaiiLocal Bytes) →
    ControlFlowIndex × List (RaiiLocal SId)
  | cf, [] => (cf, [])
  | cf, l :: rest =>
    let r := cf.internLocal l
    let more := r.1.internLocals rest
    (more.1, r.2 :: more.2)

/-- `addCallSiteContext`. -/
def addCallSiteContext (cf : ControlFlowIndex) (ctx : CallSiteContext) : ControlFlowIndex :=
  if cf.mapped.isSome then cf
  else
    let calleeDisplay := cf.intern (toIndexText ctx.calleeName)
    let callerDisplay := calleeDisplay.1.intern (toIndexText ctx.callerName)
    -- name-only contexts key by display
    let callee :=
      if toIndexText ctx.calleeUsr = [] then (callerDisplay.1, calleeDisplay.2)
      else callerDisplay.1.intern (toIndexText ctx.calleeUsr)
    let caller :=
      if toIndexText ctx.callerUsr = [] then (callee.1, callerDisplay.2)
      else callee.1.intern (toIndexText ctx.callerUsr)
    let site := caller.1.intern (toIndexText ctx.callSite)
    let tu :=
      if toIndexText ctx.tuPath = [] then (site.1, none)
      else ((site.1.intern (toIndexText ctx.tuPath)).1,
        some (site.1.intern (toIndexText ctx.tuPath)).2)
    let locals := tu.1.internLocals (ctx.liveRaiiLocals.map (RaiiLocal.map toIndexText))
    let scopeSet := locals.1.internScopeSet (ctx.enclosingTryCatches.map TryCatchScope.stored)
    let guardSet := scopeSet.1.internGuardSet (ctx.enclosingGuards.map ConditionalGuard.stored)
    let raiiSet := guardSet.1.internRaiiSet locals.2
    raiiSet.1.insertStored
      { caller := caller.2, callee := callee.2, callerDisplay := callerDisplay.2,
        calleeDisplay := calleeDisplay.2, site := site.2, tuPath := tu.2,
        scopeSet := scopeSet.2, guardSet := guardSet.2, raiiSet := raiiSet.2,
        callerNoexcept := ctx.callerNoexcept, insideCatchBlock := ctx.insideCatchBlock }

/-! ### Absorbing a shard -/

/-- Intern the entries of a shard's set table from index 1 on; the second component maps
their indices, entry 0 to 0. -/
def absorbSets {α : Type*} (internOne : ControlFlowIndex → α → ControlFlowIndex × ℕ)
    (cf : ControlFlowIndex) (table : List α) : ControlFlowIndex × List ℕ :=
  table.tail.foldl (fun acc set =>
    ((internOne acc.1 set).1, acc.2 ++ [(internOne acc.1 set).2])) (cf, [0])

/-- One shard context, with the maps of ids and set indices. -/
def absorbContext (remap : SId → SId) (scopeRemap guardRemap raiiRemap : List ℕ)
    (cf : ControlFlowIndex) (se : StoredContext) : ControlFlowIndex :=
  if !se.live then cf
  else cf.insertStored
    { se with
      caller := remap se.caller, callee := remap se.callee
      callerDisplay := remap se.callerDisplay, calleeDisplay := remap se.calleeDisplay
      site := remap se.site, tuPath := se.tuPath.map remap
      scopeSet := scopeRemap.getD se.scopeSet 0
      guardSet := guardRemap.getD se.guardSet 0
      raiiSet := raiiRemap.getD se.raiiSet 0 }

/-- `ControlFlowIndex::absorb` of another index. -/
def absorb (cf shard : ControlFlowIndex) : ControlFlowIndex :=
  if cf.mapped.isSome || shard.mapped.isSome then cf
  else
    let table := cf.interner.internAll shard.interner.strings
    let remap : SId → SId := fun id => table.2.getD id 0
    let cf := { cf with interner := table.1 }
    let scopes := absorbSets internScopeSet cf shard.scopeSets
    let guards := absorbSets internGuardSet scopes.1 shard.guardSets
    -- the ids of the locals are remapped before the set is keyed
    let raiis := absorbSets (fun cf locals => cf.internRaiiSet (locals.map (RaiiLocal.map remap)))
      guards.1 shard.raiiSets
    shard.contexts.foldl (absorbContext remap scopes.2 guards.2 raiis.2) raiis.1

/-! ### Removing TUs -/

/-- The state of the loop over the candidates of `removeTUs`. -/
structure Removal where
  contexts : List StoredContext
  liveCount : ℕ
  dead : List ℕ := []
  affectedCallees : List SId := []
  affectedCallers : List SId := []
  affectedCalleeDisplays : List SId := []
  affectedCallerDisplays : List SId := []
  affectedSites : List SId := []
  removed : ℕ := 0

/-- One candidate: a live context of a removed TU dies. -/
def Removal.candidate (dies : StoredContext → Bool) (r : Removal) (i : ℕ) : Removal :=
  match r.contexts[i]? with
  | none => r
  | some se =>
    if !se.live then r
    else if !dies se then r
    else
      { contexts := r.contexts.set i { se with live := false }
        liveCount := r.liveCount - 1
        dead := i :: r.dead
        affectedCallees := se.callee :: r.affectedCallees
        affectedCallers := se.caller :: r.affectedCallers
        affectedCalleeDisplays :=
          if se.calleeDisplay ≠ se.callee then se.calleeDisplay :: r.affectedCalleeDisplays
          else r.affectedCalleeDisplays
        affectedCallerDisplays :=
          if se.callerDisplay ≠ se.caller then se.callerDisplay :: r.affectedCallerDisplays
          else r.affectedCallerDisplays
        affectedSites := se.site :: r.affectedSites
        removed := r.removed + 1 }

/-- `scrub`, for the ids in a list; `m[id]` keeps the entry. -/
def scrubEntries (dead ids : List ℕ) (m : SId → Option (List ℕ)) : SId → Option (List ℕ) :=
  fun id => if id ∈ ids then some (((m id).getD []).filter (· ∉ dead)) else m id

/-- The scrub of `bySite_`, which erases an entry that becomes empty. -/
def scrubSites (dead ids : List ℕ) (m : SId → Option (List ℕ)) : SId → Option (List ℕ) :=
  fun id =>
    if id ∈ ids then
      match m id with
      | none => none
      | some v => if v.filter (· ∉ dead) = [] then none else some (v.filter (· ∉ dead))
    else m id

/-- The TU paths of `removeTUs` as sorted index text without repeats. -/
def tuTexts (tuPaths : List Bytes) : List Bytes :=
  ((tuPaths.map toIndexText).mergeSort (· ≤ ·)).dedup

/-- `fromRemovedTu`: the call site starts with one of the paths and a colon. -/
def fromRemovedTu (cf : ControlFlowIndex) (texts : List Bytes) (se : StoredContext) : Bool :=
  texts.any fun tu => (tu ++ [58]).isPrefixOf (cf.interner.resolve se.site)

/-- `ControlFlowIndex::removeTUs`: the index and the number of contexts removed. -/
def removeTUs (cf : ControlFlowIndex) (tuPaths : List Bytes) : ControlFlowIndex × ℕ :=
  if cf.mapped.isSome then (cf, 0)
  else
    let texts := tuTexts tuPaths
    let tuIds := texts.filterMap cf.interner.find
    let r : Removal := { contexts := cf.contexts, liveCount := cf.liveCount }
    let r := (tuIds.flatMap cf.byTu).foldl (Removal.candidate fun _ => true) r
    let r := cf.noProvenance.foldl (Removal.candidate (cf.fromRemovedTu texts)) r
    ({ cf with
        contexts := r.contexts
        liveCount := r.liveCount
        byCallee := scrubEntries r.dead r.affectedCallees cf.byCallee
        byCaller := scrubEntries r.dead r.affectedCallers cf.byCaller
        byCalleeDisplay := scrubEntries r.dead r.affectedCalleeDisplays cf.byCalleeDisplay
        byCallerDisplay := scrubEntries r.dead r.affectedCallerDisplays cf.byCallerDisplay
        bySite := scrubSites r.dead r.affectedSites cf.bySite
        byTu := fun id => if id ∈ tuIds then [] else cf.byTu id
        noProvenance := cf.noProvenance.filter (· ∉ r.dead) },
      r.removed)

/-- `ControlFlowIndex::compact`: the live contexts are inserted anew into empty maps; the
source does not touch `liveCount_`. -/
def compact (cf : ControlFlowIndex) : ControlFlowIndex :=
  if cf.mapped.isSome then cf
  else
    { (cf.contexts.filter (·.live)).foldl insertStored
        { cf with
          contexts := []
          byCallee := fun _ => none
          byCaller := fun _ => none
          byCalleeDisplay := fun _ => none
          byCallerDisplay := fun _ => none
          bySite := fun _ => none
          byTu := fun _ => []
          noProvenance := []
          liveCount := 0 } with
      liveCount := cf.liveCount }

/-! ### Queries -/

section Queries

variable (ll : Llvm) (cf : ControlFlowIndex)

/-- `stringOf`. -/
def stringOf (id : SId) : Option Bytes :=
  match cf.mapped with
  | some m => (m.mappedString id).map (lookupText ll)
  | none => some (cf.interner.resolve id)

/-- The strings of the locals of a set. -/
def localsOf : List (RaiiLocal SId) → Option (List (RaiiLocal Bytes))
  | [] => some []
  | l :: rest => do
    let typeName ← cf.stringOf ll l.typeName
    let varName ← cf.stringOf ll l.varName
    let declLocation ← cf.stringOf ll l.declLocation
    let more ← localsOf rest
    some (⟨typeName, varName, declLocation, l.kind⟩ :: more)

/-- The TU of a record, empty for `kNoString`. -/
def tuOf (se : StoredContext) : Option Bytes :=
  match se.tuPath with
  | some tu => cf.stringOf ll tu
  | none => some []

/-- `materialize`. -/
def materialize (se : StoredContext) : Option CallSiteContext := do
  let callerName ← cf.stringOf ll se.callerDisplay
  let calleeName ← cf.stringOf ll se.calleeDisplay
  let callerUsr ← cf.stringOf ll se.caller
  let calleeUsr ← cf.stringOf ll se.callee
  let callSite ← cf.stringOf ll se.site
  let tuPath ← cf.tuOf ll se
  let enclosingTryCatches ← cf.scopeSets[se.scopeSet]?
  let enclosingGuards ← cf.guardSets[se.guardSet]?
  let locals ← cf.raiiSets[se.raiiSet]?
  let liveRaiiLocals ← cf.localsOf ll locals
  some
    { callerName, calleeName, callSite, callerUsr, calleeUsr, tuPath, enclosingTryCatches,
      enclosingGuards, callerNoexcept := se.callerNoexcept
      insideCatchBlock := se.insideCatchBlock, liveRaiiLocals }

/-- `storedAt`. -/
def storedAt (pos : ℕ) : Option StoredContext :=
  match cf.mapped with
  | some m => m.mappedRecord cf.scopeSets.length cf.guardSets.length cf.raiiSets.length pos
  | none => cf.contexts[pos]?

/-- `findId`; the outer `Option` is the access. -/
def findId (raw : Bytes) : Option (Option SId) :=
  match cf.mapped with
  | some m => m.searchId (lookupText ll raw) 0 m.stringCount
  | none => some (cf.interner.find (lookupText ll raw))

/-- `sitePositions`. -/
def sitePositions (callSite : Bytes) : Option (List ℕ) := do
  match ← cf.findId ll callSite with
  | none => some []
  | some id =>
    match cf.mapped with
    | some m => do
      let range ← m.mappedRange none m.recordCount 16 id
      some (List.range' range.1 (range.2 - range.1))
    | none => some ((cf.bySite id).getD [])

/-- `ControlFlowIndex::Side`. -/
inductive Side where
  | caller | callee
  deriving DecidableEq

/-- The usr order of a side in the mapped file and the offset of its field. -/
def Side.order : Side → MappedStore → Region × ℕ
  | .caller, m => (m.byCaller, 0)
  | .callee, m => (m.byCallee, 4)

/-- The display order of a side, its length and the offset of its field. -/
def Side.displayOrder : Side → MappedStore → Region × ℕ × ℕ
  | .caller, m => (m.byCallerDisplay, m.callerDisplayCount, 8)
  | .callee, m => (m.byCalleeDisplay, m.calleeDisplayCount, 12)

/-- The usr map of a side. -/
def Side.usrMap : Side → ControlFlowIndex → SId → Option (List ℕ)
  | .caller, cf => cf.byCaller
  | .callee, cf => cf.byCallee

/-- The display map of a side. -/
def Side.displayMap : Side → ControlFlowIndex → SId → Option (List ℕ)
  | .caller, cf => cf.byCallerDisplay
  | .callee, cf => cf.byCalleeDisplay

/-- The positions an order array lists in a range. -/
def MappedStore.positionsIn (m : MappedStore) (order : Region) (range : ℕ × ℕ) :
    Option (List ℕ) :=
  (List.range' range.1 (range.2 - range.1)).mapM fun i => m.orderAt (some order) i

/-- `namePositions`: the usr map wins, the display map is the fallback. -/
def namePositions (side : Side) (name : Bytes) : Option (List ℕ) := do
  match ← cf.findId ll name with
  | none => some []
  | some id =>
    match cf.mapped with
    | some m => do
      let range ← m.mappedRange (some (side.order m).1) m.recordCount (side.order m).2 id
      if range.1 = range.2 then
        let (order, count, field) := side.displayOrder m
        let range ← m.mappedRange (some order) count field id
        MappedStore.positionsIn m order range
      else MappedStore.positionsIn m (side.order m).1 range
    | none =>
      match side.usrMap cf id with
      | some positions => some positions
      | none => some ((side.displayMap cf id).getD [])

/-- The live contexts at some positions that pass a test, in order. -/
def collect (keep : StoredContext → Bool) : List ℕ → Option (List CallSiteContext)
  | [] => some []
  | pos :: rest => do
    let se ← cf.storedAt pos
    if se.live && keep se then do
      let ctx ← cf.materialize ll se
      let more ← collect keep rest
      some (ctx :: more)
    else collect keep rest

/-- The first live record at some positions that passes a test. -/
def firstStored (keep : StoredContext → Bool) : List ℕ → Option (Option StoredContext)
  | [] => some none
  | pos :: rest => do
    let se ← cf.storedAt pos
    if se.live && keep se then some (some se) else firstStored keep rest

/-- The context of a record that was found. -/
def materializeFound : Option StoredContext → Option (Option CallSiteContext)
  | none => some none
  | some se => (cf.materialize ll se).map some

/-- `contextAtSite(callSite)`. -/
def contextAtSite (callSite : Bytes) : Option (Option CallSiteContext) := do
  let positions ← cf.sitePositions ll callSite
  let found ← cf.firstStored (fun _ => true) positions
  cf.materializeFound ll found

/-- `contextAtSite(callSite, callerUsrOrName)`. -/
def contextAtSiteOf (callSite callerUsrOrName : Bytes) : Option (Option CallSiteContext) := do
  match ← cf.findId ll callerUsrOrName with
  | none => some none
  | some callerId => do
    let positions ← cf.sitePositions ll callSite
    let found ← cf.firstStored
      (fun se => se.caller = callerId || se.callerDisplay = callerId) positions
    cf.materializeFound ll found

/-- `contextsAtSite`. -/
def contextsAtSite (callSite : Bytes) : Option (List CallSiteContext) := do
  let positions ← cf.sitePositions ll callSite
  cf.collect ll (fun _ => true) positions

/-- The order `contextForEdge` sorts by: the callee asked for first, then the callee usr, the
TU and the caller spelling. -/
def edgeContextBefore (calleeUsr : Bytes) (a b : CallSiteContext) : Bool :=
  if decide (a.calleeUsr = calleeUsr) ≠ decide (b.calleeUsr = calleeUsr) then
    a.calleeUsr = calleeUsr
  else if a.calleeUsr ≠ b.calleeUsr then a.calleeUsr < b.calleeUsr
  else if a.tuPath ≠ b.tuPath then a.tuPath < b.tuPath
  else a.callerName < b.callerName

/-- The choice of `contextForEdge` among the contexts at the site. -/
def pickForEdge (callerUsr calleeUsr : Bytes) (contexts : List CallSiteContext) :
    Option CallSiteContext :=
  let mine := contexts.filter fun ctx => ctx.callerUsr = callerUsr || ctx.callerName = callerUsr
  (mine.mergeSort fun a b => !edgeContextBefore calleeUsr b a).head?

/-- `contextForEdge`. -/
def contextForEdge (callSite callerUsr calleeUsr : Bytes) : Option (Option CallSiteContext) := do
  let contexts ← cf.contextsAtSite ll callSite
  some (pickForEdge callerUsr calleeUsr contexts)

/-- `contextsForCallee`. -/
def contextsForCallee (calleeName : Bytes) : Option (List CallSiteContext) := do
  let positions ← cf.namePositions ll .callee calleeName
  cf.collect ll (fun _ => true) positions

/-- `contextsForCaller`. -/
def contextsForCaller (callerName : Bytes) : Option (List CallSiteContext) := do
  let positions ← cf.namePositions ll .caller callerName
  cf.collect ll (fun _ => true) positions

/-- `callerNoexceptOf`. -/
def callerNoexceptOf (caller : Bytes) : Option (Option NoexceptSpec) := do
  let positions ← cf.namePositions ll .caller caller
  let found ← cf.firstStored (fun _ => true) positions
  some (found.map (·.callerNoexcept))

/-- `protectedCallsTo`. -/
def protectedCallsTo (calleeName : Bytes) : Option (List CallSiteContext) := do
  let positions ← cf.namePositions ll .callee calleeName
  cf.collect ll (fun se => se.scopeSet ≠ 0) positions

/-- `unprotectedCallsTo`. -/
def unprotectedCallsTo (calleeName : Bytes) : Option (List CallSiteContext) := do
  let positions ← cf.namePositions ll .callee calleeName
  cf.collect ll (fun se => se.scopeSet = 0) positions

/-- `forEachContext`, the contexts visited in order. -/
def forEachContext : Option (List CallSiteContext) :=
  match cf.mapped with
  | some m => cf.collect ll (fun _ => true) (List.range m.recordCount)
  | none => cf.collect ll (fun _ => true) (List.range cf.contexts.length)

end Queries

end ControlFlowIndex

end Vycor
