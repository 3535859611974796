import Vycor.ControlFlow.Remove
import Vycor.Lib.CountingSort
import Vycor.Lib.StdSort
import Vycor.Snapshot.Records

/-!
# The control-flow section of a snapshot

The section holds the interner table behind its length, the set tables in full, the live
contexts sorted by call site, and the arrays that a mapped load bisects. `records` is what a
save writes of an index; a load for changes reads the records back and steps over the arrays
(`readControlFlow_putControlFlow`).
-/

namespace Vycor

open Reader

/-! ### Records -/

/-- The section but for the arrays, which `putLookups` makes from it. -/
structure ControlFlowRecords where
  strings : List Bytes
  scopeSets : List (List TryCatchScope)
  guardSets : List (List ConditionalGuard)
  raiiSets : List (List (RaiiLocal SId))
  contexts : List StoredContext

namespace ControlFlowIndex

/-- The context at a position of the log. -/
def contextAt (cf : ControlFlowIndex) (i : ℕ) : StoredContext := cf.contexts.getD i {}

/-- `live`: the positions of the live contexts. -/
def liveIds (cf : ControlFlowIndex) : List ℕ :=
  (List.range cf.contexts.length).filter fun i => (cf.contextAt i).live

/-- `order`: the live contexts by call site. -/
def saveOrder (cf : ControlFlowIndex) : List ℕ :=
  countingSort cf.interner.size (fun i => (cf.contextAt i).site) cf.liveIds

/-- The records that `SnapshotIO::save` writes of a control-flow index. -/
def records (cf : ControlFlowIndex) : ControlFlowRecords where
  strings := cf.interner.strings
  scopeSets := cf.scopeSets
  guardSets := cf.guardSets
  raiiSets := cf.raiiSets
  contexts := cf.saveOrder.map cf.contextAt

end ControlFlowIndex

/-! ### Writing -/

/-- A handler. -/
def putHandler (h : CatchHandlerInfo) : Bytes :=
  [putStr h.caughtType, putFlag h.isCatchAll, putFlag h.rethrows, putStr h.location,
    putStr h.bodySummary].flatten

/-- A scope. -/
def putScope (s : TryCatchScope) : Bytes :=
  [putStr s.tryLocation, putStr s.enclosingFunction, putId s.nestingDepth,
    putCounted putHandler s.handlers].flatten

/-- An interned local. -/
def putLocal (l : RaiiLocal SId) : Bytes :=
  [putId l.typeName, putId l.varName, putId l.declLocation, putU8 l.kind.code].flatten

/-- The number of a TU, `kNoString` for none. -/
def tuCode (tu : Option SId) : ℕ := tu.getD kNoString

/-- A context. -/
def putContext (se : StoredContext) : Bytes :=
  [putId se.caller, putId se.callee, putId se.callerDisplay, putId se.calleeDisplay, putId se.site,
    putId (tuCode se.tuPath), putId se.scopeSet, putId se.guardSet, putId se.raiiSet,
    putU8 se.callerNoexcept.code, putFlag se.insideCatchBlock].flatten

/-- `stringOffsets`: where the entries start, the first one at `at`. -/
def stringOffsets (start : ℕ) : List Bytes → List ℕ
  | [] => []
  | s :: rest => start :: stringOffsets (start + (putStr s).length) rest

/-- A string of the table. -/
def ControlFlowRecords.stringAt (r : ControlFlowRecords) (id : SId) : Bytes := r.strings.getD id []

/-- The comparison of the ids. -/
def ControlFlowRecords.idBefore (r : ControlFlowRecords) (a b : SId) : Bool :=
  r.stringAt a < r.stringAt b

namespace ControlFlowRecords

variable (r : ControlFlowRecords)

/-- `recordAt`. -/
def recordAt (p : ℕ) : StoredContext := r.contexts.getD p {}

/-- The positions of the records. -/
def recordPositions : List ℕ := List.range r.contexts.length

/-- The positions by an id. -/
def orderBy (key : StoredContext → ℕ) : List ℕ :=
  countingSort r.strings.length (fun p => key (r.recordAt p)) r.recordPositions

/-- `displayOrder`: the records with another display id, by it. -/
def displayOrder (usr display : StoredContext → ℕ) : List ℕ :=
  countingSort r.strings.length (fun p => display (r.recordAt p))
    (r.recordPositions.filter fun p => display (r.recordAt p) ≠ usr (r.recordAt p))

end ControlFlowRecords

/-- The numbers of an array. -/
def putArray (l : List ℕ) : Bytes := l.flatMap putId

/-- The arrays that a mapped load reads in place. -/
def putLookups (r : ControlFlowRecords) (sort : Sorter r.idBefore) : Bytes :=
  [putArray (stringOffsets 0 r.strings), putArray (sort.run (List.range r.strings.length)),
    putArray (r.orderBy (·.caller)), putArray (r.orderBy (·.callee)),
    putCounted putId (r.displayOrder (·.caller) (·.callerDisplay)),
    putCounted putId (r.displayOrder (·.callee) (·.calleeDisplay))].flatten

/-- The interner table. -/
def putTable (strings : List Bytes) : Bytes := putCounted putStr strings

/-- The set tables. -/
def putSetTables (r : ControlFlowRecords) : Bytes :=
  [putCounted (putCounted putScope) r.scopeSets, putCounted (putCounted putGuard) r.guardSets,
    putCounted (putCounted putLocal) r.raiiSets].flatten

/-- The control-flow section. -/
def putControlFlow (r : ControlFlowRecords) (sort : Sorter r.idBefore) : Bytes :=
  [putId (putTable r.strings).length, putTable r.strings, putSetTables r,
    putCounted putContext r.contexts, putLookups r sort].flatten

/-! ### Reading -/

/-- A handler. -/
def readHandler (ll : Llvm) : Read CatchHandlerInfo := do
  let caughtType ← indexText ll
  let isCatchAll ← flag
  let rethrows ← flag
  let location ← indexText ll
  let bodySummary ← indexText ll
  return { caughtType, isCatchAll, rethrows, location, bodySummary }

/-- A scope. -/
def readScope (ll : Llvm) : Read TryCatchScope := do
  let tryLocation ← indexText ll
  let enclosingFunction ← indexText ll
  let nestingDepth ← readNum
  let handlers ← countedIn (readHandler ll)
  return { tryLocation, enclosingFunction, nestingDepth, handlers }

/-- A local. -/
def readLocal (interned : ℕ) : Read (RaiiLocal SId) := do
  let typeName ← readId interned
  let varName ← readId interned
  let declLocation ← readId interned
  let kind ← u8
  return ⟨typeName, varName, declLocation, RaiiKind.ofCode kind⟩

/-- The TU of a context: a known id or `kNoString`. -/
def readTu (interned : ℕ) : Read (Option SId) := do
  let tu ← checked readNum fun tu => tu = kNoString || decide (tu < interned)
  return if tu = kNoString then none else some tu

/-- A context. Saved contexts are live. -/
def readContext (interned scopes guards raiis : ℕ) : Read StoredContext := do
  let caller ← readId interned
  let callee ← readId interned
  let callerDisplay ← readId interned
  let calleeDisplay ← readId interned
  let site ← readId interned
  let tuPath ← readTu interned
  let scopeSet ← readId scopes
  let guardSet ← readId guards
  let raiiSet ← readId raiis
  let callerNoexcept ← u8
  let insideCatchBlock ← flag
  return {
    caller, callee, callerDisplay, calleeDisplay, site, tuPath, scopeSet, guardSet, raiiSet
    callerNoexcept := NoexceptSpec.ofCode callerNoexcept
    insideCatchBlock, live := true }

/-- A set table, which has the empty set in front. -/
def readSets {α : Type} (item : Read α) : Read (List (List α)) :=
  checked (countedIn (countedIn item)) fun sets => (sets.head?.map List.isEmpty).getD false

/-- The set tables. -/
def readSetTables (ll : Llvm) (interned : ℕ) :
    Read (List (List TryCatchScope) × List (List ConditionalGuard) ×
      List (List (RaiiLocal SId))) := do
  let scopeSets ← readSets (readScope ll)
  let guardSets ← readSets (readGuard ll)
  let raiiSets ← readSets (readLocal interned)
  return (scopeSets, guardSets, raiiSets)

/-- The length of the interner table and the number of its strings; the reader is left in front
of the number. -/
def readTableSize : Read (ℕ × ℕ) := do
  let tableBytes ← readNum
  let table ← get
  let stringCount ← readNum
  let r ← get
  set { table with
    ok := r.ok && decide (4 ≤ tableBytes) && decide (tableBytes ≤ table.rest.length) }
  return (tableBytes, stringCount)

/-- The interner table, which must be as long as it says. -/
def readTableStrings (ll : Llvm) (tableBytes : ℕ) : Read (List Bytes) := do
  let start ← get
  let strings ← countedIn (indexText ll)
  let r ← get
  set { r with ok := r.ok && decide (r.pos = start.pos + tableBytes) }
  return strings

/-- `skipU32s`. -/
def skipU32s (n : ℕ) : Read Unit := do
  let _ ← bytes (4 * n)
  return ()

/-- An array behind its number is stepped over. -/
def skipCounted : Read Unit := do
  let n ← count
  skipU32s n.toNat

/-- The interner table and the number of its strings. -/
def readTable (ll : Llvm) : Read (ℕ × List Bytes) := do
  let (tableBytes, stringCount) ← readTableSize
  let strings ← readTableStrings ll tableBytes
  return (stringCount, strings)

/-- The control-flow section in `SnapshotIO::load`, for a load in mutable mode. -/
def readControlFlow (ll : Llvm) : Read ControlFlowRecords := do
  let (stringCount, strings) ← readTable ll
  let (scopeSets, guardSets, raiiSets) ← readSetTables ll stringCount
  let contexts ← countedIn
    (readContext stringCount scopeSets.length guardSets.length raiiSets.length)
  skipU32s (2 * stringCount)
  skipU32s (2 * contexts.length)
  skipCounted
  skipCounted
  return { strings, scopeSets, guardSets, raiiSets, contexts }

/-! ### What the records need -/

/-- The strings of a scope are index text. -/
def TryCatchScope.IsText (s : TryCatchScope) : Prop :=
  Utf8Text s.tryLocation ∧ Utf8Text s.enclosingFunction ∧
    ∀ h ∈ s.handlers, Utf8Text h.caughtType ∧ Utf8Text h.location ∧ Utf8Text h.bodySummary

/-- The lengths of a handler fit. -/
def CatchHandlerInfo.Fits (h : CatchHandlerInfo) : Prop :=
  h.caughtType.length < 2 ^ 32 ∧ h.location.length < 2 ^ 32 ∧ h.bodySummary.length < 2 ^ 32

/-- The numbers of a scope fit. -/
def TryCatchScope.Fits (s : TryCatchScope) : Prop :=
  s.tryLocation.length < 2 ^ 32 ∧ s.enclosingFunction.length < 2 ^ 32 ∧ s.nestingDepth < 2 ^ 32 ∧
    s.handlers.length < 2 ^ 32 ∧ ∀ h ∈ s.handlers, h.Fits

/-- A set table with entries that can be stored has the empty set in front. -/
structure SetsStorable {α : Type*} (good : α → Prop) (sets : List (List α)) : Prop where
  head : sets.head? = some []
  count : sets.length < 2 ^ 32
  counts : ∀ set ∈ sets, set.length < 2 ^ 32
  good : ∀ set ∈ sets, ∀ a ∈ set, good a

/-- The ids of a record are known. -/
structure ContextKnown (interned scopes guards raiis : ℕ) (se : StoredContext) : Prop where
  caller : se.caller < interned
  callee : se.callee < interned
  callerDisplay : se.callerDisplay < interned
  calleeDisplay : se.calleeDisplay < interned
  site : se.site < interned
  tuPath : ∀ tu, se.tuPath = some tu → tu < interned
  scopeSet : se.scopeSet < scopes
  guardSet : se.guardSet < guards
  raiiSet : se.raiiSet < raiis
  live : se.live = true

/-- The records can be stored. -/
structure ControlFlowRecords.Storable (r : ControlFlowRecords) : Prop where
  string_count : r.strings.length < kNoString
  strings : ∀ s ∈ r.strings, Utf8Text s ∧ s.length < 2 ^ 32
  table : (putTable r.strings).length < 2 ^ 32
  scopes : SetsStorable (fun s => s.IsText ∧ s.Fits) r.scopeSets
  guards : SetsStorable (fun g => ∀ t ∈ g.texts, Utf8Text t ∧ t.length < 2 ^ 32) r.guardSets
  raiis : SetsStorable (fun l => l.typeName < r.strings.length ∧ l.varName < r.strings.length ∧
    l.declLocation < r.strings.length) r.raiiSets
  context_count : r.contexts.length < 2 ^ 32
  contexts : ∀ se ∈ r.contexts, ContextKnown r.strings.length r.scopeSets.length
    r.guardSets.length r.raiiSets.length se

/-! ### Round trip -/

section Codec

variable {ll : Llvm}

theorem codes_handler (hll : ll.AcceptsUtf8) {h : CatchHandlerInfo}
    (htext : Utf8Text h.caughtType ∧ Utf8Text h.location ∧ Utf8Text h.bodySummary) :
    Codes h.Fits (readHandler ll) (putHandler h) h := by
  apply Codes.congr
  · apply Codes.field (Codes.indexText (hll _ htext.1))
    apply Codes.field (Codes.flag _)
    apply Codes.field (Codes.flag _)
    apply Codes.field (Codes.indexText (hll _ htext.2.1))
    apply Codes.field (Codes.indexText (hll _ htext.2.2))
    exact Codes.done _
  · simp [CatchHandlerInfo.Fits]

theorem codes_scope (hll : ll.AcceptsUtf8) {s : TryCatchScope} (htext : s.IsText)
    (hfits : s.Fits) : Codes True (readScope ll) (putScope s) s := by
  apply Codes.congr
  · apply Codes.field (Codes.indexText (hll _ htext.1))
    apply Codes.field (Codes.indexText (hll _ htext.2.1))
    apply Codes.field (codes_num hfits.2.2.1)
    apply Codes.field (Codes.countedIn (fun h hh => codes_handler hll (htext.2.2 h hh))
      fun h => flatten_str_ne_nil _ _)
    exact Codes.done _
  · exact iff_of_true ⟨hfits.1, hfits.2.1, trivial, hfits.2.2.2, trivial⟩ trivial

theorem codes_local {n : ℕ} (hn : n ≤ 2 ^ 32) {l : RaiiLocal SId}
    (hl : l.typeName < n ∧ l.varName < n ∧ l.declLocation < n) :
    Codes True (readLocal n) (putLocal l) l := by
  apply Codes.congr
  · apply Codes.field (codes_id hl.1 hn)
    apply Codes.field (codes_id hl.2.1 hn)
    apply Codes.field (codes_id hl.2.2 hn)
    apply Codes.field (Codes.u8 _)
    rw [RaiiKind.ofCode_code]
    exact Codes.done _
  · simp

theorem codes_tu {n : ℕ} (hn : n < kNoString) {tu : Option SId} (htu : ∀ t, tu = some t → t < n) :
    Codes True (readTu n) (putId (tuCode tu)) tu := by
  cases tu with
  | none =>
    exact (Codes.checked (codes_num (by decide : kNoString < 2 ^ 32)) (by simp)).last
  | some t =>
    have ht := htu t rfl
    have hlt : t < 2 ^ 32 := (ht.trans hn).trans (by decide)
    have hne : t ≠ kNoString := (ht.trans hn).ne
    exact (Codes.checked (codes_num hlt) (by simp [ht])).last.value (if_neg hne)

theorem codes_context {n scopes guards raiis : ℕ} (hn : n < kNoString)
    (hsets : scopes < 2 ^ 32 ∧ guards < 2 ^ 32 ∧ raiis < 2 ^ 32) {se : StoredContext}
    (h : ContextKnown n scopes guards raiis se) :
    Codes True (readContext n scopes guards raiis) (putContext se) se := by
  have hn' : n ≤ 2 ^ 32 := by rw [kNoString] at hn; omega
  have hlive : { se with live := true } = se := by
    cases se
    exact congrArg _ h.live.symm
  apply Codes.congr
  · apply Codes.field (codes_id h.caller hn')
    apply Codes.field (codes_id h.callee hn')
    apply Codes.field (codes_id h.callerDisplay hn')
    apply Codes.field (codes_id h.calleeDisplay hn')
    apply Codes.field (codes_id h.site hn')
    apply Codes.field (codes_tu hn h.tuPath)
    apply Codes.field (codes_id h.scopeSet hsets.1.le)
    apply Codes.field (codes_id h.guardSet hsets.2.1.le)
    apply Codes.field (codes_id h.raiiSet hsets.2.2.le)
    apply Codes.field (Codes.u8 _)
    apply Codes.field (Codes.flag _)
    rw [NoexceptSpec.ofCode_code, hlive]
    exact Codes.done _
  · simp

/-- A set table of entries that can be stored. -/
theorem codes_sets {α : Type} {good : α → Prop} {item : Read α} {put : α → Bytes}
    {sets : List (List α)} (h : SetsStorable good sets)
    (hitem : ∀ a, good a → Codes True item (put a) a) (hput : ∀ a, put a ≠ []) :
    Codes True (readSets item) (putCounted (putCounted put) sets) sets := by
  have hset (set : List α) (hmem : set ∈ sets) :
      Codes True (countedIn item) (putCounted put set) set :=
    (Codes.countedIn (fun a ha => hitem a (h.good set hmem a ha)) hput).congr
      (iff_of_true ⟨h.counts set hmem, fun _ _ => trivial⟩ trivial)
  have hcounted : Codes True (countedIn (countedIn item)) (putCounted (putCounted put) sets) sets :=
    (Codes.countedIn hset (putCounted_not_nil put)).congr
      (iff_of_true ⟨h.count, fun _ _ => trivial⟩ trivial)
  exact hcounted.checked (by rw [h.head]; rfl)

/-! #### The interner table -/

/-- The head of the section is read, the table stays. -/
theorem readTableSize_eq {strings : List Bytes} (hcount : strings.length < 2 ^ 32)
    (htable : (putTable strings).length < 2 ^ 32) (post : Bytes) (pos : ℕ) :
    readTableSize ⟨putId (putTable strings).length ++ (putTable strings ++ post), pos, true⟩ =
      (((putTable strings).length, strings.length), ⟨putTable strings ++ post, pos + 4, true⟩) := by
  have hsize := (codes_num htable).reads trivial (putTable strings ++ post) pos
  have hnum := (codes_num hcount).reads trivial (strings.flatMap putStr ++ post) (pos + 4)
  have hsplit : putTable strings ++ post =
      putId strings.length ++ (strings.flatMap putStr ++ post) := List.append_assoc _ _ _
  rw [length_putId] at hsize
  rw [← hsplit] at hnum
  have hfour : 4 ≤ (putTable strings).length := by
    rw [putTable, putCounted, List.length_append, putU32, length_toLe]
    omega
  have hsteps (r : Reader) : readTableSize r =
      (((readNum r).1, (readNum (readNum r).2).1), { (readNum r).2 with
        ok := (readNum (readNum r).2).2.ok && decide (4 ≤ (readNum r).1) &&
          decide ((readNum r).1 ≤ (readNum r).2.rest.length) }) := rfl
  rw [hsteps, hsize]
  dsimp only
  rw [hnum]
  simp [hfour]

/-- The table is as long as its head says. -/
theorem readTableStrings_eq (hll : ll.AcceptsUtf8) {strings : List Bytes}
    (hcount : strings.length < 2 ^ 32) (hstrings : ∀ s ∈ strings, Utf8Text s ∧ s.length < 2 ^ 32)
    (post : Bytes) (pos : ℕ) :
    readTableStrings ll (putTable strings).length ⟨putTable strings ++ post, pos, true⟩ =
      (strings, ⟨post, pos + (putTable strings).length, true⟩) := by
  have hstr : countedIn (indexText ll) ⟨putTable strings ++ post, pos, true⟩ =
      (strings, ⟨post, pos + (putTable strings).length, true⟩) :=
    (Codes.countedIn (fun s hs => Codes.indexText (hll s (hstrings s hs).1))
      putStr_not_nil).reads ⟨hcount, fun s hs => (hstrings s hs).2⟩ post pos
  generalize (putTable strings).length = n at *
  have hsteps (r : Reader) : readTableStrings ll n r =
      ((countedIn (indexText ll) r).1, { (countedIn (indexText ll) r).2 with
        ok := (countedIn (indexText ll) r).2.ok &&
          decide ((countedIn (indexText ll) r).2.pos = r.pos + n) }) := rfl
  rw [hsteps, hstr]
  simp

theorem codes_table (hll : ll.AcceptsUtf8) {strings : List Bytes}
    (hcount : strings.length < 2 ^ 32) (hstrings : ∀ s ∈ strings, Utf8Text s ∧ s.length < 2 ^ 32)
    (htable : (putTable strings).length < 2 ^ 32) :
    Codes True (readTable ll) (putId (putTable strings).length ++ putTable strings)
      (strings.length, strings) := by
  refine ⟨fun _ post pos => ?_, fun _ => trivial⟩
  have hsteps (r : Reader) : readTable ll r =
      (((readTableSize r).1.2, (readTableStrings ll (readTableSize r).1.1 (readTableSize r).2).1),
        (readTableStrings ll (readTableSize r).1.1 (readTableSize r).2).2) := rfl
  rw [hsteps, List.append_assoc, readTableSize_eq hcount htable,
    readTableStrings_eq hll hcount hstrings, List.length_append, length_putId, Nat.add_assoc]

/-- The set tables are read. -/
theorem codes_setTables (hll : ll.AcceptsUtf8) {r : ControlFlowRecords} (h : r.Storable) :
    Codes True (readSetTables ll r.strings.length) (putSetTables r)
      (r.scopeSets, r.guardSets, r.raiiSets) := by
  have hn : r.strings.length ≤ 2 ^ 32 := (h.string_count.trans (by decide)).le
  apply Codes.congr
  · apply Codes.field (codes_sets h.scopes (fun s hs => codes_scope hll hs.1 hs.2)
      fun s => flatten_str_ne_nil _ _)
    apply Codes.field (codes_sets h.guards (fun g hg => ?_) fun g => flatten_str_ne_nil _ _)
    · apply Codes.field (codes_sets h.raiis (fun l hl => codes_local hn hl)
        fun l => flatten_id_ne_nil _ _)
      exact Codes.done _
    · exact (codes_guard hll fun t ht => (hg t ht).1).congr
        (iff_of_true (fun t ht => (hg t ht).2) trivial)
  · simp

/-! #### The arrays -/

@[simp] theorem length_putArray (l : List ℕ) : (putArray l).length = 4 * l.length := by
  simp [putArray, List.length_flatMap, Nat.mul_comm]

@[simp] theorem length_stringOffsets (start : ℕ) (l : List Bytes) :
    (stringOffsets start l).length = l.length := by
  induction l generalizing start with
  | nil => rfl
  | cons s rest ih => simp [stringOffsets, ih]

theorem codes_skip {n : ℕ} {bs : Bytes} (h : bs.length = 4 * n) :
    Codes True (skipU32s n) bs () := (Codes.bytes h).last

theorem codes_skipCounted {l : List ℕ} (hlen : l.length < 2 ^ 32) :
    Codes True skipCounted (putCounted putId l) () :=
  (Codes.countedBy skipU32s (codes_skip (length_putArray l)) putId_not_nil).congr
    (iff_of_true ⟨hlen, trivial⟩ trivial)

end Codec

namespace ControlFlowRecords

variable {r : ControlFlowRecords}

theorem recordAt_mem {p : ℕ} (hp : p < r.contexts.length) : r.recordAt p ∈ r.contexts := by
  rw [recordAt, List.getD_eq_getElem _ _ hp]
  exact List.getElem_mem hp

theorem orderBy_eq {key : StoredContext → ℕ} (h : ∀ se ∈ r.contexts, key se < r.strings.length) :
    r.orderBy key = byKey r.strings.length (fun p => key (r.recordAt p)) r.recordPositions :=
  countingSort_eq fun _ hp => h _ (recordAt_mem (List.mem_range.mp hp))

theorem length_orderBy {key : StoredContext → ℕ}
    (h : ∀ se ∈ r.contexts, key se < r.strings.length) :
    (r.orderBy key).length = r.contexts.length := by
  rw [orderBy_eq h]
  refine (perm_byKey fun p hp => ?_).length_eq.trans List.length_range
  exact h _ (recordAt_mem (List.mem_range.mp hp))

/-- The positions of the records with another display id. -/
def displayPositions (r : ControlFlowRecords) (usr display : StoredContext → ℕ) : List ℕ :=
  r.recordPositions.filter fun p => display (r.recordAt p) ≠ usr (r.recordAt p)

theorem displayOrder_eq {usr display : StoredContext → ℕ}
    (h : ∀ se ∈ r.contexts, display se < r.strings.length) :
    r.displayOrder usr display =
      byKey r.strings.length (fun p => display (r.recordAt p)) (r.displayPositions usr display) :=
  countingSort_eq fun _ hp =>
    h _ (recordAt_mem (List.mem_range.mp (List.mem_of_mem_filter hp)))

theorem length_displayOrder_le (usr : StoredContext → ℕ) {display : StoredContext → ℕ}
    (h : ∀ se ∈ r.contexts, display se < r.strings.length) :
    (r.displayOrder usr display).length ≤ r.contexts.length := by
  rw [displayOrder_eq h]
  refine ((perm_byKey fun p hp => ?_).length_eq.trans_le (List.length_filter_le _ _)).trans_eq
    List.length_range
  exact h _ (recordAt_mem (List.mem_range.mp (List.mem_of_mem_filter hp)))

end ControlFlowRecords

/-- **The records of the section are read back.** -/
theorem readControlFlow_putControlFlow {ll : Llvm} (hll : ll.AcceptsUtf8) {r : ControlFlowRecords}
    (sort : Sorter r.idBefore) (h : r.Storable) :
    decodeSection (readControlFlow ll) (putControlFlow r sort) = some r := by
  have hn : r.strings.length < 2 ^ 32 := h.string_count.trans (by decide)
  have hsort : (sort.run (List.range r.strings.length)).length = r.strings.length :=
    (sort.perm _).length_eq.trans List.length_range
  have hcaller := ControlFlowRecords.length_orderBy fun se hse => (h.contexts se hse).caller
  have hcallee := ControlFlowRecords.length_orderBy fun se hse => (h.contexts se hse).callee
  have hcallerDisplay := ControlFlowRecords.length_displayOrder_le (·.caller)
    fun se hse => (h.contexts se hse).callerDisplay
  have hcalleeDisplay := ControlFlowRecords.length_displayOrder_le (·.callee)
    fun se hse => (h.contexts se hse).calleeDisplay
  have hgroup : putControlFlow r sort =
      [putId (putTable r.strings).length ++ putTable r.strings, putSetTables r,
        putCounted putContext r.contexts,
        putArray (stringOffsets 0 r.strings) ++
          putArray (sort.run (List.range r.strings.length)),
        putArray (r.orderBy (·.caller)) ++ putArray (r.orderBy (·.callee)),
        putCounted putId (r.displayOrder (·.caller) (·.callerDisplay)),
        putCounted putId (r.displayOrder (·.callee) (·.calleeDisplay))].flatten := by
    simp only [putControlFlow, putLookups, List.flatten_cons, List.flatten_nil, List.append_nil,
      List.append_assoc]
  have hcontexts : Codes True (countedIn (readContext r.strings.length r.scopeSets.length
      r.guardSets.length r.raiiSets.length)) (putCounted putContext r.contexts) r.contexts :=
    (Codes.countedIn (fun se hse => codes_context h.string_count
      ⟨h.scopes.count, h.guards.count, h.raiis.count⟩ (h.contexts se hse))
        fun se => flatten_id_ne_nil _ _).congr
      (iff_of_true ⟨h.context_count, fun _ _ => trivial⟩ trivial)
  have hcodes : Codes True (readControlFlow ll) (putControlFlow r sort) r := by
    rw [hgroup]
    apply Codes.congr
    · apply Codes.field (codes_table hll hn h.strings h.table)
      apply Codes.field (codes_setTables hll h)
      apply Codes.field hcontexts
      apply Codes.field (codes_skip ?_)
      · apply Codes.field (codes_skip ?_)
        · apply Codes.field (codes_skipCounted (hcallerDisplay.trans_lt h.context_count))
          apply Codes.field (codes_skipCounted (hcalleeDisplay.trans_lt h.context_count))
          exact Codes.done _
        · rw [List.length_append, length_putArray, length_putArray, hcaller, hcallee]
          omega
      · rw [List.length_append, length_putArray, length_putArray, length_stringOffsets, hsort]
        omega
    · simp
  exact hcodes.decodeSection trivial

end Vycor
