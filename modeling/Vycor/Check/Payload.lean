import Vycor.Check.Index
import Vycor.Lib.Reader

/-!
# The wire form of an index contribution

`CheckIndexPayload` is the value form of a `GlobalIndex`: what `capture` lists, `applyTo`
adds, and the journal, the worker shards and the handoff file carry. Writer and reader are
two separate lists of some seventy fields; `codes_payload` says that they agree.
-/

namespace Vycor

open Reader

/-- `CheckIndexPayload`. -/
structure CheckIndexPayload where
  overloads : List FunctionOverloadEntry := []
  guides : List DeductionGuideEntry := []
  coverage : List CoveragePropertyEntry := []
  odrEntries : List OdrEntry := []
  specializations : List SpecializationEntry := []
  defaultArgs : List DefaultArgEntry := []
  staticInits : List StaticInitEntry := []
  functionSummaries : List FunctionSummaryEntry := []
  headerStatics : List HeaderStaticEntry := []
  exceptionSpecs : List ExceptionSpecEntry := []
  baseEdges : List (Bytes × Bytes) := []
  ctorEdges : List (Bytes × Bytes) := []
  convOpEdges : List (Bytes × Bytes) := []
  deriving DecidableEq, Repr, Inhabited

namespace CheckIndexPayload

/-- `CheckIndexPayload::capture`. -/
def capture (shard : GlobalIndex) (order : CheckIterOrder) : CheckIndexPayload where
  overloads := order.overloads.flatMap shard.overloads
  guides := order.guides.flatMap shard.guides
  coverage := order.coverageProps.flatMap shard.coverageProps
  odrEntries := shard.odrEntries.entries
  specializations := order.specializations.flatMap shard.specializations
  defaultArgs := shard.defaultArgs.entries
  staticInits := shard.staticInits.entries
  functionSummaries := shard.functionSummaries.entries
  headerStatics := shard.headerStatics.entries
  exceptionSpecs := shard.exceptionSpecs.entries
  baseEdges := edgesIn shard.types.bases order.bases
  ctorEdges := edgesIn shard.types.ctorEdges order.ctorEdges
  convOpEdges := edgesIn shard.types.convOpEdges order.convOpEdges

/-- `CheckIndexPayload::applyTo`. -/
def applyTo (p : CheckIndexPayload) (into : GlobalIndex) : GlobalIndex :=
  let into := p.overloads.foldl GlobalIndex.addFunctionOverload into
  let into := p.guides.foldl GlobalIndex.addDeductionGuide into
  let into := p.coverage.foldl GlobalIndex.addCoverageProperty into
  let into := p.odrEntries.foldl GlobalIndex.addOdrEntry into
  let into := p.specializations.foldl GlobalIndex.addSpecialization into
  let into := p.defaultArgs.foldl GlobalIndex.addDefaultArg into
  let into := p.staticInits.foldl GlobalIndex.addStaticInit into
  let into := p.functionSummaries.foldl GlobalIndex.addFunctionSummary into
  let into := p.headerStatics.foldl GlobalIndex.addHeaderStatic into
  let into := p.exceptionSpecs.foldl GlobalIndex.addExceptionSpec into
  let into := p.baseEdges.foldl GlobalIndex.addBase into
  let into := p.ctorEdges.foldl GlobalIndex.addCtorEdge into
  p.convOpEdges.foldl GlobalIndex.addConvOpEdge into

end CheckIndexPayload

/-! ### Writing -/

/-- One pair in `putStringPairs`. -/
def putStringPair (p : Bytes × Bytes) : Bytes := [putStr p.1, putStr p.2].flatten

/-- `putStringPairs`. -/
def putStringPairs (v : List (Bytes × Bytes)) : Bytes := putCounted putStringPair v

/-- The lists of strings inside an entry. -/
def putStrings (l : List Bytes) : Bytes := putCounted putStr l

/-- `flags |= cond ? bit : 0`, for the bits of a byte in turn. -/
def packFlags (flags : List (Bool × UInt8)) : UInt8 :=
  flags.foldl (fun byte f => byte ||| if f.1 then f.2 else 0) 0

/-- `cond ? 1 : 0`. -/
def putBool (b : Bool) : Bytes := putU8 (if b then 1 else 0)

/-- `static_cast<uint32_t>(static_cast<int32_t>(v))`. -/
def putI32 (v : Int32) : Bytes := putU32 v.toUInt32

/-- One overload in `encodeIndexPayload`. -/
def putOverload (e : FunctionOverloadEntry) : Bytes :=
  [putStr e.qualifiedName, putStr e.headerPath, putStrings e.paramTypes, putStr e.returnType,
    putU32 e.sourceLine].flatten

/-- One deduction guide in `encodeIndexPayload`. -/
def putGuide (e : DeductionGuideEntry) : Bytes :=
  [putStr e.templateName, putStr e.headerPath, putStrings e.paramTypes, putStr e.deducedType,
    putU32 e.sourceLine].flatten

/-- One coverage entry in `encodeIndexPayload`. -/
def putCoverage (e : CoveragePropertyEntry) : Bytes :=
  [putStr e.qualifiedName, putStr e.headerPath, putU32 e.sourceLine, putStr e.enclosingClass,
    putI32 e.gvaLinkage,
    putU8 (packFlags [(e.isInlined, 0x01), (e.isConstexpr, 0x02), (e.isDefaulted, 0x04),
      (e.isTrivial, 0x08), (e.isVirtual, 0x10), (e.isStaticMethod, 0x20),
      (e.isImplicitlyInstantiable, 0x40)]),
    putI32 e.templatedKind, putI32 e.storageClass, putI32 e.formalLinkage,
    putU32 e.bodyStmtCount, putStr e.signature].flatten

/-- One ODR entry in `encodeIndexPayload`. -/
def putOdrEntry (e : OdrEntry) : Bytes :=
  [putStr e.qualifiedName, putStr e.signature, putBool e.isClass, putStr e.enclosingClass,
    putStr e.filePath, putU32 e.line, putU64 e.odrHash, putStr e.tuPath].flatten

/-- One specialization in `encodeIndexPayload`. -/
def putSpecialization (e : SpecializationEntry) : Bytes :=
  [putStr e.templateName, putStr e.argsString, putStr e.headerPath, putU32 e.line,
    putStr e.resolutionSummary].flatten

/-- One default argument in `encodeIndexPayload`. -/
def putDefaultArg (e : DefaultArgEntry) : Bytes :=
  [putStr e.qualifiedName, putStr e.signature, putU32 e.paramIndex, putStr e.paramName,
    putStr e.defaultText, putStr e.filePath, putU32 e.line].flatten

/-- One static initializer in `encodeIndexPayload`. -/
def putStaticInit (e : StaticInitEntry) : Bytes :=
  [putStr e.qualifiedName, putStr e.filePath, putU32 e.line,
    putU8 (packFlags [(e.dynamicInit, 0x01), (e.isConstructorFn, 0x02)]),
    putStrings e.referencedGlobals, putStrings e.calledFunctions].flatten

/-- One function summary in `encodeIndexPayload`. -/
def putFunctionSummary (e : FunctionSummaryEntry) : Bytes :=
  [putStr e.qualifiedName, putStr e.filePath, putU32 e.line,
    putU8 (packFlags [(e.isNoexcept, 0x01), (e.hasUncaughtThrow, 0x02)]),
    putStrings e.calledFunctions, putStrings e.unguardedCalls,
    putStringPairs e.unguardedCallSites, putStr e.uncaughtThrowSite,
    putStrings e.referencedGlobals].flatten

/-- One header static in `encodeIndexPayload`. -/
def putHeaderStatic (e : HeaderStaticEntry) : Bytes :=
  [putStr e.name, putStr e.filePath, putU32 e.line, putBool e.isConst,
    putStrings e.tuPaths].flatten

/-- One exception specification in `encodeIndexPayload`. -/
def putExceptionSpec (e : ExceptionSpecEntry) : Bytes :=
  [putStr e.qualifiedName, putStr e.signature, putBool e.isNoexcept, putStr e.filePath,
    putU32 e.line].flatten

/-- `encodeIndexPayload`. -/
def encodeIndexPayload (p : CheckIndexPayload) : Bytes :=
  [putCounted putOverload p.overloads, putCounted putGuide p.guides,
    putCounted putCoverage p.coverage, putStringPairs p.baseEdges, putStringPairs p.ctorEdges,
    putStringPairs p.convOpEdges, putCounted putOdrEntry p.odrEntries,
    putCounted putSpecialization p.specializations, putCounted putDefaultArg p.defaultArgs,
    putCounted putStaticInit p.staticInits, putCounted putFunctionSummary p.functionSummaries,
    putCounted putHeaderStatic p.headerStatics,
    putCounted putExceptionSpec p.exceptionSpecs].flatten

/-! ### Reading -/

/-- One pair in `readStringPairs`. -/
def readStringPair : Read (Bytes × Bytes) := do
  let a ← str
  let b ← str
  return (a, b)

/-- `readStringPairs`. -/
def readStringPairs : Read (List (Bytes × Bytes)) := counted readStringPair

/-- The lists of strings inside an entry. -/
def readStrings : Read (List Bytes) := counted str

/-- `r.u8() != 0`. -/
def readBool : Read Bool := do
  let v ← u8
  return v != 0

/-- `static_cast<int>(static_cast<int32_t>(r.u32()))`. -/
def readI32 : Read Int32 := do
  let v ← u32
  return v.toInt32

/-- `flags & bit`. -/
def hasFlag (flags bit : UInt8) : Bool := flags &&& bit != 0

/-- One overload in `decodeIndexPayload`. -/
def readOverload : Read FunctionOverloadEntry := do
  let qualifiedName ← str
  let headerPath ← str
  let paramTypes ← readStrings
  let returnType ← str
  let sourceLine ← u32
  return { qualifiedName, headerPath, paramTypes, returnType, sourceLine }

/-- One deduction guide in `decodeIndexPayload`. -/
def readGuide : Read DeductionGuideEntry := do
  let templateName ← str
  let headerPath ← str
  let paramTypes ← readStrings
  let deducedType ← str
  let sourceLine ← u32
  return { templateName, headerPath, paramTypes, deducedType, sourceLine }

/-- One coverage entry in `decodeIndexPayload`. -/
def readCoverage : Read CoveragePropertyEntry := do
  let qualifiedName ← str
  let headerPath ← str
  let sourceLine ← u32
  let enclosingClass ← str
  let gvaLinkage ← readI32
  let flags ← u8
  let templatedKind ← readI32
  let storageClass ← readI32
  let formalLinkage ← readI32
  let bodyStmtCount ← u32
  let signature ← str
  return {
    qualifiedName, headerPath, sourceLine, enclosingClass, gvaLinkage
    isInlined := hasFlag flags 0x01
    isConstexpr := hasFlag flags 0x02
    isDefaulted := hasFlag flags 0x04
    isTrivial := hasFlag flags 0x08
    isVirtual := hasFlag flags 0x10
    isStaticMethod := hasFlag flags 0x20
    isImplicitlyInstantiable := hasFlag flags 0x40
    templatedKind, storageClass, formalLinkage, bodyStmtCount, signature }

/-- One ODR entry in `decodeIndexPayload`. -/
def readOdrEntry : Read OdrEntry := do
  let qualifiedName ← str
  let signature ← str
  let isClass ← readBool
  let enclosingClass ← str
  let filePath ← str
  let line ← u32
  let odrHash ← u64
  let tuPath ← str
  return { qualifiedName, signature, isClass, enclosingClass, filePath, line, odrHash, tuPath }

/-- One specialization in `decodeIndexPayload`. -/
def readSpecialization : Read SpecializationEntry := do
  let templateName ← str
  let argsString ← str
  let headerPath ← str
  let line ← u32
  let resolutionSummary ← str
  return { templateName, argsString, headerPath, line, resolutionSummary }

/-- One default argument in `decodeIndexPayload`. -/
def readDefaultArg : Read DefaultArgEntry := do
  let qualifiedName ← str
  let signature ← str
  let paramIndex ← u32
  let paramName ← str
  let defaultText ← str
  let filePath ← str
  let line ← u32
  return { qualifiedName, signature, paramIndex, paramName, defaultText, filePath, line }

/-- One static initializer in `decodeIndexPayload`. -/
def readStaticInit : Read StaticInitEntry := do
  let qualifiedName ← str
  let filePath ← str
  let line ← u32
  let flags ← u8
  let referencedGlobals ← readStrings
  let calledFunctions ← readStrings
  return {
    qualifiedName, filePath, line
    dynamicInit := hasFlag flags 0x01
    isConstructorFn := hasFlag flags 0x02
    referencedGlobals, calledFunctions }

/-- One function summary in `decodeIndexPayload`. -/
def readFunctionSummary : Read FunctionSummaryEntry := do
  let qualifiedName ← str
  let filePath ← str
  let line ← u32
  let flags ← u8
  let calledFunctions ← readStrings
  let unguardedCalls ← readStrings
  let unguardedCallSites ← readStringPairs
  let uncaughtThrowSite ← str
  let referencedGlobals ← readStrings
  return {
    qualifiedName, filePath, line
    isNoexcept := hasFlag flags 0x01
    hasUncaughtThrow := hasFlag flags 0x02
    calledFunctions, unguardedCalls, unguardedCallSites, uncaughtThrowSite, referencedGlobals }

/-- One header static in `decodeIndexPayload`. -/
def readHeaderStatic : Read HeaderStaticEntry := do
  let name ← str
  let filePath ← str
  let line ← u32
  let isConst ← readBool
  let tuPaths ← readStrings
  return { name, filePath, line, isConst, tuPaths }

/-- One exception specification in `decodeIndexPayload`. -/
def readExceptionSpec : Read ExceptionSpecEntry := do
  let qualifiedName ← str
  let signature ← str
  let isNoexcept ← readBool
  let filePath ← str
  let line ← u32
  return { qualifiedName, signature, isNoexcept, filePath, line }

/-- `decodeIndexPayload`. The reader says whether it went well. -/
def decodeIndexPayload : Read CheckIndexPayload := do
  let overloads ← counted readOverload
  let guides ← counted readGuide
  let coverage ← counted readCoverage
  let baseEdges ← readStringPairs
  let ctorEdges ← readStringPairs
  let convOpEdges ← readStringPairs
  let odrEntries ← counted readOdrEntry
  let specializations ← counted readSpecialization
  let defaultArgs ← counted readDefaultArg
  let staticInits ← counted readStaticInit
  let functionSummaries ← counted readFunctionSummary
  let headerStatics ← counted readHeaderStatic
  let exceptionSpecs ← counted readExceptionSpec
  return {
    overloads, guides, coverage, odrEntries, specializations, defaultArgs, staticInits,
    functionSummaries, headerStatics, exceptionSpecs, baseEdges, ctorEdges, convOpEdges }

/-! ### The lengths that must fit their fields -/

/-- The length of a string fits 32 bits. -/
def FitsStr (s : Bytes) : Prop := s.length < 2 ^ 32

/-- The number of items fits 32 bits, and so does every length inside an item. -/
def FitsList {α : Type} (φ : α → Prop) (l : List α) : Prop := l.length < 2 ^ 32 ∧ ∀ a ∈ l, φ a

/-- Both strings of a pair fit. -/
def FitsPair (p : Bytes × Bytes) : Prop := FitsStr p.1 ∧ FitsStr p.2

/-- All lengths of an overload fit. -/
def FunctionOverloadEntry.Fits (e : FunctionOverloadEntry) : Prop :=
  FitsStr e.qualifiedName ∧ FitsStr e.headerPath ∧ FitsList FitsStr e.paramTypes ∧
    FitsStr e.returnType

/-- All lengths of a deduction guide fit. -/
def DeductionGuideEntry.Fits (e : DeductionGuideEntry) : Prop :=
  FitsStr e.templateName ∧ FitsStr e.headerPath ∧ FitsList FitsStr e.paramTypes ∧
    FitsStr e.deducedType

/-- All lengths of a coverage entry fit. -/
def CoveragePropertyEntry.Fits (e : CoveragePropertyEntry) : Prop :=
  FitsStr e.qualifiedName ∧ FitsStr e.headerPath ∧ FitsStr e.enclosingClass ∧ FitsStr e.signature

/-- All lengths of an ODR entry fit. -/
def OdrEntry.Fits (e : OdrEntry) : Prop :=
  FitsStr e.qualifiedName ∧ FitsStr e.signature ∧ FitsStr e.enclosingClass ∧
    FitsStr e.filePath ∧ FitsStr e.tuPath

/-- All lengths of a specialization fit. -/
def SpecializationEntry.Fits (e : SpecializationEntry) : Prop :=
  FitsStr e.templateName ∧ FitsStr e.argsString ∧ FitsStr e.headerPath ∧
    FitsStr e.resolutionSummary

/-- All lengths of a default argument fit. -/
def DefaultArgEntry.Fits (e : DefaultArgEntry) : Prop :=
  FitsStr e.qualifiedName ∧ FitsStr e.signature ∧ FitsStr e.paramName ∧ FitsStr e.defaultText ∧
    FitsStr e.filePath

/-- All lengths of a static initializer fit. -/
def StaticInitEntry.Fits (e : StaticInitEntry) : Prop :=
  FitsStr e.qualifiedName ∧ FitsStr e.filePath ∧ FitsList FitsStr e.referencedGlobals ∧
    FitsList FitsStr e.calledFunctions

/-- All lengths of a function summary fit. -/
def FunctionSummaryEntry.Fits (e : FunctionSummaryEntry) : Prop :=
  FitsStr e.qualifiedName ∧ FitsStr e.filePath ∧ FitsList FitsStr e.calledFunctions ∧
    FitsList FitsStr e.unguardedCalls ∧ FitsList FitsPair e.unguardedCallSites ∧
    FitsStr e.uncaughtThrowSite ∧ FitsList FitsStr e.referencedGlobals

/-- All lengths of a header static fit. -/
def HeaderStaticEntry.Fits (e : HeaderStaticEntry) : Prop :=
  FitsStr e.name ∧ FitsStr e.filePath ∧ FitsList FitsStr e.tuPaths

/-- All lengths of an exception specification fit. -/
def ExceptionSpecEntry.Fits (e : ExceptionSpecEntry) : Prop :=
  FitsStr e.qualifiedName ∧ FitsStr e.signature ∧ FitsStr e.filePath

/-- All counts and lengths of a payload fit. -/
structure CheckIndexPayload.Fits (p : CheckIndexPayload) : Prop where
  overloads : FitsList FunctionOverloadEntry.Fits p.overloads
  guides : FitsList DeductionGuideEntry.Fits p.guides
  coverage : FitsList CoveragePropertyEntry.Fits p.coverage
  odrEntries : FitsList OdrEntry.Fits p.odrEntries
  specializations : FitsList SpecializationEntry.Fits p.specializations
  defaultArgs : FitsList DefaultArgEntry.Fits p.defaultArgs
  staticInits : FitsList StaticInitEntry.Fits p.staticInits
  functionSummaries : FitsList FunctionSummaryEntry.Fits p.functionSummaries
  headerStatics : FitsList HeaderStaticEntry.Fits p.headerStatics
  exceptionSpecs : FitsList ExceptionSpecEntry.Fits p.exceptionSpecs
  baseEdges : FitsList FitsPair p.baseEdges
  ctorEdges : FitsList FitsPair p.ctorEdges
  convOpEdges : FitsList FitsPair p.convOpEdges

/-! ### Reading back what was written -/

theorem putStr_ne_nil (s : Bytes) : putStr s ≠ [] := by
  rw [← List.length_pos_iff, putStr, List.length_append, putU32, length_toLe]
  omega

/-- A record that starts with a string takes room. -/
theorem flatten_putStr_ne_nil (s : Bytes) (rest : List Bytes) :
    (putStr s :: rest).flatten ≠ [] := by
  rw [List.flatten_cons]
  exact List.append_ne_nil_of_left_ne_nil (putStr_ne_nil s) _

/-- The items of a list are read back if each is. -/
theorem codes_list {α : Type} {φ : α → Prop} {item : Read α} {put : α → Bytes}
    (h : ∀ a, Codes (φ a) item (put a) a) (hput : ∀ a, put a ≠ []) (l : List α) :
    Codes (FitsList φ l) (counted item) (putCounted put l) l := Codes.counted h hput l

theorem codes_strings (l : List Bytes) :
    Codes (FitsList FitsStr l) readStrings (putStrings l) l :=
  codes_list Codes.str putStr_ne_nil l

theorem codes_stringPair (p : Bytes × Bytes) :
    Codes (FitsPair p) readStringPair (putStringPair p) p := by
  apply Codes.congr
  · apply Codes.field (Codes.str _)
    apply Codes.field (Codes.str _)
    exact Codes.done _
  · simp [FitsPair, FitsStr]

theorem codes_stringPairs (v : List (Bytes × Bytes)) :
    Codes (FitsList FitsPair v) readStringPairs (putStringPairs v) v :=
  codes_list codes_stringPair (fun _ => flatten_putStr_ne_nil _ _) v

theorem codes_bool (b : Bool) : Codes True readBool (putBool b) b := by
  have h : Codes True readBool (putBool b) ((if b then 1 else 0 : UInt8) != 0) := (Codes.u8 _).last
  cases b <;> exact h

theorem codes_i32 (v : Int32) : Codes True readI32 (putI32 v) v := by
  have h : Codes True readI32 (putI32 v) v.toUInt32.toInt32 := (Codes.u32 _).last
  rwa [Int32.toInt32_toUInt32] at h

/-- Two flags in a byte. -/
theorem hasFlag_packFlags_two (a b : Bool) :
    hasFlag (packFlags [(a, 0x01), (b, 0x02)]) 0x01 = a ∧
      hasFlag (packFlags [(a, 0x01), (b, 0x02)]) 0x02 = b := by
  revert a b
  decide

/-- The flags of a coverage entry. -/
theorem hasFlag_packFlags_seven (a b c d e f g : Bool) :
    let flags := packFlags [(a, 0x01), (b, 0x02), (c, 0x04), (d, 0x08), (e, 0x10), (f, 0x20),
      (g, 0x40)]
    hasFlag flags 0x01 = a ∧ hasFlag flags 0x02 = b ∧ hasFlag flags 0x04 = c ∧
      hasFlag flags 0x08 = d ∧ hasFlag flags 0x10 = e ∧ hasFlag flags 0x20 = f ∧
      hasFlag flags 0x40 = g := by
  revert a b c d e f g
  decide

theorem codes_overload (e : FunctionOverloadEntry) :
    Codes e.Fits readOverload (putOverload e) e := by
  apply Codes.congr
  · apply Codes.field (Codes.str _)
    apply Codes.field (Codes.str _)
    apply Codes.field (codes_strings _)
    apply Codes.field (Codes.str _)
    apply Codes.field (Codes.u32 _)
    exact Codes.done _
  · simp [FunctionOverloadEntry.Fits, FitsStr]

theorem codes_guide (e : DeductionGuideEntry) :
    Codes e.Fits readGuide (putGuide e) e := by
  apply Codes.congr
  · apply Codes.field (Codes.str _)
    apply Codes.field (Codes.str _)
    apply Codes.field (codes_strings _)
    apply Codes.field (Codes.str _)
    apply Codes.field (Codes.u32 _)
    exact Codes.done _
  · simp [DeductionGuideEntry.Fits, FitsStr]

theorem codes_coverage (e : CoveragePropertyEntry) :
    Codes e.Fits readCoverage (putCoverage e) e := by
  apply Codes.congr
  · apply Codes.field (Codes.str _)
    apply Codes.field (Codes.str _)
    apply Codes.field (Codes.u32 _)
    apply Codes.field (Codes.str _)
    apply Codes.field (codes_i32 _)
    apply Codes.field (Codes.u8 _)
    apply Codes.field (codes_i32 _)
    apply Codes.field (codes_i32 _)
    apply Codes.field (codes_i32 _)
    apply Codes.field (Codes.u32 _)
    apply Codes.field (Codes.str _)
    obtain ⟨h1, h2, h3, h4, h5, h6, h7⟩ := hasFlag_packFlags_seven e.isInlined e.isConstexpr
      e.isDefaulted e.isTrivial e.isVirtual e.isStaticMethod e.isImplicitlyInstantiable
    exact (Codes.done _).value (by simp only [h1, h2, h3, h4, h5, h6, h7])
  · simp [CoveragePropertyEntry.Fits, FitsStr]

theorem codes_odrEntry (e : OdrEntry) :
    Codes e.Fits readOdrEntry (putOdrEntry e) e := by
  apply Codes.congr
  · apply Codes.field (Codes.str _)
    apply Codes.field (Codes.str _)
    apply Codes.field (codes_bool _)
    apply Codes.field (Codes.str _)
    apply Codes.field (Codes.str _)
    apply Codes.field (Codes.u32 _)
    apply Codes.field (Codes.u64 _)
    apply Codes.field (Codes.str _)
    exact Codes.done _
  · simp [OdrEntry.Fits, FitsStr]

theorem codes_specialization (e : SpecializationEntry) :
    Codes e.Fits readSpecialization (putSpecialization e) e := by
  apply Codes.congr
  · apply Codes.field (Codes.str _)
    apply Codes.field (Codes.str _)
    apply Codes.field (Codes.str _)
    apply Codes.field (Codes.u32 _)
    apply Codes.field (Codes.str _)
    exact Codes.done _
  · simp [SpecializationEntry.Fits, FitsStr]

theorem codes_defaultArg (e : DefaultArgEntry) :
    Codes e.Fits readDefaultArg (putDefaultArg e) e := by
  apply Codes.congr
  · apply Codes.field (Codes.str _)
    apply Codes.field (Codes.str _)
    apply Codes.field (Codes.u32 _)
    apply Codes.field (Codes.str _)
    apply Codes.field (Codes.str _)
    apply Codes.field (Codes.str _)
    apply Codes.field (Codes.u32 _)
    exact Codes.done _
  · simp [DefaultArgEntry.Fits, FitsStr]

theorem codes_staticInit (e : StaticInitEntry) :
    Codes e.Fits readStaticInit (putStaticInit e) e := by
  apply Codes.congr
  · apply Codes.field (Codes.str _)
    apply Codes.field (Codes.str _)
    apply Codes.field (Codes.u32 _)
    apply Codes.field (Codes.u8 _)
    apply Codes.field (codes_strings _)
    apply Codes.field (codes_strings _)
    obtain ⟨h1, h2⟩ := hasFlag_packFlags_two e.dynamicInit e.isConstructorFn
    exact (Codes.done _).value (by simp only [h1, h2])
  · simp [StaticInitEntry.Fits, FitsStr]

theorem codes_functionSummary (e : FunctionSummaryEntry) :
    Codes e.Fits readFunctionSummary (putFunctionSummary e) e := by
  apply Codes.congr
  · apply Codes.field (Codes.str _)
    apply Codes.field (Codes.str _)
    apply Codes.field (Codes.u32 _)
    apply Codes.field (Codes.u8 _)
    apply Codes.field (codes_strings _)
    apply Codes.field (codes_strings _)
    apply Codes.field (codes_stringPairs _)
    apply Codes.field (Codes.str _)
    apply Codes.field (codes_strings _)
    obtain ⟨h1, h2⟩ := hasFlag_packFlags_two e.isNoexcept e.hasUncaughtThrow
    exact (Codes.done _).value (by simp only [h1, h2])
  · simp [FunctionSummaryEntry.Fits, FitsStr]

theorem codes_headerStatic (e : HeaderStaticEntry) :
    Codes e.Fits readHeaderStatic (putHeaderStatic e) e := by
  apply Codes.congr
  · apply Codes.field (Codes.str _)
    apply Codes.field (Codes.str _)
    apply Codes.field (Codes.u32 _)
    apply Codes.field (codes_bool _)
    apply Codes.field (codes_strings _)
    exact Codes.done _
  · simp [HeaderStaticEntry.Fits, FitsStr]

theorem codes_exceptionSpec (e : ExceptionSpecEntry) :
    Codes e.Fits readExceptionSpec (putExceptionSpec e) e := by
  apply Codes.congr
  · apply Codes.field (Codes.str _)
    apply Codes.field (Codes.str _)
    apply Codes.field (codes_bool _)
    apply Codes.field (Codes.str _)
    apply Codes.field (Codes.u32 _)
    exact Codes.done _
  · simp [ExceptionSpecEntry.Fits, FitsStr]

/-- The writer and the reader of a payload agree on every field. -/
theorem codes_payload (p : CheckIndexPayload) :
    Codes p.Fits decodeIndexPayload (encodeIndexPayload p) p := by
  apply Codes.congr
  · apply Codes.field (codes_list codes_overload (fun _ => flatten_putStr_ne_nil _ _) _)
    apply Codes.field (codes_list codes_guide (fun _ => flatten_putStr_ne_nil _ _) _)
    apply Codes.field (codes_list codes_coverage (fun _ => flatten_putStr_ne_nil _ _) _)
    apply Codes.field (codes_stringPairs _)
    apply Codes.field (codes_stringPairs _)
    apply Codes.field (codes_stringPairs _)
    apply Codes.field (codes_list codes_odrEntry (fun _ => flatten_putStr_ne_nil _ _) _)
    apply Codes.field (codes_list codes_specialization (fun _ => flatten_putStr_ne_nil _ _) _)
    apply Codes.field (codes_list codes_defaultArg (fun _ => flatten_putStr_ne_nil _ _) _)
    apply Codes.field (codes_list codes_staticInit (fun _ => flatten_putStr_ne_nil _ _) _)
    apply Codes.field (codes_list codes_functionSummary (fun _ => flatten_putStr_ne_nil _ _) _)
    apply Codes.field (codes_list codes_headerStatic (fun _ => flatten_putStr_ne_nil _ _) _)
    apply Codes.field (codes_list codes_exceptionSpec (fun _ => flatten_putStr_ne_nil _ _) _)
    exact Codes.done _
  · constructor
    · rintro ⟨h1, h2, h3, h4, h5, h6, h7, h8, h9, h10, h11, h12, h13, -⟩
      exact ⟨h1, h2, h3, h7, h8, h9, h10, h11, h12, h13, h4, h5, h6⟩
    · rintro ⟨h1, h2, h3, h7, h8, h9, h10, h11, h12, h13, h4, h5, h6⟩
      exact ⟨h1, h2, h3, h4, h5, h6, h7, h8, h9, h10, h11, h12, h13, trivial⟩

end Vycor
