import Vycor.Snapshot.Meta
import Vycor.Lib.Keyed
import Vycor.Lib.Tables

/-!
# The global index of the check

`GlobalIndex` holds what phase 1 of a check collects from every TU: declarations by name,
definition sites, initializers, call summaries and type relations. The tables that keep one
entry for a key (`Keyed`) merge an entry into the one that stands there, each in its own way;
the key strings are those of the source.

The maps by interned name are functions of the name. Their iteration order is not specified:
the operations that walk them (`absorb`, `CheckIndexPayload.capture`) take it as an argument
(`CheckIterOrder`).
-/

namespace Vycor

/-! ### Entries -/

/-- `FunctionOverloadEntry`. -/
structure FunctionOverloadEntry where
  qualifiedName : Bytes := []
  headerPath : Bytes := []
  paramTypes : List Bytes := []
  returnType : Bytes := []
  sourceLine : UInt32 := 0
  deriving DecidableEq, Repr, Inhabited

/-- `DeductionGuideEntry`. -/
structure DeductionGuideEntry where
  templateName : Bytes := []
  headerPath : Bytes := []
  paramTypes : List Bytes := []
  deducedType : Bytes := []
  sourceLine : UInt32 := 0
  deriving DecidableEq, Repr, Inhabited

/-- `CoveragePropertyEntry`. -/
structure CoveragePropertyEntry where
  qualifiedName : Bytes := []
  headerPath : Bytes := []
  sourceLine : UInt32 := 0
  enclosingClass : Bytes := []
  gvaLinkage : Int32 := -1
  isInlined : Bool := false
  isConstexpr : Bool := false
  isDefaulted : Bool := false
  isTrivial : Bool := false
  isVirtual : Bool := false
  isStaticMethod : Bool := false
  isImplicitlyInstantiable : Bool := false
  templatedKind : Int32 := 0
  storageClass : Int32 := 0
  formalLinkage : Int32 := 0
  bodyStmtCount : UInt32 := 0
  signature : Bytes := []
  deriving DecidableEq, Repr, Inhabited

/-- `OdrEntry`. -/
structure OdrEntry where
  qualifiedName : Bytes := []
  signature : Bytes := []
  isClass : Bool := false
  enclosingClass : Bytes := []
  filePath : Bytes := []
  line : UInt32 := 0
  odrHash : UInt64 := 0
  tuPath : Bytes := []
  deriving DecidableEq, Repr, Inhabited

/-- `SpecializationEntry`. -/
structure SpecializationEntry where
  templateName : Bytes := []
  argsString : Bytes := []
  headerPath : Bytes := []
  line : UInt32 := 0
  resolutionSummary : Bytes := []
  deriving DecidableEq, Repr, Inhabited

/-- `DefaultArgEntry`. -/
structure DefaultArgEntry where
  qualifiedName : Bytes := []
  signature : Bytes := []
  paramIndex : UInt32 := 0
  paramName : Bytes := []
  defaultText : Bytes := []
  filePath : Bytes := []
  line : UInt32 := 0
  deriving DecidableEq, Repr, Inhabited

/-- `StaticInitEntry`. -/
structure StaticInitEntry where
  qualifiedName : Bytes := []
  filePath : Bytes := []
  line : UInt32 := 0
  dynamicInit : Bool := false
  isConstructorFn : Bool := false
  referencedGlobals : List Bytes := []
  calledFunctions : List Bytes := []
  deriving DecidableEq, Repr, Inhabited

/-- `FunctionSummaryEntry`. -/
structure FunctionSummaryEntry where
  qualifiedName : Bytes := []
  filePath : Bytes := []
  line : UInt32 := 0
  isNoexcept : Bool := false
  hasUncaughtThrow : Bool := false
  calledFunctions : List Bytes := []
  unguardedCalls : List Bytes := []
  unguardedCallSites : List (Bytes × Bytes) := []
  uncaughtThrowSite : Bytes := []
  referencedGlobals : List Bytes := []
  deriving DecidableEq, Repr, Inhabited

/-- `HeaderStaticEntry`. -/
structure HeaderStaticEntry where
  name : Bytes := []
  filePath : Bytes := []
  line : UInt32 := 0
  isConst : Bool := false
  tuPaths : List Bytes := []
  deriving DecidableEq, Repr, Inhabited

/-- `ExceptionSpecEntry`. -/
structure ExceptionSpecEntry where
  qualifiedName : Bytes := []
  signature : Bytes := []
  isNoexcept : Bool := false
  filePath : Bytes := []
  line : UInt32 := 0
  deriving DecidableEq, Repr, Inhabited

/-! ### Keys and merges -/

/-- The key of `addOdrEntry`. -/
def OdrEntry.key (e : OdrEntry) : Bytes :=
  e.qualifiedName ++ text "|" ++ e.signature ++ text (if e.isClass then "|c|" else "|f|") ++
    e.filePath ++ text "|" ++ decimal e.line.toNat ++ text "|" ++ decimal e.odrHash.toNat

/-- `addOdrEntry` on a known key: the smallest TU path stays as the representative. -/
def OdrEntry.mergeInto (old new : OdrEntry) : OdrEntry :=
  if new.tuPath ≠ [] ∧ (old.tuPath = [] ∨ new.tuPath < old.tuPath) then
    { old with tuPath := new.tuPath }
  else old

/-- The key of `addDefaultArg`. -/
def DefaultArgEntry.key (e : DefaultArgEntry) : Bytes :=
  e.qualifiedName ++ text "|" ++ e.signature ++ text "|" ++ decimal e.paramIndex.toNat ++
    text "|" ++ e.defaultText ++ text "|" ++ e.filePath ++ text "|" ++ decimal e.line.toNat

/-- The key of `addStaticInit`. -/
def StaticInitEntry.key (e : StaticInitEntry) : Bytes :=
  e.qualifiedName ++ text "|" ++ e.filePath ++ text "|" ++ decimal e.line.toNat

/-- The key of `addHeaderStatic`. -/
def HeaderStaticEntry.key (e : HeaderStaticEntry) : Bytes :=
  e.filePath ++ text "|" ++ decimal e.line.toNat

/-- The key of `addExceptionSpec`. -/
def ExceptionSpecEntry.key (e : ExceptionSpecEntry) : Bytes :=
  e.qualifiedName ++ text "|" ++ e.signature ++ text "|" ++
    text (if e.isNoexcept then "1|" else "0|") ++ e.filePath ++ text "|" ++ decimal e.line.toNat

/-- The names of `new` that `old` does not have, behind those of `old`. -/
def mergeNames (old new : List Bytes) : List Bytes :=
  new.foldl (fun into name => if name ∈ into then into else into ++ [name]) old

/-- `addHeaderStatic` on a known key. -/
def HeaderStaticEntry.mergeInto (old new : HeaderStaticEntry) : HeaderStaticEntry :=
  { old with tuPaths := mergeNames old.tuPaths new.tuPaths }

/-- The smaller of two sites, where an empty one is no site. -/
def minSite (old new : Bytes) : Bytes :=
  if new ≠ [] ∧ (old = [] ∨ new < old) then new else old

/-- The loop over `unguardedCallSites` of `addFunctionSummary`. -/
def mergeCallSites (old new : List (Bytes × Bytes)) : List (Bytes × Bytes) :=
  new.foldl (upsertIn (fun a b => a.1 == b.1) fun a b => (a.1, minSite a.2 b.2)) old

/-- `addFunctionSummary` on a known name. -/
def FunctionSummaryEntry.mergeInto (old new : FunctionSummaryEntry) : FunctionSummaryEntry :=
  { old with
    isNoexcept := old.isNoexcept || new.isNoexcept
    hasUncaughtThrow := old.hasUncaughtThrow || new.hasUncaughtThrow
    uncaughtThrowSite := minSite old.uncaughtThrowSite new.uncaughtThrowSite
    calledFunctions := mergeNames old.calledFunctions new.calledFunctions
    unguardedCalls := mergeNames old.unguardedCalls new.unguardedCalls
    referencedGlobals := mergeNames old.referencedGlobals new.referencedGlobals
    unguardedCallSites := mergeCallSites old.unguardedCallSites new.unguardedCallSites }

/-- The entries `addSpecialization` takes for one. -/
def SpecializationEntry.same (a b : SpecializationEntry) : Bool :=
  a.argsString == b.argsString && a.headerPath == b.headerPath && a.line == b.line

/-- `addSpecialization` on a known entry. -/
def SpecializationEntry.mergeInto (old new : SpecializationEntry) : SpecializationEntry :=
  if new.resolutionSummary ≠ [] ∧ (old.resolutionSummary = [] ∨
      old.resolutionSummary = text "explicit specialization declaration" ∧
        new.resolutionSummary ≠ text "explicit specialization declaration") then
    { old with resolutionSummary := new.resolutionSummary }
  else old

/-! ### The index -/

/-- `TypeRelationIndex`. -/
structure TypeRelationIndex where
  bases : Bytes → List Bytes := fun _ => []
  ctorEdges : Bytes → List Bytes := fun _ => []
  convOpEdges : Bytes → List Bytes := fun _ => []

namespace TypeRelationIndex

/-- `TypeRelationIndex::addBase`. -/
def addBase (t : TypeRelationIndex) (derived base : Bytes) : TypeRelationIndex :=
  { t with bases := pushNew t.bases derived base }

/-- `TypeRelationIndex::addCtorEdge`. -/
def addCtorEdge (t : TypeRelationIndex) (toType fromType : Bytes) : TypeRelationIndex :=
  { t with ctorEdges := pushNew t.ctorEdges toType fromType }

/-- `TypeRelationIndex::addConvOpEdge`. -/
def addConvOpEdge (t : TypeRelationIndex) (fromType toType : Bytes) : TypeRelationIndex :=
  { t with convOpEdges := pushNew t.convOpEdges fromType toType }

end TypeRelationIndex

/-- `GlobalIndex`. -/
structure GlobalIndex where
  overloads : Bytes → List FunctionOverloadEntry := fun _ => []
  guides : Bytes → List DeductionGuideEntry := fun _ => []
  coverageProps : Bytes → List CoveragePropertyEntry := fun _ => []
  odrEntries : Keyed Bytes OdrEntry := {}
  specializations : Bytes → List SpecializationEntry := fun _ => []
  defaultArgs : Keyed Bytes DefaultArgEntry := {}
  staticInits : Keyed Bytes StaticInitEntry := {}
  staticInitByName : Bytes → Option ℕ := fun _ => none
  functionSummaries : Keyed Bytes FunctionSummaryEntry := {}
  headerStatics : Keyed Bytes HeaderStaticEntry := {}
  exceptionSpecs : Keyed Bytes ExceptionSpecEntry := {}
  types : TypeRelationIndex := {}

/-- The order in which an iteration visits the keys of each hash map. -/
structure CheckIterOrder where
  overloads : List Bytes
  guides : List Bytes
  coverageProps : List Bytes
  specializations : List Bytes
  bases : List Bytes
  ctorEdges : List Bytes
  convOpEdges : List Bytes

namespace GlobalIndex

/-- `GlobalIndex::addFunctionOverload`. -/
def addFunctionOverload (g : GlobalIndex) (e : FunctionOverloadEntry) : GlobalIndex :=
  { g with overloads := pushAt g.overloads e.qualifiedName e }

/-- `GlobalIndex::addDeductionGuide`. -/
def addDeductionGuide (g : GlobalIndex) (e : DeductionGuideEntry) : GlobalIndex :=
  { g with guides := pushAt g.guides e.templateName e }

/-- `GlobalIndex::addCoverageProperty`. -/
def addCoverageProperty (g : GlobalIndex) (e : CoveragePropertyEntry) : GlobalIndex :=
  { g with coverageProps := pushAt g.coverageProps e.enclosingClass e }

/-- `GlobalIndex::addOdrEntry`. -/
def addOdrEntry (g : GlobalIndex) (e : OdrEntry) : GlobalIndex :=
  { g with odrEntries := g.odrEntries.upsert OdrEntry.key OdrEntry.mergeInto e }

/-- `GlobalIndex::addSpecialization`. -/
def addSpecialization (g : GlobalIndex) (e : SpecializationEntry) : GlobalIndex :=
  { g with
    specializations := Function.update g.specializations e.templateName
      (upsertIn SpecializationEntry.same SpecializationEntry.mergeInto
        (g.specializations e.templateName) e) }

/-- `GlobalIndex::addDefaultArg`. -/
def addDefaultArg (g : GlobalIndex) (e : DefaultArgEntry) : GlobalIndex :=
  { g with defaultArgs := g.defaultArgs.upsert DefaultArgEntry.key (fun old _ => old) e }

/-- `GlobalIndex::addStaticInit`. The name map keeps the first entry of a name. -/
def addStaticInit (g : GlobalIndex) (e : StaticInitEntry) : GlobalIndex :=
  { g with
    staticInits := g.staticInits.upsert StaticInitEntry.key (fun old _ => old) e
    staticInitByName :=
      if g.staticInits.index e.key = none ∧ g.staticInitByName e.qualifiedName = none then
        Function.update g.staticInitByName e.qualifiedName (some g.staticInits.entries.length)
      else g.staticInitByName }

/-- `GlobalIndex::addFunctionSummary`. -/
def addFunctionSummary (g : GlobalIndex) (e : FunctionSummaryEntry) : GlobalIndex :=
  { g with
    functionSummaries :=
      g.functionSummaries.upsert FunctionSummaryEntry.qualifiedName FunctionSummaryEntry.mergeInto e }

/-- `GlobalIndex::addHeaderStatic`. -/
def addHeaderStatic (g : GlobalIndex) (e : HeaderStaticEntry) : GlobalIndex :=
  { g with headerStatics := g.headerStatics.upsert HeaderStaticEntry.key HeaderStaticEntry.mergeInto e }

/-- `GlobalIndex::addExceptionSpec`. -/
def addExceptionSpec (g : GlobalIndex) (e : ExceptionSpecEntry) : GlobalIndex :=
  { g with exceptionSpecs := g.exceptionSpecs.upsert ExceptionSpecEntry.key (fun old _ => old) e }

/-- `mutableTypeRelations().addBase`. -/
def addBase (g : GlobalIndex) (edge : Bytes × Bytes) : GlobalIndex :=
  { g with types := g.types.addBase edge.1 edge.2 }

/-- `mutableTypeRelations().addCtorEdge`. -/
def addCtorEdge (g : GlobalIndex) (edge : Bytes × Bytes) : GlobalIndex :=
  { g with types := g.types.addCtorEdge edge.1 edge.2 }

/-- `mutableTypeRelations().addConvOpEdge`. -/
def addConvOpEdge (g : GlobalIndex) (edge : Bytes × Bytes) : GlobalIndex :=
  { g with types := g.types.addConvOpEdge edge.1 edge.2 }

/-- `GlobalIndex::findFunctionSummary`. -/
def findFunctionSummary (g : GlobalIndex) (name : Bytes) : Option FunctionSummaryEntry :=
  g.functionSummaries.find name

/-- `GlobalIndex::findStaticInit`. -/
def findStaticInit (g : GlobalIndex) (name : Bytes) : Option StaticInitEntry :=
  (g.staticInitByName name).bind (g.staticInits.entries[·]?)

end GlobalIndex

/-! ### Enumeration and merging -/

/-- The edges of a relation in the order the map is walked. -/
def edgesIn (rel : Bytes → List Bytes) (order : List Bytes) : List (Bytes × Bytes) :=
  order.flatMap fun a => (rel a).map fun b => (a, b)

namespace GlobalIndex

/-- `GlobalIndex::absorb`, with `TypeRelationIndex::absorb`: every entry of the shard is
added, table by table. -/
def absorb (g shard : GlobalIndex) (order : CheckIterOrder) : GlobalIndex :=
  let g := (order.overloads.flatMap shard.overloads).foldl addFunctionOverload g
  let g := (order.guides.flatMap shard.guides).foldl addDeductionGuide g
  let g := (order.coverageProps.flatMap shard.coverageProps).foldl addCoverageProperty g
  let g := shard.odrEntries.entries.foldl addOdrEntry g
  let g := (order.specializations.flatMap shard.specializations).foldl addSpecialization g
  let g := shard.defaultArgs.entries.foldl addDefaultArg g
  let g := shard.staticInits.entries.foldl addStaticInit g
  let g := shard.functionSummaries.entries.foldl addFunctionSummary g
  let g := shard.headerStatics.entries.foldl addHeaderStatic g
  let g := shard.exceptionSpecs.entries.foldl addExceptionSpec g
  let g := (edgesIn shard.types.bases order.bases).foldl addBase g
  let g := (edgesIn shard.types.ctorEdges order.ctorEdges).foldl addCtorEdge g
  (edgesIn shard.types.convOpEdges order.convOpEdges).foldl addConvOpEdge g

/-- The order visits every key of each map once. -/
structure Walks (g : GlobalIndex) (order : CheckIterOrder) : Prop where
  overloads : order.overloads.Nodup ∧ ∀ k, g.overloads k ≠ [] → k ∈ order.overloads
  guides : order.guides.Nodup ∧ ∀ k, g.guides k ≠ [] → k ∈ order.guides
  coverageProps : order.coverageProps.Nodup ∧ ∀ k, g.coverageProps k ≠ [] → k ∈ order.coverageProps
  specializations :
    order.specializations.Nodup ∧ ∀ k, g.specializations k ≠ [] → k ∈ order.specializations
  bases : order.bases.Nodup ∧ ∀ k, g.types.bases k ≠ [] → k ∈ order.bases
  ctorEdges : order.ctorEdges.Nodup ∧ ∀ k, g.types.ctorEdges k ≠ [] → k ∈ order.ctorEdges
  convOpEdges : order.convOpEdges.Nodup ∧ ∀ k, g.types.convOpEdges k ≠ [] → k ∈ order.convOpEdges

end GlobalIndex

end Vycor
