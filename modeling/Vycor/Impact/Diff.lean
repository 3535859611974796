import Vycor.Impact.Identity
import Vycor.PathSearch.Basic
import Vycor.Lib.Grouped
import Mathlib.Data.Prod.Lex

/-!
# The semantic diff

`collectSide` keys every function and every relationship of a graph for comparison and
withholds those with an ambiguous key; `semanticDiff` walks the maps of the two sides in key
order and reports what is on one side only and what differs.

What `checkComparability` found and the context signature of an edge are arguments: the diff
reads them and never decides by anything else of the metadata or the contexts.
-/

namespace Vycor

/-! ### Data -/

/-- `SiteWitness`. -/
structure SiteWitness where
  callSite : Bytes
  confidence : Confidence
  execContext : ExecutionContext
  indirectionDepth : ℕ
  signature : Bytes := []
  deriving DecidableEq, Repr

/-- `RelationshipSide`. -/
structure RelationshipSide where
  sites : List SiteWitness
  attributes : List Bytes
  signatures : List Bytes
  deriving DecidableEq, Repr

/-- `FunctionFacts`. -/
structure FunctionFacts where
  key : Bytes := []
  usr : Bytes := []
  name : Bytes := []
  file : Bytes := []
  line : ℕ := 0
  isEntryPoint : Bool := false
  isVirtual : Bool := false
  enclosingClass : Bytes := []
  deriving DecidableEq, Repr

/-- `RelValue`, with the kind of its key. -/
structure RelValue where
  callerKey : Bytes
  calleeKey : Bytes
  kind : EdgeKind
  callerName : Bytes
  calleeName : Bytes
  side : RelationshipSide
  deriving DecidableEq, Repr

/-- `ChangeKind`. -/
inductive ChangeKind where
  | functionRemoved | functionAdded | callRemoved | callAdded | callChanged | contextChanged
  deriving DecidableEq, Repr

/-- The value of an enumerator of `ChangeKind`. -/
def ChangeKind.value : ChangeKind → ℕ
  | .functionRemoved => 0 | .functionAdded => 1 | .callRemoved => 2 | .callAdded => 3
  | .callChanged => 4 | .contextChanged => 5

/-- `ChangeRecord`. -/
structure ChangeRecord where
  change : ChangeKind
  callerKey : Bytes
  calleeKey : Bytes := []
  callerName : Bytes := []
  calleeName : Bytes := []
  kind : EdgeKind := .directCall
  before : Option RelationshipSide := none
  after : Option RelationshipSide := none
  function : FunctionFacts := {}
  explanation : Bytes := []
  deriving DecidableEq, Repr

/-- `AmbiguousIdentity`. -/
structure AmbiguousIdentity where
  group : Bytes
  beforeUsrs : List Bytes
  afterUsrs : List Bytes
  edgesWithheldBefore : ℕ
  edgesWithheldAfter : ℕ
  deriving DecidableEq, Repr

/-- `RenameCandidate`. -/
structure RenameCandidate where
  name : Bytes
  beforeKey : Bytes
  afterKey : Bytes
  beforeFile : Bytes
  afterFile : Bytes
  deriving DecidableEq, Repr

/-- `FunctionMove`. -/
structure FunctionMove where
  key : Bytes
  name : Bytes
  beforeFile : Bytes
  afterFile : Bytes
  beforeLine : ℕ
  afterLine : ℕ
  deriving DecidableEq, Repr

/-- The part of `Comparability` that the diff reads. -/
structure Comparability where
  comparable : Bool := true
  tusOnlyBefore : List Bytes := []
  tusOnlyAfter : List Bytes := []
  failedBefore : List Bytes := []
  failedAfter : List Bytes := []
  partialBefore : List Bytes := []
  partialAfter : List Bytes := []
  deriving DecidableEq, Repr

/-- `SemanticDiffOptions`. -/
structure SemanticDiffOptions where
  compareContexts : Bool := true
  includeMoves : Bool := false
  maxSites : ℕ := 8
  allowMismatch : Bool := false
  deriving DecidableEq, Repr

/-- `SemanticDiffResult`. -/
structure SemanticDiffResult where
  refused : Bool := false
  changes : List ChangeRecord := []
  ambiguous : List AmbiguousIdentity := []
  renameCandidates : List RenameCandidate := []
  moves : List FunctionMove := []
  movedFunctions : ℕ := 0
  functionsBefore : ℕ := 0
  functionsAfter : ℕ := 0
  relationshipsBefore : ℕ := 0
  relationshipsAfter : ℕ := 0
  deriving DecidableEq, Repr

/-- `DiffSide`: a graph and, when its contexts are loaded, the signature of each edge. -/
structure DiffSide where
  graph : CallGraph
  signatures : Option (Bytes → Bytes → Bytes → Bytes) := none

/-! ### One side -/

/-- `confidenceToString`. -/
def confidenceToString : Confidence → Bytes
  | .Proven => text "Proven"
  | .Plausible => text "Plausible"
  | _ => text "Unknown"

/-- `executionContextToString`. -/
def executionContextToString : ExecutionContext → Bytes
  | .threadSpawn => text "ThreadSpawn"
  | .asyncTask => text "AsyncTask"
  | .packagedTask => text "PackagedTask"
  | .invoke => text "Invoke"
  | _ => text "Synchronous"

/-- `attributeOf`. -/
def attributeOf (s : SiteWitness) : Bytes :=
  confidenceToString s.confidence ++ text "/" ++ executionContextToString s.execContext ++
    text "/" ++ decimal s.indirectionDepth

/-- `siteLess`. -/
def siteLess (a b : SiteWitness) : Bool :=
  if a.callSite ≠ b.callSite then a.callSite < b.callSite
  else if a.confidence.value ≠ b.confidence.value then a.confidence.value < b.confidence.value
  else if a.execContext.value ≠ b.execContext.value then a.execContext.value < b.execContext.value
  else a.indirectionDepth < b.indirectionDepth

/-- What `collectSide` fills in, the maps in key order. -/
structure CollectedSide where
  functions : List (Bytes × FunctionFacts)
  relationships : List ((Bytes ×ₗ (Bytes ×ₗ ℕ)) × RelValue)
  withheld : Bytes → ℕ

section Collect

variable (ll : Llvm) (identity : IdentityTable)

/-- The facts of a node. -/
def factsOfNode (n : CallGraphNode) : FunctionFacts :=
  { key := identity.keyOf n.usr, usr := n.usr, name := n.qualifiedName, file := n.file,
    line := n.line, isEntryPoint := n.isEntryPoint, isVirtual := n.isVirtual,
    enclosingClass := n.enclosingClass }

/-- The witness of an edge. -/
def witnessOf (signatures : Option (Bytes → Bytes → Bytes → Bytes)) (e : CallGraphEdge) :
    SiteWitness :=
  { callSite := e.callSite, confidence := e.confidence, execContext := e.execContext,
    indirectionDepth := e.indirectionDepth,
    signature := (signatures.map fun forEdge => forEdge e.callSite e.callerUsr e.calleeUsr).getD [] }

/-- `RelKey` of an edge, in its order. -/
def relKeyOf (e : CallGraphEdge) : Bytes ×ₗ (Bytes ×ₗ ℕ) :=
  toLex (identity.keyOf e.callerUsr, toLex (identity.keyOf e.calleeUsr, e.kind.value))

/-- The names a relationship is given: those of its first edge whose caller has one. -/
def relNames (edges : List CallGraphEdge) : Bytes × Bytes :=
  edges.foldl (fun names e => if names.1 = [] then (e.callerName, e.calleeName) else names) ([], [])

/-- The value of a relationship, from its edges. -/
def relValueOf (signatures : Option (Bytes → Bytes → Bytes → Bytes)) (kind : EdgeKind)
    (key : Bytes ×ₗ (Bytes ×ₗ ℕ)) (edges : List CallGraphEdge) : RelValue :=
  let sites := (edges.map (witnessOf signatures)).insertionSort fun a b => siteLess b a = false
  { callerKey := (ofLex key).1
    calleeKey := (ofLex (ofLex key).2).1
    kind := kind
    callerName := (relNames edges).1
    calleeName := (relNames edges).2
    side :=
      { sites := sites
        attributes := (sites.map attributeOf).insertionSort (· ≤ ·)
        signatures :=
          if signatures.isSome then (sites.map (·.signature)).insertionSort (· ≤ ·) else [] } }

/-- An edge is withheld for an end with an ambiguous key, its caller first. -/
def withheldFor (e : CallGraphEdge) : Option Bytes :=
  if identity.isAmbiguous (identity.keyOf e.callerUsr) then some (identity.keyOf e.callerUsr)
  else if identity.isAmbiguous (identity.keyOf e.calleeUsr) then some (identity.keyOf e.calleeUsr)
  else none

/-- The edges a side compares: those of every node. -/
def sideEdges (g : CallGraph) : List CallGraphEdge :=
  g.nodesByUsr.flatMap fun n => g.calleesOf ll n.usr

/-- `collectSide`. -/
def collectSide (side : DiffSide) (signatures : Option (Bytes → Bytes → Bytes → Bytes)) :
    CollectedSide :=
  let facts := (side.graph.nodesByUsr.map (factsOfNode identity)).filter fun f =>
    !identity.isAmbiguous f.key
  let edges := sideEdges ll side.graph
  let kept := edges.filter fun e => (withheldFor identity e).isNone
  { functions := (groupedBy FunctionFacts.key facts).filterMap fun p =>
      p.2.head?.map fun f => (p.1, f)
    relationships := (groupedBy (relKeyOf identity) kept).filterMap fun p =>
      p.2.head?.map fun e => (p.1, relValueOf signatures e.kind p.1 p.2)
    withheld := fun group => edges.countP fun e =>
      (withheldFor identity e).any fun key => identity.groupOf key = group }

end Collect

/-! ### The two sides -/

/-- `stripDot`. -/
def stripDot : Bytes → Bytes
  | 46 :: 47 :: rest => stripDot rest
  | p => p

/-- `fileNamesTu`: equal, or one is the other's path suffix at a component boundary. -/
def fileNamesTu (file tuPath : Bytes) : Bool :=
  let file := stripDot file
  if file = [] then false
  else file = tuPath || (47 :: file).isSuffixOf tuPath || (47 :: tuPath).isSuffixOf file

/-- `explainAbsence`. -/
def explainAbsence (file : Bytes) (absent failed partly : List Bytes) (suffix : Bytes) : Bytes :=
  if absent.any (fileNamesTu file) then text "tu_absent_" ++ suffix
  else if failed.any (fileNamesTu file) then text "tu_failed_" ++ suffix
  else if partly.any (fileNamesTu file) then text "tu_partial_" ++ suffix
  else []

/-- `trimSites`. -/
def trimSites (maxSites : ℕ) (s : RelationshipSide) : RelationshipSide :=
  if maxSites ≠ 0 ∧ maxSites < s.sites.length then { s with sites := s.sites.take maxSites } else s

section Merge

variable {κ ν : Type*} [LinearOrder κ]

/-- The value of a key in a map. -/
def valueAt (m : List (κ × ν)) (k : κ) : Option ν := (m.find? fun p => p.1 = k).map (·.2)

/-- The walk over two maps in key order: the keys of either side, with the values they have
there. -/
def mergedMaps (before after : List (κ × ν)) : List (κ × Option ν × Option ν) :=
  (keysOf Prod.fst (before ++ after)).map fun k => (k, valueAt before k, valueAt after k)

end Merge

/-- The function changes: keys on one side only. -/
def functionChanges (c : Comparability) (merged : List (Bytes × Option FunctionFacts ×
    Option FunctionFacts)) : List ChangeRecord :=
  merged.filterMap fun
    | (key, some b, none) => some {
        change := .functionRemoved, callerKey := key, function := b
        explanation := explainAbsence b.file c.tusOnlyBefore c.failedAfter c.partialAfter
          (text "after") }
    | (key, none, some a) => some {
        change := .functionAdded, callerKey := key, function := a
        explanation := explainAbsence a.file c.tusOnlyAfter c.failedBefore c.partialBefore
          (text "before") }
    | _ => none

/-- The functions on both sides whose place differs. -/
def functionMoves (merged : List (Bytes × Option FunctionFacts × Option FunctionFacts)) :
    List FunctionMove :=
  merged.filterMap fun
    | (key, some b, some a) =>
      if b.file ≠ a.file ∨ b.line ≠ a.line then
        some ⟨key, a.name, b.file, a.file, b.line, a.line⟩
      else none
    | _ => none

/-- The removed and added functions that share a display name. -/
def renamesOf (merged : List (Bytes × Option FunctionFacts × Option FunctionFacts)) :
    List RenameCandidate :=
  let removed := merged.filterMap fun
    | (_, some b, none) => some b
    | _ => none
  let added := merged.filterMap fun
    | (_, none, some a) => some a
    | _ => none
  let pairs := removed.flatMap fun b => (added.filter fun a => a.name = b.name).map fun a =>
    (⟨b.name, b.key, a.key, b.file, a.file⟩ : RenameCandidate)
  pairs.insertionSort fun x y => toLex (x.beforeKey, x.afterKey) ≤ toLex (y.beforeKey, y.afterKey)

/-- The changes of one relationship. -/
def relationshipChange (contexts : Bool) (maxSites : ℕ) :
    Option RelValue → Option RelValue → List ChangeRecord
  | some b, none => [{
      change := .callRemoved, callerKey := b.callerKey, calleeKey := b.calleeKey, kind := b.kind
      callerName := b.callerName, calleeName := b.calleeName
      before := some (trimSites maxSites b.side) }]
  | none, some a => [{
      change := .callAdded, callerKey := a.callerKey, calleeKey := a.calleeKey, kind := a.kind
      callerName := a.callerName, calleeName := a.calleeName
      after := some (trimSites maxSites a.side) }]
  | some b, some a =>
    let changed (change : ChangeKind) : ChangeRecord :=
      { change := change, callerKey := b.callerKey, calleeKey := b.calleeKey, kind := b.kind
        callerName := a.callerName, calleeName := a.calleeName
        before := some (trimSites maxSites b.side), after := some (trimSites maxSites a.side) }
    (if b.side.attributes ≠ a.side.attributes then [changed .callChanged] else []) ++
      (if contexts && b.side.signatures ≠ a.side.signatures then [changed .contextChanged] else [])
  | none, none => []

/-- The order of the change list. -/
def ChangeRecord.sortKey (r : ChangeRecord) : ℕ ×ₗ (Bytes ×ₗ (Bytes ×ₗ ℕ)) :=
  toLex (r.change.value, toLex (r.callerKey, toLex (r.calleeKey, r.kind.value)))

/-- The groups withheld on both sides, with what was withheld. -/
def ambiguousGroups (idB idA : IdentityTable) (sideB sideA : CollectedSide) :
    List AmbiguousIdentity :=
  (groupedBy Prod.fst idB.groups).filterMap fun p =>
    if (p.2.head?.any fun q => idB.isAmbiguous q.2) then
      some {
        group := p.1
        beforeUsrs := p.2.filterMap fun q => idB.usrOf q.2
        afterUsrs := (entriesOf Prod.fst idA.groups p.1).filterMap fun q => idA.usrOf q.2
        edgesWithheldBefore := sideB.withheld p.1
        edgesWithheldAfter := sideA.withheld p.1 }
    else none

/-- The identity tables of a comparison, with the ambiguous groups marked. -/
def identityTables (ll : Llvm) (before after : CallGraph) : IdentityTable × IdentityTable :=
  IdentityTable.markAmbiguousGroups (IdentityTable.build ll before) (IdentityTable.build ll after)

/-- Contexts are compared when both sides have them. -/
def contextsCompared (opts : SemanticDiffOptions) (before after : DiffSide) : Bool :=
  opts.compareContexts && before.signatures.isSome && after.signatures.isSome

/-- A side as the diff collects it. -/
def collected (ll : Llvm) (identity : IdentityTable) (contexts : Bool) (side : DiffSide) :
    CollectedSide :=
  collectSide ll identity side (if contexts then side.signatures else none)

/-- `semanticDiff`. -/
def semanticDiff (ll : Llvm) (c : Comparability) (before after : DiffSide)
    (opts : SemanticDiffOptions) : SemanticDiffResult :=
  if !c.comparable && !opts.allowMismatch then { refused := true }
  else
    let contexts := contextsCompared opts before after
    let (idB, idA) := identityTables ll before.graph after.graph
    let sideB := collected ll idB contexts before
    let sideA := collected ll idA contexts after
    let functions := mergedMaps sideB.functions sideA.functions
    let relationships := mergedMaps sideB.relationships sideA.relationships
    let changes := functionChanges c functions ++
      relationships.flatMap fun p => relationshipChange contexts opts.maxSites p.2.1 p.2.2
    { changes := changes.insertionSort fun x y => x.sortKey ≤ y.sortKey
      ambiguous := ambiguousGroups idB idA sideB sideA
      renameCandidates := renamesOf functions
      moves := if opts.includeMoves then functionMoves functions else []
      movedFunctions := (functionMoves functions).length
      functionsBefore := sideB.functions.length
      functionsAfter := sideA.functions.length
      relationshipsBefore := sideB.relationships.length
      relationshipsAfter := sideA.relationships.length }

end Vycor
