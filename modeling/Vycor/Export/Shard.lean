import Vycor.Export.FunctionReturns
import Vycor.Lib.Grouped
import Vycor.Lib.StdSort
import Vycor.Query.Identity
import Vycor.Snapshot.Meta
import Vycor.Text.Trim

/-!
# The shard of the whole graph

`toShardObject` exports the loaded indexes as one JSON object: an entity for every function and
class, a raw call and a raw context for every edge that is not a duplicate, the sites of the
channels, the acquired locks and the function returns. The raw call and the raw context of an
edge stand at the same position of their arrays, which is their `context_id`.

The walks over hash tables whose order the result does not keep follow the ids; the walk over
the function returns, whose order can be seen, is an argument.
-/

namespace Vycor

/-! ### Locations and spellings -/

/-- `parseTrailingUint`: what stands before the last colon, and the number behind it. -/
def parseTrailingUint (s : Bytes) : Option (Bytes × ℕ) :=
  let tail := (s.reverse.takeWhile (· ≠ 58)).reverse
  if 58 ∈ s ∧ allDigits tail ∧ digitsValue tail < 2 ^ 64 then
    some (s.take (s.length - tail.length - 1), digitsValue tail % 2 ^ 32)
  else none

/-- The outputs of `parseLocation`. -/
structure Location where
  file : Bytes
  line : ℕ := 0
  col : ℕ := 0
  deriving DecidableEq, Repr

/-- `parseLocation`. -/
def parseLocation (loc : Bytes) : Location :=
  match parseTrailingUint loc with
  | none => ⟨loc, 0, 0⟩
  | some (beforeLast, n1) =>
    match parseTrailingUint beforeLast with
    | some (file, n2) => ⟨file, n2, n1⟩
    | none => ⟨beforeLast, n1, 0⟩

/-- What stands behind the last occurrence of a byte, where something does. -/
def afterLast (c : UInt8) (s : Bytes) : Option Bytes :=
  let tail := (s.reverse.takeWhile (· ≠ c)).reverse
  if c ∈ s ∧ tail ≠ [] then some tail else none

/-- `shortNameOf`. -/
def shortNameOf (qualifiedName : Bytes) : Bytes :=
  let before := qualifiedName.takeWhile (· ≠ 40)
  let head :=
    if 40 ∈ qualifiedName ∧ before ≠ [] ∧ ¬ text "operator" <:+ before then before
    else qualifiedName
  match (afterLastScope head).filter (· ≠ []) with
  | some tail => tail
  | none => (afterLast 46 head).getD head

/-- `mapEdgeKind`. -/
def mapEdgeKind : EdgeKind → Bytes
  | .directCall => text "direct"
  | .virtualDispatch => text "dynamic_dispatch"
  | .functionPointer => text "function_pointer"
  | .constructorCall => text "constructor"
  | .destructorCall => text "destructor"
  | .operatorCall => text "operator_call"
  | .templateInstantiation => text "template_instantiation"
  | .lambdaCall => text "lambda_call"
  | .threadEntry => text "thread_entry"
  | .functionPointerReturn => text "function_pointer_return"
  | .unnamed _ => text "direct"

/-- `mapConfidence`. -/
def mapConfidence : Confidence → Bytes
  | .Proven => text "proven"
  | .Plausible => text "plausible"
  | .Unknown => text "dynamic"
  | .unnamed _ => text "proven"

/-- `mapExecContext`. -/
def mapExecContext : ExecutionContext → Bytes
  | .synchronous => text "sync"
  | .threadSpawn => text "thread_spawn"
  | .asyncTask => text "async"
  | .packagedTask => text "packaged_task"
  | .invoke => text "invoke"
  | .unnamed _ => text "sync"

/-- `mapParseOutcome`. -/
def mapParseOutcome : TuStatus → Bytes
  | .indexed => text "indexed"
  | .partially => text "partial"
  | .crashed | .poisoned | .skipped | .timedOut => text "failed"

/-! ### Hashes -/

/-- `toJsonU64`. -/
def toJsonU64 (val : UInt64) : Json := .count (val &&& 0x7fffffffffffffff).toNat

/-- `fnv1a64`. -/
def fnv1a64 (s : Bytes) : UInt64 :=
  s.foldl (fun h c => (h ^^^ c.toUInt64) * 1099511628211) 14695981039346656037

/-- A hexadecimal digit. -/
def hexDigitValue (c : UInt8) : Option ℕ :=
  if isDigit c then some (c.toNat - 48)
  else if 97 ≤ c ∧ c ≤ 102 then some (c.toNat - 87)
  else if 65 ≤ c ∧ c ≤ 70 then some (c.toNat - 55)
  else none

/-- `getAsInteger(16, ...)` of at most sixteen characters. -/
def getHexInteger (s : Bytes) : Option ℕ :=
  if s = [] then none else s.foldlM (fun n c => (hexDigitValue c).map (16 * n + ·)) 0

/-- `parseHexOrHash`. -/
def parseHexOrHash (fp fallback : Bytes) : UInt64 :=
  if fp = [] then fnv1a64 fallback
  else
    match (getHexInteger (fp.take 16)).filter (· ≠ 0) with
    | some val => UInt64.ofNat val
    | none => fnv1a64 fp

/-! ### Resources -/

/-- The outer type of a type name. -/
def outerType (typeName : Bytes) : Bytes := typeName.takeWhile (· ≠ 60)

/-- `kExcludedSubstrings`. -/
def kExcludedSubstrings : List Bytes :=
  [text "basic_string", text "string", text "vector", text "smallvector", text "smallstring",
    text "map", text "set", text "unordered_", text "densemap", text "denseset", text "stringmap",
    text "stringset", text "optional", text "variant", text "any", text "tuple", text "pair",
    text "array", text "deque", text "list", text "function", text "unique_ptr",
    text "shared_ptr", text "weak_ptr", text "intrusive_ref", text "raw_string_ostream",
    text " raw_svector_ostream", text "stringstream", text "ostringstream", text "istringstream",
    text "regex", text "path", text "twine", text "error", text "expected", text "json::"]

/-- `kIncludedSubstrings`. -/
def kIncludedSubstrings : List Bytes :=
  [text "lock", text "mutex", text "guard", text "scoped", text "scope_exit", text "scope_fail",
    text "scope_success", text "cleanup", text "defer", text "finally", text "final_act",
    text "saveandrestore", text "save_and_restore", text "latch", text "barrier",
    text "semaphore", text "critical_section", text "transaction", text "session",
    text "ifstream", text "ofstream", text "fstream", text "raw_fd_ostream",
    text "tooloutputfile", text "tempfile", text "fileremover"]

/-- `isResourceOrLockRaii`. -/
def isResourceOrLockRaii (raii : RaiiLocal Bytes) : Bool :=
  if raii.kind = .lock then true
  else if raii.kind = .smartPtr then false
  else
    let lower := asciiLower (trimBlanks (outerType raii.typeName))
    if kExcludedSubstrings.any fun ex => ex <:+: lower then false
    else kIncludedSubstrings.any fun inc => inc <:+: lower

/-- `classifyRaiiResourceKind`. -/
def classifyRaiiResourceKind (raii : RaiiLocal Bytes) : Bytes :=
  let lower := asciiLower (outerType raii.typeName)
  if raii.kind = .lock then text "threading_lock"
  else if [text "lock", text "mutex", text "critical_section", text "semaphore"].any
      fun w => w <:+: lower then text "threading_lock"
  else if text "transaction" <:+: lower then text "transaction"
  else if text "session" <:+: lower then text "http_session"
  else if text "temp" <:+: lower then text "tempfile"
  else if [text "fstream", text "raw_fd_ostream", text "file"].any fun w => w <:+: lower then
    text "file_handle"
  else text "other"

/-- The local is exported as a lock. -/
def isExportedLock (raii : RaiiLocal Bytes) : Bool :=
  raii.kind = .lock || classifyRaiiResourceKind raii = text "threading_lock"

/-- `lockId`. -/
def lockIdentity (raii : RaiiLocal Bytes) : Bytes :=
  if raii.varName ≠ [] then raii.varName else raii.typeName

/-- A string, or null where it is empty. -/
def stringOrNull (s : Bytes) : Json := if s = [] then .null else .string s

/-- An element of `with_scopes`. -/
def withScopeToJson (raii : RaiiLocal Bytes) : Json :=
  .object [(text "context_expr", .string raii.typeName), (text "var_name", stringOrNull raii.varName),
    (text "resource_kind", .string (classifyRaiiResourceKind raii)),
    (text "lock_identity", if isExportedLock raii then .string (lockIdentity raii) else .null),
    (text "is_async", .boolean false),
    (text "line", .count (parseLocation raii.declLocation).line)]

/-- An element of `handlers`. -/
def handlerToJson (h : CatchHandlerInfo) : Json :=
  .object [(text "caught_types", .strings
      [if h.isCatchAll ∨ h.caughtType = [] then text "..." else h.caughtType]),
    (text "is_bare_except", .boolean h.isCatchAll), (text "rethrows", .boolean h.rethrows),
    (text "swallows", .boolean !h.rethrows), (text "line", .count (parseLocation h.location).line)]

/-- An element of `try_scopes`. -/
def tryScopeToJson (tc : TryCatchScope) : Json :=
  .object [(text "handlers", .array (tc.handlers.map handlerToJson)),
    (text "has_finally", .boolean false), (text "line", .count (parseLocation tc.tryLocation).line)]

/-- `guardToJson`. -/
def guardToJson (g : ConditionalGuard) : Json :=
  .object [(text "kind", .string (if g.isAssertion then text "assert_guard" else text "condition")),
    (text "expr", .string g.conditionText), (text "in_true_branch", .boolean g.inTrueBranch),
    (text "line", .count (parseLocation g.location).line)]

/-! ### Raw calls and contexts -/

/-- An exported edge, with the control-flow context that was found for it. -/
structure ExportedEdge where
  edge : StoredEdge
  context : Option CallSiteContext
  deriving DecidableEq, Repr

/-- `seenSiteEdges`, `seenBareEdges` and the exported edges. -/
structure EdgeExport where
  seenSites : List (Bytes × Bytes × SId × ℕ × ℕ) := []
  seenBare : List (Bytes × Bytes × ℕ × ℕ) := []
  out : List ExportedEdge := []

/-- `hasCf`. -/
def hasControlFlow (context : Option CallSiteContext) : Bool :=
  context.any fun c => c.enclosingTryCatches ≠ [] || c.liveRaiiLocals.any isResourceOrLockRaii ||
    c.enclosingGuards ≠ []

section Edges

variable (ll : Llvm) (g : CallGraph) (cf : ControlFlowIndex)

/-- `cfOpt`. The outer `Option` is the read of the control-flow index. -/
def contextOfEdge (se : StoredEdge) : Option (Option CallSiteContext) := do
  let callSite := g.interner.resolve se.callSite
  let callerUsr := g.interner.resolve se.caller
  match ← cf.contextForEdge ll callSite callerUsr (g.interner.resolve se.callee) with
  | some c => some (some c)
  | none =>
    match ← cf.contextAtSiteOf ll callSite callerUsr with
    | some c => some (some c)
    | none => cf.contextAtSite ll callSite

/-- The loop over the edges, at one edge. -/
def EdgeExport.visit (st : EdgeExport) (se : StoredEdge) : Option EdgeExport :=
  if se.refs = 0 then some st
  else
    let bare := (g.displayFor se.caller, g.displayFor se.callee, se.kind.value,
      se.execContext.value)
    let site := (bare.1, bare.2.1, se.callSite, bare.2.2)
    if site ∈ st.seenSites then some st
    else do
      let context ← contextOfEdge ll g cf se
      let st := { st with seenSites := site :: st.seenSites }
      if hasControlFlow context then some { st with out := st.out ++ [⟨se, context⟩] }
      else if bare ∈ st.seenBare then some st
      else some { st with seenBare := bare :: st.seenBare, out := st.out ++ [⟨se, context⟩] }

/-- The exported edges. -/
def exportedEdges : Option (List ExportedEdge) :=
  (g.edges.foldlM (EdgeExport.visit ll g cf) {}).map (·.out)

end Edges

section Records

variable (g : CallGraph) (moduleFile : Bytes)

/-- `edgeFile`, `edgeLine` and `edgeCol`. -/
def edgeLocation (se : StoredEdge) : Location :=
  let loc := parseLocation (g.interner.resolve se.callSite)
  if loc.file = [] then { loc with file := moduleFile } else loc

/-- The members that a raw call and a raw context share behind the ends of the call. -/
def locationMembers (se : StoredEdge) : JsonObject :=
  let loc := edgeLocation g moduleFile se
  [(text "file", .string loc.file), (text "line", .count loc.line), (text "column", .count loc.col)]

/-- `ctxObj`. -/
def contextToJson (contextId : ℕ) (e : ExportedEdge) : Json :=
  .object ([(text "context_id", .count contextId),
    (text "caller", .string (g.displayFor e.edge.caller)),
    (text "callee", .string (g.displayFor e.edge.callee))] ++ locationMembers g moduleFile e.edge ++
    [(text "execution_context", .string (mapExecContext e.edge.execContext)),
      (text "is_awaited", .boolean (decide (e.edge.execContext = .asyncTask))),
      (text "try_scopes", .array ((e.context.toList.flatMap (·.enclosingTryCatches)).map tryScopeToJson)),
      (text "with_scopes", .array (((e.context.toList.flatMap (·.liveRaiiLocals)).filter
        isResourceOrLockRaii).map withScopeToJson)),
      (text "guards", .array ((e.context.toList.flatMap (·.enclosingGuards)).map guardToJson))])

/-- `callObj`. -/
def callToJson (contextId : ℕ) (e : ExportedEdge) : Json :=
  .object ([(text "caller", .string (g.displayFor e.edge.caller)),
    (text "callee", .string (g.displayFor e.edge.callee)),
    (text "callee_raw", .string (g.displayFor e.edge.callee)), (text "module", .string moduleFile)] ++
    locationMembers g moduleFile e.edge ++
    [(text "byte_start", .count 0), (text "byte_end", .count 0),
      (text "kind", .string (mapEdgeKind e.edge.kind)),
      (text "confidence", .string (mapConfidence e.edge.confidence)),
      (text "execution_context", .string (mapExecContext e.edge.execContext)),
      (text "is_awaited", .boolean (decide (e.edge.execContext = .asyncTask))),
      (text "arg_constants", .array []), (text "passed_dict_keys", .array []),
      (text "context_id", .count contextId)])

/-- `lockAcqs`, an entry for every acquired lock. -/
def lockAcquisitions (e : ExportedEdge) : List (Bytes × Bytes × ℕ) :=
  (((e.context.toList.flatMap (·.liveRaiiLocals)).filter isResourceOrLockRaii).filter
    isExportedLock).map fun raii =>
      (g.displayFor e.edge.caller, lockIdentity raii, (parseLocation raii.declLocation).line)

/-- `lock_acquisitions`. -/
def lockAcquisitionsToJson (edges : List ExportedEdge) : JsonObject :=
  (groupedBy (·.1) (edges.flatMap (lockAcquisitions g))).map fun entry =>
    (entry.1, .array ((((entry.2.map (·.2)).dedup).insertionSort
      fun a b => toLex a ≤ toLex b).map fun lock =>
        .array [.string lock.1, .count lock.2, .boolean false]))

/-- `chObj`. -/
def exportedSiteToJson (site : ChannelSite) : Json :=
  let loc := parseLocation site.callSite
  .object [(text "channel_id", .string site.channelId),
    (text "channel_type_name", .string site.channelTypeName),
    (text "category", .string site.category),
    (text "op", .string (if site.op = .produce then text "produce" else text "consume")),
    (text "site_function_usr", .string
      (if site.siteFunctionUsr = [] then site.siteFunctionDisplay else site.siteFunctionUsr)),
    (text "site_function_display", .string
      (if site.siteFunctionDisplay = [] then site.siteFunctionUsr else site.siteFunctionDisplay)),
    (text "file", .string (if loc.file = [] then moduleFile else loc.file)),
    (text "line", .count loc.line), (text "column", .count loc.col),
    (text "guards", .array (site.enclosingGuards.map guardToJson))]

end Records

/-! ### Entities -/

/-- What `makeEntityNodeJson` is given. -/
structure EntityNode where
  usr : Bytes
  qualifiedName : Bytes
  shortName : Bytes
  moduleName : Bytes
  enclosingClass : Bytes
  file : Bytes
  line : ℕ
  kind : Bytes
  isEntryPoint : Bool
  isAbstract : Bool
  bases : List Bytes
  skeletonHash : UInt64
  normalizedSkeleton : Bytes

/-- `makeEntityNodeJson`. -/
def makeEntityNodeJson (e : EntityNode) : Json :=
  .object [(text "usr", .string e.usr), (text "qualified_name", .string e.qualifiedName),
    (text "name", .string e.shortName), (text "module", .string e.moduleName),
    (text "enclosing_class", stringOrNull e.enclosingClass), (text "file", .string e.file),
    (text "line", .count e.line), (text "column", .count 1), (text "end_line", .count e.line),
    (text "end_column", .count 1), (text "byte_start", .count 0), (text "byte_end", .count 0),
    (text "kind", .string e.kind), (text "execution_context", .string (text "sync")),
    (text "decorators", .array []), (text "parameters", .array []),
    (text "return_annotation", .null), (text "bases", .strings e.bases), (text "mro", .array []),
    (text "is_protocol", .boolean false), (text "is_abc", .boolean e.isAbstract),
    (text "is_abstractmethod", .boolean e.isAbstract), (text "is_exported", .boolean true),
    (text "is_entry_point", .boolean e.isEntryPoint),
    (text "entry_point_kind", if e.isEntryPoint then .string (text "main") else .null),
    (text "skeleton_hash", toJsonU64 e.skeletonHash), (text "skeleton_features", .array []),
    (text "normalized_skeleton", .string e.normalizedSkeleton),
    (text "statement_count", .count 1), (text "raises", .array []),
    (text "broad_catches", .array []), (text "returned_resources", .array []),
    (text "dict_returns", .array []), (text "dict_accesses", .array []),
    (text "returns_optional_or_status", .boolean false)]

namespace CallGraphNode

variable (n : CallGraphNode)

/-- The usr of a node, its name where it has none. -/
def exportUsr : Bytes := if n.usr = [] then n.qualifiedName else n.usr

/-- The name of a node, its usr where it has none. -/
def exportName : Bytes := if n.qualifiedName = [] then n.exportUsr else n.qualifiedName

/-- `isLambdaNode`. -/
def isLambdaNode : Bool :=
  text "vycor-lambda:" <+: n.exportUsr || text "lambda#" <+: n.exportName ||
    text "(lambda" <:+: n.exportName

/-- `effectiveEnclosingClass`. -/
def effectiveEnclosingClass : Bytes := if n.isLambdaNode then [] else n.enclosingClass

end CallGraphNode

section Entities

variable (g : CallGraph) (moduleFile : Bytes)

/-- Strings in order, each once. -/
def sortedUnique (l : List Bytes) : List Bytes := l.dedup.insertionSort (· ≤ ·)

/-- The nodes with their ids. -/
def nodeEntries : List (SId × CallGraphNode) :=
  (List.range g.interner.size).filterMap fun id => (g.nodes id).map fun n => (id, n)

/-- `skel` of a node. -/
def skeletonOf (usrId : SId) (n : CallGraphNode) : Bytes :=
  n.exportName ++ text "|" ++ (if n.isVirtual then text "virtual" else text "nonvirtual") ++
    (sortedUnique ((g.edges.filter fun se => se.refs ≠ 0 ∧ se.caller = usrId).map fun se =>
      g.displayFor se.callee)).flatMap fun c => text "->" ++ c

/-- The entity of a node. -/
def nodeEntity (entryPoints : List Bytes) (usrId : SId) (n : CallGraphNode) : EntityNode where
  usr := n.exportUsr
  qualifiedName := n.exportName
  shortName := shortNameOf n.exportName
  moduleName := moduleFile
  enclosingClass := n.effectiveEnclosingClass
  file := if n.file = [] then moduleFile else n.file
  line := n.line
  kind := if n.isLambdaNode then text "lambda"
    else if n.effectiveEnclosingClass ≠ [] then text "method" else text "function"
  isEntryPoint := n.isEntryPoint || n.exportName = text "main" ||
    shortNameOf n.exportName = text "main" ||
    entryPoints.any fun ep =>
      ep = n.exportName || ep = n.exportUsr || ep = shortNameOf n.exportName
  isAbstract := false
  bases := sortedUnique ((g.overrideBases usrId).map g.displayFor)
  skeletonHash := fnv1a64 (skeletonOf g usrId n)
  normalizedSkeleton := skeletonOf g usrId n

/-- `classBases`, the pairs of a derived class and a base. -/
def classBases : List (Bytes × Bytes) :=
  (List.range g.interner.size).flatMap fun base =>
    (g.derivedClasses base).map fun derived => (g.displayFor derived, g.displayFor base)

/-- `allClasses`; the bases of a class are in the hierarchy themselves. -/
def allClasses : List Bytes :=
  sortedUnique ((classBases g).flatMap (fun p => [p.2, p.1]) ++
    ((nodeEntries g).filter fun n => n.2.enclosingClass ≠ [] ∧ n.2.isLambdaNode = false).map
      (·.2.enclosingClass))

/-- `classLocations`: the first location of a member of a class. -/
def classLocation (cls : Bytes) : Option (Bytes × ℕ) :=
  (((nodeEntries g).filter fun n => n.2.enclosingClass = cls ∧ n.2.isLambdaNode = false ∧
      n.2.file ≠ [] ∧ n.2.file ≠ text "<unknown>" ∧ 0 < n.2.line).map
    fun n => (n.2.file, n.2.line)).foldl (fun best loc =>
      match best with
      | none => some loc
      | some b => if toLex loc < toLex b then some loc else some b) none

/-- The entity of a class. -/
def classEntity (cls : Bytes) : EntityNode where
  usr := text "cpp-class:" ++ cls
  qualifiedName := cls
  shortName := shortNameOf cls
  moduleName := moduleFile
  enclosingClass := []
  file := ((classLocation g cls).map (·.1)).getD moduleFile
  line := ((classLocation g cls).map (·.2)).getD 1
  kind := text "class"
  isEntryPoint := false
  isAbstract := false
  bases := sortedUnique (((classBases g).filter (·.1 = cls)).map (·.2))
  skeletonHash := fnv1a64 (text "class:" ++ cls)
  normalizedSkeleton := text "class " ++ cls

/-- The order of `sortedNodes`. -/
def nodeUsrBefore (a b : SId × CallGraphNode) : Bool := a.2.usr < b.2.usr

/-- `entitiesArr`: the nodes by usr, and the classes that no node stands for. -/
def entities (nodeSort : Sorter nodeUsrBefore) (entryPoints : List Bytes) : List EntityNode :=
  (nodeSort.run (nodeEntries g)).map (fun n => nodeEntity g moduleFile entryPoints n.1 n.2) ++
    ((allClasses g).filter fun cls => cls ≠ [] ∧ ∀ n ∈ nodeEntries g,
      n.2.effectiveEnclosingClass ≠ [] → n.2.exportName = n.2.effectiveEnclosingClass →
        n.2.exportName ≠ cls).map (classEntity g moduleFile)

end Entities

/-! ### The shard -/

/-- `moduleFile` of the whole graph. -/
def moduleFileOf (snap : SnapshotMeta) : Bytes :=
  match (snap.files.head?.map (·.path)).filter (· ≠ []) with
  | some path => path
  | none => text "<cpp_tu>"

/-- `fingerprint` of a TU. -/
def shardFingerprint (snap : SnapshotMeta) (i : ℕ) (moduleFile : Bytes) : UInt64 :=
  let fingerprint := parseHexOrHash (snap.fingerprints.getD i []) moduleFile
  if fingerprint = 0 then fnv1a64 moduleFile else fingerprint

/-- `outcomeStr` of a TU. -/
def shardOutcome (snap : SnapshotMeta) (i : ℕ) : Bytes :=
  match snap.outcomes[i]? with
  | some outcome => mapParseOutcome outcome.status
  | none => text "indexed"

/-- `errorDetail` of a TU. -/
def shardErrorDetail (snap : SnapshotMeta) (i : ℕ) : Bytes :=
  match snap.outcomes[i]? with
  | some outcome => outcome.detail
  | none => []

/-- The members of a shard that say what it is of. -/
def headMembers (moduleFile : Bytes) (fingerprint : UInt64) (outcome errorDetail : Bytes) :
    JsonObject :=
  [(text "module_name", .string moduleFile), (text "file", .string moduleFile),
    (text "fingerprint", toJsonU64 fingerprint), (text "outcome", .string outcome),
    (text "error_detail", stringOrNull errorDetail)]

/-- The header of the whole graph, which goes by the first TU. -/
def wholeHeader (snap : SnapshotMeta) : JsonObject :=
  match snap.files.head? with
  | none => headMembers (moduleFileOf snap) (fnv1a64 (moduleFileOf snap)) (text "indexed") []
  | some f =>
    let fingerprint := parseHexOrHash (snap.fingerprints.getD 0 []) f.path
    headMembers (moduleFileOf snap)
      (if fingerprint = 0 then fnv1a64 (moduleFileOf snap) else fingerprint)
      (shardOutcome snap 0) (shardErrorDetail snap 0)

/-- The members of a shard that are always empty. -/
def emptyMembers : JsonObject :=
  [(text "imports", .array []), (text "schemas", .array []), (text "env_accesses", .array []),
    (text "inline_suppressions", .array []), (text "import_bindings", .object []),
    (text "dunder_all", .null)]

/-- `fnReturnsObj`, in an order of the walk. -/
def functionReturnsToJson (g : CallGraph) (order : List SId) : JsonObject :=
  order.foldl (fun obj f =>
    JsonObject.set obj (g.displayFor f) (.strings (g.returnedDisplays f))) []

/-- `toShardObject` without a filter. -/
def toShardObject (ll : Llvm) (nodeSort : Sorter nodeUsrBefore) (returnOrder : List SId)
    (g : CallGraph) (cf : ControlFlowIndex) (channels : ChannelIndex) (snap : SnapshotMeta) :
    Option JsonObject := do
  let moduleFile := moduleFileOf snap
  let edges ← exportedEdges ll g cf
  some (wholeHeader snap ++
    [(text "entities", .array
      ((entities g moduleFile nodeSort snap.entryPoints).map makeEntityNodeJson)),
      (text "raw_calls", .array (edges.mapIdx (callToJson g moduleFile))),
      (text "raw_contexts", .array (edges.mapIdx (contextToJson g moduleFile)))] ++
    emptyMembers ++
    [(text "lock_acquisitions", .object (lockAcquisitionsToJson g edges)),
      (text "await_under_threading_lock", .array []),
      (text "channels", .array (channels.allSites.map (exportedSiteToJson moduleFile))),
      (text "function_returns", .object (functionReturnsToJson g returnOrder))])

end Vycor
