import Vycor.ControlFlow.Oracle
import Vycor.Impact.Diff
import Vycor.Impact.Signatures
import Vycor.Query.Context

/-!
# Records as JSON

The spellings and serializers that the tools share, the canonical order of an edge list and
the filter over the edges of a query. The classification of a guard by an organization's
extension is an argument, `classifyGuard`.
-/

namespace Vycor

/-! ### Spellings -/

/-- `edgeKindToString`. -/
def edgeKindToString : EdgeKind → Bytes
  | .directCall => text "DirectCall"
  | .virtualDispatch => text "VirtualDispatch"
  | .functionPointer => text "FunctionPointer"
  | .constructorCall => text "ConstructorCall"
  | .destructorCall => text "DestructorCall"
  | .operatorCall => text "OperatorCall"
  | .templateInstantiation => text "TemplateInstantiation"
  | .lambdaCall => text "LambdaCall"
  | .threadEntry => text "ThreadEntry"
  | .functionPointerReturn => text "FunctionPointerReturn"
  | .unnamed _ => text "Unknown"

/-- `parseEdgeKind`. -/
def parseEdgeKind (s : Bytes) : EdgeKind :=
  ([EdgeKind.directCall, .virtualDispatch, .functionPointer, .constructorCall, .destructorCall,
    .operatorCall, .templateInstantiation, .lambdaCall, .threadEntry].find?
      fun k => s = edgeKindToString k).getD .directCall

/-- `parseExecutionContext`. -/
def parseExecutionContext (s : Bytes) : Option ExecutionContext :=
  [ExecutionContext.synchronous, .threadSpawn, .asyncTask, .packagedTask, .invoke].find?
    fun c => s = executionContextToString c

/-- `parseConfidence`. -/
def parseConfidence (s : Bytes) : Confidence :=
  if s = text "Proven" then .Proven else if s = text "Plausible" then .Plausible else .Unknown

/-- `confidenceRank`. -/
def confidenceRank : Confidence → ℕ
  | .Proven => 2
  | .Plausible => 1
  | _ => 0

/-- `raiiKindToString`. -/
def raiiKindToString : RaiiKind → Bytes
  | .lock => text "lock"
  | .smartPtr => text "smart_ptr"
  | _ => text "other"

/-- `parseRaiiKind`. -/
def parseRaiiKind (s : Bytes) : Option RaiiKind :=
  [RaiiKind.lock, .smartPtr, .other].find? fun k => s = raiiKindToString k

/-- `channelOperationToString`. -/
def channelOperationToString : ChannelOperation → Bytes
  | .produce => text "produce"
  | .consume => text "consume"

/-- `protectionName`. -/
def protectionName : Protection → Bytes
  | .alwaysCaught => text "always_caught"
  | .sometimesCaught => text "sometimes_caught"
  | .neverCaught => text "never_caught"
  | .noexceptBarrier => text "noexcept_barrier"
  | .unknown => text "unknown"
  | .observedCaught => text "observed_caught"
  | .observedUncaught => text "observed_uncaught"

/-- `pathOutcomeName`. -/
def pathOutcomeName : PathOutcome → Bytes
  | .caught => text "caught"
  | .uncaught => text "uncaught"
  | .terminates => text "terminates"
  | .unknown => text "unknown"

/-! ### Records -/

/-- The execution context of an edge, where it is not synchronous. -/
def executionContextMember (c : ExecutionContext) : JsonObject :=
  if c = .synchronous then []
  else [(text "executionContext", .string (executionContextToString c))]

/-- `edgeToJson`, its members. -/
def edgeToJson (e : CallGraphEdge) : JsonObject :=
  [(text "callerName", .string e.callerName), (text "calleeName", .string e.calleeName),
    (text "kind", .string (edgeKindToString e.kind)),
    (text "confidence", .string (confidenceToString e.confidence)),
    (text "callSite", .string e.callSite)] ++
  (if 0 < e.indirectionDepth then [(text "indirectionDepth", .count e.indirectionDepth)] else []) ++
  executionContextMember e.execContext

/-- `serializePathHop`. -/
def serializePathHop (hop : PathHop) : Json :=
  .object ([(text "from", .string hop.caller), (text "to", .string hop.callee),
    (text "fromUsr", .string hop.callerUsr), (text "toUsr", .string hop.calleeUsr),
    (text "callSite", .string hop.callSite), (text "kind", .string (edgeKindToString hop.kind)),
    (text "confidence", .string (confidenceToString hop.confidence))] ++
    executionContextMember hop.execContext)

/-- `serializeGuard`; an annotation has a kind and a name. -/
def serializeGuard (classifyGuard : ConditionalGuard → Option (Bytes × Bytes))
    (g : ConditionalGuard) : Json :=
  .object ([(text "conditionText", .string g.conditionText), (text "location", .string g.location),
    (text "inTrueBranch", .boolean g.inTrueBranch), (text "isAssertion", .boolean g.isAssertion)] ++
    (match classifyGuard g with
      | some (kind, name) =>
        [(text "annotation",
          .object [(text "kind", .string kind), (text "name", .string name)])]
      | none => []))

/-- `serializeTryCatchScope`. -/
def serializeTryCatchScope (scope : TryCatchScope) : Json :=
  .object [(text "tryLocation", .string scope.tryLocation),
    (text "enclosingFunction", .string scope.enclosingFunction),
    (text "nestingDepth", .count scope.nestingDepth),
    (text "handlers", .array (scope.handlers.map fun h => .object
      [(text "caughtType", .string h.caughtType), (text "isCatchAll", .boolean h.isCatchAll),
        (text "rethrows", .boolean h.rethrows), (text "location", .string h.location),
        (text "body", .string h.bodySummary)]))]

/-- `serializeRaiiLocal`. -/
def serializeRaiiLocal (l : RaiiLocal Bytes) : Json :=
  .object [(text "typeName", .string l.typeName), (text "varName", .string l.varName),
    (text "declLocation", .string l.declLocation), (text "kind", .string (raiiKindToString l.kind))]

/-- `serializeChannelSite`. -/
def serializeChannelSite (classifyGuard : ConditionalGuard → Option (Bytes × Bytes))
    (s : ChannelSite) : Json :=
  .object [(text "channelId", .string s.channelId),
    (text "channelType", .string s.channelTypeName), (text "category", .string s.category),
    (text "operation", .string (channelOperationToString s.op)),
    (text "function", .string s.siteFunctionDisplay),
    (text "functionUsr", .string s.siteFunctionUsr), (text "callSite", .string s.callSite),
    (text "guards", .array (s.enclosingGuards.map (serializeGuard classifyGuard)))]

/-- `attachSearchFacts`, the members it adds. -/
def searchFacts (stops : Stops) (complete exhaustive : Bool) (skippedHubs : List SkippedHub) :
    JsonObject :=
  [(text "complete", .boolean complete), (text "exhaustive", .boolean exhaustive),
    (text "stopReasons", .strings (stopReasonNames stops))] ++
  (if skippedHubs = [] then []
    else [(text "skippedHubs", .array (skippedHubs.map fun hub => .object
      [(text "name", .string hub.name), (text "usr", .string hub.usr),
        (text "inDegree", .count hub.inDegree)]))])

/-! ### Order -/

/-- `canonicalEdgeLess`. -/
def canonicalEdgeLess (a b : CallGraphEdge) : Bool :=
  if a.callerUsr ≠ b.callerUsr then a.callerUsr < b.callerUsr
  else if a.calleeUsr ≠ b.calleeUsr then a.calleeUsr < b.calleeUsr
  else if a.callSite ≠ b.callSite then a.callSite < b.callSite
  else if a.kind ≠ b.kind then a.kind.value < b.kind.value
  else if a.confidence ≠ b.confidence then a.confidence.value < b.confidence.value
  else if a.execContext ≠ b.execContext then a.execContext.value < b.execContext.value
  else if a.indirectionDepth ≠ b.indirectionDepth then a.indirectionDepth < b.indirectionDepth
  else if a.callerName ≠ b.callerName then a.callerName < b.callerName
  else a.calleeName < b.calleeName

/-- `sortEdgesCanonically`. The order compares all fields. -/
def sortEdgesCanonically (edges : List CallGraphEdge) : List CallGraphEdge :=
  edges.mergeSort fun a b => !canonicalEdgeLess b a

end Vycor
