import Vycor.Query.Json
import Vycor.CallGraph.Query
import Vycor.Channels.Index
import Vycor.ControlFlow.Index

/-!
# What a handler is given

A handler is a function of its arguments and of the loaded indexes, `ToolContext`. The one-shot
verbs load only the sections of the file that the tool declares; a section that is not loaded
leaves its index empty (`SavedIndex.load`). The counts of the header and the facts about the
bake are read in any case.

The whole-graph results that the source keeps between calls are not part of the context; what
they change is in `Vycor.Query.Cache`.
-/

namespace Vycor

/-- `IndexCoverage`. -/
structure IndexCoverage where
  requested : ℕ := 0
  indexed : ℕ := 0
  partialTus : ℕ := 0
  failed : ℕ := 0
  deriving DecidableEq, Repr

/-- `IndexCoverage::complete`. -/
def IndexCoverage.complete (c : IndexCoverage) : Bool := c.requested = c.indexed

/-- `IndexFreshness`. -/
inductive IndexFreshness where
  | unknown | unchecked | baked
  deriving DecidableEq, Repr

/-- `freshnessName`. -/
def freshnessName : IndexFreshness → Bytes
  | .unknown => text "unknown"
  | .unchecked => text "unchecked"
  | .baked => text "baked"

/-- `IndexFacts`. -/
structure IndexFacts where
  coverage : IndexCoverage := {}
  bake : Bytes := []
  freshness : IndexFreshness := .unknown
  channelsIndexed : Bool := false
  deriving DecidableEq, Repr

/-- `IndexFacts::coversRequested`. -/
def IndexFacts.coversRequested (f : IndexFacts) : Bool :=
  f.freshness ≠ .unknown && f.coverage.complete

/-- `ToolContext`; of the header counts, that of the call sites. -/
structure ToolContext where
  graph : CallGraph
  cfIndex : ControlFlowIndex
  entryPoints : List Bytes
  channels : Option ChannelIndex := none
  callSites : Option ℕ := none
  facts : IndexFacts := {}

/-- `completeResult`. -/
def completeResult (payload : Json) (ctx : ToolContext) : Json :=
  match payload.getAsObject with
  | none => payload
  | some o =>
    let cov := ctx.facts.coverage
    let scope : JsonObject :=
      (if ctx.facts.bake = [] then [] else [(text "bake", .string ctx.facts.bake)]) ++
        [(text "freshness", .string (freshnessName ctx.facts.freshness)),
          (text "requested", .count cov.requested), (text "indexed", .count cov.indexed),
          (text "partial", .count cov.partialTus), (text "failed", .count cov.failed),
          (text "complete", .boolean cov.complete)]
    .object (JsonObject.set
      (JsonObject.set o (text "status") (.string (resultStatusName (statusOf payload))))
      (text "indexScope") (.object scope))

/-- The stamps leave the message of an error alone. -/
theorem errorMessage_completeResult (payload : Json) (ctx : ToolContext) :
    errorMessage (completeResult payload ctx) = errorMessage payload := by
  rw [completeResult]
  cases hobj : payload.getAsObject with
  | none => rfl
  | some o =>
    dsimp only
    rw [errorMessage, errorMessage, hobj, Json.getAsObject, Option.bind_some, Option.bind_some,
      JsonObject.getString, JsonObject.getString, JsonObject.get_set_of_ne (by decide),
      JsonObject.get_set_of_ne (by decide)]

/-! ### Sections -/

/-- `IndexSection`, as the set a tool reads beyond the graph. -/
structure Sections where
  controlFlow : Bool := false
  channels : Bool := false
  deriving DecidableEq, Repr

/-- `kSectionAll`. -/
def Sections.all : Sections := ⟨true, true⟩

/-- A saved index: what its sections hold, and what is read of its header and meta. -/
structure SavedIndex where
  graph : CallGraph
  cfIndex : ControlFlowIndex
  channels : ChannelIndex
  entryPoints : List Bytes
  callSites : ℕ
  facts : IndexFacts

/-- `SnapshotIO::load` of some sections, and the context of the query verbs over it. A section
that is not decoded is an empty index. -/
def SavedIndex.load (s : SavedIndex) (needs : Sections) : ToolContext where
  graph := s.graph
  cfIndex := if needs.controlFlow then s.cfIndex else {}
  entryPoints := s.entryPoints
  channels := some (if needs.channels then s.channels else {})
  callSites := some s.callSites
  facts := s.facts

end Vycor
