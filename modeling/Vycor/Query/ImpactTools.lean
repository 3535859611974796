import Vycor.ControlFlow.Nearest
import Vycor.Impact.Patch
import Vycor.Impact.Search
import Vycor.Query.GraphTools

/-!
# The impact tool

`impact_of_change` takes the changed functions from names, usrs or a patch and reports who is
affected. Where each changed function came from is kept by usr and by name, the latest word
standing (`ChangedSet`).
-/

namespace Vycor

variable (ll : Llvm)

/-- The changed functions, and how each got here, the latest first. -/
structure ChangedSet where
  changed : List Bytes := []
  via : List (Bytes × MappingVia) := []
  deriving DecidableEq, Repr

/-- A changed function with the spellings under which it is known. -/
def ChangedSet.add (c : ChangedSet) (name : Bytes) (keys : List Bytes) (via : MappingVia) :
    ChangedSet :=
  ⟨c.changed ++ [name], (keys.reverse.map fun k => (k, via)) ++ c.via⟩

/-- An entry of `changed`. -/
def addChangedName (g : CallGraph) (c : ChangedSet) (v : Json) : Except Json ChangedSet :=
  match v.getAsString with
  | none => .error (usageError ll (text "Invalid 'changed': every entry must be a string"))
  | some s =>
    match g.usrsForName ll s with
    | [] => .ok (c.add s [s] .argument)
    | [usr] => .ok (c.add s [s, usr] .argument)
    | usrs => .error (makeAmbiguousNameResult ll g (text "changed") s usrs)

/-- An entry of `changed_usrs`. -/
def addChangedUsr (c : ChangedSet) (v : Json) : Except Json ChangedSet :=
  match v.getAsString with
  | none => .error (usageError ll (text "Invalid 'changed_usrs': every entry must be a string"))
  | some s => .ok (c.add s [s] .argument)

/-- The mapping of the `patch`, where one is given. -/
def patchMapping (unmappedSort : Sorter unmappedBefore) (args : JsonObject) (g : CallGraph) :
    Except Json (Option PatchMapping) :=
  match args.getString (text "patch") with
  | none => .ok none
  | some patch =>
    let ranges := parseUnifiedDiff patch
    if ranges = [] then
      .error (usageError ll (text "Invalid 'patch': no unified-diff hunks found " ++
        text "(expected `git diff` / `diff -u` text)"))
    else
      .ok (some (g.mapRangesToFunctions ll unmappedSort ranges
        ((args.getString (text "patch_root")).getD [])))

/-- The changed functions of the arguments, with the mapping of the patch. -/
def changedArgs (unmappedSort : Sorter unmappedBefore) (args : JsonObject) (g : CallGraph) :
    Except Json (ChangedSet × Option PatchMapping) := do
  let c ← ((args.getArray (text "changed")).getD []).foldlM (addChangedName ll g) {}
  let c ← ((args.getArray (text "changed_usrs")).getD []).foldlM (addChangedUsr ll) c
  let mapping ← patchMapping ll unmappedSort args g
  let c := ((mapping.map (·.functions)).getD []).foldl (fun c f => c.add f.usr [f.usr] f.via) c
  if c.changed = [] ∧ mapping = none then
    .error (usageError ll (text "Missing required parameter: one of 'changed', " ++
      text "'changed_usrs', or 'patch'"))
  else .ok (c, mapping)

/-- What `handleImpactOfChange` reads besides the changed functions. -/
structure ImpactArgs where
  limits : ImpactLimits
  maxResults : ℕ
  filter : EdgeFilter

/-- The limits and the filter of `handleImpactOfChange`. `limit` is an alias of
`max_results`. -/
def parseImpactArgs (args : JsonObject) : Except Bytes ImpactArgs := do
  let maxDepth ← readLimit args (text "max_depth") 0 kMaxSearchDepth .reject 10
  let maxFanIn ← readLimit args (text "max_fan_in") 0 kMaxFanInLimit .clamp 1000
  let maxWork ← readLimit args (text "max_work") 0 kMaxWorkLimit .clamp 200000
  let resultsKey :=
    if (args.get (text "max_results")).isSome ∨ (args.get (text "limit")).isNone then
      text "max_results"
    else text "limit"
  let maxResults ← parsePageArg args resultsKey 0 (text "non-negative") 200
  let filter ← parseEdgeFilter args
  return { limits := { maxDepth, maxFanIn, maxWork }
           maxResults := min maxResults kMaxResultsLimit
           filter }

/-! ### The payload -/

section Payload

variable (g : CallGraph)

/-- `describe` of `serializeImpact`. -/
def describeFunction (usr : Bytes) : JsonObject :=
  (text "usr", .string usr) ::
    (match g.findNode ll usr with
      | some n => [(text "name", .string n.qualifiedName), (text "file", .string n.file),
          (text "line", .count n.line), (text "isEntryPoint", .boolean n.isEntryPoint)]
      | none => [(text "name", .string usr)])

/-- `isEntry` of `serializeImpact`. -/
def isAffectedEntry (entryPoints : List Bytes) (a : AffectedFunction) : Bool :=
  (g.findNode ll a.usr).any (·.isEntryPoint) || decide (a.usr ∈ entryPoints) ||
    decide (a.name ∈ entryPoints)

/-- An affected function. -/
def affectedToJson (entryPoints : List Bytes) (includePaths : Bool) (a : AffectedFunction) :
    Json :=
  .object (JsonObject.set (describeFunction ll g a.usr) (text "isEntryPoint")
      (.boolean (isAffectedEntry ll g entryPoints a)) ++
    [(text "depth", .count a.depth), (text "changed", .string a.changedUsr),
      (text "changedName", .string (g.displayOfUsr ll a.changedUsr))] ++
    (if includePaths then [(text "path", .array (a.path.map serializePathHop))] else []))

/-- A changed function with how it got here, by its usr, else by its name. -/
def changedToJson (c : ChangedSet) (usr : Bytes) : Json :=
  let o := describeFunction ll g usr
  let named (key : Bytes) : Option MappingVia :=
    (o.getString key).bind fun k => (c.via.find? (·.1 = k)).map (·.2)
  .object (o ++ [(text "via", .string
    (mappingViaName (((named (text "usr")).or (named (text "name"))).getD .argument)))])

/-- `serializeImpact`, with how the changed functions got here. -/
def impactMembers (c : ChangedSet) (impact : ImpactResult) (entryPoints : List Bytes)
    (maxResults : ℕ) (includePaths : Bool) : JsonObject :=
  let listed := if maxResults = 0 then impact.affected else impact.affected.take maxResults
  [(text "changed", .array (impact.changed.map (changedToJson ll g c))),
    (text "unknown", .strings impact.unknown),
    (text "affected", .array (listed.map (affectedToJson ll g entryPoints includePaths))),
    (text "affectedCount", .count impact.affected.length),
    (text "truncated", .boolean (maxResults ≠ 0 && decide (maxResults < impact.affected.length))),
    (text "entryPointsAffected", .array ((impact.affected.filter
      (isAffectedEntry ll g entryPoints)).map fun a => .object [(text "usr", .string a.usr),
        (text "name", .string a.name), (text "depth", .count a.depth)])),
    (text "expansions", .count impact.expansions)] ++
  searchFacts impact.stops impact.complete impact.exhaustive impact.skippedHubs ++
  [(text "note", .string (text "Affected functions are candidates: each has a call chain " ++
    text "to a changed function within the declared bounds. This is " ++
    text "not proof that their behaviour changes, nor that functions " ++
    text "outside the set are unaffected."))]

end Payload

/-- `attachPatchMapping`, the members it adds. -/
def patchMappingMembers (mapping : PatchMapping) : JsonObject :=
  [(text "mapping", .object [(text "call_site", .count mapping.viaCallSite),
      (text "definition", .count mapping.viaDefinition),
      (text "extent", .count mapping.viaExtent), (text "file", .count mapping.viaFile),
      (text "unmapped", .count mapping.unmapped.length),
      (text "exact", .boolean (decide (mapping.viaExtent = 0 ∧ mapping.viaFile = 0 ∧
        mapping.unmapped = [])))]),
    (text "unmapped", .array (mapping.unmapped.map fun u => .object
      [(text "file", .string u.range.file), (text "firstLine", .count u.range.firstLine),
        (text "lastLine", .count u.range.lastLine),
        (text "deletionOnly", .boolean u.range.deletionOnly),
        (text "reason", .string u.reason)]))]

/-- `handleImpactOfChange`. -/
def handleImpactOfChange (unmappedSort : Sorter unmappedBefore) (args : JsonObject)
    (ctx : ToolContext) : Option Json :=
  match changedArgs ll unmappedSort args ctx.graph with
  | .error payload => some payload
  | .ok (c, mapping) =>
    orUsage ll (parseImpactArgs args) fun a =>
    let impact := ctx.graph.findImpact ll c.changed a.limits (some a.filter.allowsRef)
    some (.object (impactMembers ll ctx.graph c impact ctx.entryPoints a.maxResults
      ((args.getBoolean (text "include_paths")).getD true) ++
      (mapping.map patchMappingMembers).getD []))

end Vycor
