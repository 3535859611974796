import Vycor.Query.Serialize

/-!
# Arguments

What the tools read of their arguments: limits, which are clamped or refused, the window of a
paged list, and the filter over edges. A reader answers with the message of a usage error or
with the value.
-/

namespace Vycor

/-! ### Limits -/

/-- `kMaxSearchDepth`. -/
def kMaxSearchDepth : ℕ := kPathSearchDepthCap

/-- `kMaxSearchPaths`. -/
def kMaxSearchPaths : ℕ := 100000

/-- `kMaxFanInLimit`. -/
def kMaxFanInLimit : ℕ := 100000000

/-- `kMaxWorkLimit`. -/
def kMaxWorkLimit : ℕ := 1000000000

/-- `kMaxResultsLimit`. -/
def kMaxResultsLimit : ℕ := 10000000

/-- `BelowMin`. -/
inductive BelowMin where
  | reject | clamp
  deriving DecidableEq, Repr

/-- `readLimit` and `readLimitAs`, with the value that stands where the argument is absent. -/
def readLimit (args : JsonObject) (key : Bytes) (min max : ℕ) (below : BelowMin) (value : ℕ) :
    Except Bytes ℕ :=
  match args.getInteger key with
  | none => .ok value
  | some v =>
    if v < min then
      match below with
      | .reject => .error (text "Invalid " ++ key ++ text ": must be " ++
          if 0 < min then text "positive" else text "non-negative")
      | .clamp => .ok min
    else .ok (Min.min v.toNat max)

/-! ### Pages -/

/-- `kDefaultSearchLimit`. -/
def kDefaultSearchLimit : ℕ := 25

/-- `kDefaultEdgeListLimit`. -/
def kDefaultEdgeListLimit : ℕ := 200

/-- `kDefaultListLimit`. -/
def kDefaultListLimit : ℕ := 200

/-- `kDefaultCallbackTargetLimit`. -/
def kDefaultCallbackTargetLimit : ℕ := 100

/-- `kDefaultSitesPerTarget`. -/
def kDefaultSitesPerTarget : ℕ := 50

/-- `Page`. -/
structure Page where
  offset : ℕ := 0
  limit : ℕ := 0
  deriving DecidableEq, Repr

namespace Page

variable (page : Page)

/-- `Page::begin`. -/
def first (total : ℕ) : ℕ := Min.min page.offset total

/-- `Page::end`. -/
def last (total : ℕ) : ℕ := page.first total + Min.min page.limit (total - page.first total)

/-- `Page::truncated`. -/
def truncated (total : ℕ) : Bool := page.last total < total

/-- The records of the page. -/
def window {α : Type*} (l : List α) : List α :=
  (l.drop (page.first l.length)).take (page.last l.length - page.first l.length)

/-- `attachPageWindow`, the members it adds. -/
def windowMembers (truncated : Bool) : JsonObject :=
  [(text "offset", .count page.offset), (text "limit", .count page.limit),
    (text "truncated", .boolean truncated)] ++
  if truncated then [(text "nextOffset", .count (page.offset + page.limit))] else []

/-- `attachPage`, the members it adds. -/
def members (total : ℕ) : JsonObject :=
  [(text "total", .count total), (text "returned", .count (page.last total - page.first total))] ++
    page.windowMembers (page.truncated total)

end Page

/-- One of the two arguments of a page: an integer from `min` on, `value` where it is absent. -/
def parsePageArg (args : JsonObject) (key : Bytes) (min : ℕ) (below : Bytes) (value : ℕ) :
    Except Bytes ℕ :=
  match args.getInteger key with
  | some v =>
    if v < min then .error (text "Invalid " ++ key ++ text ": must be " ++ below)
    else .ok v.toNat
  | none =>
    if (args.get key).isSome then .error (text "Invalid " ++ key ++ text ": must be an integer")
    else .ok value

/-- `parsePage`. -/
def parsePage (args : JsonObject) (defaultLimit : ℕ) : Except Bytes Page := do
  let limit ← parsePageArg args (text "limit") 1 (text "at least 1") defaultLimit
  let offset ← parsePageArg args (text "offset") 0 (text "non-negative") 0
  return ⟨offset, limit⟩

/-! ### The edge filter -/

/-- `EdgeFilter`; an empty set of kinds or execution contexts allows all. -/
structure EdgeFilter where
  kinds : List EdgeKind := []
  includeConfidences : List Confidence := []
  useIncludeSet : Bool := false
  minConf : Confidence := .Unknown
  execContexts : List ExecutionContext := []
  deriving DecidableEq, Repr

/-- `EdgeFilter::allowsFields`. -/
def EdgeFilter.allowsFields (f : EdgeFilter) (kind : EdgeKind) (conf : Confidence)
    (execCtx : ExecutionContext) : Bool :=
  if f.kinds ≠ [] ∧ kind ∉ f.kinds then false
  else if f.execContexts ≠ [] ∧ execCtx ∉ f.execContexts then false
  else if f.useIncludeSet then conf ∈ f.includeConfidences
  else confidenceRank f.minConf ≤ confidenceRank conf

/-- `EdgeFilter::allows`. -/
def EdgeFilter.allows (f : EdgeFilter) (e : CallGraphEdge) : Bool :=
  f.allowsFields e.kind e.confidence e.execContext

/-- `EdgeFilter::allowsRef`. -/
def EdgeFilter.allowsRef (f : EdgeFilter) (e : EdgeRef) : Bool :=
  f.allowsFields e.kind e.confidence e.execContext

/-- The confidence tiers of the arguments. -/
def parseConfidenceArgs (args : JsonObject) (f : EdgeFilter) : Except Bytes EdgeFilter :=
  if (args.getArray (text "include_confidences")).isSome then
    let names := args.getStrings (text "include_confidences")
    match names.find? fun s => s ∉ [text "Proven", text "Plausible", text "Unknown"] with
    | some s => .error (text "Invalid value in include_confidences: '" ++ s ++
        text "' (expected Proven, Plausible, or Unknown)")
    | none => .ok { f with useIncludeSet := true, includeConfidences := names.map parseConfidence }
  else .ok { f with
    minConf := ((args.getString (text "min_confidence")).map parseConfidence).getD f.minConf }

/-- The execution contexts of the arguments. -/
def parseExecutionContexts (args : JsonObject) : Except Bytes (List ExecutionContext) :=
  (args.getStrings (text "execution_contexts")).mapM fun s =>
    match parseExecutionContext s with
    | some c => .ok c
    | none => .error (text "Invalid value in execution_contexts: '" ++ s ++
        text "' (expected Synchronous, ThreadSpawn, AsyncTask, PackagedTask, or Invoke)")

/-- `parseEdgeFilter`. -/
def parseEdgeFilter (args : JsonObject) : Except Bytes EdgeFilter := do
  let f ← parseConfidenceArgs args
    { kinds := (args.getStrings (text "edge_kinds")).map parseEdgeKind }
  let execContexts ← parseExecutionContexts args
  return { f with execContexts }

end Vycor
