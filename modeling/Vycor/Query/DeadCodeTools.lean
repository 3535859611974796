import Vycor.Check.DeadCode
import Vycor.Lib.StdSort
import Vycor.Query.ExceptionTools

/-!
# The dead-code tool

`analyze_dead_code` lists what the analyzer found dead or optimistically alive, after the
filters of the arguments, by location. One window pages both lists; its bounds are 64-bit
integers.
-/

namespace Vycor

/-- An `int64_t`, where a sum leaves its range. -/
def int64 (i : ℤ) : ℤ := i.bmod (2 ^ 64)

/-- `isSystemPath`. -/
def isSystemPath (path : Bytes) : Bool :=
  [text "/usr/include/", text "/usr/lib/", text "/usr/local/include/", text "/usr/local/lib/",
    text "/Library/Developer/", text "/Applications/Xcode", text "/opt/homebrew/"].any
      (fun p => p <+: path) ||
  [text "/lib/clang/", text "/lib/gcc/", text ".sdk/usr/include/", text "/include/c++/"].any
      fun p => p <:+: path

/-- `Entry`: a display name with the node that `findNode` gives for it. -/
structure DeadCodeEntry where
  name : Bytes
  node : Option CallGraphNode
  liveness : Liveness
  deriving DecidableEq, Repr

namespace DeadCodeEntry

variable (e : DeadCodeEntry)

/-- The file of an entry. -/
def file : Bytes := (e.node.map (·.file)).getD []

/-- The line of an entry. -/
def line : ℕ := (e.node.map (·.line)).getD 0

/-- `Entry::key`. -/
def key : Bytes := (e.node.map (·.usr)).getD e.name

/-- `byLocation`. -/
def before (a b : DeadCodeEntry) : Bool :=
  if a.file ≠ b.file then a.file < b.file
  else if a.line ≠ b.line then a.line < b.line
  else a.key < b.key

/-- `toJson` of an entry. -/
def toJson : Json :=
  .object ((text "name", .string e.name) ::
    (match e.node with
      | some n => [(text "file", .string n.file), (text "line", .count n.line),
          (text "usr", .string n.usr)]
      | none => []))

/-- `passesFilter`. -/
def passesFilter (includeSystem : Bool) (namePrefix filePrefix : Bytes) : Bool :=
  (includeSystem || !isSystemPath e.file) && decide (namePrefix <+: e.name) &&
    decide (filePrefix = [] ∨ (e.node.isSome ∧ filePrefix <+: e.file))

end DeadCodeEntry

/-- What `handleAnalyzeDeadCode` reads of its arguments. -/
structure DeadCodeArgs where
  entryPoints : List Bytes
  includeOptimistic : Bool
  includeSystem : Bool
  namePrefix : Bytes
  filePrefix : Bytes
  limit : ℤ
  offset : ℤ
  deriving DecidableEq, Repr

/-- The arguments, with the entry points of the context where none are given. -/
def deadCodeArgs (args : JsonObject) (ctx : ToolContext) : DeadCodeArgs where
  entryPoints := entryPointsArg args ctx
  includeOptimistic := (args.getBoolean (text "include_optimistic")).getD true
  includeSystem := (args.getBoolean (text "include_system")).getD false
  namePrefix := (args.getString (text "name_prefix")).getD []
  filePrefix := (args.getString (text "file_prefix")).getD []
  limit := max ((args.getInteger (text "limit")).getD 500) 0
  offset := max ((args.getInteger (text "offset")).getD 0) 0

/-- The window of a list, its bounds and its records. -/
structure DeadCodeWindow where
  first : ℤ
  last : ℤ
  records : List DeadCodeEntry

/-- The window of the arguments on a list. -/
def DeadCodeArgs.window (a : DeadCodeArgs) (l : List DeadCodeEntry) : DeadCodeWindow :=
  let first := min a.offset l.length
  let last := min (int64 (first + a.limit)) l.length
  ⟨first, last, (l.drop first.toNat).take (last - first).toNat⟩

section Handler

variable (ll : Llvm) (deadSort : Sorter DeadCodeEntry.before)

/-- The entries of a liveness that pass the filters, by location. -/
def deadCodeEntries (a : DeadCodeArgs) (entries : List DeadCodeEntry) (liveness : Liveness) :
    List DeadCodeEntry :=
  deadSort.run (entries.filter fun e =>
    e.liveness = liveness ∧ e.passesFilter a.includeSystem a.namePrefix a.filePrefix = true)

/-- The payload over the entries of all display names. -/
def deadCodePayload (a : DeadCodeArgs) (entries : List DeadCodeEntry) : Json :=
  let optimisticAll := deadCodeEntries deadSort a entries .optimisticallyAlive
  let deadAll := deadCodeEntries deadSort a entries .dead
  let optimistic := a.window optimisticAll
  let dead := a.window deadAll
  let deadTruncated := decide (dead.last < deadAll.length)
  let optimisticTruncated := decide (optimistic.last < optimisticAll.length)
  .object ([(text "totalFunctions", .count entries.length),
    (text "aliveCount", .count (entries.countP (·.liveness = .alive))),
    (text "optimisticallyAliveCount",
      .count (entries.countP (·.liveness = .optimisticallyAlive))),
    (text "totalDead", .count deadAll.length), (text "deadCount", .count dead.records.length),
    (text "offset", .integer a.offset), (text "limit", .integer a.limit),
    (text "truncated", .boolean (deadTruncated || optimisticTruncated)),
    (text "total", .count deadAll.length), (text "returned", .integer (dead.last - dead.first))] ++
    (if 0 < a.limit ∧ (deadTruncated || optimisticTruncated) then
      [(text "nextOffset", .integer (int64 (a.offset + a.limit)))] else []) ++
    [(text "optimisticTotal", .count optimisticAll.length),
      (text "optimisticTruncated", .boolean optimisticTruncated),
      (text "dead", .array (dead.records.map DeadCodeEntry.toJson)),
      (text "optimisticallyAlive", .array (optimistic.records.map DeadCodeEntry.toJson))])

/-- `handleAnalyzeDeadCode`. -/
def handleAnalyzeDeadCode (args : JsonObject) (ctx : ToolContext) : Option Json :=
  let a := deadCodeArgs args ctx
  some (deadCodePayload deadSort a
    ((ctx.graph.livenessResults ll a.entryPoints [] a.includeOptimistic).map fun r =>
      ⟨r.1, ctx.graph.findNode ll r.1, r.2⟩))

end Handler

end Vycor
