import Std.Data.String.ToNat
import Vycor.Query.Paging
import Vycor.Text.Decimal

/-!
# The query cache

A batch of requests shares one cache. It keeps the payload of `graph_summary`, the lowered names
that a ranking reads, and for `analyze_dead_code` the payload under a key of all arguments and
the liveness of the functions under a key of the entry points. The two keys put the arguments
behind bars without escaping a bar in them. Where no two requests of a batch meet in a key the
cache is transparent (`answers_eq_uncached`), in particular where no argument has a bar in it
(`separate_of_noBar`); two requests that meet get one payload (`answers_of_fullKey_eq`).
-/

namespace Vycor

/-! ### Keys -/

/-- Fields, each behind a bar. -/
def barred (fields : List Bytes) : Bytes := fields.flatMap fun f => text "|" ++ f

/-- A flag of a key. -/
def keyFlag (b : Bool) : Bytes := if b then text "1" else text "0"

namespace DeadCodeArgs

variable (a : DeadCodeArgs)

/-- `fullKey`; the limit and the offset are not negative. -/
def fullKey : Bytes :=
  text "dead_code_json|" ++ keyFlag a.includeOptimistic ++ keyFlag a.includeSystem ++
    text "|" ++ a.namePrefix ++ text "|" ++ a.filePrefix ++ text "|" ++ decimal a.limit.toNat ++
    text "|" ++ decimal a.offset.toNat ++ barred a.entryPoints

/-- `cacheKey`. -/
def livenessKey : Bytes :=
  text "dead_code|" ++ keyFlag a.includeOptimistic ++ barred a.entryPoints

end DeadCodeArgs

/-! ### The cached rankings -/

/-- `SearchEntry`. -/
structure SearchEntry where
  lowerQualified : Bytes
  unqualifiedOffset : ℕ
  node : CallGraphNode
  deriving DecidableEq, Repr

namespace SearchEntry

/-- The entry of a node. -/
def of (n : CallGraphNode) : SearchEntry where
  lowerQualified := asciiLower n.qualifiedName
  unqualifiedOffset := n.qualifiedName.length - (unqualifiedName n.qualifiedName).length
  node := n

/-- The tier of a hit, none where the needle is not contained. -/
def tier (needle : Bytes) (e : SearchEntry) : Option ℕ :=
  if needle <:+: e.lowerQualified then
    let unqualified := e.lowerQualified.drop e.unqualifiedOffset
    some (if unqualified = needle then 0 else if needle <+: unqualified then 1 else 2)
  else none

end SearchEntry

/-- The search index of a graph. -/
def searchIndex (g : CallGraph) : List SearchEntry := g.allNodes.map .of

/-- `rankFunctionMatches` over a search index. -/
def rankEntries (index : List SearchEntry) (query : Bytes) : List CallGraphNode :=
  ranked (index.filterMap fun e => (e.tier (asciiLower query)).map fun tier => (tier, e.node))

theorem afterLastScope_suffix {qualified tail : Bytes}
    (h : afterLastScope qualified = some tail) : tail <:+ qualified := by
  induction qualified using afterLastScope.induct generalizing tail with
  | case1 => cases h
  | case2 => cases h
  | case3 a b rest tail' htail ih =>
    rw [afterLastScope, htail] at h
    rw [← Option.some_inj.mp h]
    exact (ih htail).trans (List.suffix_cons a _)
  | case4 a b rest hnone hscope ih =>
    rw [afterLastScope, hnone] at h
    dsimp only at h
    rw [if_pos hscope] at h
    rw [← Option.some_inj.mp h]
    exact (List.suffix_cons b rest).trans (List.suffix_cons a _)
  | case5 a b rest hnone hscope ih =>
    rw [afterLastScope, hnone] at h
    dsimp only at h
    rw [if_neg hscope] at h
    cases h

theorem unqualifiedName_suffix (qualified : Bytes) : unqualifiedName qualified <:+ qualified := by
  rw [unqualifiedName]
  cases h : afterLastScope qualified with
  | none => exact List.suffix_rfl
  | some tail => exact afterLastScope_suffix h

theorem SearchEntry.tier_of (needle : Bytes) (n : CallGraphNode) :
    (SearchEntry.of n).tier needle = matchTier needle n.qualifiedName := by
  have htail : (asciiLower n.qualifiedName).drop
      (n.qualifiedName.length - (unqualifiedName n.qualifiedName).length) =
        asciiLower (unqualifiedName n.qualifiedName) := by
    rw [asciiLower, asciiLower, ← List.map_drop,
      ← List.suffix_iff_eq_drop.mp (unqualifiedName_suffix n.qualifiedName)]
  rw [tier, matchTier, of]
  dsimp only
  rw [htail]

/-- The ranking over the search index is the ranking over the graph. -/
theorem rankEntries_searchIndex (g : CallGraph) (query : Bytes) :
    rankEntries (searchIndex g) query = rankFunctionMatches g query := by
  rw [rankEntries, rankFunctionMatches, searchIndex, List.filterMap_map]
  congr 2
  funext n
  rw [Function.comp_apply, SearchEntry.tier_of]
  rfl

/-! ### The cache -/

/-- What the cache keeps of the graph between two calls; the key says which of the two it is. -/
inductive CachedObject where
  | searchIndex (index : List SearchEntry)
  | liveness (results : List (Bytes × Liveness))

/-- `QueryCache`. -/
structure QueryCache where
  byKey : Bytes → Option Json := fun _ => none
  objects : Bytes → Option CachedObject := fun _ => none

namespace QueryCache

variable (c : QueryCache)

/-- `byKey.insert_or_assign`. -/
def putPayload (key : Bytes) (payload : Json) : QueryCache :=
  { c with byKey := Function.update c.byKey key (some payload) }

/-- `objects[key] = object`. -/
def putObject (key : Bytes) (object : CachedObject) : QueryCache :=
  { c with objects := Function.update c.objects key (some object) }

/-- The search index, built at its first use. -/
def search (g : CallGraph) : List SearchEntry × QueryCache :=
  match c.objects (text "search_index") with
  | some (.searchIndex index) => (index, c)
  | _ => (searchIndex g, c.putObject (text "search_index") (.searchIndex (searchIndex g)))

/-- The liveness of the functions, computed at the first use of its key. -/
def livenessResults (ll : Llvm) (g : CallGraph) (a : DeadCodeArgs) :
    List (Bytes × Liveness) × QueryCache :=
  match c.objects a.livenessKey with
  | some (.liveness results) => (results, c)
  | _ =>
    let computed := g.livenessResults ll a.entryPoints [] a.includeOptimistic
    (computed, c.putObject a.livenessKey (.liveness computed))

end QueryCache

/-- A request to a tool. Other tools than the three that are named use the cache to rank names
only, if they do: such a tool is its answer over the rankings. -/
inductive ToolRequest where
  | analyzeDeadCode (args : JsonObject)
  | searchFunctions (args : JsonObject)
  | graphSummary (args : JsonObject)
  | other (ranks : Bool) (answer : (Bytes → List CallGraphNode) → Option Json)

/-- The payload of `handleSearchFunctions` over the hits. -/
def searchPayload (query : Bytes) (page : Page) (hits : List CallGraphNode) : Json :=
  .object ([(text "query", .string query), (text "totalMatches", .count hits.length)] ++
    page.members hits.length ++
    [(text "matches", .array ((page.window hits).map fun n => .object
      ([(text "qualifiedName", .string n.qualifiedName), (text "usr", .string n.usr),
        (text "file", .string n.file), (text "line", .count n.line)] ++ classMember n ++
        (if n.isVirtual then [(text "isVirtual", .boolean true)] else []))))])

section Session

variable (ll : Llvm) (deadSort : Sorter DeadCodeEntry.before) (ctx : ToolContext)

/-- The entries of the dead-code tool, of the liveness of all display names. -/
def entriesOfResults (results : List (Bytes × Liveness)) : List DeadCodeEntry :=
  results.map fun r => ⟨r.1, ctx.graph.findNode ll r.1, r.2⟩

/-- `handleAnalyzeDeadCode` with a cache. -/
def cachedAnalyzeDeadCode (args : JsonObject) (c : QueryCache) : Option Json × QueryCache :=
  let a := deadCodeArgs args ctx
  match c.byKey a.fullKey with
  | some payload => (some payload, c)
  | none =>
    let (results, c) := c.livenessResults ll ctx.graph a
    let out := deadCodePayload deadSort a (entriesOfResults ll ctx results)
    (some out, c.putPayload a.fullKey out)

/-- `handleSearchFunctions` with a cache. -/
def cachedSearchFunctions (args : JsonObject) (c : QueryCache) : Option Json × QueryCache :=
  match args.getString (text "query") with
  | none => (some (usageError ll (text "Missing required parameter 'query'")), c)
  | some query =>
    if query = [] then (some (usageError ll (text "Missing required parameter 'query'")), c)
    else
      match parsePage args kDefaultSearchLimit with
      | .error message => (some (usageError ll message), c)
      | .ok page =>
        let (index, c) := c.search ctx.graph
        (some (searchPayload query page (rankEntries index query)), c)

/-- `handleGraphSummary` with a cache. -/
def cachedGraphSummary (args : JsonObject) (c : QueryCache) : Option Json × QueryCache :=
  match c.byKey (text "graph_summary") with
  | some payload => (some payload, c)
  | none =>
    match handleGraphSummary ll args ctx with
    | some out => (some out, c.putPayload (text "graph_summary") out)
    | none => (none, c)

/-- The answer to a request, and the cache after it. -/
def answerCached (c : QueryCache) : ToolRequest → Option Json × QueryCache
  | .analyzeDeadCode args => cachedAnalyzeDeadCode ll deadSort ctx args c
  | .searchFunctions args => cachedSearchFunctions ll ctx args c
  | .graphSummary args => cachedGraphSummary ll ctx args c
  | .other ranks answer =>
    let (index, c') := c.search ctx.graph
    (answer (rankEntries index), if ranks then c' else c)

/-- The answer to a request without a cache. -/
def answerUncached : ToolRequest → Option Json
  | .analyzeDeadCode args => handleAnalyzeDeadCode ll deadSort args ctx
  | .searchFunctions args => handleSearchFunctions ll args ctx
  | .graphSummary args => handleGraphSummary ll args ctx
  | .other _ answer => answer (rankFunctionMatches ctx.graph)

/-- The answers to the requests of a batch, one after the other over one cache. -/
def answers : QueryCache → List ToolRequest → List (Option Json)
  | _, [] => []
  | c, r :: rest =>
    (answerCached ll deadSort ctx c r).1 :: answers (answerCached ll deadSort ctx c r).2 rest

end Session

/-! ### What the cache holds -/

/-- The arguments of a dead-code request. -/
def ToolRequest.deadCode (ctx : ToolContext) : ToolRequest → Option DeadCodeArgs
  | .analyzeDeadCode args => some (deadCodeArgs args ctx)
  | _ => none

/-- The keys tell dead-code requests apart: those that meet in the key of a payload are the same,
and those that meet in the key of the liveness ask for the same liveness. -/
structure Separate (asked : List DeadCodeArgs) : Prop where
  payload : ∀ a ∈ asked, ∀ b ∈ asked, a.fullKey = b.fullKey → a = b
  liveness : ∀ a ∈ asked, ∀ b ∈ asked, a.livenessKey = b.livenessKey →
    a.entryPoints = b.entryPoints ∧ a.includeOptimistic = b.includeOptimistic

theorem DeadCodeArgs.fullKey_ne_summary (a : DeadCodeArgs) :
    a.fullKey ≠ text "graph_summary" := by
  have hhead : a.fullKey.head? = some 100 := by
    simp only [fullKey, List.append_assoc]
    rfl
  intro heq
  rw [heq] at hhead
  exact absurd hhead (by decide)

theorem DeadCodeArgs.livenessKey_ne_search (a : DeadCodeArgs) :
    a.livenessKey ≠ text "search_index" := by
  have hhead : a.livenessKey.head? = some 100 := by
    simp only [livenessKey, List.append_assoc]
    rfl
  intro heq
  rw [heq] at hhead
  exact absurd hhead (by decide)

section Transparent

variable (ll : Llvm) (deadSort : Sorter DeadCodeEntry.before) (ctx : ToolContext)

/-- The payload of a dead-code request. -/
def deadCodeAnswer (a : DeadCodeArgs) : Json :=
  deadCodePayload deadSort a (entriesOfResults ll ctx
    (ctx.graph.livenessResults ll a.entryPoints [] a.includeOptimistic))

/-- All that stands in the cache was computed from the graph, for one of the requests under its
key. -/
structure QueryCache.Holds (asked : List DeadCodeArgs) (c : QueryCache) : Prop where
  byKey : ∀ key payload, c.byKey key = some payload →
    key = text "graph_summary" ∧ handleGraphSummary ll [] ctx = some payload ∨
      ∃ a ∈ asked, key = a.fullKey ∧ payload = deadCodeAnswer ll deadSort ctx a
  objects : ∀ key object, c.objects key = some object →
    key = text "search_index" ∧ object = .searchIndex (searchIndex ctx.graph) ∨
      ∃ a ∈ asked, key = a.livenessKey ∧ object = .liveness
        (ctx.graph.livenessResults ll a.entryPoints [] a.includeOptimistic)

namespace QueryCache

variable {ll deadSort ctx} {asked : List DeadCodeArgs} {c : QueryCache}

theorem Holds.empty : Holds ll deadSort ctx asked {} :=
  ⟨fun _ _ h => (by cases h), fun _ _ h => (by cases h)⟩

theorem byKey_putPayload (key key' : Bytes) (payload : Json) :
    (c.putPayload key payload).byKey key' = if key' = key then some payload else c.byKey key' :=
  Function.update_apply ..

theorem objects_putObject (key key' : Bytes) (object : CachedObject) :
    (c.putObject key object).objects key' = if key' = key then some object else c.objects key' :=
  Function.update_apply ..

theorem Holds.putPayload (h : Holds ll deadSort ctx asked c) {key : Bytes} {payload : Json}
    (hnew : key = text "graph_summary" ∧ handleGraphSummary ll [] ctx = some payload ∨
      ∃ a ∈ asked, key = a.fullKey ∧ payload = deadCodeAnswer ll deadSort ctx a) :
    Holds ll deadSort ctx asked (c.putPayload key payload) := by
  refine ⟨fun key' payload' hget => ?_, h.objects⟩
  rw [byKey_putPayload] at hget
  split_ifs at hget with hkey
  · obtain rfl := Option.some_inj.mp hget
    exact hkey ▸ hnew
  · exact h.byKey key' payload' hget

theorem Holds.putObject (h : Holds ll deadSort ctx asked c) {key : Bytes} {object : CachedObject}
    (hnew : key = text "search_index" ∧ object = .searchIndex (searchIndex ctx.graph) ∨
      ∃ a ∈ asked, key = a.livenessKey ∧ object = .liveness
        (ctx.graph.livenessResults ll a.entryPoints [] a.includeOptimistic)) :
    Holds ll deadSort ctx asked (c.putObject key object) := by
  refine ⟨h.byKey, fun key' object' hget => ?_⟩
  rw [objects_putObject] at hget
  split_ifs at hget with hkey
  · obtain rfl := Option.some_inj.mp hget
    exact hkey ▸ hnew
  · exact h.objects key' object' hget

/-- The search index of the cache is that of the graph. -/
theorem Holds.search (h : Holds ll deadSort ctx asked c) :
    (c.search ctx.graph).1 = searchIndex ctx.graph ∧
      Holds ll deadSort ctx asked (c.search ctx.graph).2 := by
  have hbuilt : Holds ll deadSort ctx asked
      (c.putObject (text "search_index") (.searchIndex (searchIndex ctx.graph))) :=
    h.putObject (.inl ⟨rfl, rfl⟩)
  rw [QueryCache.search]
  cases hget : c.objects (text "search_index") with
  | none => exact ⟨rfl, hbuilt⟩
  | some object =>
    obtain ⟨-, rfl⟩ | ⟨a, -, hkey, -⟩ := h.objects _ _ hget
    · exact ⟨rfl, h⟩
    · exact absurd hkey.symm a.livenessKey_ne_search

/-- The liveness of the cache is that of the request, where the keys separate it. -/
theorem Holds.livenessResults (h : Holds ll deadSort ctx asked c) (hsep : Separate asked)
    {a : DeadCodeArgs} (ha : a ∈ asked) :
    (c.livenessResults ll ctx.graph a).1 =
        ctx.graph.livenessResults ll a.entryPoints [] a.includeOptimistic ∧
      Holds ll deadSort ctx asked (c.livenessResults ll ctx.graph a).2 := by
  have hcomputed : Holds ll deadSort ctx asked (c.putObject a.livenessKey
      (.liveness (ctx.graph.livenessResults ll a.entryPoints [] a.includeOptimistic))) :=
    h.putObject (.inr ⟨a, ha, rfl, rfl⟩)
  rw [QueryCache.livenessResults]
  cases hget : c.objects a.livenessKey with
  | none => exact ⟨rfl, hcomputed⟩
  | some object =>
    obtain ⟨hkey, -⟩ | ⟨b, hb, hkey, rfl⟩ := h.objects _ _ hget
    · exact absurd hkey a.livenessKey_ne_search
    · obtain ⟨hentry, hoptimistic⟩ := hsep.liveness a ha b hb hkey
      exact ⟨by rw [hentry, hoptimistic], h⟩

end QueryCache

variable {ll deadSort ctx} {asked : List DeadCodeArgs} {c : QueryCache}

theorem cachedAnalyzeDeadCode_eq (h : c.Holds ll deadSort ctx asked) (hsep : Separate asked)
    {args : JsonObject} (ha : deadCodeArgs args ctx ∈ asked) :
    (cachedAnalyzeDeadCode ll deadSort ctx args c).1 =
        handleAnalyzeDeadCode ll deadSort args ctx ∧
      (cachedAnalyzeDeadCode ll deadSort ctx args c).2.Holds ll deadSort ctx asked := by
  rw [cachedAnalyzeDeadCode]
  cases hget : c.byKey (deadCodeArgs args ctx).fullKey with
  | none =>
    obtain ⟨hresults, hholds⟩ := h.livenessResults hsep ha
    dsimp only
    rw [hresults]
    exact ⟨rfl, hholds.putPayload (.inr ⟨_, ha, rfl, rfl⟩)⟩
  | some payload =>
    dsimp only
    obtain ⟨hkey, -⟩ | ⟨b, hb, hkey, rfl⟩ := h.byKey _ _ hget
    · exact absurd hkey (DeadCodeArgs.fullKey_ne_summary _)
    · rw [← hsep.payload _ ha b hb hkey]
      exact ⟨rfl, h⟩

theorem cachedSearchFunctions_eq (h : c.Holds ll deadSort ctx asked) (args : JsonObject) :
    (cachedSearchFunctions ll ctx args c).1 = handleSearchFunctions ll args ctx ∧
      (cachedSearchFunctions ll ctx args c).2.Holds ll deadSort ctx asked := by
  obtain ⟨hindex, hholds⟩ := h.search
  rw [cachedSearchFunctions, handleSearchFunctions]
  cases args.getString (text "query") with
  | none => exact ⟨rfl, h⟩
  | some query =>
    dsimp only
    split_ifs
    · exact ⟨rfl, h⟩
    · cases parsePage args kDefaultSearchLimit with
      | error message => exact ⟨rfl, h⟩
      | ok page =>
        dsimp only
        rw [hindex, rankEntries_searchIndex]
        exact ⟨rfl, hholds⟩

theorem cachedGraphSummary_eq (h : c.Holds ll deadSort ctx asked) (args : JsonObject) :
    (cachedGraphSummary ll ctx args c).1 = handleGraphSummary ll args ctx ∧
      (cachedGraphSummary ll ctx args c).2.Holds ll deadSort ctx asked := by
  rw [cachedGraphSummary]
  cases hget : c.byKey (text "graph_summary") with
  | none =>
    exact ⟨rfl, h.putPayload (.inl ⟨rfl, rfl⟩)⟩
  | some payload =>
    obtain ⟨-, hsummary⟩ | ⟨a, -, hkey, -⟩ := h.byKey _ _ hget
    · exact ⟨hsummary.symm, h⟩
    · exact absurd hkey.symm a.fullKey_ne_summary

/-- One request: the answer is the one without a cache, and the cache holds what it should. -/
theorem answerCached_eq (h : c.Holds ll deadSort ctx asked) (hsep : Separate asked)
    {r : ToolRequest} (hr : ∀ a, r.deadCode ctx = some a → a ∈ asked) :
    (answerCached ll deadSort ctx c r).1 = answerUncached ll deadSort ctx r ∧
      (answerCached ll deadSort ctx c r).2.Holds ll deadSort ctx asked := by
  cases r with
  | analyzeDeadCode args => exact cachedAnalyzeDeadCode_eq h hsep (hr _ rfl)
  | searchFunctions args => exact cachedSearchFunctions_eq h args
  | graphSummary args => exact cachedGraphSummary_eq h args
  | other ranks answer =>
    obtain ⟨hindex, hholds⟩ := h.search
    rw [answerCached, answerUncached]
    dsimp only
    rw [hindex, funext fun query => rankEntries_searchIndex ctx.graph query]
    refine ⟨rfl, ?_⟩
    split_ifs
    · exact hholds
    · exact h

/-- **The cache is transparent**: over a batch whose dead-code requests the keys tell apart, every
answer is the one without a cache. -/
theorem answers_eq_uncached {requests : List ToolRequest}
    (hsep : Separate (requests.filterMap (ToolRequest.deadCode ctx))) :
    answers ll deadSort ctx {} requests = requests.map (answerUncached ll deadSort ctx) := by
  -- the cache holds answers to requests of the batch, also to those that are still to come
  suffices hrun : ∀ (rest : List ToolRequest) (c : QueryCache),
      c.Holds ll deadSort ctx (requests.filterMap (ToolRequest.deadCode ctx)) →
      (∀ r ∈ rest, r ∈ requests) →
      answers ll deadSort ctx c rest = rest.map (answerUncached ll deadSort ctx) from
    hrun requests {} .empty fun _ h => h
  intro rest
  induction rest with
  | nil => intro c _ _; rfl
  | cons r rest ih =>
    intro c hc hmem
    obtain ⟨hanswer, hholds⟩ := answerCached_eq hc hsep fun a ha =>
      List.mem_filterMap.mpr ⟨r, hmem r List.mem_cons_self, ha⟩
    rw [answers, List.map_cons, hanswer, ih _ hholds fun r' hr' => hmem r' (.tail r hr')]

end Transparent

/-! ### Arguments without bars -/

/-- The digits of a number have no bar among them. -/
theorem bar_notMem_decimal (n : ℕ) : 124 ∉ decimal n := notMem_decimal rfl n

theorem decimal_injective {m n : ℕ} (h : decimal m = decimal n) : m = n := by
  rw [decimal, decimal, text_inj] at h
  exact Nat.repr_injective h

/-- What stands before the first bar is determined. -/
theorem append_inj_of_bar {f f' rest rest' : Bytes} (hf : 124 ∉ f) (hf' : 124 ∉ f')
    (hrest : ∀ c ∈ rest.head?, c = 124) (hrest' : ∀ c ∈ rest'.head?, c = 124)
    (heq : f ++ rest = f' ++ rest') : f = f' ∧ rest = rest' := by
  have htake : ∀ {f rest : Bytes}, 124 ∉ f → (∀ c ∈ rest.head?, c = 124) →
      (f ++ rest).takeWhile (· ≠ 124) = f := by
    intro f rest hf hrest
    have hpos : ∀ c ∈ f, decide (c ≠ 124) = true :=
      fun c hc => decide_eq_true fun h => hf (h ▸ hc)
    rw [List.takeWhile_append_of_pos hpos]
    cases rest with
    | nil => rw [List.takeWhile_nil, List.append_nil]
    | cons c rest =>
      rw [List.takeWhile_cons_of_neg (by simp [hrest c rfl]), List.append_nil]
  have hff : f = f' := by rw [← htake hf hrest, heq, htake hf' hrest']
  exact ⟨hff, List.append_cancel_left (hff ▸ heq)⟩

theorem barred_cons (f : Bytes) (l : List Bytes) : barred (f :: l) = 124 :: (f ++ barred l) := rfl

theorem head?_barred (l : List Bytes) : ∀ c ∈ (barred l).head?, c = 124 := by
  cases l with
  | nil => simp [barred]
  | cons f l => simp [barred_cons]

/-- Fields without bars can be told from their key. -/
theorem barred_injective {l l' : List Bytes} (h : ∀ f ∈ l, 124 ∉ f) (h' : ∀ f ∈ l', 124 ∉ f)
    (heq : barred l = barred l') : l = l' := by
  induction l generalizing l' with
  | nil =>
    cases l' with
    | nil => rfl
    | cons f l' => rw [barred_cons] at heq; cases heq
  | cons f l ih =>
    cases l' with
    | nil => rw [barred_cons] at heq; cases heq
    | cons f' l' =>
      rw [barred_cons, barred_cons, List.cons.injEq] at heq
      obtain ⟨hf, hl⟩ := append_inj_of_bar (h f List.mem_cons_self) (h' f' List.mem_cons_self)
        (head?_barred l) (head?_barred l') heq.2
      rw [hf, ih (fun g hg => h g (.tail f hg)) (fun g hg => h' g (.tail f' hg)) hl]

theorem keyFlag_injective {b b' : Bool} (h : keyFlag b = keyFlag b') : b = b' := by
  revert h
  cases b <;> cases b' <;> decide

theorem length_keyFlag (b b' : Bool) : (keyFlag b).length = (keyFlag b').length := by
  cases b <;> cases b' <;> rfl

namespace DeadCodeArgs

/-- No argument of a key has a bar in it. -/
structure NoBar (a : DeadCodeArgs) : Prop where
  namePrefix : 124 ∉ a.namePrefix
  filePrefix : 124 ∉ a.filePrefix
  entryPoints : ∀ ep ∈ a.entryPoints, 124 ∉ ep

/-- The fields of a key. -/
def keyFields (a : DeadCodeArgs) : List Bytes :=
  [a.namePrefix, a.filePrefix, decimal a.limit.toNat, decimal a.offset.toNat] ++ a.entryPoints

theorem fullKey_eq (a : DeadCodeArgs) : a.fullKey = text "dead_code_json|" ++
    (keyFlag a.includeOptimistic ++ (keyFlag a.includeSystem ++ barred a.keyFields)) := by
  rw [fullKey, keyFields, barred, barred, List.flatMap_append]
  simp only [List.flatMap_cons, List.flatMap_nil, List.append_nil, List.append_assoc]

theorem NoBar.keyFields {a : DeadCodeArgs} (h : a.NoBar) : ∀ f ∈ a.keyFields, 124 ∉ f := by
  intro f hf
  simp only [DeadCodeArgs.keyFields, List.cons_append, List.nil_append, List.mem_cons] at hf
  rcases hf with rfl | rfl | rfl | rfl | hf
  exacts [h.namePrefix, h.filePrefix, bar_notMem_decimal _, bar_notMem_decimal _,
    h.entryPoints f hf]

theorem NoBar.fullKey_injective {a b : DeadCodeArgs} (ha : a.NoBar) (hb : b.NoBar)
    (hlimit : 0 ≤ a.limit ∧ 0 ≤ b.limit) (hoffset : 0 ≤ a.offset ∧ 0 ≤ b.offset)
    (heq : a.fullKey = b.fullKey) : a = b := by
  rw [fullKey_eq, fullKey_eq, List.append_cancel_left_eq] at heq
  obtain ⟨hoptimistic, heq⟩ := List.append_inj heq (length_keyFlag _ _)
  obtain ⟨hsystem, heq⟩ := List.append_inj heq (length_keyFlag _ _)
  have hfields := barred_injective ha.keyFields hb.keyFields heq
  simp only [DeadCodeArgs.keyFields, List.cons_append, List.nil_append, List.cons.injEq] at hfields
  obtain ⟨hname, hfile, hlim, hoff, hentry⟩ := hfields
  have hlim' := decimal_injective hlim
  have hoff' := decimal_injective hoff
  obtain ⟨entryPoints, includeOptimistic, includeSystem, namePrefix, filePrefix, limit, offset⟩ := a
  obtain ⟨entryPoints', includeOptimistic', includeSystem', namePrefix', filePrefix', limit',
    offset'⟩ := b
  dsimp only at *
  obtain rfl : limit = limit' := by omega
  obtain rfl : offset = offset' := by omega
  obtain rfl := keyFlag_injective hoptimistic
  obtain rfl := keyFlag_injective hsystem
  rw [hname, hfile, hentry]

theorem NoBar.livenessKey_injective {a b : DeadCodeArgs} (ha : a.NoBar) (hb : b.NoBar)
    (heq : a.livenessKey = b.livenessKey) :
    a.entryPoints = b.entryPoints ∧ a.includeOptimistic = b.includeOptimistic := by
  rw [livenessKey, livenessKey, List.append_assoc, List.append_assoc,
    List.append_cancel_left_eq] at heq
  obtain ⟨hoptimistic, hentry⟩ := List.append_inj heq (length_keyFlag _ _)
  exact ⟨barred_injective ha.entryPoints hb.entryPoints hentry, keyFlag_injective hoptimistic⟩

end DeadCodeArgs

/-- The keys tell dead-code requests apart that have no bar in their arguments. -/
theorem separate_of_noBar {ctx : ToolContext} {requests : List ToolRequest}
    (h : ∀ a ∈ requests.filterMap (ToolRequest.deadCode ctx), a.NoBar) :
    Separate (requests.filterMap (ToolRequest.deadCode ctx)) := by
  have hnonneg : ∀ a ∈ requests.filterMap (ToolRequest.deadCode ctx),
      0 ≤ a.limit ∧ 0 ≤ a.offset := by
    intro a ha
    obtain ⟨r, -, hr⟩ := List.mem_filterMap.mp ha
    cases r with
    | analyzeDeadCode args =>
      rw [← Option.some_inj.mp hr]
      exact ⟨le_max_right _ _, le_max_right _ _⟩
    | searchFunctions args => cases hr
    | graphSummary args => cases hr
    | other ranks answer => cases hr
  exact ⟨fun a ha b hb => (h a ha).fullKey_injective (h b hb)
      ⟨(hnonneg a ha).1, (hnonneg b hb).1⟩ ⟨(hnonneg a ha).2, (hnonneg b hb).2⟩,
    fun a ha b hb => (h a ha).livenessKey_injective (h b hb)⟩

/-! ### Requests that meet in a key -/

/-- Two dead-code requests with one key get one payload, that of the first. -/
theorem answers_of_fullKey_eq (ll : Llvm) (deadSort : Sorter DeadCodeEntry.before)
    (ctx : ToolContext) {args args' : JsonObject}
    (hkey : (deadCodeArgs args ctx).fullKey = (deadCodeArgs args' ctx).fullKey) :
    answers ll deadSort ctx {} [.analyzeDeadCode args, .analyzeDeadCode args'] =
      [handleAnalyzeDeadCode ll deadSort args ctx, handleAnalyzeDeadCode ll deadSort args ctx] := by
  have hfirst : answerCached ll deadSort ctx {} (.analyzeDeadCode args) =
      (some (deadCodeAnswer ll deadSort ctx (deadCodeArgs args ctx)),
        ((({} : QueryCache).livenessResults ll ctx.graph (deadCodeArgs args ctx)).2.putPayload
          (deadCodeArgs args ctx).fullKey
          (deadCodeAnswer ll deadSort ctx (deadCodeArgs args ctx)))) := rfl
  rw [answers, answers, answers, hfirst, answerCached, cachedAnalyzeDeadCode]
  dsimp only
  rw [QueryCache.byKey_putPayload, if_pos hkey.symm]
  rfl

/-- The batch of a witness: a ranking before and between two dead-code requests. -/
def plainBatch : List ToolRequest :=
  [.searchFunctions [(text "query", .string (text "f"))],
    .analyzeDeadCode [(text "entry_points", .strings [text "f", text "g"])],
    .graphSummary [], .other true fun rank => some (.count (rank (text "f")).length),
    .analyzeDeadCode [(text "entry_points", .strings [text "f"])], .graphSummary []]

theorem answers_eq_uncached_plainBatch :
    answers utf8Llvm stableEnv.deadSort deadContext {} plainBatch =
      plainBatch.map (answerUncached utf8Llvm stableEnv.deadSort deadContext) := by
  refine answers_eq_uncached (separate_of_noBar fun a ha => ?_)
  have hasked : plainBatch.filterMap (ToolRequest.deadCode deadContext) =
      [deadCodeArgs [(text "entry_points", .strings [text "f", text "g"])] deadContext,
        deadCodeArgs [(text "entry_points", .strings [text "f"])] deadContext] := rfl
  rw [hasked, List.mem_cons, List.mem_singleton] at ha
  rcases ha with rfl | rfl
  · exact ⟨by decide +kernel, by decide +kernel, by decide +kernel⟩
  · exact ⟨by decide +kernel, by decide +kernel, by decide +kernel⟩

/-- The number of dead functions that a payload reports. -/
def totalDead (payload : Option Json) : Option ℤ :=
  (payload.bind Json.getAsObject).bind fun o => JsonObject.getInteger o (text "totalDead")

/-- A request with the entry point `f|g` answers the next one, with the entry points `f` and
`g`. -/
theorem answers_meet_in_key :
    ¬ ∀ (ll : Llvm) (deadSort : Sorter DeadCodeEntry.before) (ctx : ToolContext)
      (requests : List ToolRequest), answers ll deadSort ctx {} requests =
        requests.map (answerUncached ll deadSort ctx) := by
  intro hall
  have hanswers := hall utf8Llvm stableEnv.deadSort deadContext
    [.analyzeDeadCode [(text "entry_points", .strings [text "f|g"])],
      .analyzeDeadCode [(text "entry_points", .strings [text "f", text "g"])]]
  rw [answers_of_fullKey_eq _ _ _ (by decide +kernel), List.map_cons, List.map_cons, List.cons.injEq,
    List.cons.injEq] at hanswers
  -- nothing is reachable from `f|g`, and nothing is dead behind `f`
  have hfirst : totalDead (handleAnalyzeDeadCode utf8Llvm stableEnv.deadSort
      [(text "entry_points", .strings [text "f|g"])] deadContext) = some 1 := by
    decide +kernel
  have hsecond : totalDead (handleAnalyzeDeadCode utf8Llvm stableEnv.deadSort
      [(text "entry_points", .strings [text "f", text "g"])] deadContext) = some 0 := by
    decide +kernel
  rw [hanswers.2.1, answerUncached, hsecond] at hfirst
  cases hfirst

end Vycor
