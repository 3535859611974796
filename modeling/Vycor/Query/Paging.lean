import Vycor.Query.Pages
import Vycor.Query.Sections

/-!
# Paged tools

The lists that the tools page, and the answer of each tool as a page of them. The tools that
share `Page` tile every list; the dead-code tool adds the limit to the start of its window in 64
bits, and tiles its lists as long as that sum fits (`pagedTools_iff`).
-/

namespace Vycor

/-! ### The lists of the tools -/

section Lists

variable (ll : Llvm) (args : JsonObject) (ctx : ToolContext)

/-- The matches of `search_functions`. -/
def searchLists : Option (List (Bytes × List Json)) :=
  ((args.getString (text "query")).filter (· ≠ [])).map fun query =>
    [(text "matches", (rankFunctionMatches ctx.graph query).map fun n => .object
      ([(text "qualifiedName", .string n.qualifiedName), (text "usr", .string n.usr),
        (text "file", .string n.file), (text "line", .count n.line)] ++ classMember n ++
        (if n.isVirtual then [(text "isVirtual", .boolean true)] else [])))]

/-- The records of `get_callees` and `get_callers`: the edges, or one for each function. -/
def edgeRecords (callees : Bool) (ident : Bytes) (filter : EdgeFilter) : List JsonObject :=
  let kept := (sortEdgesCanonically
    (if callees then ctx.graph.calleesOf ll ident else ctx.graph.callersOf ll ident)).filter
      filter.allows
  if (args.getBoolean (text "distinct")).getD false then
    (distinctEnds (fun e => if callees then e.calleeUsr else e.callerUsr) kept).map fun r =>
      edgeToJson r.1 ++ [(text "siteCount", .count r.2)]
  else kept.map edgeToJson

/-- The records of `get_callees` and `get_callers`, where an identity and a filter are given. -/
def edgeLists (callees : Bool) : Option (List (Bytes × List Json)) :=
  match resolveIdentity ll args ctx (text "name") (text "usr"), parseEdgeFilter args with
  | some (.found ident), .ok filter =>
    some [(if callees then text "callees" else text "callers",
      (edgeRecords ll args ctx callees ident filter).map .object)]
  | _, _ => none

/-- The classes of `get_class_hierarchy`. -/
def hierarchyLists : Option (List (Bytes × List Json)) :=
  (args.getString (text "class_name")).map fun className =>
    [(text "derivedClasses",
      ((if (args.getBoolean (text "include_transitive")).getD false then
          ctx.graph.getAllDerivedClasses ll className
        else ctx.graph.getDerivedClasses ll className).insertionSort (· ≤ ·)).map .string)]

/-- The entry points of `list_entry_points`. -/
def entryPointLists : Option (List (Bytes × List Json)) :=
  some [(text "entryPoints", ctx.entryPoints.map fun ep => .object
    ([(text "name", .string ep)] ++
      (match ctx.graph.findNode ll ep with
        | some n => [(text "file", .string n.file), (text "line", .count n.line)] ++ classMember n
        | none => [])))]

/-- The edges of `list_callback_sites`. -/
def callbackEdges : List CallGraphEdge :=
  (allCallees ll ctx.graph).filter fun e =>
    (e.kind = .functionPointer ∨ e.kind = .lambdaCall) ∧
      (args.getString (text "target_prefix")).all fun p => p <+: e.calleeName

/-- The targets of `list_callback_sites`. -/
def callbackLists : Option (List (Bytes × List Json)) :=
  match parseSiteLimit args with
  | .ok siteLimit =>
    some [(text "targets",
      ((((callbackEdges ll args ctx).map (·.calleeName)).dedup).insertionSort (· ≤ ·)).map fun t =>
        callbackTargetToJson siteLimit t
          ((callbackEdges ll args ctx).filter (·.calleeName = t)))]
  | .error _ => none

/-- The entries of `list_concurrency_entry_points`. -/
def concurrencyLists : Option (List (Bytes × List Json)) :=
  match parseExecutionContexts args with
  | .ok ctxFilter =>
    some [(text "entries", (sortEdgesCanonically ((allCallees ll ctx.graph).filter fun e =>
        e.kind = .threadEntry ∧ (ctxFilter = [] ∨ e.execContext ∈ ctxFilter))).map fun e => .object
      [(text "spawner", .string e.callerName), (text "target", .string e.calleeName),
        (text "executionContext", .string (executionContextToString e.execContext)),
        (text "callSite", .string e.callSite),
        (text "confidence", .string (confidenceToString e.confidence))])]
  | .error _ => none

/-- The channels that the channel tools answer from. -/
def channelsOf : Option ChannelIndex := if ctx.facts.channelsIndexed then ctx.channels else none

/-- The channels of `list_channels`. -/
def channelLists : Option (List (Bytes × List Json)) :=
  (channelsOf ctx).map fun channels =>
    [(text "channels",
      (channels.allChannelIds.insertionSort (· ≤ ·)).map (channelToJson ll channels))]

variable (siteSort : Sorter channelSiteBefore)
  (classifyGuard : ConditionalGuard → Option (Bytes × Bytes)) (deadSort : Sorter DeadCodeEntry.before)

/-- The producers and the consumers of `query_channel`. -/
def channelSiteLists : Option (List (Bytes × List Json)) :=
  match args.getString (text "channel_id"), channelsOf ctx with
  | some channelId, some channels =>
    let producers := siteSort.run (channels.producersOf ll channelId)
    let consumers := siteSort.run (channels.consumersOf ll channelId)
    if producers = [] ∧ consumers = [] then none
    else some [(text "producers", producers.map (serializeChannelSite classifyGuard)),
      (text "consumers", consumers.map (serializeChannelSite classifyGuard))]
  | _, _ => none

/-- The sites of `query_channels_for_function`. -/
def functionSiteLists : Option (List (Bytes × List Json)) :=
  match identityName args (text "function"), channelsOf ctx with
  | some function, some channels =>
    let sites := siteSort.run (channels.sitesForFunction ll function)
    if sites = [] ∧ isKnownIdentity ll ctx.graph function = false then none
    else some [(text "sites", sites.map (serializeChannelSite classifyGuard))]
  | _, _ => none

/-- The entries of `analyze_dead_code`, of a liveness and past the filters. -/
def livenessEntries (liveness : Liveness) : List DeadCodeEntry :=
  let a := deadCodeArgs args ctx
  deadCodeEntries deadSort a
    ((ctx.graph.livenessResults ll a.entryPoints [] a.includeOptimistic).map fun r =>
      ⟨r.1, ctx.graph.findNode ll r.1, r.2⟩) liveness

/-- The two lists of `analyze_dead_code`. -/
def deadCodeLists : Option (List (Bytes × List Json)) :=
  some [(text "dead", (livenessEntries ll args ctx deadSort .dead).map DeadCodeEntry.toJson),
    (text "optimisticallyAlive",
      (livenessEntries ll args ctx deadSort .optimisticallyAlive).map DeadCodeEntry.toJson)]

end Lists

/-! ### The tools answer with pages -/

section Answers

variable {ll : Llvm} {args : JsonObject} {ctx : ToolContext} {lists : List (Bytes × List Json)}
  {page : Page}

/-- The answer is the page. -/
def AnswersPage (answer : Option Json) (page : Page) (lists : List (Bytes × List Json)) : Prop :=
  ∃ obj, answer = some (.object obj) ∧ PageOf obj page.offset page.limit lists

theorem handleSearchFunctions_page (hlists : searchLists args ctx = some lists)
    (hpage : parsePage args kDefaultSearchLimit = .ok page) :
    AnswersPage (handleSearchFunctions ll args ctx) page lists := by
  rw [searchLists, Option.map_eq_some_iff] at hlists
  obtain ⟨query, hquery, rfl⟩ := hlists
  rw [Option.filter_eq_some_iff, decide_eq_true_eq] at hquery
  rw [handleSearchFunctions, hquery.1]
  dsimp only
  rw [if_neg hquery.2, hpage]
  refine ⟨_, rfl, ?_⟩
  rw [← Page.window_map]
  exact pageOf_last page (List.length_map _).symm (by simp [Lacks, windowNames])
    (by simp [pageNames])

/-- No member of `usrMember` names a window or an edge list. -/
theorem lacks_usrMember (g : CallGraph) (ident key : Bytes)
    (hkey : key ≠ text "usr" ∧ key ≠ text "resolvedAs") :
    Lacks (usrMember ll g ident) (key :: windowNames) := by
  have hmarker : consumeBack (text "usr") (text "Usr") = none := by decide
  have hstem : consumeBack (text "usr") (text "usr") = some [] := by decide
  rw [usrMember, hmarker, hstem]
  cases g.findNode ll ident with
  | some n => simp [Lacks, windowNames, hkey.1.symm]
  | none => simp [Lacks, windowNames, hkey.2.symm]

theorem handleEdgeList_page {callees : Bool} (hlists : edgeLists ll args ctx callees = some lists)
    (hpage : parsePage args kDefaultEdgeListLimit = .ok page) :
    AnswersPage (handleEdgeList ll callees args ctx) page lists := by
  rw [edgeLists] at hlists
  split at hlists
  · rename_i ident filter hident hfilter
    obtain rfl := Option.some_inj.mp hlists
    rw [handleEdgeList, hident, hfilter, hpage]
    refine ⟨_, rfl, ?_⟩
    rw [← Page.window_map]
    refine pageOf_last page (List.length_map _).symm ?_ (by cases callees <;> simp [pageNames])
    have husr : Lacks (usrMember ll ctx.graph ident)
        ((if callees then text "callees" else text "callers") :: windowNames) :=
      lacks_usrMember ctx.graph ident _ (by cases callees <;> simp)
    intro m hm
    simp only [List.mem_append, List.mem_singleton] at hm
    rcases hm with ((rfl | hm) | hm) | rfl
    · cases callees <;> simp [windowNames]
    · exact husr m hm
    · split_ifs at hm
      · rw [List.mem_singleton] at hm
        subst hm
        cases callees <;> simp [windowNames]
      · cases hm
    · cases callees <;> simp [windowNames]
  · cases hlists

theorem handleGetClassHierarchy_page (hlists : hierarchyLists ll args ctx = some lists)
    (hpage : parsePage args kDefaultListLimit = .ok page) :
    AnswersPage (handleGetClassHierarchy ll args ctx) page lists := by
  rw [hierarchyLists, Option.map_eq_some_iff] at hlists
  obtain ⟨className, hclass, rfl⟩ := hlists
  rw [handleGetClassHierarchy, hclass]
  dsimp only
  rw [hpage]
  refine ⟨_, rfl, ?_⟩
  rw [Json.strings, ← Page.window_map]
  refine pageOf_one page (List.length_map _).symm (by simp [Lacks, windowNames]) ?_
    (by simp [pageNames])
  split_ifs
  · simp [Lacks, windowNames]
  · exact lacks_nil windowNames

theorem handleListEntryPoints_page (hlists : entryPointLists ll ctx = some lists)
    (hpage : parsePage args kDefaultListLimit = .ok page) :
    AnswersPage (handleListEntryPoints ll args ctx) page lists := by
  obtain rfl := Option.some_inj.mp hlists
  rw [handleListEntryPoints, hpage]
  refine ⟨_, rfl, ?_⟩
  rw [← Page.window_map]
  exact pageOf_last page (List.length_map _).symm (by simp [Lacks, windowNames])
    (by simp [pageNames])

theorem handleListCallbackSites_page (hlists : callbackLists ll args ctx = some lists)
    (hpage : parsePage args kDefaultCallbackTargetLimit = .ok page) :
    AnswersPage (handleListCallbackSites ll args ctx) page lists := by
  rw [callbackLists] at hlists
  split at hlists
  · rename_i siteLimit hsite
    obtain rfl := Option.some_inj.mp hlists
    rw [handleListCallbackSites, hpage, hsite]
    refine ⟨_, rfl, ?_⟩
    rw [← Page.window_map]
    exact pageOf_last page (List.length_map _).symm (by simp [Lacks, windowNames])
      (by simp [pageNames])
  · cases hlists

theorem handleListConcurrencyEntryPoints_page
    (hlists : concurrencyLists ll args ctx = some lists)
    (hpage : parsePage args kDefaultListLimit = .ok page) :
    AnswersPage (handleListConcurrencyEntryPoints ll args ctx) page lists := by
  rw [concurrencyLists] at hlists
  split at hlists
  · rename_i ctxFilter hfilter
    obtain rfl := Option.some_inj.mp hlists
    rw [handleListConcurrencyEntryPoints, hfilter, hpage]
    refine ⟨_, rfl, ?_⟩
    rw [← Page.window_map]
    exact pageOf_last page (List.length_map _).symm (by simp [Lacks, windowNames])
      (by simp [pageNames])
  · cases hlists

theorem withChannels_of_some {channels : ChannelIndex} (h : channelsOf ctx = some channels)
    (rest : ChannelIndex → Option Json) : withChannels ll ctx rest = rest channels := by
  rw [channelsOf] at h
  rw [withChannels, h]

theorem handleListChannels_page (hlists : channelLists ll ctx = some lists)
    (hpage : parsePage args kDefaultListLimit = .ok page) :
    AnswersPage (handleListChannels ll args ctx) page lists := by
  rw [channelLists, Option.map_eq_some_iff] at hlists
  obtain ⟨channels, hchannels, rfl⟩ := hlists
  rw [handleListChannels, withChannels_of_some hchannels, hpage]
  refine ⟨_, rfl, ?_⟩
  rw [← Page.window_map]
  exact pageOf_last page (List.length_map _).symm (by simp [Lacks, windowNames])
    (by simp [pageNames])

variable {siteSort : Sorter channelSiteBefore}
  {classifyGuard : ConditionalGuard → Option (Bytes × Bytes)}

theorem handleQueryChannel_page
    (hlists : channelSiteLists ll args ctx siteSort classifyGuard = some lists)
    (hpage : parsePage args kDefaultListLimit = .ok page) :
    AnswersPage (handleQueryChannel ll siteSort classifyGuard args ctx) page lists := by
  rw [channelSiteLists] at hlists
  split at hlists
  · rename_i channelId channels hid hchannels
    dsimp only at hlists
    split_ifs at hlists with hnone
    obtain rfl := Option.some_inj.mp hlists
    rw [handleQueryChannel, hid]
    dsimp only
    rw [withChannels_of_some hchannels, hpage]
    dsimp only [orUsage]
    rw [if_neg hnone]
    refine ⟨_, rfl, ?_⟩
    have hfront : Lacks ([(text "channelId", .string channelId),
        (text "producerTotal", .count (siteSort.run (channels.producersOf ll channelId)).length),
        (text "consumerTotal", .count (siteSort.run (channels.consumersOf ll channelId)).length)] :
          JsonObject) (windowNames ++ [text "producers", text "consumers"]) := by
      simp [Lacks, windowNames]
    have hpages := pageOf_window page
      [(text "producers", (siteSort.run (channels.producersOf ll channelId)).map
          (serializeChannelSite classifyGuard)),
        (text "consumers", (siteSort.run (channels.consumersOf ll channelId)).map
          (serializeChannelSite classifyGuard))]
      hfront (lacks_nil windowNames) (by simp [windowNames]) (by simp)
    simpa only [windowArrays, List.map_cons, List.map_nil, List.any_cons, List.any_nil,
      Bool.or_false, List.append_nil, List.length_map, Page.window_map, List.append_assoc]
      using hpages
  · cases hlists

theorem handleQueryChannelsForFunction_page
    (hlists : functionSiteLists ll args ctx siteSort classifyGuard = some lists)
    (hpage : parsePage args kDefaultListLimit = .ok page) :
    AnswersPage (handleQueryChannelsForFunction ll siteSort classifyGuard args ctx) page lists := by
  rw [functionSiteLists] at hlists
  split at hlists
  · rename_i function channels hfunction hchannels
    dsimp only at hlists
    split_ifs at hlists with hnone
    obtain rfl := Option.some_inj.mp hlists
    rw [handleQueryChannelsForFunction, hfunction]
    dsimp only
    rw [withChannels_of_some hchannels, hpage]
    dsimp only [orUsage]
    rw [if_neg hnone]
    refine ⟨_, rfl, ?_⟩
    rw [← Page.window_map]
    exact pageOf_last page (List.length_map _).symm (by simp [Lacks, windowNames])
      (by simp [pageNames])
  · cases hlists

variable {deadSort : Sorter DeadCodeEntry.before}

theorem int64_of_lt {i : ℤ} (h0 : 0 ≤ i) (h : i < 2 ^ 63) : int64 i = i := by
  rw [int64, Int.bmod_def]
  omega

theorem int64_neg_of_le {i : ℤ} (h : 2 ^ 63 ≤ i) (hlt : i < 2 ^ 64) : int64 i < 0 := by
  rw [int64, Int.bmod_def]
  omega

/-- Where the sum of the window fits, the window is that of a page. -/
theorem deadCodeWindow_of_fits {a : DeadCodeArgs} {offset limit : ℕ} (hoffset : a.offset = offset)
    (hlimit : a.limit = limit) {l : List DeadCodeEntry}
    (hfits : min offset l.length + limit < 2 ^ 63) :
    (a.window l).records = (l.drop offset).take limit ∧
      ((a.window l).last < l.length ↔ offset + limit < l.length) := by
  have hsum : int64 (min a.offset l.length + a.limit) = ((min offset l.length + limit : ℕ) : ℤ) := by
    rw [hoffset, hlimit, int64_of_lt (by omega) (by omega)]
    omega
  rw [DeadCodeArgs.window]
  dsimp only
  rw [hsum, hoffset]
  refine ⟨?_, by omega⟩
  have hfirst : (min (offset : ℤ) l.length).toNat = min offset l.length := by omega
  rw [hfirst]
  rcases Nat.le_total offset l.length with hle | hle
  · rw [Nat.min_eq_left hle]
    have hlen : (l.drop offset).length = l.length - offset := List.length_drop
    rcases Nat.le_total limit (l.length - offset) with hin | hin
    · congr 1
      omega
    · rw [List.take_of_length_le (by omega), List.take_of_length_le (by omega)]
  · rw [Nat.min_eq_right hle, List.drop_of_length_le hle, List.drop_of_length_le le_rfl,
      List.take_nil, List.take_nil]

/-- Records remain past the window of the arguments. -/
def DeadCodeArgs.cuts (a : DeadCodeArgs) (l : List DeadCodeEntry) : Bool :=
  (a.window l).last < l.length

/-- The payload of the dead-code tool, by the windows on its two lists. -/
theorem deadCodePayload_members (deadSort : Sorter DeadCodeEntry.before) (a : DeadCodeArgs) (entries : List DeadCodeEntry) :
    let dead := deadCodeEntries deadSort a entries .dead
    let optimistic := deadCodeEntries deadSort a entries .optimisticallyAlive
    ∃ obj, deadCodePayload deadSort a entries = .object obj ∧
      JsonObject.getArray obj (text "dead") =
        some ((a.window dead).records.map DeadCodeEntry.toJson) ∧
      JsonObject.getArray obj (text "optimisticallyAlive") =
        some ((a.window optimistic).records.map DeadCodeEntry.toJson) ∧
      JsonObject.getBoolean obj (text "truncated") = some (a.cuts dead || a.cuts optimistic) ∧
      JsonObject.getInteger obj (text "nextOffset") =
        if 0 < a.limit ∧ (a.cuts dead || a.cuts optimistic) = true then
          some (int64 (a.offset + a.limit)) else none := by
  intro dead optimistic
  refine ⟨_, rfl, ?_⟩
  by_cases hmore : 0 < a.limit ∧ (a.cuts dead || a.cuts optimistic) = true
  · rw [if_pos hmore]
    have hmore' := hmore
    simp only [DeadCodeArgs.cuts, dead, optimistic] at hmore'
    rw [if_pos hmore']
    simp [JsonObject.getArray, JsonObject.getBoolean, JsonObject.getInteger, JsonObject.get,
      Json.integer, DeadCodeArgs.cuts, dead, optimistic]
  · rw [if_neg hmore]
    have hmore' := hmore
    simp only [DeadCodeArgs.cuts, dead, optimistic] at hmore'
    rw [if_neg hmore']
    simp [JsonObject.getArray, JsonObject.getBoolean, JsonObject.getInteger, JsonObject.get,
      Json.integer, DeadCodeArgs.cuts, dead, optimistic]

/-- The payload of the dead-code tool over its two lists. -/
theorem handleAnalyzeDeadCode_members (ll : Llvm) (args : JsonObject) (ctx : ToolContext)
    (deadSort : Sorter DeadCodeEntry.before) :
    let a := deadCodeArgs args ctx
    let dead := livenessEntries ll args ctx deadSort .dead
    let optimistic := livenessEntries ll args ctx deadSort .optimisticallyAlive
    ∃ obj, handleAnalyzeDeadCode ll deadSort args ctx = some (.object obj) ∧
      JsonObject.getArray obj (text "dead") =
        some ((a.window dead).records.map DeadCodeEntry.toJson) ∧
      JsonObject.getArray obj (text "optimisticallyAlive") =
        some ((a.window optimistic).records.map DeadCodeEntry.toJson) ∧
      JsonObject.getBoolean obj (text "truncated") = some (a.cuts dead || a.cuts optimistic) ∧
      JsonObject.getInteger obj (text "nextOffset") =
        if 0 < a.limit ∧ (a.cuts dead || a.cuts optimistic) = true then
          some (int64 (a.offset + a.limit)) else none := by
  obtain ⟨obj, hobj, hmembers⟩ := deadCodePayload_members deadSort
    (deadCodeArgs args ctx) ((ctx.graph.livenessResults ll (deadCodeArgs args ctx).entryPoints []
      (deadCodeArgs args ctx).includeOptimistic).map fun r => ⟨r.1, ctx.graph.findNode ll r.1, r.2⟩)
  exact ⟨obj, congrArg some hobj, hmembers⟩

theorem handleAnalyzeDeadCode_page (hlists : deadCodeLists ll args ctx deadSort = some lists)
    (hoffset : (deadCodeArgs args ctx).offset = page.offset)
    (hlimit : (deadCodeArgs args ctx).limit = page.limit) (hpos : 0 < page.limit)
    (hfits : ∀ p ∈ lists, min page.offset p.2.length + page.limit < 2 ^ 63)
    (hshort : ∀ p ∈ lists, p.2.length < 2 ^ 63) :
    AnswersPage (handleAnalyzeDeadCode ll deadSort args ctx) page lists := by
  obtain rfl := Option.some_inj.mp hlists
  obtain ⟨obj, hobj, hdead, hoptimistic, htruncated, hnext⟩ :=
    handleAnalyzeDeadCode_members ll args ctx deadSort
  simp only [List.forall_mem_cons, List.not_mem_nil, false_implies, implies_true, and_true,
    List.length_map] at hfits hshort
  obtain ⟨hdeadRecords, hdeadCut⟩ := deadCodeWindow_of_fits hoffset hlimit hfits.1
  obtain ⟨hoptRecords, hoptCut⟩ := deadCodeWindow_of_fits hoffset hlimit hfits.2
  have hcut : ((deadCodeArgs args ctx).cuts (livenessEntries ll args ctx deadSort .dead) ||
      (deadCodeArgs args ctx).cuts (livenessEntries ll args ctx deadSort .optimisticallyAlive)) =
      decide (∃ p ∈ [(text "dead", (livenessEntries ll args ctx deadSort .dead).map
          DeadCodeEntry.toJson), (text "optimisticallyAlive",
        (livenessEntries ll args ctx deadSort .optimisticallyAlive).map DeadCodeEntry.toJson)],
        page.offset + page.limit < p.2.length) := by
    rw [Bool.eq_iff_iff, Bool.or_eq_true, DeadCodeArgs.cuts, DeadCodeArgs.cuts, decide_eq_true_eq,
      decide_eq_true_eq, decide_eq_true_eq, hdeadCut, hoptCut]
    simp
  refine ⟨obj, hobj, ⟨?_, htruncated.trans (congrArg some hcut), ?_⟩⟩
  · simp only [List.forall_mem_cons, List.not_mem_nil, false_implies, implies_true, and_true]
    rw [hdead, hoptimistic, hdeadRecords, hoptRecords]
    simp only [List.map_take, List.map_drop, and_self]
  · rw [hnext, hcut, hlimit, hoffset]
    simp only [decide_eq_true_eq]
    split_ifs with h1 h2 h2
    · obtain ⟨p, hp, hlt⟩ := h2
      have hlen : p.2.length < 2 ^ 63 := by
        simp only [List.mem_cons, List.not_mem_nil, or_false] at hp
        rcases hp with rfl | rfl
        · rw [List.length_map]
          exact hshort.1
        · rw [List.length_map]
          exact hshort.2
      rw [← Nat.cast_add, int64_of_lt (by omega) (by omega)]
    · exact absurd h1.2 h2
    · exact absurd ⟨by omega, h2⟩ h1
    · rfl

/-- Where the sum of the window does not fit, the tool says that records remain. -/
theorem handleAnalyzeDeadCode_overflow (hlists : deadCodeLists ll args ctx deadSort = some lists)
    {p : Bytes × List Json} (hp : p ∈ lists) {limit : ℕ} (hlimit : limit < 2 ^ 63)
    (hlimitArg : (deadCodeArgs args ctx).limit = limit)
    (hoffset : (deadCodeArgs args ctx).offset = p.2.length)
    (hshort : p.2.length < 2 ^ 63) (hsum : 2 ^ 63 ≤ p.2.length + limit) :
    ∃ obj, handleAnalyzeDeadCode ll deadSort args ctx = some (.object obj) ∧
      JsonObject.getBoolean obj (text "truncated") = some true := by
  obtain rfl := Option.some_inj.mp hlists
  obtain ⟨obj, hobj, -, -, htruncated, -⟩ :=
    handleAnalyzeDeadCode_members ll args ctx deadSort
  have hcuts : ∀ l : List DeadCodeEntry, l.length = p.2.length →
      (deadCodeArgs args ctx).cuts l = true := by
    intro l hl
    rw [DeadCodeArgs.cuts, decide_eq_true_eq, DeadCodeArgs.window]
    dsimp only
    rw [hoffset, hlimitArg, hl, min_self, ← Nat.cast_add]
    have hneg : int64 ((p.2.length + limit : ℕ) : ℤ) < 0 :=
      int64_neg_of_le (by omega) (by omega)
    omega
  refine ⟨obj, hobj, htruncated.trans (congrArg some ?_)⟩
  rw [Bool.or_eq_true]
  simp only [List.mem_cons, List.not_mem_nil, or_false] at hp
  rcases hp with rfl | rfl
  · exact .inl (hcuts _ (List.length_map _).symm)
  · exact .inr (hcuts _ (List.length_map _).symm)

end Answers

/-! ### Asking from another offset -/

/-- The arguments, from an offset on. -/
def atOffset (args : JsonObject) (offset : ℤ) : JsonObject :=
  JsonObject.set args (text "offset") (.integer offset)

section Offset

variable (ll : Llvm) (args : JsonObject) (offset : ℤ) {key : Bytes}

theorem get_atOffset (h : key ≠ text "offset") :
    JsonObject.get (atOffset args offset) key = JsonObject.get args key :=
  JsonObject.get_set_of_ne h

theorem getString_atOffset (h : key ≠ text "offset") :
    JsonObject.getString (atOffset args offset) key = JsonObject.getString args key := by
  rw [JsonObject.getString, JsonObject.getString, get_atOffset args offset h]

theorem getInteger_atOffset (h : key ≠ text "offset") :
    JsonObject.getInteger (atOffset args offset) key = JsonObject.getInteger args key := by
  rw [JsonObject.getInteger, JsonObject.getInteger, get_atOffset args offset h]

theorem getBoolean_atOffset (h : key ≠ text "offset") :
    JsonObject.getBoolean (atOffset args offset) key = JsonObject.getBoolean args key := by
  rw [JsonObject.getBoolean, JsonObject.getBoolean, get_atOffset args offset h]

theorem getArray_atOffset (h : key ≠ text "offset") :
    JsonObject.getArray (atOffset args offset) key = JsonObject.getArray args key := by
  rw [JsonObject.getArray, JsonObject.getArray, get_atOffset args offset h]

theorem getStrings_atOffset (h : key ≠ text "offset") :
    JsonObject.getStrings (atOffset args offset) key = JsonObject.getStrings args key := by
  rw [JsonObject.getStrings, JsonObject.getStrings, getArray_atOffset args offset h]

theorem getInteger_offset :
    JsonObject.getInteger (atOffset args offset) (text "offset") = some offset := by
  rw [JsonObject.getInteger, atOffset, JsonObject.get_set_self]
  rfl

theorem namedArg_atOffset {nameParam : Bytes} (h : nameParam ≠ text "offset") :
    namedArg (atOffset args offset) nameParam = namedArg args nameParam := by
  have halias : identityAlias nameParam ≠ text "offset" := by
    rw [identityAlias]
    split_ifs
    · simp
    · simp
    · decide
  rw [namedArg, namedArg, getString_atOffset args offset h, getString_atOffset args offset halias]

theorem identityName_atOffset {nameParam : Bytes} (h : nameParam ≠ text "offset") :
    identityName (atOffset args offset) nameParam = identityName args nameParam := by
  rw [identityName, identityName, namedArg_atOffset args offset h]

theorem resolveIdentity_atOffset (ctx : ToolContext) :
    resolveIdentity ll (atOffset args offset) ctx (text "name") (text "usr") =
      resolveIdentity ll args ctx (text "name") (text "usr") := by
  have hsite : companionParam (text "usr") (text "site") = text "site" := by decide
  have hfilter : companionParam (text "usr") (text "filter") = text "filter" := by decide
  rw [resolveIdentity, resolveIdentity, hsite, hfilter, getString_atOffset args offset (by simp),
    getString_atOffset args offset (by simp), getString_atOffset args offset (by simp),
    namedArg_atOffset args offset (by simp), identityName_atOffset args offset (by simp)]

theorem parseExecutionContexts_atOffset :
    parseExecutionContexts (atOffset args offset) = parseExecutionContexts args := by
  rw [parseExecutionContexts, parseExecutionContexts, getStrings_atOffset args offset (by simp)]

theorem parseEdgeFilter_atOffset :
    parseEdgeFilter (atOffset args offset) = parseEdgeFilter args := by
  have hconfidence (f : EdgeFilter) :
      parseConfidenceArgs (atOffset args offset) f = parseConfidenceArgs args f := by
    rw [parseConfidenceArgs, parseConfidenceArgs, getArray_atOffset args offset (by simp),
      getStrings_atOffset args offset (by simp), getString_atOffset args offset (by simp)]
  rw [parseEdgeFilter, parseEdgeFilter, parseExecutionContexts_atOffset,
    getStrings_atOffset args offset (by simp), hconfidence]

theorem parseSiteLimit_atOffset :
    parseSiteLimit (atOffset args offset) = parseSiteLimit args := by
  rw [parseSiteLimit, parseSiteLimit, getInteger_atOffset args offset (by simp)]

end Offset

/-! ### The paged tools -/

/-- A tool that pages lists: the lists of its arguments, the default of its limit, and whether it
takes the sums of a window in `int64_t`. -/
structure PagedTool where
  name : Bytes
  handler : ToolHandler
  lists : JsonObject → ToolContext → Option (List (Bytes × List Json))
  defaultLimit : ℕ
  signed : Bool := false

/-- The tools that page lists. -/
def ToolEnv.pagedTools (env : ToolEnv) : List PagedTool :=
  [{ name := text "search_functions", handler := handleSearchFunctions env.ll,
      lists := searchLists, defaultLimit := kDefaultSearchLimit },
    { name := text "get_callees", handler := handleGetCallees env.ll,
      lists := fun args ctx => edgeLists env.ll args ctx true,
      defaultLimit := kDefaultEdgeListLimit },
    { name := text "get_callers", handler := handleGetCallers env.ll,
      lists := fun args ctx => edgeLists env.ll args ctx false,
      defaultLimit := kDefaultEdgeListLimit },
    { name := text "get_class_hierarchy", handler := handleGetClassHierarchy env.ll,
      lists := hierarchyLists env.ll, defaultLimit := kDefaultListLimit },
    { name := text "list_entry_points", handler := handleListEntryPoints env.ll,
      lists := fun _ ctx => entryPointLists env.ll ctx, defaultLimit := kDefaultListLimit },
    { name := text "list_callback_sites", handler := handleListCallbackSites env.ll,
      lists := callbackLists env.ll, defaultLimit := kDefaultCallbackTargetLimit },
    { name := text "list_concurrency_entry_points",
      handler := handleListConcurrencyEntryPoints env.ll,
      lists := concurrencyLists env.ll, defaultLimit := kDefaultListLimit },
    { name := text "list_channels", handler := handleListChannels env.ll,
      lists := fun _ ctx => channelLists env.ll ctx, defaultLimit := kDefaultListLimit },
    { name := text "query_channel",
      handler := handleQueryChannel env.ll env.siteSort env.classifyGuard,
      lists := fun args ctx => channelSiteLists env.ll args ctx env.siteSort env.classifyGuard,
      defaultLimit := kDefaultListLimit },
    { name := text "query_channels_for_function",
      handler := handleQueryChannelsForFunction env.ll env.siteSort env.classifyGuard,
      lists := fun args ctx => functionSiteLists env.ll args ctx env.siteSort env.classifyGuard,
      defaultLimit := kDefaultListLimit },
    { name := text "analyze_dead_code", handler := handleAnalyzeDeadCode env.ll env.deadSort,
      lists := fun args ctx => deadCodeLists env.ll args ctx env.deadSort,
      defaultLimit := 500, signed := true }]

/-- They are registered tools. -/
theorem ToolEnv.pagedTools_registered (env : ToolEnv) {tool : PagedTool}
    (htool : tool ∈ env.pagedTools) :
    toolEntry tool.name tool.handler ∈ env.getRegisteredTools := by
  simp only [pagedTools, List.mem_cons, List.not_mem_nil, or_false] at htool
  rcases htool with rfl | rfl | rfl | rfl | rfl | rfl | rfl | rfl | rfl | rfl | rfl <;>
    simp [getRegisteredTools, registerGraphTools, registerDeadCodeTools, registerChannelTools]

namespace PagedTool

variable (tool : PagedTool)

/-- The limit is that of the arguments, or the default where there is none. -/
def HasLimit (args : JsonObject) (limit : ℕ) : Prop :=
  JsonObject.getInteger args (text "limit") = some (limit : ℤ) ∨
    JsonObject.get args (text "limit") = none ∧ limit = tool.defaultLimit

/-- No sum that the tool takes for a window leaves its type. -/
structure Fits (offset limit : ℕ) (lists : List (Bytes × List Json)) : Prop where
  last : ∀ p ∈ lists, if tool.signed then min offset p.2.length + limit < 2 ^ 63
    else (Page.mk offset limit).last p.2.length < 2 ^ 64
  next : (∃ p ∈ lists, offset + limit < p.2.length) → offset + limit < 2 ^ 63

/-- The pages of a tool tile its lists. -/
structure PagesTile (args : JsonObject) (ctx : ToolContext) (limit : ℕ)
    (lists : List (Bytes × List Json)) : Prop where
  fits : ∀ offset : ℕ, offset < 2 ^ 63 → tool.Fits offset limit lists
  page : ∀ offset : ℕ, offset < 2 ^ 63 →
    AnswersPage (tool.handler (atOffset args offset) ctx) ⟨offset, limit⟩ lists
  tiles : ∃ pages, Follows (fun offset => tool.handler (atOffset args offset) ctx) 0 pages ∧
    ∀ p ∈ lists, shown p.1 pages = p.2

end PagedTool

section Tools

variable {env : ToolEnv} {tool : PagedTool} {args : JsonObject} {ctx : ToolContext}
  {limit offset : ℕ} {lists : List (Bytes × List Json)}

theorem parsePage_atOffset (offset : ℕ) (hlimit : tool.HasLimit args limit) (hpos : 1 ≤ limit) :
    parsePage (atOffset args offset) tool.defaultLimit = .ok ⟨offset, limit⟩ := by
  have hoffset : parsePageArg (atOffset args offset) (text "offset") 0 (text "non-negative") 0 =
      .ok offset := by
    rw [parsePageArg, getInteger_offset]
    dsimp only
    rw [if_neg (by omega), Int.toNat_natCast]
  have hlim : parsePageArg (atOffset args offset) (text "limit") 1 (text "at least 1")
      tool.defaultLimit = .ok limit := by
    rw [parsePageArg, getInteger_atOffset args offset (by simp),
      get_atOffset args offset (by simp)]
    rcases hlimit with hgiven | ⟨habsent, rfl⟩
    · rw [hgiven]
      dsimp only
      rw [if_neg (by omega), Int.toNat_natCast]
    · rw [JsonObject.getInteger, habsent]
      rfl
  rw [parsePage, hlim, hoffset]
  rfl

theorem entryPointsArg_atOffset :
    entryPointsArg (atOffset args offset) ctx = entryPointsArg args ctx := by
  rw [entryPointsArg, entryPointsArg, getStrings_atOffset args offset (by simp)]

theorem deadCodeArgs_atOffset :
    deadCodeArgs (atOffset args offset) ctx = { deadCodeArgs args ctx with offset := offset } := by
  rw [deadCodeArgs, deadCodeArgs, entryPointsArg_atOffset, getInteger_offset,
    getInteger_atOffset args offset (by simp), getString_atOffset args offset (by simp),
    getString_atOffset args offset (by simp), getBoolean_atOffset args offset (by simp),
    getBoolean_atOffset args offset (by simp), Option.getD_some, max_eq_left (Int.natCast_nonneg _)]

theorem livenessEntries_atOffset (liveness : Liveness) :
    livenessEntries env.ll (atOffset args offset) ctx env.deadSort liveness =
      livenessEntries env.ll args ctx env.deadSort liveness := by
  rw [livenessEntries, deadCodeArgs_atOffset]
  rfl

theorem edgeLists_atOffset (callees : Bool) :
    edgeLists env.ll (atOffset args offset) ctx callees = edgeLists env.ll args ctx callees := by
  have hrecords (ident : Bytes) (filter : EdgeFilter) :
      edgeRecords env.ll (atOffset args offset) ctx callees ident filter =
        edgeRecords env.ll args ctx callees ident filter := by
    rw [edgeRecords, edgeRecords, getBoolean_atOffset args offset (by simp)]
  rw [edgeLists, edgeLists, resolveIdentity_atOffset, parseEdgeFilter_atOffset]
  simp only [hrecords]

/-- The lists do not depend on the offset. -/
theorem lists_atOffset (offset : ℕ) (htool : tool ∈ env.pagedTools) :
    tool.lists (atOffset args offset) ctx = tool.lists args ctx := by
  simp only [ToolEnv.pagedTools, List.mem_cons, List.not_mem_nil, or_false] at htool
  rcases htool with rfl | rfl | rfl | rfl | rfl | rfl | rfl | rfl | rfl | rfl | rfl <;> dsimp only
  · rw [searchLists, searchLists, getString_atOffset args offset (by simp)]
  · rw [edgeLists_atOffset]
  · rw [edgeLists_atOffset]
  · rw [hierarchyLists, hierarchyLists, getString_atOffset args offset (by simp),
      getBoolean_atOffset args offset (by simp)]
  · have hedges : callbackEdges env.ll (atOffset args offset) ctx =
        callbackEdges env.ll args ctx := by
      rw [callbackEdges, callbackEdges, getString_atOffset args offset (by simp)]
    rw [callbackLists, callbackLists, parseSiteLimit_atOffset, hedges]
  · rw [concurrencyLists, concurrencyLists, parseExecutionContexts_atOffset]
  · rw [channelSiteLists, channelSiteLists, getString_atOffset args offset (by simp)]
  · rw [functionSiteLists, functionSiteLists, identityName_atOffset args offset (by simp)]
  · rw [deadCodeLists, deadCodeLists, livenessEntries_atOffset, livenessEntries_atOffset]

theorem deadCodeArgs_offset : (deadCodeArgs (atOffset args offset) ctx).offset = offset := by
  rw [deadCodeArgs_atOffset]

theorem deadCodeArgs_limit (hlimit : JsonObject.getInteger args (text "limit") = some (limit : ℤ) ∨
    JsonObject.get args (text "limit") = none ∧ limit = 500) :
    (deadCodeArgs (atOffset args offset) ctx).limit = limit := by
  rw [deadCodeArgs_atOffset]
  rcases hlimit with hgiven | ⟨habsent, rfl⟩
  · rw [deadCodeArgs, hgiven, Option.getD_some]
    exact max_eq_left (Int.natCast_nonneg _)
  · rw [deadCodeArgs, JsonObject.getInteger, habsent]
    rfl

/-- Where the sums fit, every tool answers every offset with its page. -/
theorem answersPage_atOffset (htool : tool ∈ env.pagedTools) (hlimit : tool.HasLimit args limit)
    (hpos : 1 ≤ limit) (hlists : tool.lists args ctx = some lists)
    (hshort : ∀ p ∈ lists, p.2.length < 2 ^ 63)
    (hfits : tool.signed = true → ∀ p ∈ lists, min offset p.2.length + limit < 2 ^ 63) :
    AnswersPage (tool.handler (atOffset args offset) ctx) ⟨offset, limit⟩ lists := by
  have hpage := parsePage_atOffset offset hlimit hpos
  rw [← lists_atOffset offset htool] at hlists
  simp only [ToolEnv.pagedTools, List.mem_cons, List.not_mem_nil, or_false] at htool
  rcases htool with rfl | rfl | rfl | rfl | rfl | rfl | rfl | rfl | rfl | rfl | rfl
  · exact handleSearchFunctions_page hlists hpage
  · exact handleEdgeList_page hlists hpage
  · exact handleEdgeList_page hlists hpage
  · exact handleGetClassHierarchy_page hlists hpage
  · exact handleListEntryPoints_page hlists hpage
  · exact handleListCallbackSites_page hlists hpage
  · exact handleListConcurrencyEntryPoints_page hlists hpage
  · exact handleListChannels_page hlists hpage
  · exact handleQueryChannel_page hlists hpage
  · exact handleQueryChannelsForFunction_page hlists hpage
  · exact handleAnalyzeDeadCode_page hlists deadCodeArgs_offset (deadCodeArgs_limit hlimit) hpos
      (hfits rfl) hshort

/-- The dead-code tool is the one that takes its sums in `int64_t`. -/
theorem eq_deadCode_of_signed (htool : tool ∈ env.pagedTools) (hsigned : tool.signed = true) :
    tool.handler = handleAnalyzeDeadCode env.ll env.deadSort ∧
      tool.lists = (fun args ctx => deadCodeLists env.ll args ctx env.deadSort) ∧
      tool.defaultLimit = 500 := by
  simp only [ToolEnv.pagedTools, List.mem_cons, List.not_mem_nil, or_false] at htool
  rcases htool with rfl | rfl | rfl | rfl | rfl | rfl | rfl | rfl | rfl | rfl | rfl
  all_goals first
    | exact ⟨rfl, rfl, rfl⟩
    | cases hsigned

/-- **Pages tile the lists** of every tool, as long as the dead-code tool can add the limit to
the length of either of its lists. -/
theorem pagedTools_iff (htool : tool ∈ env.pagedTools) (hlimit : tool.HasLimit args limit)
    (hpos : 1 ≤ limit) (hmax : limit < 2 ^ 63) (hlists : tool.lists args ctx = some lists)
    (hshort : ∀ p ∈ lists, p.2.length < 2 ^ 63) :
    tool.PagesTile args ctx limit lists ↔
      (tool.signed = true → ∀ p ∈ lists, p.2.length + limit < 2 ^ 63) := by
  constructor
  · -- the page at the end of the list that is too long for the limit
    intro htile hsigned p hp
    by_contra hsum
    obtain ⟨hhandler, hlists', hdefault⟩ := eq_deadCode_of_signed htool hsigned
    obtain ⟨obj, hobj, hpage⟩ := htile.page p.2.length (hshort p hp)
    have hlistsAt := (lists_atOffset p.2.length htool).trans hlists
    rw [hlists'] at hlistsAt
    rw [PagedTool.HasLimit, hdefault] at hlimit
    obtain ⟨obj', hobj', htruncated⟩ := handleAnalyzeDeadCode_overflow hlistsAt hp hmax
      (deadCodeArgs_limit hlimit) deadCodeArgs_offset (hshort p hp) (by omega)
    rw [hhandler, hobj', Option.some_inj, Json.object.injEq] at hobj
    subst hobj
    obtain ⟨q, hq, hlt⟩ := of_decide_eq_true
      (Option.some_inj.mp (hpage.truncated.symm.trans htruncated))
    have hq' := hshort q hq
    dsimp only at hlt
    omega
  · intro hsums
    have hfits : ∀ offset : ℕ, tool.signed = true →
        ∀ p ∈ lists, min offset p.2.length + limit < 2 ^ 63 := fun offset hsigned p hp => by
      have hp' := hsums hsigned p hp
      omega
    have hpages : ∀ offset : ℕ, offset < 2 ^ 63 →
        AnswersPage (tool.handler (atOffset args offset) ctx) ⟨offset, limit⟩ lists :=
      fun offset _ => answersPage_atOffset htool hlimit hpos hlists hshort (hfits offset)
    refine ⟨fun offset _ => ⟨fun p hp => ?_, ?_⟩, hpages, ?_⟩
    · split_ifs with hsigned
      · exact hfits offset hsigned p hp
      · have hp' := hshort p hp
        rw [Page.last, Page.first]
        dsimp only
        omega
    · rintro ⟨p, hp, hlt⟩
      exact hlt.trans (hshort p hp)
    · obtain ⟨pages, hfollows, hshown⟩ := follows_of_pageOf
        (fun offset => tool.handler (atOffset args offset) ctx) hpos hshort hpages 0
        (by norm_num)
      exact ⟨pages, hfollows, fun p hp => (hshown p hp).trans List.drop_zero⟩

end Tools

/-! ### The largest limit -/

/-- One function, and no entry point: it is dead. -/
def deadContext : ToolContext where
  graph := ({} : CallGraph).registerAll CallGraph.functionInTu
  cfIndex := {}
  entryPoints := []

/-- The dead-code tool. -/
def deadCodeTool : PagedTool where
  name := text "analyze_dead_code"
  handler := handleAnalyzeDeadCode utf8Llvm stableEnv.deadSort
  lists args ctx := deadCodeLists utf8Llvm args ctx stableEnv.deadSort
  defaultLimit := 500
  signed := true

theorem mem_deadCodeTool : deadCodeTool ∈ stableEnv.pagedTools :=
  List.mem_of_getElem? (i := 10) rfl

theorem deadContext_lengths {limit : ℤ} (h : limit = 1 ∨ limit = 2 ^ 63 - 1) :
    ∃ dead optimistic : List Json,
      deadCodeTool.lists [(text "limit", .integer limit)] deadContext =
        some [(text "dead", dead), (text "optimisticallyAlive", optimistic)] ∧
      dead.length = 1 ∧ optimistic.length = 0 := by
  refine ⟨_, _, rfl, ?_, ?_⟩
  · rw [List.length_map]
    rcases h with rfl | rfl <;> decide +kernel
  · rw [List.length_map]
    rcases h with rfl | rfl <;> decide +kernel

/-- One record a page is in range. -/
theorem pagedTools_iff_deadCode :
    ∃ lists, deadCodeTool.lists [(text "limit", .integer 1)] deadContext = some lists ∧
      deadCodeTool.PagesTile [(text "limit", .integer 1)] deadContext 1 lists := by
  obtain ⟨dead, optimistic, hlists, hdead, hoptimistic⟩ := deadContext_lengths (.inl rfl)
  have hlimit : deadCodeTool.HasLimit [(text "limit", .integer 1)] 1 := .inl (by decide +kernel)
  refine ⟨_, hlists, (pagedTools_iff mem_deadCodeTool hlimit le_rfl (by norm_num) hlists
    ?_).mpr fun _ => ?_⟩
  · simp [hdead, hoptimistic]
  · simp [hdead, hoptimistic]

/-- With the largest limit, the page behind the only record claims that records remain. -/
theorem analyzeDeadCode_page_overflows :
    ¬ ∀ (env : ToolEnv) (tool : PagedTool), tool ∈ env.pagedTools →
      ∀ (args : JsonObject) (ctx : ToolContext) (limit : ℕ) (lists : List (Bytes × List Json)),
        tool.HasLimit args limit → 1 ≤ limit → limit < 2 ^ 63 → tool.lists args ctx = some lists →
        (∀ p ∈ lists, p.2.length < 2 ^ 63) → tool.PagesTile args ctx limit lists := by
  intro hall
  obtain ⟨dead, optimistic, hlists, hdead, hoptimistic⟩ := deadContext_lengths (.inr rfl)
  have htile := hall stableEnv deadCodeTool mem_deadCodeTool _ deadContext (2 ^ 63 - 1) _
    (.inl (by decide +kernel)) (by norm_num) (by norm_num) hlists
    (by simp [hdead, hoptimistic])
  obtain ⟨obj, hobj, hpage⟩ := htile.page 1 (by norm_num)
  have htruncated : ((deadCodeTool.handler (atOffset [(text "limit", .integer (2 ^ 63 - 1))]
      ((1 : ℕ) : ℤ)) deadContext).bind Json.getAsObject).bind (fun o => JsonObject.getBoolean o (text "truncated")) =
      some true := by
    decide +kernel
  have hfalse := hpage.truncated
  rw [hobj] at htruncated
  rw [show JsonObject.getBoolean obj (text "truncated") = some true from htruncated] at hfalse
  simp [hdead, hoptimistic] at hfalse

end Vycor
