import Vycor.ControlFlow.Readable
import Vycor.Export.Shard
import Vycor.Lib.Routing
import Vycor.Query.Messages

/-!
# Shards of the TUs

`toShardsArray` deals the records of the whole-graph shard out to the TUs: a record goes to the
first TU that did not fail and has the path of its file, an entity of another file to the first
TU that recorded the function, and the rest to the first TU that did not fail. A raw call and
its raw context go together and are numbered anew.

The TUs that recorded a function are looked up by path. A TU that failed is among them where
another TU of the same path did not fail, and if it comes first the entities of the function go
to the shard of the failed TU (`toShardsArray_partition_iff`).
-/

namespace Vycor

/-! ### Owners -/

section Owners

variable (ll : Llvm) (g : CallGraph) (snap : SnapshotMeta)

/-- The path of a TU. -/
def tuPathOf (i : ℕ) : Bytes := ((snap.files[i]?).map (·.path)).getD []

/-- A TU did not fail. -/
def tuHealthy (i : ℕ) : Bool := shardOutcome snap i ≠ text "failed"

/-- `tuByPath`: the first TU of a path that did not fail. -/
def tuByPath (path : Bytes) : Option ℕ :=
  (List.range snap.files.length).find? fun i => tuHealthy snap i ∧ tuPathOf snap i = path

/-- `firstHealthy`. -/
def firstHealthy : ℕ := ((List.range snap.files.length).find? (tuHealthy snap)).getD snap.files.length

/-- `tuNodes_` of a path lists a node of a usr. -/
def tuRecords (path usr : Bytes) : Bool :=
  (g.findText ll path).any fun tu => (g.tuNodes tu).any fun usrId =>
    (g.nodes usrId).any fun n => n.exportUsr = usr

/-- `usrOwnerTu`: the first TU whose path lists the usr, among those whose path a TU has that did
not fail. -/
def usrOwnerTu (usr : Bytes) : Option ℕ :=
  (List.range snap.files.length).find? fun i =>
    (tuByPath snap (tuPathOf snap i)).isSome ∧ tuRecords ll g (tuPathOf snap i) usr

/-- The owner of a raw call or a channel site, by its file. -/
def fileOwner (obj : JsonObject) : ℕ :=
  (tuByPath snap ((JsonObject.getString obj (text "file")).getD [])).getD (firstHealthy snap)

/-- The owner of an entity. -/
def entityOwner (obj : JsonObject) : ℕ :=
  match tuByPath snap ((JsonObject.getString obj (text "file")).getD []) with
  | some i => i
  | none =>
    (usrOwnerTu ll g snap ((JsonObject.getString obj (text "usr")).getD [])).getD (firstHealthy snap)

/-- An entity in the shard of its owner. -/
def placeEntity (obj : JsonObject) : Json :=
  .object (JsonObject.set obj (text "module") (.string (tuPathOf snap (entityOwner ll g snap obj))))

/-- A raw call and its raw context, at their place in the shard of their owner. -/
def placeCall (contextId : ℕ) (p : JsonObject × JsonObject) : Json × Json :=
  (.object (JsonObject.set
      (JsonObject.set p.1 (text "module") (.string (tuPathOf snap (fileOwner snap p.1))))
      (text "context_id") (.count contextId)),
    .object (JsonObject.set p.2 (text "context_id") (.count contextId)))

end Owners

/-! ### The shards -/

/-- The values of an array member. -/
def valuesOf (shard : JsonObject) (key : Bytes) : List Json := (JsonObject.getArray shard key).getD []

/-- The objects of an array member. -/
def objectsOf (shard : JsonObject) (key : Bytes) : List JsonObject :=
  (valuesOf shard key).filterMap Json.getAsObject

/-- Two values that are objects. -/
def objectPair (p : Json × Json) : Option (JsonObject × JsonObject) :=
  p.1.getAsObject.bind fun call => p.2.getAsObject.map fun context => (call, context)

/-- The raw calls with their raw contexts, which stand at the same positions. -/
def callPairs (shard : JsonObject) : List (JsonObject × JsonObject) :=
  let calls := valuesOf shard (text "raw_calls")
  let contexts := valuesOf shard (text "raw_contexts")
  if calls.length = contexts.length then (calls.zip contexts).filterMap objectPair else []

/-- An object member. -/
def objectMember (shard : JsonObject) (key : Bytes) : JsonObject :=
  ((JsonObject.get shard key).bind Json.getAsObject).getD []

/-- `tuEntities`, `tuCalls` with `tuContexts`, and `tuChannels`. -/
structure TuArrays where
  entities : ℕ → List Json := fun _ => []
  calls : ℕ → List (Json × Json) := fun _ => []
  channels : ℕ → List Json := fun _ => []

/-- The records of the whole-graph shard, dealt out. -/
def tuArrays (ll : Llvm) (g : CallGraph) (snap : SnapshotMeta) (full : JsonObject) : TuArrays :=
  if firstHealthy snap < snap.files.length then
    { entities := routeBy (entityOwner ll g snap) (fun _ => placeEntity ll g snap)
        (objectsOf full (text "entities"))
      calls := routeBy (fun p => fileOwner snap p.1) (placeCall snap) (callPairs full)
      channels := routeBy (fileOwner snap) (fun _ => .object) (objectsOf full (text "channels")) }
  else {}

/-- The shard of a TU. -/
def tuShard (snap : SnapshotMeta) (full : JsonObject) (arrays : TuArrays) (i : ℕ) : JsonObject :=
  headMembers (tuPathOf snap i) (shardFingerprint snap i (tuPathOf snap i)) (shardOutcome snap i)
      (shardErrorDetail snap i) ++
    [(text "entities", .array (arrays.entities i)),
      (text "raw_calls", .array ((arrays.calls i).map (·.1))),
      (text "raw_contexts", .array ((arrays.calls i).map (·.2)))] ++ emptyMembers ++
    (if i = firstHealthy snap then
      [(text "lock_acquisitions", .object (objectMember full (text "lock_acquisitions"))),
        (text "function_returns", .object (objectMember full (text "function_returns")))]
    else [(text "lock_acquisitions", .object []), (text "function_returns", .object [])]) ++
    [(text "await_under_threading_lock", .array []), (text "channels", .array (arrays.channels i))]

/-- `toShardsArray`. -/
def toShardsArray (ll : Llvm) (nodeSort : Sorter nodeUsrBefore) (returnOrder : List SId)
    (g : CallGraph) (cf : ControlFlowIndex) (channels : ChannelIndex) (snap : SnapshotMeta) :
    Option (List JsonObject) :=
  (toShardObject ll nodeSort returnOrder g cf channels snap).map fun full =>
    if snap.files.length ≤ 1 then [full]
    else (List.range snap.files.length).map (tuShard snap full (tuArrays ll g snap full))

/-! ### What the shards hold together -/

/-- A value, some members aside. -/
def without (names : List Bytes) : Json → Json
  | .object o => .object (o.filter fun m => m.1 ∉ names)
  | v => v

/-- The number of a raw call or a raw context. -/
def contextIdOf (v : Json) : Option ℤ :=
  v.getAsObject.bind fun o => JsonObject.getInteger o (text "context_id")

/-- The members of raw calls that a shard sets anew. -/
def callNames : List Bytes := [text "module", text "context_id"]

/-- The shards hold the records of the whole-graph shard, each once, none in the shard of a TU
that failed, and in each the raw call and the raw context of an edge stand at one position, which
is their number. -/
structure PartitionsWhole (g : CallGraph) (snap : SnapshotMeta) (edges : List ExportedEdge)
    (full : JsonObject) (shards : List JsonObject) : Prop where
  entities : ((shards.flatMap fun s => valuesOf s (text "entities")).map
    (without [text "module"])).Perm ((valuesOf full (text "entities")).map (without [text "module"]))
  calls : ((shards.flatMap fun s => valuesOf s (text "raw_calls")).map (without callNames)).Perm
    ((valuesOf full (text "raw_calls")).map (without callNames))
  contexts : ((shards.flatMap fun s => valuesOf s (text "raw_contexts")).map
    (without callNames)).Perm ((valuesOf full (text "raw_contexts")).map (without callNames))
  channels : (shards.flatMap fun s => valuesOf s (text "channels")).Perm
    (valuesOf full (text "channels"))
  failed : ∀ i s, shards[i]? = some s → tuHealthy snap i = false →
    (∀ key ∈ [text "entities", text "raw_calls", text "raw_contexts", text "channels"],
      valuesOf s key = []) ∧
      objectMember s (text "lock_acquisitions") = [] ∧ objectMember s (text "function_returns") = []
  paired : ∀ s ∈ shards,
    (valuesOf s (text "raw_calls")).length = (valuesOf s (text "raw_contexts")).length ∧
      ∀ (j : ℕ) call context, (valuesOf s (text "raw_calls"))[j]? = some call →
        (valuesOf s (text "raw_contexts"))[j]? = some context →
        contextIdOf call = some (j : ℤ) ∧ contextIdOf context = some (j : ℤ) ∧
          ∃ k e, edges[k]? = some e ∧
            without callNames call = without callNames (callToJson g (moduleFileOf snap) k e) ∧
            without callNames context = without callNames (contextToJson g (moduleFileOf snap) k e)

section Members

variable {snap : SnapshotMeta} {full : JsonObject} {arrays : TuArrays} {i : ℕ}

theorem valuesOf_tuShard (snap : SnapshotMeta) (full : JsonObject) (arrays : TuArrays) (i : ℕ) :
    valuesOf (tuShard snap full arrays i) (text "entities") = arrays.entities i ∧
    valuesOf (tuShard snap full arrays i) (text "raw_calls") = (arrays.calls i).map (·.1) ∧
    valuesOf (tuShard snap full arrays i) (text "raw_contexts") = (arrays.calls i).map (·.2) ∧
    valuesOf (tuShard snap full arrays i) (text "channels") = arrays.channels i := by
  rw [tuShard]
  split_ifs <;>
    simp [valuesOf, JsonObject.getArray, JsonObject.get, headMembers, emptyMembers]

theorem objectMember_tuShard (hi : i ≠ firstHealthy snap) :
    objectMember (tuShard snap full arrays i) (text "lock_acquisitions") = [] ∧
      objectMember (tuShard snap full arrays i) (text "function_returns") = [] := by
  rw [tuShard, if_neg hi]
  simp [objectMember, JsonObject.get, headMembers, emptyMembers, Json.getAsObject]

variable {ll : Llvm} {nodeSort : Sorter nodeUsrBefore} {returnOrder : List SId} {g : CallGraph}
  {cf : ControlFlowIndex} {channels : ChannelIndex} {edges : List ExportedEdge}

/-- The arrays of the whole-graph shard. -/
theorem valuesOf_full (hedges : exportedEdges ll g cf = some edges)
    (hfull : toShardObject ll nodeSort returnOrder g cf channels snap = some full) :
    valuesOf full (text "entities") =
        (entities g (moduleFileOf snap) nodeSort snap.entryPoints).map makeEntityNodeJson ∧
      valuesOf full (text "raw_calls") = edges.mapIdx (callToJson g (moduleFileOf snap)) ∧
      valuesOf full (text "raw_contexts") = edges.mapIdx (contextToJson g (moduleFileOf snap)) ∧
      valuesOf full (text "channels") =
        channels.allSites.map (exportedSiteToJson (moduleFileOf snap)) := by
  rw [toShardObject, hedges] at hfull
  simp only [Option.bind_eq_bind, Option.bind_some, Option.some.injEq] at hfull
  rw [← hfull, wholeHeader]
  cases snap.files.head? <;>
    simp [valuesOf, JsonObject.getArray, JsonObject.get, headMembers, emptyMembers]

end Members

/-! ### Reads of the control-flow index -/

namespace ControlFlowIndex

variable {ll : Llvm} {cf : ControlFlowIndex}

/-- Where all contexts at some positions are read, so is the first that passes a test. -/
theorem exists_firstStored {positions : List ℕ} {out : List CallSiteContext}
    (h : cf.collect ll (fun _ => true) positions = some out) (keep : StoredContext → Bool) :
    ∃ found, cf.firstStored keep positions = some found ∧
      ∃ c, cf.materializeFound ll found = some c := by
  induction positions generalizing out with
  | nil => exact ⟨none, rfl, none, rfl⟩
  | cons pos rest ih =>
    rw [collect] at h
    cases hse : cf.storedAt pos with
    | none => rw [hse] at h; cases h
    | some se =>
      rw [hse] at h
      simp only [Option.bind_eq_bind, Option.bind_some, Bool.and_true] at h
      rw [firstStored, hse]
      simp only [Option.bind_eq_bind, Option.bind_some]
      cases hlive : se.live with
      | false =>
        rw [hlive] at h
        exact ih h
      | true =>
        rw [hlive, if_pos rfl] at h
        cases hctx : cf.materialize ll se with
        | none => rw [hctx] at h; cases h
        | some ctx =>
          rw [hctx] at h
          simp only [Option.bind_some] at h
          cases hmore : cf.collect ll (fun _ => true) rest with
          | none => rw [hmore] at h; cases h
          | some more =>
            cases hkeep : keep se with
            | false => exact ih hmore
            | true => exact ⟨some se, rfl, some ctx, by rw [materializeFound, hctx]; rfl⟩

theorem Held.exists_findId (ll : Llvm) (h : cf.Held) (raw : Bytes) : ∃ id, cf.findId ll raw = some id := by
  rw [findId]
  obtain ⟨seen, hinv⟩ | ⟨m, hm, hatt⟩ := h
  · rw [hinv.resident]
    exact ⟨_, rfl⟩
  · rw [hm]
    exact hatt.exists_searchId _ _ _ le_rfl

/-- The lookups at a site always answer. -/
theorem Held.exists_contextAtSite (ll : Llvm) (h : cf.Held) (site : Bytes) :
    ∃ c, cf.contextAtSite ll site = some c := by
  obtain ⟨contexts, hcontexts⟩ := h.exists_contextsAtSite ll site
  obtain ⟨positions, hpos, hcollect⟩ := Option.bind_eq_some_iff.mp hcontexts
  obtain ⟨found, hfound, c, hc⟩ := exists_firstStored hcollect fun _ => true
  refine ⟨c, ?_⟩
  simp only [contextAtSite, hpos, hfound, hc, Option.bind_eq_bind, Option.bind_some]

theorem Held.exists_contextAtSiteOf (ll : Llvm) (h : cf.Held) (site caller : Bytes) :
    ∃ c, cf.contextAtSiteOf ll site caller = some c := by
  obtain ⟨id, hid⟩ := h.exists_findId ll caller
  rw [contextAtSiteOf, hid]
  cases id with
  | none => exact ⟨none, rfl⟩
  | some callerId =>
    obtain ⟨contexts, hcontexts⟩ := h.exists_contextsAtSite ll site
    obtain ⟨positions, hpos, hcollect⟩ := Option.bind_eq_some_iff.mp hcontexts
    obtain ⟨found, hfound, c, hc⟩ := exists_firstStored hcollect
      fun se => se.caller = callerId || se.callerDisplay = callerId
    refine ⟨c, ?_⟩
    simp only [hpos, hfound, hc, Option.bind_eq_bind, Option.bind_some]

end ControlFlowIndex

section Exported

variable {ll : Llvm} {g : CallGraph} {cf : ControlFlowIndex}

theorem exists_contextOfEdge (hcf : cf.Held) (se : StoredEdge) :
    ∃ c, contextOfEdge ll g cf se = some c := by
  obtain ⟨c₁, h₁⟩ := hcf.exists_contextForEdge ll (g.interner.resolve se.callSite)
    (g.interner.resolve se.caller) (g.interner.resolve se.callee)
  obtain ⟨c₂, h₂⟩ := hcf.exists_contextAtSiteOf ll (g.interner.resolve se.callSite)
    (g.interner.resolve se.caller)
  obtain ⟨c₃, h₃⟩ := hcf.exists_contextAtSite ll (g.interner.resolve se.callSite)
  simp only [contextOfEdge, h₁, h₂, h₃, Option.bind_eq_bind, Option.bind_some]
  cases c₁ with
  | some c => exact ⟨_, rfl⟩
  | none =>
    cases c₂ with
    | some c => exact ⟨_, rfl⟩
    | none => exact ⟨_, rfl⟩

theorem exists_visit (ll : Llvm) (g : CallGraph) (hcf : cf.Held) (st : EdgeExport) (se : StoredEdge) :
    ∃ st', st.visit ll g cf se = some st' := by
  rw [EdgeExport.visit]
  split_ifs
  · exact ⟨_, rfl⟩
  · obtain ⟨c, hc⟩ : ∃ c, contextOfEdge ll g cf se = some c := exists_contextOfEdge hcf se
    simp only [hc, Option.bind_eq_bind, Option.bind_some]
    split_ifs <;> exact ⟨_, rfl⟩

/-- The loop over the edges ends. -/
theorem exists_exportedEdges (ll : Llvm) (g : CallGraph) (hcf : cf.Held) : ∃ edges, exportedEdges ll g cf = some edges := by
  have hloop : ∀ (l : List StoredEdge) (st : EdgeExport),
      ∃ st', l.foldlM (EdgeExport.visit ll g cf) st = some st' := by
    intro l
    induction l with
    | nil => exact fun st => ⟨st, rfl⟩
    | cons se l ih =>
      intro st
      obtain ⟨st₁, h₁⟩ := exists_visit ll g hcf st se
      obtain ⟨st₂, h₂⟩ := ih st₁
      exact ⟨st₂, by rw [List.foldlM_cons, h₁]; exact h₂⟩
  obtain ⟨st, hst⟩ := hloop g.edges {}
  exact ⟨st.out, by rw [exportedEdges, hst]; rfl⟩

end Exported

/-! ### Who owns a record -/

section Owner

variable {ll : Llvm} {g : CallGraph} {snap : SnapshotMeta}

/-- Some TU did not fail. -/
def SomeHealthy (snap : SnapshotMeta) : Prop := ∃ i < snap.files.length, tuHealthy snap i = true

theorem tuByPath_eq_some {path : Bytes} {i : ℕ} (h : tuByPath snap path = some i) :
    i < snap.files.length ∧ tuHealthy snap i = true ∧ tuPathOf snap i = path := by
  rw [tuByPath, List.find?_range_eq_some, decide_eq_true_eq, List.mem_range] at h
  exact ⟨h.2.1, h.1.1, h.1.2⟩

theorem tuByPath_isSome {path : Bytes} : (tuByPath snap path).isSome = true ↔
    ∃ i < snap.files.length, tuHealthy snap i = true ∧ tuPathOf snap i = path := by
  simp [tuByPath, List.find?_isSome]

theorem firstHealthy_spec (h : SomeHealthy snap) :
    firstHealthy snap < snap.files.length ∧ tuHealthy snap (firstHealthy snap) = true := by
  obtain ⟨i, hi, hhealthy⟩ := h
  have hsome : ((List.range snap.files.length).find? (tuHealthy snap)).isSome = true :=
    List.find?_isSome.mpr ⟨i, List.mem_range.mpr hi, hhealthy⟩
  obtain ⟨k, hk⟩ := Option.isSome_iff_exists.mp hsome
  rw [firstHealthy, hk, Option.getD_some]
  exact ⟨List.mem_range.mp (List.mem_of_find?_eq_some hk), List.find?_some hk⟩

/-- The owner of a raw call or a channel site did not fail. -/
theorem fileOwner_spec (h : SomeHealthy snap) (obj : JsonObject) :
    fileOwner snap obj < snap.files.length ∧ tuHealthy snap (fileOwner snap obj) = true := by
  rw [fileOwner]
  cases hpath : tuByPath snap ((JsonObject.getString obj (text "file")).getD []) with
  | none => exact firstHealthy_spec h
  | some i => exact ⟨(tuByPath_eq_some hpath).1, (tuByPath_eq_some hpath).2.1⟩

/-- The TU at a position lists a function: its path, which a TU has that did not fail, recorded
it. -/
def Lists (ll : Llvm) (g : CallGraph) (snap : SnapshotMeta) (usr : Bytes) (i : ℕ) : Prop :=
  (∃ j < snap.files.length, tuHealthy snap j = true ∧ tuPathOf snap j = tuPathOf snap i) ∧
    tuRecords ll g (tuPathOf snap i) usr = true

theorem usrOwnerTu_eq_some_iff {usr : Bytes} {i : ℕ} : usrOwnerTu ll g snap usr = some i ↔
    i < snap.files.length ∧ Lists ll g snap usr i ∧ ∀ k < i, ¬ Lists ll g snap usr k := by
  have hlists : ∀ k, ((tuByPath snap (tuPathOf snap k)).isSome = true ∧
      tuRecords ll g (tuPathOf snap k) usr = true) ↔ Lists ll g snap usr k := fun k => by
    rw [Lists, tuByPath_isSome]
  rw [usrOwnerTu, List.find?_range_eq_some, decide_eq_true_eq, hlists, List.mem_range]
  refine ⟨fun h => ⟨h.2.1, h.1, fun k hk hk' => ?_⟩, fun h => ⟨h.2.1, h.1, fun k hk => ?_⟩⟩
  · have hfind := h.2.2 k hk
    rw [decide_eq_true ((hlists k).mpr hk')] at hfind
    cases hfind
  · rw [decide_eq_false fun hk' => h.2.2 k hk ((hlists k).mp hk')]
    rfl

theorem entityOwner_lt (ll : Llvm) (g : CallGraph) (h : SomeHealthy snap) (obj : JsonObject) :
    entityOwner ll g snap obj < snap.files.length := by
  rw [entityOwner]
  split
  · rename_i i hi
    exact (tuByPath_eq_some hi).1
  · cases husr : usrOwnerTu ll g snap ((JsonObject.getString obj (text "usr")).getD []) with
    | none => exact (firstHealthy_spec h).1
    | some i => exact (usrOwnerTu_eq_some_iff.mp husr).1

/-- The first TU that lists the function of an entity of no healthy TU's file did not fail. -/
def ListedByHealthy (ll : Llvm) (g : CallGraph) (snap : SnapshotMeta) (e : EntityNode) : Prop :=
  (∀ j < snap.files.length, tuHealthy snap j = true → tuPathOf snap j ≠ e.file) →
    ∀ i < snap.files.length, Lists ll g snap e.usr i → (∀ k < i, ¬ Lists ll g snap e.usr k) →
      tuHealthy snap i = true

/-- The members of an entity. -/
def entityObject (e : EntityNode) : JsonObject := (makeEntityNodeJson e).getAsObject.getD []

theorem makeEntityNodeJson_eq (e : EntityNode) : makeEntityNodeJson e = .object (entityObject e) :=
  rfl

theorem entityOwner_healthy_iff (h : SomeHealthy snap) (e : EntityNode) :
    tuHealthy snap (entityOwner ll g snap (entityObject e)) = true ↔
      ListedByHealthy ll g snap e := by
  have hfile : (JsonObject.getString (entityObject e) (text "file")).getD [] = e.file := by
    simp [entityObject, makeEntityNodeJson, JsonObject.getString, JsonObject.get, Json.getAsObject,
      Json.getAsString]
  have husr : (JsonObject.getString (entityObject e) (text "usr")).getD [] = e.usr := by
    simp [entityObject, makeEntityNodeJson, JsonObject.getString, JsonObject.get, Json.getAsObject,
      Json.getAsString]
  rw [entityOwner, hfile, husr]
  cases hpath : tuByPath snap e.file with
  | some i =>
    obtain ⟨hi, hhealthy, heq⟩ := tuByPath_eq_some hpath
    exact iff_of_true hhealthy fun hnone => absurd heq (hnone i hi hhealthy)
  | none =>
    have hnone : ∀ j < snap.files.length, tuHealthy snap j = true → tuPathOf snap j ≠ e.file := by
      intro j hj hhealthy heq
      have hsome := tuByPath_isSome.mpr ⟨j, hj, hhealthy, heq⟩
      rw [hpath] at hsome
      cases hsome
    cases hlist : usrOwnerTu ll g snap e.usr with
    | none =>
      refine iff_of_true (firstHealthy_spec h).2 fun _ i hi hi' hfirst => ?_
      rw [usrOwnerTu_eq_some_iff.mpr ⟨hi, hi', hfirst⟩] at hlist
      cases hlist
    | some i =>
      obtain ⟨hi, hi', hfirst⟩ := usrOwnerTu_eq_some_iff.mp hlist
      refine ⟨fun hhealthy _ k hk hk' hkfirst => ?_, fun hlisted => hlisted hnone i hi hi' hfirst⟩
      rw [usrOwnerTu_eq_some_iff.mpr ⟨hk, hk', hkfirst⟩, Option.some_inj] at hlist
      rw [hlist]
      exact hhealthy

end Owner

/-! ### The partition -/

section Partition

variable {ll : Llvm} {g : CallGraph} {snap : SnapshotMeta} {full : JsonObject}
  {edges : List ExportedEdge}

theorem without_set {names : List Bytes} {key : Bytes} (hkey : key ∈ names) (obj : JsonObject)
    (v : Json) : without names (.object (JsonObject.set obj key v)) = without names (.object obj) := by
  rw [without, without, JsonObject.set, List.filter_append, List.filter_filter,
    List.filter_cons_of_neg (by simpa using hkey), List.filter_nil, List.append_nil]
  congr 1
  refine List.filter_congr fun m _ => ?_
  by_cases hm : m.1 = key
  · simp [hm, hkey]
  · simp [hm]

theorem without_placeCall (contextId : ℕ) (p : JsonObject × JsonObject) :
    without callNames (placeCall snap contextId p).1 = without callNames (.object p.1) ∧
      without callNames (placeCall snap contextId p).2 = without callNames (.object p.2) := by
  have hmodule : text "module" ∈ callNames := by simp [callNames]
  have hid : text "context_id" ∈ callNames := by simp [callNames]
  exact ⟨(without_set hid _ _).trans (without_set hmodule _ _), without_set hid _ _⟩

theorem contextIdOf_placeCall (contextId : ℕ) (p : JsonObject × JsonObject) :
    contextIdOf (placeCall snap contextId p).1 = some (contextId : ℤ) ∧
      contextIdOf (placeCall snap contextId p).2 = some (contextId : ℤ) := by
  have hset : ∀ obj : JsonObject, contextIdOf (.object (JsonObject.set obj (text "context_id")
      (.count contextId))) = some (contextId : ℤ) := by
    intro obj
    rw [contextIdOf, Json.getAsObject, Option.bind_some, JsonObject.getInteger,
      JsonObject.get_set_self]
    rfl
  exact ⟨hset _, hset _⟩

/-- Objects are kept when an array is read as objects. -/
theorem map_object_filterMap {l : List Json} (h : ∀ v ∈ l, ∃ o, v = .object o) :
    (l.filterMap Json.getAsObject).map Json.object = l := by
  induction l with
  | nil => rfl
  | cons v l ih =>
    obtain ⟨o, rfl⟩ := h v List.mem_cons_self
    rw [List.filterMap_cons_some (by rfl : Json.getAsObject (.object o) = some o), List.map_cons,
      ih fun v hv => h v (.tail _ hv)]

/-- The members of a raw call and of its raw context. -/
def callObjects (g : CallGraph) (moduleFile : Bytes) (k : ℕ) (e : ExportedEdge) :
    JsonObject × JsonObject :=
  ((callToJson g moduleFile k e).getAsObject.getD [],
    (contextToJson g moduleFile k e).getAsObject.getD [])

theorem filterMap_objectPair {α : Type*} (l : List α) (f : ℕ → α → JsonObject × JsonObject) :
    ((l.mapIdx fun k a => Json.object (f k a).1).zip
      (l.mapIdx fun k a => Json.object (f k a).2)).filterMap objectPair = l.mapIdx f := by
  induction l generalizing f with
  | nil => rfl
  | cons a l ih =>
    rw [List.mapIdx_cons, List.mapIdx_cons, List.mapIdx_cons, List.zip_cons_cons,
      List.filterMap_cons_some (by rfl), ih fun k => f (k + 1)]

/-- The whole-graph shard has a pair for every exported edge. -/
theorem callPairs_full {moduleFile : Bytes}
    (hcalls : valuesOf full (text "raw_calls") = edges.mapIdx (callToJson g moduleFile))
    (hcontexts : valuesOf full (text "raw_contexts") = edges.mapIdx (contextToJson g moduleFile)) :
    callPairs full = edges.mapIdx (callObjects g moduleFile) := by
  rw [callPairs, hcalls, hcontexts, if_pos (by rw [List.length_mapIdx, List.length_mapIdx])]
  exact filterMap_objectPair edges (callObjects g moduleFile)

variable {nodeSort : Sorter nodeUsrBefore} {returnOrder : List SId} {cf : ControlFlowIndex}
  {channels : ChannelIndex}

/-- What all parts of the partition need: the arrays of the whole-graph shard, read as objects. -/
structure WholeShard (ll : Llvm) (g : CallGraph) (snap : SnapshotMeta) (full : JsonObject)
    (edges : List ExportedEdge) (nodes : List EntityNode) (sites : List JsonObject) : Prop where
  entities : objectsOf full (text "entities") = nodes.map entityObject ∧
    valuesOf full (text "entities") = nodes.map fun e => .object (entityObject e)
  calls : valuesOf full (text "raw_calls") = edges.mapIdx (callToJson g (moduleFileOf snap))
  contexts : valuesOf full (text "raw_contexts") = edges.mapIdx (contextToJson g (moduleFileOf snap))
  channels : objectsOf full (text "channels") = sites ∧
    valuesOf full (text "channels") = sites.map .object

theorem wholeShard (hedges : exportedEdges ll g cf = some edges)
    (hfull : toShardObject ll nodeSort returnOrder g cf channels snap = some full) :
    ∃ sites, WholeShard ll g snap full edges
      (entities g (moduleFileOf snap) nodeSort snap.entryPoints) sites := by
  obtain ⟨hentities, hcalls, hcontexts, hchannels⟩ := valuesOf_full hedges hfull
  have hobjects : ∀ v ∈ valuesOf full (text "channels"), ∃ o, v = .object o := by
    intro v hv
    rw [hchannels] at hv
    obtain ⟨site, -, rfl⟩ := List.mem_map.mp hv
    exact ⟨_, rfl⟩
  refine ⟨objectsOf full (text "channels"), ⟨?_, ?_⟩, hcalls, hcontexts, rfl,
    (map_object_filterMap hobjects).symm⟩
  · have hobject : Json.getAsObject ∘ makeEntityNodeJson = some ∘ entityObject := rfl
    rw [objectsOf, hentities, List.filterMap_map, hobject, List.filterMap_eq_map]
  · exact hentities

/-- The shards of all TUs. -/
def allShards (ll : Llvm) (g : CallGraph) (snap : SnapshotMeta) (full : JsonObject) :
    List JsonObject :=
  (List.range snap.files.length).map (tuShard snap full (tuArrays ll g snap full))

variable {nodes : List EntityNode} {sites : List JsonObject}

theorem tuArrays_eq (h : SomeHealthy snap) : tuArrays ll g snap full =
    { entities := routeBy (entityOwner ll g snap) (fun _ => placeEntity ll g snap)
        (objectsOf full (text "entities"))
      calls := routeBy (fun p => fileOwner snap p.1) (placeCall snap) (callPairs full)
      channels := routeBy (fileOwner snap) (fun _ => .object) (objectsOf full (text "channels")) } :=
  if_pos (firstHealthy_spec h).1

/-- The values of a member of all shards. -/
theorem flatMap_allShards {key : Bytes} {lists : ℕ → List Json}
    (hlists : ∀ i, valuesOf (tuShard snap full (tuArrays ll g snap full) i) key = lists i) :
    ((allShards ll g snap full).flatMap fun s => valuesOf s key) =
      (List.range snap.files.length).flatMap lists := by
  rw [allShards, List.flatMap_map]
  exact List.flatMap_congr fun i _ => hlists i

theorem perm_entities (hw : WholeShard ll g snap full edges nodes sites) (h : SomeHealthy snap) :
    (((allShards ll g snap full).flatMap fun s => valuesOf s (text "entities")).map
      (without [text "module"])).Perm
        ((valuesOf full (text "entities")).map (without [text "module"])) := by
  rw [flatMap_allShards fun i => (valuesOf_tuShard _ _ _ i).1, tuArrays_eq h, hw.entities.2]
  have hperm := perm_flatMap_routeBy (entityOwner ll g snap) (fun _ => placeEntity ll g snap)
    (objectsOf full (text "entities")) List.nodup_range
    (fun obj _ => List.mem_range.mpr (entityOwner_lt ll g h obj))
    fun _ obj => without_set (List.mem_singleton_self (text "module")) obj _
  rwa [hw.entities.1, List.map_map] at hperm ⊢

theorem map_mapIdx {α β γ : Type*} (f : ℕ → α → β) (k : β → γ) (l : List α) :
    (l.mapIdx f).map k = l.mapIdx fun n a => k (f n a) := by
  refine List.ext_getElem (by simp) fun n hn hn' => ?_
  rw [List.getElem_map, List.getElem_mapIdx, List.getElem_mapIdx]

/-- A part of the pairs in all shards is that part of the pairs in the whole-graph shard. -/
theorem perm_calls (hw : WholeShard ll g snap full edges nodes sites) (h : SomeHealthy snap)
    {key : Bytes} {part : Json × Json → Json} {part' : JsonObject × JsonObject → JsonObject}
    (hpart : ∀ i, valuesOf (tuShard snap full (tuArrays ll g snap full) i) key =
      ((tuArrays ll g snap full).calls i).map part)
    (hplace : ∀ n p, without callNames (part (placeCall snap n p)) =
      without callNames (.object (part' p)))
    (hwhole : valuesOf full key =
      edges.mapIdx fun k e => .object (part' (callObjects g (moduleFileOf snap) k e))) :
    (((allShards ll g snap full).flatMap fun s => valuesOf s key).map (without callNames)).Perm
      ((valuesOf full key).map (without callNames)) := by
  have hperm := perm_flatMap_routeBy (fun p : JsonObject × JsonObject => fileOwner snap p.1)
    (placeCall snap) (callPairs full) List.nodup_range
    (fun p _ => List.mem_range.mpr (fileOwner_spec h p.1).1)
    (f := fun q => without callNames (part q))
    (h := fun p => without callNames (.object (part' p))) hplace
  have hlists : ∀ i, valuesOf (tuShard snap full (tuArrays ll g snap full) i) key =
      (routeBy (fun p : JsonObject × JsonObject => fileOwner snap p.1) (placeCall snap)
        (callPairs full) i).map part := fun i => by rw [hpart, tuArrays_eq h]
  rw [flatMap_allShards hlists, ← List.map_flatMap, List.map_map, hwhole, map_mapIdx,
    callPairs_full hw.calls hw.contexts]
  rw [callPairs_full hw.calls hw.contexts, map_mapIdx] at hperm
  exact hperm

theorem perm_channels (hw : WholeShard ll g snap full edges nodes sites) (h : SomeHealthy snap) :
    ((allShards ll g snap full).flatMap fun s => valuesOf s (text "channels")).Perm
      (valuesOf full (text "channels")) := by
  rw [flatMap_allShards fun i => (valuesOf_tuShard _ _ _ i).2.2.2, tuArrays_eq h, hw.channels.2,
    hw.channels.1]
  have hperm := perm_flatMap_routeBy (fileOwner snap) (fun _ => Json.object) sites List.nodup_range
    (fun obj _ => List.mem_range.mpr (fileOwner_spec h obj).1) (f := id) fun _ _ => rfl
  rwa [List.map_id] at hperm

/-- In a shard the raw calls and the raw contexts are numbered alike, and come in pairs from the
exported edges. -/
theorem paired_tuShard (hw : WholeShard ll g snap full edges nodes sites) (h : SomeHealthy snap)
    (i : ℕ) {j : ℕ} {call context : Json}
    (hcall : (((tuArrays ll g snap full).calls i).map (·.1))[j]? = some call)
    (hcontext : (((tuArrays ll g snap full).calls i).map (·.2))[j]? = some context) :
    contextIdOf call = some (j : ℤ) ∧ contextIdOf context = some (j : ℤ) ∧
      ∃ k e, edges[k]? = some e ∧
        without callNames call = without callNames (callToJson g (moduleFileOf snap) k e) ∧
        without callNames context = without callNames (contextToJson g (moduleFileOf snap) k e) := by
  rw [tuArrays_eq h] at hcall hcontext
  dsimp only at hcall hcontext
  rw [List.getElem?_map, routeBy_apply, List.getElem?_mapIdx, Option.map_map,
    Option.map_eq_some_iff] at hcall hcontext
  obtain ⟨p, hp, rfl⟩ := hcall
  obtain ⟨q, hq, rfl⟩ := hcontext
  obtain rfl := Option.some_inj.mp (hp.symm.trans hq)
  refine ⟨(contextIdOf_placeCall j p).1, (contextIdOf_placeCall j p).2, ?_⟩
  have hmem := List.mem_of_mem_filter (List.mem_of_getElem? hp)
  rw [callPairs_full hw.calls hw.contexts] at hmem
  obtain ⟨k, hk⟩ := List.getElem?_of_mem hmem
  rw [List.getElem?_mapIdx, Option.map_eq_some_iff] at hk
  obtain ⟨e, he, rfl⟩ := hk
  exact ⟨k, e, he, (without_placeCall j _).1, (without_placeCall j _).2⟩

/-- **The shards of the TUs partition the whole-graph shard** if and only if for every entity that
is of no healthy TU's file the first TU that lists its function did not fail. -/
theorem partitionsWhole_iff (hw : WholeShard ll g snap full edges nodes sites)
    (h : SomeHealthy snap) : PartitionsWhole g snap edges full (allShards ll g snap full) ↔
      ∀ e ∈ nodes, ListedByHealthy ll g snap e := by
  have hshard : ∀ {i s}, (allShards ll g snap full)[i]? = some s →
      i < snap.files.length ∧ s = tuShard snap full (tuArrays ll g snap full) i := by
    intro i s hs
    rw [allShards, List.getElem?_map, Option.map_eq_some_iff] at hs
    obtain ⟨k, hk, rfl⟩ := hs
    obtain ⟨hi, hk⟩ := List.getElem?_eq_some_iff.mp hk
    rw [List.getElem_range] at hk
    subst hk
    exact ⟨by simpa using hi, rfl⟩
  constructor
  · -- an entity of a TU that failed would stand in its shard
    intro hpart e he
    rw [← entityOwner_healthy_iff h]
    by_contra hfailed
    rw [Bool.not_eq_true] at hfailed
    have hlt := entityOwner_lt ll g h (entityObject e)
    have hget : (allShards ll g snap full)[entityOwner ll g snap (entityObject e)]? =
        some (tuShard snap full (tuArrays ll g snap full)
          (entityOwner ll g snap (entityObject e))) := by
      rw [allShards, List.getElem?_map, List.getElem?_range hlt]
      rfl
    have hnil := (hpart.failed _ _ hget hfailed).1 (text "entities") (by simp)
    rw [(valuesOf_tuShard _ _ _ _).1, tuArrays_eq h] at hnil
    dsimp only at hnil
    rw [routeBy_apply, List.mapIdx_eq_nil_iff, List.filter_eq_nil_iff, hw.entities.1] at hnil
    exact hnil _ (List.mem_map_of_mem he) (decide_eq_true rfl)
  · intro hlisted
    have hfileOwner : ∀ {i}, tuHealthy snap i = false → ∀ obj, fileOwner snap obj ≠ i :=
      fun hfailed obj heq => by
        rw [← heq, (fileOwner_spec h obj).2] at hfailed
        cases hfailed
    refine ⟨perm_entities hw h, ?_, ?_, perm_channels hw h, fun i s hs hfailed => ?_, fun s hs => ?_⟩
    · exact perm_calls hw h (fun i => (valuesOf_tuShard _ _ _ i).2.1) (fun n p => (without_placeCall n p).1)
        hw.calls
    · exact perm_calls hw h (fun i => (valuesOf_tuShard _ _ _ i).2.2.1) (fun n p => (without_placeCall n p).2)
        hw.contexts
    · obtain ⟨-, rfl⟩ := hshard hs
      have hentities : (tuArrays ll g snap full).entities i = [] := by
        rw [tuArrays_eq h]
        dsimp only
        refine routeBy_eq_nil _ _ _ fun obj hobj heq => ?_
        rw [hw.entities.1] at hobj
        obtain ⟨e, he, rfl⟩ := List.mem_map.mp hobj
        rw [← heq, (entityOwner_healthy_iff h e).mpr (hlisted e he)] at hfailed
        cases hfailed
      have hcalls : (tuArrays ll g snap full).calls i = [] := by
        rw [tuArrays_eq h]
        dsimp only
        exact routeBy_eq_nil _ _ _ fun p _ => hfileOwner hfailed p.1
      have hchannels : (tuArrays ll g snap full).channels i = [] := by
        rw [tuArrays_eq h]
        dsimp only
        exact routeBy_eq_nil _ _ _ fun obj _ => hfileOwner hfailed obj
      obtain ⟨h₁, h₂, h₃, h₄⟩ := valuesOf_tuShard snap full (tuArrays ll g snap full) i
      rw [hentities] at h₁
      rw [hcalls, List.map_nil] at h₂ h₃
      rw [hchannels] at h₄
      refine ⟨?_, objectMember_tuShard fun heq => ?_⟩
      · simp only [List.forall_mem_cons, List.not_mem_nil, false_implies, implies_true, and_true]
        exact ⟨h₁, h₂, h₃, h₄⟩
      · rw [heq, (firstHealthy_spec h).2] at hfailed
        cases hfailed
    · obtain ⟨i, -, rfl⟩ := List.mem_map.mp hs
      rw [(valuesOf_tuShard _ _ _ _).2.1, (valuesOf_tuShard _ _ _ _).2.2.1]
      exact ⟨by rw [List.length_map, List.length_map], fun j call context =>
        paired_tuShard hw h i⟩

end Partition

/-- The whole-graph shard and the shards of the TUs are built. -/
theorem exists_allShards (ll : Llvm) (nodeSort : Sorter nodeUsrBefore) (returnOrder : List SId)
    (g : CallGraph) {cf : ControlFlowIndex} (hcf : cf.Held) (channels : ChannelIndex)
    {snap : SnapshotMeta} (hfiles : 2 ≤ snap.files.length) :
    ∃ edges full sites, exportedEdges ll g cf = some edges ∧
      toShardObject ll nodeSort returnOrder g cf channels snap = some full ∧
      toShardsArray ll nodeSort returnOrder g cf channels snap = some (allShards ll g snap full) ∧
      WholeShard ll g snap full edges
        (entities g (moduleFileOf snap) nodeSort snap.entryPoints) sites := by
  obtain ⟨edges, hedges⟩ := exists_exportedEdges ll g hcf
  obtain ⟨full, hfull⟩ : ∃ full,
      toShardObject ll nodeSort returnOrder g cf channels snap = some full := by
    rw [toShardObject, hedges]
    exact ⟨_, rfl⟩
  obtain ⟨sites, hw⟩ := wholeShard hedges hfull
  refine ⟨edges, full, sites, hedges, hfull, ?_, hw⟩
  rw [toShardsArray, hfull, Option.map_some, if_neg (by omega)]
  rfl

/-- **The per-TU export partitions the whole graph** if and only if for every entity that is of no
healthy TU's file the first TU that lists its function did not fail. -/
theorem toShardsArray_partition_iff (ll : Llvm) (nodeSort : Sorter nodeUsrBefore)
    (returnOrder : List SId) (g : CallGraph) {cf : ControlFlowIndex} (hcf : cf.Held)
    (channels : ChannelIndex) {snap : SnapshotMeta} (hfiles : 2 ≤ snap.files.length)
    (h : SomeHealthy snap) :
    ∃ edges full shards, exportedEdges ll g cf = some edges ∧
      toShardObject ll nodeSort returnOrder g cf channels snap = some full ∧
      toShardsArray ll nodeSort returnOrder g cf channels snap = some shards ∧
      (PartitionsWhole g snap edges full shards ↔
        ∀ e ∈ entities g (moduleFileOf snap) nodeSort snap.entryPoints,
          ListedByHealthy ll g snap e) := by
  obtain ⟨edges, full, sites, hedges, hfull, hshards, hw⟩ :=
    exists_allShards ll nodeSort returnOrder g hcf channels hfiles
  exact ⟨edges, full, _, hedges, hfull, hshards, partitionsWhole_iff hw h⟩

/-- A function of a header, recorded by a TU. -/
def headerGraph : CallGraph := ({} : CallGraph).registerAll
  [.node { qualifiedName := text "f", usr := text "f", file := text "h.h", line := 1 } (text "a.cpp")]

/-- Two TUs, the first of which failed. -/
def twoTus (first second : Bytes) : SnapshotMeta where
  files := [{ path := first }, { path := second }]
  outcomes := [{ status := .crashed }, { status := .indexed }]

/-- The stable sort of the nodes. -/
def stableNodeSort : Sorter nodeUsrBefore := .byKey (·.2.usr) fun _ _ => decide_eq_decide.mpr Iff.rfl

theorem someHealthy_twoTus (first second : Bytes) : SomeHealthy (twoTus first second) :=
  ⟨1, by simp [twoTus], by simp [tuHealthy, shardOutcome, twoTus, mapParseOutcome]⟩

theorem held_empty : ({} : ControlFlowIndex).Held := .inl ⟨_, ControlFlowIndex.Inv.empty⟩

/-- Where the TU that failed has a path of its own, its shard is empty. -/
theorem toShardsArray_partition_iff_twoTus :
    ∃ edges full shards, toShardsArray utf8Llvm stableNodeSort [] headerGraph {} {}
        (twoTus (text "b.cpp") (text "a.cpp")) = some shards ∧
      PartitionsWhole headerGraph (twoTus (text "b.cpp") (text "a.cpp")) edges full shards := by
  obtain ⟨edges, full, shards, -, -, hshards, hiff⟩ := toShardsArray_partition_iff utf8Llvm
    stableNodeSort [] headerGraph held_empty {} le_rfl
    (someHealthy_twoTus (text "b.cpp") (text "a.cpp"))
  refine ⟨edges, full, shards, hshards, hiff.mpr fun e _ _ i hi hlists _ => ?_⟩
  obtain ⟨⟨j, hj, hhealthy, hpath⟩, -⟩ := hlists
  -- only the second TU did not fail, and its path is not that of the first
  have hfailed : tuHealthy (twoTus (text "b.cpp") (text "a.cpp")) 0 = false := by decide +kernel
  obtain rfl : j = 1 := by
    rcases Nat.lt_or_ge j 1 with hj0 | hj1
    · obtain rfl : j = 0 := by omega
      rw [hfailed] at hhealthy
      cases hhealthy
    · exact le_antisymm (Nat.le_of_lt_succ hj) hj1
  obtain rfl : i = 1 := by
    rcases Nat.lt_or_ge i 1 with hi0 | hi1
    · obtain rfl : i = 0 := by omega
      exact absurd hpath (by decide +kernel)
    · exact le_antisymm (Nat.le_of_lt_succ hi) hi1
  exact hhealthy

/-- Where both TUs have one path, the function of the header stands in the shard of the one that
failed. -/
theorem toShardsArray_fills_failed :
    ¬ ∀ (ll : Llvm) (nodeSort : Sorter nodeUsrBefore) (returnOrder : List SId) (g : CallGraph)
      (cf : ControlFlowIndex) (channels : ChannelIndex) (snap : SnapshotMeta), cf.Held →
      2 ≤ snap.files.length → SomeHealthy snap → ∀ edges full shards,
        exportedEdges ll g cf = some edges →
        toShardObject ll nodeSort returnOrder g cf channels snap = some full →
        toShardsArray ll nodeSort returnOrder g cf channels snap = some shards →
        PartitionsWhole g snap edges full shards := by
  intro hall
  obtain ⟨edges, full, sites, hedges, hfull, hshards, hw⟩ := exists_allShards utf8Llvm stableNodeSort
    [] headerGraph held_empty {} (le_refl (twoTus (text "a.cpp") (text "a.cpp")).files.length)
  have hpart := hall utf8Llvm stableNodeSort [] headerGraph {} {} _ held_empty le_rfl
    (someHealthy_twoTus _ _) edges full _ hedges hfull hshards
  have hnode : (0, ({ qualifiedName := text "f", usr := text "f", file := text "h.h", line := 1 } :
      CallGraphNode)) ∈ stableNodeSort.run (nodeEntries headerGraph) :=
    (stableNodeSort.perm _).mem_iff.mpr (by decide +kernel)
  have hlisted := (partitionsWhole_iff hw (someHealthy_twoTus _ _)).mp hpart _
    (List.mem_append_left _ (List.mem_map_of_mem hnode))
  have hfirst : Lists utf8Llvm headerGraph (twoTus (text "a.cpp") (text "a.cpp")) (text "f") 0 :=
    ⟨⟨1, by decide, by decide +kernel, rfl⟩, by decide +kernel⟩
  have hfailed : tuHealthy (twoTus (text "a.cpp") (text "a.cpp")) 0 = false := by decide +kernel
  have hfile : ∀ j < (twoTus (text "a.cpp") (text "a.cpp")).files.length,
      tuHealthy (twoTus (text "a.cpp") (text "a.cpp")) j = true →
        tuPathOf (twoTus (text "a.cpp") (text "a.cpp")) j ≠ text "h.h" := by
    decide +kernel
  have hhealthy := hlisted hfile 0 (by decide) hfirst fun k hk => absurd hk (Nat.not_lt_zero k)
  rw [hfailed] at hhealthy
  cases hhealthy

end Vycor
