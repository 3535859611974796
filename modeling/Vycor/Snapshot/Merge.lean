import Vycor.Snapshot.File

/-!
# Merging snapshots

`SnapshotIO::merge` loads the inputs one after the other. A TU that an earlier input lists is
taken out of the indexes of a later one before these are absorbed, and an input that lists no
new TU is passed over, so every TU comes from the first input that lists it.
-/

namespace Vycor

/-- `SnapshotIO::MergeOptions`. -/
structure MergeOptions where
  entryPoints : List Bytes := []
  allowMismatch : Bool := false
  deriving DecidableEq, Repr

/-- The orders in which one round walks the hash maps: those of the shard that `absorb` reads,
and the TUs of the channels in `removeTUs` and in `absorb`. -/
structure MergeOrders where
  graph : CallGraph → CallGraph.IterOrder
  released : List Bytes
  absorbed : List Bytes

namespace Snapshot

/-- The locals of `merge`; `configSource` is set when `haveConfig` is. -/
structure MergeState where
  out : SnapshotData := { graph := {}, cfIndex := {}, channels := {}, info := {}, summary := {},
                          loaded := ⟨true, true, true⟩ }
  configSource : Option Bytes := none
  firstShard : Bool := true
  seenTus : List Bytes := []
  seenEntryPoints : List Bytes := []
  mergedDeps : TuDependencies := fun _ => none
  mergedOutcomes : Bytes → Option TuOutcome := fun _ => none
  maxBakeStartNs : UInt64 := 0

/-- What an input says of a TU. -/
structure TuRow where
  stamp : FileStamp
  fingerprint : Bytes
  outcome : Option TuOutcome
  deps : Option (List FileStamp)

/-- `m[t] = it->second`, where something was found. -/
def putEntry {α : Type} (m : Bytes → Option α) (t : Bytes) : Option α → Bytes → Option α
  | none => m
  | some a => Function.update m t (some a)

/-- The rows of the files of a meta, in order. -/
def rowsOf (info : SnapshotMeta) : List TuRow :=
  info.files.zipIdx.map fun f =>
    { stamp := f.1
      fingerprint := (info.fingerprints[f.2]?).getD []
      outcome := info.outcomesOf f.1.path
      deps := info.dependenciesOf f.1.path }

namespace MergeState

variable (s : MergeState)

/-- The build configuration is the one of the first input: `cfgMatches`. -/
def cfgMatches (info : SnapshotMeta) : Bool :=
  info.collapsePaths == s.out.info.collapsePaths &&
    info.lockAllowlist == s.out.info.lockAllowlist &&
    info.lockBuiltins == s.out.info.lockBuiltins &&
    info.channelTypes == s.out.info.channelTypes

/-- `envMatches`. -/
def envMatches (info : SnapshotMeta) : Bool :=
  s.out.info.provenance.environment.isEmpty || info.provenance.environment.isEmpty ||
    info.provenance.environment == s.out.info.provenance.environment

/-- A text of the provenance that no input gave so far. -/
def backfill (old new : Bytes) : Bytes := if old.isEmpty then new else old

/-- The check of the configuration, and what is taken over from it. -/
def configure (options : MergeOptions) (path : Bytes) (info : SnapshotMeta) :
    Except Bytes MergeState :=
  match s.configSource with
  | none => .ok { s with
      out := { s.out with info := { s.out.info with
        collapsePaths := info.collapsePaths
        lockAllowlist := info.lockAllowlist
        lockBuiltins := info.lockBuiltins
        channelTypes := info.channelTypes
        provenance := info.provenance } }
      maxBakeStartNs := info.provenance.bakeStartNs
      configSource := some path }
  | some source =>
    let mine := s.out.info.provenance
    if !s.cfgMatches info && !options.allowMismatch then
      .error (text "build configuration mismatch between '" ++ source ++ text "' and '" ++ path ++
        text "' (pass --allow-mismatch to force)")
    else if !s.envMatches info && !options.allowMismatch then
      .error (text "bake environment mismatch between '" ++ source ++ text "' (" ++
        mine.environment ++ text ") and '" ++ path ++ text "' (" ++ info.provenance.environment ++
        text ") (pass --allow-mismatch to force)")
    else .ok { s with
      out := { s.out with info := { s.out.info with
        provenance := { mine with
          analyzer := backfill mine.analyzer info.provenance.analyzer
          toolchain := backfill mine.toolchain info.provenance.toolchain
          environment := backfill mine.environment info.provenance.environment } } }
      maxBakeStartNs := max s.maxBakeStartNs info.provenance.bakeStartNs }

/-- The loops over entry points. -/
def addEntryPoints (entryPoints : List Bytes) : MergeState :=
  let walk := admitNew s.seenEntryPoints (entryPoints.map fun ep => (ep, ep))
  { s with
    seenEntryPoints := walk.1
    out := { s.out with info := { s.out.info with
      entryPoints := s.out.info.entryPoints ++ walk.2 } } }

/-- A file that no input listed before. -/
def addRow (row : TuRow) : MergeState :=
  { s with
    seenTus := row.stamp.path :: s.seenTus
    mergedDeps := putEntry s.mergedDeps row.stamp.path row.deps
    mergedOutcomes := putEntry s.mergedOutcomes row.stamp.path row.outcome
    out := { s.out with info := { s.out.info with
      files := s.out.info.files ++ [row.stamp]
      fingerprints := s.out.info.fingerprints ++ [row.fingerprint] } } }

/-- The loop over the files: the state, `overlapping` and `newTusInShard`. -/
def addRows : MergeState → List TuRow → MergeState × List Bytes × ℕ
  | s, [] => (s, [], 0)
  | s, row :: rest =>
    if row.stamp.path ∈ s.seenTus then
      let rows := s.addRows rest
      (rows.1, row.stamp.path :: rows.2.1, rows.2.2)
    else
      let rows := (s.addRow row).addRows rest
      (rows.1, rows.2.1, rows.2.2 + 1)

/-- The indexes of a shard without the TUs in `overlapping`. -/
def stripped (ord : MergeOrders) (snap : SnapshotData) (overlapping : List Bytes) : SnapshotData :=
  if overlapping.isEmpty then snap
  else { snap with
    graph := (snap.graph.removeTUs overlapping).1
    cfIndex := (snap.cfIndex.removeTUs overlapping).1
    channels := (snap.channels.removeTUs ord.released overlapping).1 }

/-- The indexes of a shard are moved or absorbed. -/
def addIndexes (ord : MergeOrders) (snap : SnapshotData) (overlapping : List Bytes) : MergeState :=
  let shard := stripped ord snap overlapping
  if s.firstShard && overlapping.isEmpty then
    { s with
      firstShard := false
      out := { s.out with
        graph := shard.graph, cfIndex := shard.cfIndex, channels := shard.channels } }
  else
    { s with
      firstShard := false
      out := { s.out with
        graph := s.out.graph.absorb shard.graph (ord.graph shard.graph)
        cfIndex := s.out.cfIndex.absorb shard.cfIndex
        channels := s.out.channels.absorb shard.channels ord.absorbed } }

/-- One round of the loop, of an input that was loaded. -/
def addInput (options : MergeOptions) (ord : MergeOrders) (path : Bytes) (snap : SnapshotData) :
    Except Bytes MergeState := do
  let s ← s.configure options path snap.info
  let s := if options.entryPoints.isEmpty then s.addEntryPoints snap.info.entryPoints else s
  let rows := s.addRows (rowsOf snap.info)
  -- every TU was merged before
  if !snap.info.files.isEmpty && rows.2.2 == 0 then .ok rows.1
  else .ok (rows.1.addIndexes ord snap rows.2.1)

/-- What follows the loop. -/
def finish (options : MergeOptions) : SnapshotData :=
  let info := s.out.info.recordDependencies s.mergedDeps
  let info := if info.files.isEmpty then info else info.recordOutcomes s.mergedOutcomes
  let s := { s with out := { s.out with info := info } }
  let s := if options.entryPoints.isEmpty then s else s.addEntryPoints options.entryPoints
  { s.out with
    info := { s.out.info with
      provenance := { s.out.info.provenance with bakeStartNs := s.maxBakeStartNs } }
    summary := {
      nodes := UInt64.ofNat s.out.graph.records.nodes.length
      edges := UInt64.ofNat s.out.graph.liveEdgeCount
      callSites := UInt64.ofNat s.out.cfIndex.liveCount
      channelSites := UInt64.ofNat s.out.channels.liveCount }
    loaded := ⟨true, true, true⟩ }

end MergeState

section Merge

variable (ll : Llvm) (readFile : Bytes → Except Bytes Bytes) (orders : ℕ → MergeOrders)

/-- The load of one input. `readFile` is what opening the file gives. -/
def loadInput (path : Bytes) : Except Bytes SnapshotData :=
  match readFile path >>= fun buf => load ll buf .changes ⟨true, true, true⟩ with
  | .ok snap => .ok snap
  | .error why => .error (text "cannot load '" ++ path ++ text "': " ++
      if why.isEmpty then text "missing or unreadable file" else why)

/-- The loop over the inputs. -/
def mergeLoop (options : MergeOptions) : ℕ → List Bytes → MergeState → Except Bytes MergeState
  | _, [], s => .ok s
  | i, path :: rest, s => do
    let snap ← loadInput ll readFile path
    let s ← s.addInput options (orders i) path snap
    mergeLoop options (i + 1) rest s

/-- `SnapshotIO::merge`. -/
def merge (inputPaths : List Bytes) (options : MergeOptions) : Except Bytes SnapshotData :=
  if inputPaths.isEmpty then .error (text "no input snapshots specified")
  else do
    let s ← mergeLoop ll readFile orders options 0 inputPaths {}
    return s.finish options

end Merge

end Snapshot

end Vycor
