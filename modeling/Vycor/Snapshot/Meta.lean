import Vycor.Text.Utf8

/-!
# Snapshot metadata and file stamps

`SnapshotMeta` with the operations a warm start rests on: `recordDependencies` folds the
stamps the parses of all TUs saw into one table with a single stamp for each path,
`markUnstableStamps` voids the stamps a bake cannot vouch for, and `dirtyTUs` compares what
is recorded with the files as they are now.

The file system at the moment of a call is an argument: a partial function from paths to
(nanosecond mtime, size), undefined where `stat` fails. Dependency ids are natural numbers;
the source stores them in 32 bits.
-/

namespace Vycor

/-! ### Data -/

/-- `FileStamp`. -/
structure FileStamp where
  path : Bytes := []
  mtimeNs : UInt64 := 0
  size : UInt64 := 0
  deriving DecidableEq, Repr, Inhabited

/-- `TuStatus`. -/
inductive TuStatus where
  | indexed | partially | crashed | poisoned | skipped | timedOut
  deriving DecidableEq, Repr, Inhabited

/-- `TuOutcome`. -/
structure TuOutcome where
  status : TuStatus := .skipped
  detail : Bytes := []
  deriving DecidableEq, Repr, Inhabited

/-- `ChannelTypeSpec`. -/
structure ChannelTypeSpec where
  qualifiedTypeName : Bytes
  produceMethods : List Bytes
  consumeMethods : List Bytes
  category : Bytes
  deriving DecidableEq, Repr, Inhabited

/-- `IndexProvenance`. -/
structure IndexProvenance where
  analyzer : Bytes := []
  toolchain : Bytes := []
  environment : Bytes := []
  bakeStartNs : UInt64 := 0
  deriving DecidableEq, Repr, Inhabited

/-- `SnapshotMeta`. -/
structure SnapshotMeta where
  collapsePaths : List Bytes := []
  lockAllowlist : List Bytes := []
  lockBuiltins : Bool := true
  channelTypes : List ChannelTypeSpec := []
  files : List FileStamp := []
  deps : List FileStamp := []
  tuDeps : List (List ℕ) := []
  entryPoints : List Bytes := []
  fingerprints : List Bytes := []
  outcomes : List TuOutcome := []
  provenance : IndexProvenance := {}
  deriving DecidableEq, Repr, Inhabited

/-- `TuDependencies`: for each TU the files its parse opened, with the stamps it saw. -/
abbrev TuDependencies := Bytes → Option (List FileStamp)

/-- The stamps `deps` lists for a TU; none where the TU is absent. -/
def TuDependencies.of (deps : TuDependencies) (tu : Bytes) : List FileStamp := (deps tu).getD []

/-- What `stat` answers for each path: mtime in nanoseconds and size. -/
abbrev FileSystem := Bytes → Option (UInt64 × UInt64)

/-! ### Stamps -/

/-- `kNsPerSecond`. -/
def kNsPerSecond : UInt64 := 1000000000

/-- The stamp `stampFiles` takes of one path. A file that cannot be stat'ed gets zeros. -/
def stampFile (fs : FileSystem) (path : Bytes) : FileStamp :=
  match fs path with
  | none => { path := path }
  | some (mtimeNs, size) => { path := path, mtimeNs := mtimeNs, size := size }

/-- `SnapshotIO::stampFiles`. -/
def stampFiles (fs : FileSystem) (files : List Bytes) : List FileStamp := files.map (stampFile fs)

/-- `sameParsedVersion`. -/
def sameParsedVersion (recorded now : FileStamp) : Bool :=
  recorded.mtimeNs != 0 && recorded.size == now.size &&
    recorded.mtimeNs == now.mtimeNs - now.mtimeNs % kNsPerSecond

/-- `sameTuVersion`. -/
def sameTuVersion (recorded now : FileStamp) : Bool := recorded.mtimeNs != 0 && recorded == now

/-- The stamp `markUnstableStamps` leaves for one file. -/
def markUnstable (bakeStartNs : UInt64) (fs : FileStamp) : FileStamp :=
  if fs.mtimeNs != 0 && bakeStartNs - bakeStartNs % kNsPerSecond ≤ fs.mtimeNs then
    { fs with mtimeNs := 0 }
  else fs

namespace SnapshotMeta

/-- `SnapshotIO::markUnstableStamps`: the meta and the number of stamps marked. -/
def markUnstableStamps (m : SnapshotMeta) (bakeStartNs : UInt64) : SnapshotMeta × ℕ :=
  let marked := (m.files ++ m.deps).countP fun fs => markUnstable bakeStartNs fs != fs
  ({ m with files := m.files.map (markUnstable bakeStartNs)
            deps := m.deps.map (markUnstable bakeStartNs) }, marked)

/-! ### The dependency table -/

/-- The table `recordDependencies` builds: `meta.deps` and the local map `ids`. -/
structure DepTable where
  deps : List FileStamp := []
  ids : Bytes → Option ℕ := fun _ => none

/-- One dependency of one TU: the id its path has or gets. Of two stamps of one path the
table keeps the older. -/
def DepTable.record (t : DepTable) (d : FileStamp) : DepTable × ℕ :=
  match t.ids d.path with
  | none =>
    ({ deps := t.deps ++ [d], ids := Function.update t.ids d.path (some t.deps.length) },
      t.deps.length)
  | some id =>
    let kept := t.deps.getD id default
    ({ t with deps := if d.mtimeNs < kept.mtimeNs then t.deps.set id d else t.deps }, id)

/-- The dependencies of one TU, in order. -/
def DepTable.recordTU (t : DepTable) : List FileStamp → DepTable × List ℕ
  | [] => (t, [])
  | d :: ds =>
    let first := t.record d
    let rest := first.1.recordTU ds
    (rest.1, first.2 :: rest.2)

/-- The TUs of the meta, in order. -/
def DepTable.recordTUs (t : DepTable) (deps : TuDependencies) :
    List FileStamp → DepTable × List (List ℕ)
  | [] => (t, [])
  | f :: fs =>
    let first := t.recordTU (deps.of f.path)
    let rest := first.1.recordTUs deps fs
    (rest.1, first.2 :: rest.2)

/-- `SnapshotIO::recordDependencies`. -/
def recordDependencies (m : SnapshotMeta) (deps : TuDependencies) : SnapshotMeta :=
  let built := ({} : DepTable).recordTUs deps m.files
  { m with deps := built.1.deps, tuDeps := built.2 }

/-- The local map `recorded` of `dirtyTUs`: a path listed twice counts at its last
position. -/
def recordedIndex (files : List FileStamp) : Bytes → Option ℕ :=
  files.zipIdx.foldl (fun recorded f => Function.update recorded f.1.path (some f.2))
    fun _ => none

/-- `SnapshotIO::dependenciesOf`. -/
def dependenciesOf (m : SnapshotMeta) : TuDependencies :=
  (m.files.zip m.tuDeps).foldl (fun out f =>
    Function.update out f.1.path (some (out.of f.1.path ++ f.2.filterMap (m.deps[·]?))))
    fun _ => none

/-- `SnapshotIO::outcomesOf`. -/
def outcomesOf (m : SnapshotMeta) : Bytes → Option TuOutcome :=
  (m.files.zip m.outcomes).foldl (fun out f => Function.update out f.1.path (some f.2))
    fun _ => none

/-- `SnapshotIO::recordOutcomes`. -/
def recordOutcomes (m : SnapshotMeta) (outcomes : Bytes → Option TuOutcome) : SnapshotMeta :=
  { m with outcomes := m.files.map fun f =>
      (outcomes f.path).getD { status := .skipped, detail := text "no outcome recorded" } }

end SnapshotMeta

/-! ### The dirty check -/

/-- `SnapshotIO::DirtyReason`. -/
inductive DirtyReason where
  | clean | stamp | inputs | deps | retry
  deriving DecidableEq, Repr, Inhabited

/-- `SnapshotIO::DirtyReport`. -/
structure DirtyReport where
  viaInputs : ℕ := 0
  viaDeps : ℕ := 0
  retried : ℕ := 0
  reasons : List DirtyReason := []
  detail : List Bytes := []
  deriving DecidableEq, Repr, Inhabited

/-- The lambda `stampText` of `dirtyTUs`. -/
def stampText (fs : FileStamp) : Bytes :=
  if fs.mtimeNs = 0 then text "unstable or absent"
  else text "mtime " ++ text (toString (fs.mtimeNs / kNsPerSecond).toNat) ++ text "." ++
    text (toString (fs.mtimeNs % kNsPerSecond).toNat) ++ text " size " ++ text (toString fs.size.toNat)

namespace SnapshotMeta

/-- Whether the dependency with an id changed since its stamp was recorded. Ids outside the
table are skipped. -/
def depChanged (m : SnapshotMeta) (fs : FileSystem) (id : ℕ) : Bool :=
  match m.deps[id]? with
  | none => false
  | some d => !sameParsedVersion d (stampFile fs d.path)

/-- The body of the loop of `dirtyTUs`: the first reason that applies to the TU at position
`i`, with its evidence. -/
def dirtyReason (m : SnapshotMeta) (fingerprints : Option (List Bytes)) (fs : FileSystem)
    (i : ℕ) (current : FileStamp) : DirtyReason × Bytes :=
  match recordedIndex m.files current.path with
  | none => (.stamp, text "not recorded in the index")
  | some r =>
    let own := m.files.getD r default
    if !sameTuVersion own current then
      (.stamp, text "own stamp changed (recorded " ++ stampText own ++ text ", now " ++
        stampText current ++ text ")")
    else if fingerprints.any fun fps =>
        -- A fingerprint the meta does not carry counts as changed.
        m.fingerprints.length ≤ r || fps.length ≤ i || m.fingerprints[r]? != fps[i]? then
      (.inputs, text "compile inputs changed (fingerprint differs)")
    else
      match (m.tuDeps.getD r []).find? (m.depChanged fs) with
      | some id =>
        let d := m.deps.getD id default
        (.deps, text "opened file changed: " ++ d.path ++ text " (recorded " ++ stampText d ++
          text ", now " ++ stampText (stampFile fs d.path) ++ text ")")
      | none =>
        -- Retry anything but a clean parse; a meta with no outcome column has nothing to retry.
        if !m.outcomes.isEmpty && (m.outcomes[r]?).map TuOutcome.status != some .indexed then
          (.retry, text "last parse did not end indexed")
        else (.clean, [])

/-- `SnapshotIO::dirtyTUs`: one flag for each stamp of `current`, and the report. -/
def dirtyTUs (m : SnapshotMeta) (current : List FileStamp) (fingerprints : Option (List Bytes))
    (fs : FileSystem) : List Bool × DirtyReport :=
  let why := current.mapIdx (m.dirtyReason fingerprints fs)
  (why.map fun w => w.1 != .clean,
    { viaInputs := why.countP fun w => w.1 == .inputs
      viaDeps := why.countP fun w => w.1 == .deps
      retried := why.countP fun w => w.1 == .retry
      reasons := why.map Prod.fst
      detail := why.map Prod.snd })

end SnapshotMeta

end Vycor
