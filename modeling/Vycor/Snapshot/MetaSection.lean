import Vycor.Snapshot.Meta
import Vycor.Snapshot.Records

/-!
# The meta section of a snapshot

`emitMeta` writes the columns of the TUs as long as the list of files, whatever their length
is; `readMeta` reads them back (`codes_meta`). The paths of the meta are raw bytes.
-/

namespace Vycor

open Reader

/-! ### Writing -/

/-- A list of strings. -/
def putStrList (l : List Bytes) : Bytes := putCounted putStr l

/-- `emitChannelTypeSpec`. -/
def emitChannelTypeSpec (spec : ChannelTypeSpec) : Bytes :=
  [putStr spec.qualifiedTypeName, putStrList spec.produceMethods, putStrList spec.consumeMethods,
    putStr spec.category].flatten

/-- One stamp in `emitMeta`. -/
def putFileStamp (f : FileStamp) : Bytes := [putStr f.path, putU64 f.mtimeNs, putU64 f.size].flatten

/-- The byte of a `TuStatus`. -/
def TuStatus.byte : TuStatus → UInt8
  | .indexed => 0
  | .partially => 1
  | .crashed => 2
  | .poisoned => 3
  | .skipped => 4
  | .timedOut => 5

/-- The fingerprint and the outcome of one TU. -/
def putFileOutcome (o : Bytes × TuOutcome) : Bytes :=
  [putStr o.1, putU8 o.2.status.byte, putStr o.2.detail].flatten

/-- A column of the meta, as long as the list of files. -/
def column {α : Type} (n : ℕ) (missing : α) (l : List α) : List α :=
  (List.range n).map fun i => l.getD i missing

namespace SnapshotMeta

/-- The columns for fingerprints and outcomes. -/
def outcomeColumn (m : SnapshotMeta) : List (Bytes × TuOutcome) :=
  (column m.files.length [] m.fingerprints).zip (column m.files.length {} m.outcomes)

/-- `emitMeta`. -/
def emitMeta (m : SnapshotMeta) : Bytes :=
  [putStrList m.collapsePaths, putStrList m.lockAllowlist, putFlag m.lockBuiltins,
    putCounted emitChannelTypeSpec m.channelTypes, putCounted putFileStamp m.files,
    putStrList m.entryPoints, putCounted putFileStamp m.deps,
    (column m.files.length [] m.tuDeps).flatMap (putCounted putId),
    putStr m.provenance.analyzer, putStr m.provenance.toolchain, putStr m.provenance.environment,
    putU64 m.provenance.bakeStartNs, m.outcomeColumn.flatMap putFileOutcome].flatten

end SnapshotMeta

/-! ### Reading -/

/-- A list of strings. -/
def readStrList : Read (List Bytes) := countedIn str

/-- `readChannelTypeSpec`. -/
def readChannelTypeSpec : Read ChannelTypeSpec := do
  let qualifiedTypeName ← str
  let produceMethods ← readStrList
  let consumeMethods ← readStrList
  let category ← str
  return { qualifiedTypeName, produceMethods, consumeMethods, category }

/-- One stamp in `readMeta`. -/
def readFileStamp : Read FileStamp := do
  let path ← str
  let mtimeNs ← u64
  let size ← u64
  return { path, mtimeNs, size }

/-- `static_cast<TuStatus>` of a byte that passed its check. -/
def TuStatus.ofByte (b : UInt8) : TuStatus :=
  if b = 0 then .indexed else if b = 1 then .partially else if b = 2 then .crashed
  else if b = 3 then .poisoned else if b = 4 then .skipped else .timedOut

/-- The fingerprint and the outcome of one TU. -/
def readFileOutcome : Read (Bytes × TuOutcome) := do
  let fingerprint ← str
  let status ← checked u8 fun b => decide (b ≤ 5)
  let detail ← str
  return (fingerprint, { status := TuStatus.ofByte status, detail })

/-- `readMeta`. -/
def readMeta : Read SnapshotMeta := do
  let collapsePaths ← readStrList
  let lockAllowlist ← readStrList
  let lockBuiltins ← flag
  let channelTypes ← countedIn readChannelTypeSpec
  let files ← countedIn readFileStamp
  let entryPoints ← readStrList
  let deps ← countedIn readFileStamp
  let tuDeps ← times (countedIn (readId deps.length)) files.length
  let analyzer ← str
  let toolchain ← str
  let environment ← str
  let bakeStartNs ← u64
  let outcomes ← times readFileOutcome files.length
  return {
    collapsePaths, lockAllowlist, lockBuiltins, channelTypes, files, deps, tuDeps, entryPoints
    fingerprints := outcomes.map Prod.fst
    outcomes := outcomes.map Prod.snd
    provenance := { analyzer, toolchain, environment, bakeStartNs } }

/-! ### The lengths that must fit -/

/-- The number of strings and their lengths fit 32 bits. -/
def StrListFits (l : List Bytes) : Prop := l.length < 2 ^ 32 ∧ ∀ s ∈ l, s.length < 2 ^ 32

/-- All lengths of a channel type fit. -/
def ChannelTypeSpec.Fits (spec : ChannelTypeSpec) : Prop :=
  spec.qualifiedTypeName.length < 2 ^ 32 ∧ StrListFits spec.produceMethods ∧
    StrListFits spec.consumeMethods ∧ spec.category.length < 2 ^ 32

namespace SnapshotMeta

/-- The columns are as long as the list of files. -/
structure Aligned (m : SnapshotMeta) : Prop where
  tuDeps : m.tuDeps.length = m.files.length
  fingerprints : m.fingerprints.length = m.files.length
  outcomes : m.outcomes.length = m.files.length

/-- The dependencies of the TUs are in the table. -/
def DepsListed (m : SnapshotMeta) : Prop := ∀ ids ∈ m.tuDeps, ∀ id ∈ ids, id < m.deps.length

/-- The meta with its columns cut or filled up to the list of files. -/
def aligned (m : SnapshotMeta) : SnapshotMeta :=
  { m with
    tuDeps := column m.files.length [] m.tuDeps
    fingerprints := column m.files.length [] m.fingerprints
    outcomes := column m.files.length {} m.outcomes }

/-- All lengths of the meta fit. -/
structure Fits (m : SnapshotMeta) : Prop where
  collapsePaths : StrListFits m.collapsePaths
  lockAllowlist : StrListFits m.lockAllowlist
  channelTypes : m.channelTypes.length < 2 ^ 32 ∧ ∀ spec ∈ m.channelTypes, spec.Fits
  files : m.files.length < 2 ^ 32 ∧ ∀ f ∈ m.files, f.path.length < 2 ^ 32
  deps : m.deps.length < 2 ^ 32 ∧ ∀ f ∈ m.deps, f.path.length < 2 ^ 32
  tuDeps : ∀ ids ∈ m.tuDeps, ids.length < 2 ^ 32
  entryPoints : StrListFits m.entryPoints
  fingerprints : ∀ fp ∈ m.fingerprints, fp.length < 2 ^ 32
  outcomes : ∀ o ∈ m.outcomes, o.detail.length < 2 ^ 32
  provenance : m.provenance.analyzer.length < 2 ^ 32 ∧ m.provenance.toolchain.length < 2 ^ 32 ∧
    m.provenance.environment.length < 2 ^ 32

end SnapshotMeta

/-! ### Round trip -/

theorem codes_strList (l : List Bytes) : Codes (StrListFits l) readStrList (putStrList l) l :=
  Codes.countedIn (fun s _ => Codes.str s) putStr_not_nil

theorem codes_channelTypeSpec (spec : ChannelTypeSpec) :
    Codes spec.Fits readChannelTypeSpec (emitChannelTypeSpec spec) spec := by
  apply Codes.congr
  · apply Codes.field (Codes.str _)
    apply Codes.field (codes_strList _)
    apply Codes.field (codes_strList _)
    apply Codes.field (Codes.str _)
    exact Codes.done _
  · simp [ChannelTypeSpec.Fits]

theorem codes_fileStamp (f : FileStamp) : Codes (f.path.length < 2 ^ 32) readFileStamp (putFileStamp f) f := by
  apply Codes.congr
  · apply Codes.field (Codes.str _)
    apply Codes.field (Codes.u64 _)
    apply Codes.field (Codes.u64 _)
    exact Codes.done _
  · simp

theorem codes_fileOutcome (o : Bytes × TuOutcome) :
    Codes (o.1.length < 2 ^ 32 ∧ o.2.detail.length < 2 ^ 32) readFileOutcome (putFileOutcome o) o := by
  have hstatus : TuStatus.ofByte o.2.status.byte = o.2.status := by cases o.2.status <;> rfl
  have hbyte : decide (o.2.status.byte ≤ 5) = true := by cases o.2.status <;> rfl
  apply Codes.congr
  · apply Codes.field (Codes.str _)
    apply Codes.field (Codes.checked (Codes.u8 _) hbyte)
    apply Codes.field (Codes.str _)
    rw [hstatus]
    exact Codes.done _
  · simp

section Columns

variable {α β : Type} {n : ℕ} {missing : α} {l : List α}

@[simp] theorem length_column : (column n missing l).length = n := by simp [column]

theorem mem_column {a : α} (ha : a ∈ column n missing l) : a = missing ∨ a ∈ l := by
  obtain ⟨i, -, rfl⟩ := List.mem_map.mp ha
  by_cases hi : i < l.length
  · exact .inr (by simp [hi])
  · exact .inl (by simp [hi])

end Columns

namespace SnapshotMeta

variable {m : SnapshotMeta}

theorem length_outcomeColumn : m.outcomeColumn.length = m.files.length := by
  simp [outcomeColumn]

/-- **The meta is read back as it was written.** -/
theorem codes_meta (hdeps : m.DepsListed) (hfits : m.Fits) :
    Codes True readMeta m.emitMeta m.aligned := by
  have hids := Codes.timesOf (l := column m.files.length [] m.tuDeps) fun ids hids =>
      Codes.countedIn (l := ids) (fun id hid => by
        rcases mem_column hids with rfl | hin
        · cases hid
        · exact codes_id (hdeps ids hin id hid) hfits.deps.1.le) putId_not_nil
  have houtcomes := Codes.timesOf (l := m.outcomeColumn)
    fun o _ => codes_fileOutcome o
  rw [length_column] at hids
  rw [length_outcomeColumn] at houtcomes
  apply Codes.congr
  · apply Codes.field (codes_strList _)
    apply Codes.field (codes_strList _)
    apply Codes.field (Codes.flag _)
    apply Codes.field (Codes.countedIn (fun spec _ => codes_channelTypeSpec spec)
      fun spec => flatten_str_ne_nil _ _)
    apply Codes.field (Codes.countedIn (fun f _ => codes_fileStamp f) fun f => flatten_str_ne_nil _ _)
    apply Codes.field (codes_strList _)
    apply Codes.field (Codes.countedIn (fun f _ => codes_fileStamp f) fun f => flatten_str_ne_nil _ _)
    apply Codes.field hids
    apply Codes.field (Codes.str _)
    apply Codes.field (Codes.str _)
    apply Codes.field (Codes.str _)
    apply Codes.field (Codes.u64 _)
    apply Codes.field houtcomes
    refine (Codes.done _).value ?_
    have hfst : m.outcomeColumn.map Prod.fst = column m.files.length [] m.fingerprints :=
      List.map_fst_zip (by simp)
    have hsnd : m.outcomeColumn.map Prod.snd = column m.files.length {} m.outcomes :=
      List.map_snd_zip (by simp)
    rw [hfst, hsnd]
    rfl
  · have hcolumn : ∀ ids ∈ column m.files.length [] m.tuDeps,
        ids.length < 2 ^ 32 ∧ ∀ id ∈ ids, True := fun ids hids => by
      rcases mem_column hids with rfl | hin
      · exact ⟨by decide, fun id hid => trivial⟩
      · exact ⟨hfits.tuDeps ids hin, fun id hid => trivial⟩
    have hlast : ∀ o ∈ m.outcomeColumn, o.1.length < 2 ^ 32 ∧ o.2.detail.length < 2 ^ 32 :=
      fun o ho => by
        obtain ⟨hfp, hout⟩ := List.of_mem_zip ho
        constructor
        · rcases mem_column hfp with hnil | hin
          · rw [hnil]
            decide
          · exact hfits.fingerprints _ hin
        · rcases mem_column hout with hnil | hin
          · rw [hnil]
            decide
          · exact hfits.outcomes _ hin
    exact iff_of_true ⟨hfits.collapsePaths, hfits.lockAllowlist, trivial, hfits.channelTypes,
      hfits.files, hfits.entryPoints, hfits.deps, hcolumn, hfits.provenance.1,
      hfits.provenance.2.1, hfits.provenance.2.2, trivial, hlast, trivial⟩ trivial

end SnapshotMeta

end Vycor
