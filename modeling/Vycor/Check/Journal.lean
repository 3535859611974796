import Vycor.Check.Shard

/-!
# The checkpoint journal

`CheckCheckpoint` replays an append-only file of framed records: attempts, phase-1 and
phase-2 results. Loading stops at the first record that is cut short or fails its checksum,
and `open` truncates the file there before it appends. `crash_safe` says what a journal cut
at any byte loads as, and that appending to what is kept goes on from there.

The lock, the temporary file a fresh journal is published through and I/O errors are left
out: an `open` of this file is one that succeeds.
-/

namespace Vycor

open Reader

/-! ### Outcomes and diagnostics -/

/-- The statuses in the order of their codes. -/
def TuStatus.all : List TuStatus := [.indexed, .partially, .crashed, .poisoned, .skipped, .timedOut]

/-- `static_cast<uint8_t>(status)`. -/
def TuStatus.code : TuStatus → UInt8
  | .indexed => 0 | .partially => 1 | .crashed => 2 | .poisoned => 3 | .skipped => 4 | .timedOut => 5

/-- `Diagnostic::Kind`. -/
inductive DiagnosticKind where
  | ADL_Fallback | ADL_Ambiguity | ADL_SameScore | CTAD_Fallback | Coverage_GVAMismatch
  | Coverage_DiscardableODR | Coverage_AvailableExternally | Coverage_PropertyDivergence
  | DeadCode_Pessimistic | DeadCode_Optimistic | ODR_DuplicateDefinition
  | ODR_DivergentDefinition | Specialization_Invisible | DefaultArg_Divergent
  | StaticInit_OrderDependency | StaticInit_Hazard | Exception_Escape | HeaderStatic_Duplicated
  | ExceptionSpec_Divergent | Custom
  deriving DecidableEq, Repr, Inhabited

/-- The kinds in the order of their codes. -/
def DiagnosticKind.all : List DiagnosticKind :=
  [.ADL_Fallback, .ADL_Ambiguity, .ADL_SameScore, .CTAD_Fallback, .Coverage_GVAMismatch,
    .Coverage_DiscardableODR, .Coverage_AvailableExternally, .Coverage_PropertyDivergence,
    .DeadCode_Pessimistic, .DeadCode_Optimistic, .ODR_DuplicateDefinition,
    .ODR_DivergentDefinition, .Specialization_Invisible, .DefaultArg_Divergent,
    .StaticInit_OrderDependency, .StaticInit_Hazard, .Exception_Escape, .HeaderStatic_Duplicated,
    .ExceptionSpec_Divergent, .Custom]

/-- `static_cast<uint32_t>(kind)`. -/
def DiagnosticKind.code (k : DiagnosticKind) : UInt32 := UInt32.ofNat (all.idxOf k)

/-- `Diagnostic`. -/
structure Diagnostic where
  kind : DiagnosticKind := .ADL_Fallback
  file : Bytes := []
  callLocation : Bytes := []
  resolvedDecl : Bytes := []
  betterDecl : Bytes := []
  missingHeader : Bytes := []
  message : Bytes := []
  checkName : Bytes := []
  entities : List Bytes := []
  scope : Bytes := []
  deriving DecidableEq, Repr, Inhabited

/-- `putOutcome`. -/
def putOutcome (o : TuOutcome) : Bytes := [putU8 o.status.code, putStr o.detail].flatten

/-- `readOutcome`. A status outside the enumeration fails the reader. -/
def readOutcome : Read TuOutcome := do
  let status ← u8
  let detail ← str
  match TuStatus.all[status.toNat]? with
  | some status => return { status, detail }
  | none =>
    fail
    return { detail }

/-- One diagnostic in `encodeDiagnostics`. -/
def putDiagnostic (d : Diagnostic) : Bytes :=
  [putU32 d.kind.code, putStr d.callLocation, putStr d.resolvedDecl, putStr d.betterDecl,
    putStr d.missingHeader, putStr d.message, putStr d.checkName, putStrings d.entities,
    putStr d.scope, putStr d.file].flatten

/-- `encodeDiagnostics`. -/
def encodeDiagnostics (diags : List Diagnostic) : Bytes := putCounted putDiagnostic diags

/-- The fields of a diagnostic behind its kind. -/
def readDiagnosticFields (kind : DiagnosticKind) : Read Diagnostic := do
  let callLocation ← str
  let resolvedDecl ← str
  let betterDecl ← str
  let missingHeader ← str
  let message ← str
  let checkName ← str
  let entities ← readStrings
  let scope ← str
  let file ← str
  return { kind, file, callLocation, resolvedDecl, betterDecl, missingHeader, message, checkName,
           entities, scope }

/-- The loop of `decodeDiagnostics`. A kind outside the enumeration fails the reader and ends
the loop. -/
def readDiagnostics : ℕ → Read (List Diagnostic)
  | 0 => return []
  | n + 1 => do
    if ← isOk then
      let code ← u32
      match DiagnosticKind.all[code.toNat]? with
      | none =>
        fail
        return []
      | some kind =>
        let d ← readDiagnosticFields kind
        let rest ← readDiagnostics n
        return d :: rest
    else return []

/-- `decodeDiagnostics`. -/
def decodeDiagnostics : Read (List Diagnostic) := do
  let n ← u32
  readDiagnostics n.toNat

/-! ### The loaded journal -/

/-- `CheckCheckpoint::AttemptState`. -/
structure AttemptState where
  stamp : FileStamp := {}
  count : UInt32 := 0
  why : Option TuOutcome := none
  deriving DecidableEq, Repr, Inhabited

/-- `CheckCheckpoint::Phase1Record`. -/
structure Phase1Record where
  stamp : FileStamp
  outcome : TuOutcome
  payload : CheckIndexPayload
  deriving DecidableEq, Repr, Inhabited

/-- `CheckCheckpoint::Phase2Record`. -/
structure Phase2Record where
  stamp : FileStamp
  indexSetHash : UInt64
  outcome : TuOutcome
  diagnostics : List Diagnostic
  deriving DecidableEq, Repr, Inhabited

/-- The maps of `CheckCheckpoint`. -/
structure CheckCheckpoint where
  phase1 : Bytes → Option Phase1Record := fun _ => none
  phase2 : Bytes → Option Phase2Record := fun _ => none
  attempts : Bytes → Option AttemptState := fun _ => none

/-- `kPhaseIndex`. -/
def kPhaseIndex : UInt8 := 1

/-- `kPhaseAnalyze`. -/
def kPhaseAnalyze : UInt8 := 2

/-- `attemptKey`. -/
def attemptKey (phase : UInt8) (tu : Bytes) : Bytes := phase :: 0 :: tu

namespace CheckCheckpoint

/-- `CheckCheckpoint::countAttempt` on the state of an entry. -/
def countAttempt (state : AttemptState) (stamp : FileStamp) (why : Option TuOutcome) :
    AttemptState :=
  if state.stamp = stamp then { state with count := state.count + 1, why := why }
  else { stamp := stamp, count := 1, why := why }

/-- One more attempt of a TU. -/
def addAttempt (c : CheckCheckpoint) (phase : UInt8) (tu : Bytes) (stamp : FileStamp)
    (why : Option TuOutcome) : CheckCheckpoint :=
  { c with
    attempts := Function.update c.attempts (attemptKey phase tu)
      (some (countAttempt ((c.attempts (attemptKey phase tu)).getD {}) stamp why)) }

/-- A phase-1 record: it replaces the earlier one and clears the attempts. -/
def addPhase1 (c : CheckCheckpoint) (tu : Bytes) (rec : Phase1Record) : CheckCheckpoint :=
  { c with
    attempts := Function.update c.attempts (attemptKey kPhaseIndex tu) none
    phase1 := Function.update c.phase1 tu (some rec) }

/-- A phase-2 record: it replaces the earlier one and clears the attempts. -/
def addPhase2 (c : CheckCheckpoint) (tu : Bytes) (rec : Phase2Record) : CheckCheckpoint :=
  { c with
    attempts := Function.update c.attempts (attemptKey kPhaseAnalyze tu) none
    phase2 := Function.update c.phase2 tu (some rec) }

end CheckCheckpoint

/-! ### Appending -/

/-- `putStamp`. -/
def putStamp (stamp : FileStamp) : Bytes := [putU64 stamp.mtimeNs, putU64 stamp.size].flatten

/-- A call of `recordAttempt`, `recordPhase1` or `recordPhase2`. -/
inductive JournalCall where
  | recordAttempt (phase : UInt8) (tu : Bytes) (stamp : FileStamp) (why : Option TuOutcome)
  | recordPhase1 (tu : Bytes) (stamp : FileStamp) (contribution : CheckIndexPayload)
      (outcome : TuOutcome)
  | recordPhase2 (tu : Bytes) (stamp : FileStamp) (indexSetHash : UInt64)
      (diags : List Diagnostic) (outcome : TuOutcome)

namespace JournalCall

/-- `kKindAttempt`, `kKindPhase1`, `kKindPhase2`. -/
def kind : JournalCall → UInt8
  | recordAttempt .. => 1
  | recordPhase1 .. => 2
  | recordPhase2 .. => 3

/-- The payload of the record a call appends. -/
def payload : JournalCall → Bytes
  | recordAttempt phase tu stamp why =>
    [putU8 phase, putStr tu, putStamp stamp, why.elim [] putOutcome].flatten
  | recordPhase1 tu stamp contribution outcome =>
    [putStr tu, putStamp stamp, putOutcome outcome, encodeIndexPayload contribution].flatten
  | recordPhase2 tu stamp indexSetHash diags outcome =>
    [putStr tu, putStamp stamp, putU64 indexSetHash, putOutcome outcome,
      encodeDiagnostics diags].flatten

/-- `appendRecord`: the bytes a call appends. -/
def record (call : JournalCall) : Bytes := putU8 call.kind ++ putFramed call.payload

/-- What a call records, as the journal tells it: of the stamp the path is that of the TU. -/
def perform (c : CheckCheckpoint) : JournalCall → CheckCheckpoint
  | recordAttempt phase tu stamp why => c.addAttempt phase tu { stamp with path := tu } why
  | recordPhase1 tu stamp contribution outcome =>
    c.addPhase1 tu { stamp := { stamp with path := tu }, outcome, payload := contribution }
  | recordPhase2 tu stamp indexSetHash diags outcome =>
    c.addPhase2 tu { stamp := { stamp with path := tu }, indexSetHash, outcome,
                     diagnostics := diags }

end JournalCall

/-- The bytes a sequence of calls appends. -/
def journalOf (calls : List JournalCall) : Bytes := calls.flatMap JournalCall.record

/-- The state a sequence of calls leads to. -/
def replayCalls (calls : List JournalCall) : CheckCheckpoint := calls.foldl JournalCall.perform {}

/-! ### Loading -/

/-- The TU and the stamp at the head of a record. -/
def readStamped : Read (Bytes × FileStamp) := do
  let tu ← str
  let mtimeNs ← u64
  let size ← u64
  return (tu, { path := tu, mtimeNs, size })

/-- The head of an attempt record. -/
def readAttempt : Read (UInt8 × Bytes × FileStamp) := do
  let phase ← u8
  let stamped ← readStamped
  return (phase, stamped)

/-- A phase-1 record. The source stops at a bad outcome; reading on with a failed reader
changes nothing. -/
def readPhase1 : Read (Bytes × Phase1Record) := do
  let (tu, stamp) ← readStamped
  let outcome ← readOutcome
  let payload ← decodeIndexPayload
  return (tu, { stamp, outcome, payload })

/-- A phase-2 record. -/
def readPhase2 : Read (Bytes × Phase2Record) := do
  let (tu, stamp) ← readStamped
  let indexSetHash ← u64
  let outcome ← readOutcome
  let diagnostics ← decodeDiagnostics
  return (tu, { stamp, indexSetHash, outcome, diagnostics })

namespace CheckCheckpoint

/-- The `switch` of `loadRecords`: a record that does not decode, or whose kind is not known,
is skipped. -/
def loadRecord (c : CheckCheckpoint) (kind : UInt8) (payload : Bytes) : CheckCheckpoint :=
  if kind = 1 then
    let ((phase, tu, stamp), r) := readAttempt ⟨payload, 0, true⟩
    if !r.ok then c
    else if r.rest = [] then c.addAttempt phase tu stamp none
    else
      -- Optional trailer: the outcome that used this attempt up.
      let (outcome, r) := readOutcome r
      if !r.ok then c else c.addAttempt phase tu stamp (some outcome)
  else if kind = 2 then
    let ((tu, rec), r) := readPhase1 ⟨payload, 0, true⟩
    if !r.ok then c else c.addPhase1 tu rec
  else if kind = 3 then
    let ((tu, rec), r) := readPhase2 ⟨payload, 0, true⟩
    if !r.ok then c else c.addPhase2 tu rec
  else c

/-- The loop of `loadRecords`. Every round that goes on reads a byte at least, so the number of
bytes bounds the rounds. -/
def loadLoop : ℕ → Reader → CheckCheckpoint × ℕ → CheckCheckpoint × ℕ
  | 0, _, s => s
  | rounds + 1, stream, (c, validEnd) =>
    if stream.ok && !stream.rest.isEmpty then
      let (kind, stream) := u8 stream
      match readFramed stream with
      | (none, _) => (c, validEnd)
      | (some payload, stream) => loadLoop rounds stream (c.loadRecord kind payload, stream.pos)
    else (c, validEnd)

/-- `CheckCheckpoint::loadRecords`: the maps, and the length of the prefix that holds whole,
valid records. -/
def loadRecords (data : Bytes) : CheckCheckpoint × ℕ := loadLoop data.length ⟨data, 0, true⟩ ({}, 0)

/-- `kMagic`. -/
def kMagic : Bytes := text "VYCJ"

/-- `kVersion`. -/
def kVersion : UInt32 := 11

/-- `kHeaderSize`. -/
def kHeaderSize : ℕ := 16

/-- The header of a fresh journal. -/
def freshHeader (optionsFingerprint : UInt64) : Bytes :=
  [kMagic, putU32 kVersion, putU64 optionsFingerprint].flatten

/-- `CheckCheckpoint::open` of a file, `none` where there is none: the loaded state, and the
file as it is appended to from then on. -/
def openJournal (file : Option Bytes) (optionsFingerprint : UInt64) : CheckCheckpoint × Bytes :=
  let fresh : CheckCheckpoint × Bytes := ({}, freshHeader optionsFingerprint)
  match file with
  | none => fresh
  | some buf =>
    if kHeaderSize ≤ buf.length ∧ buf.take 4 = kMagic then
      let (version, header) := u32 ⟨(buf.take kHeaderSize).drop 4, 0, true⟩
      let (fingerprint, _) := u64 header
      if version = kVersion ∧ fingerprint = optionsFingerprint then
        let (c, validEnd) := loadRecords (buf.drop kHeaderSize)
        (c, buf.take (kHeaderSize + validEnd))
      else fresh
    else fresh

end CheckCheckpoint

end Vycor
