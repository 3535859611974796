import Vycor.ControlFlow.Basic

/-!
# The mapped store

A read-only load leaves the records of the control-flow section in the file and reads them
in place. `MappedStore` names the parts of the file it reads; the pointers of the source
are regions of the buffer. Every read answers `none` when it leaves its region, so a query
that answers `some` has stayed inside all of them. Nothing in the file is trusted: offsets,
ids and positions are checked where they are read, and a record that fails is dead.
-/

namespace Vycor

/-- `ControlFlowIndex::kRecordBytes`. -/
def kRecordBytes : ℕ := 38

/-- `ControlFlowIndex::MappedStore`. -/
structure MappedStore where
  buffer : Bytes
  strings : Region
  stringCount : ℕ
  stringOffsets : Region
  sortedIds : Region
  records : Region
  recordCount : ℕ
  byCaller : Region
  byCallee : Region
  byCallerDisplay : Region
  callerDisplayCount : ℕ
  byCalleeDisplay : Region
  calleeDisplayCount : ℕ

/-- The byte of a `NoexceptSpec`. -/
def NoexceptSpec.code : NoexceptSpec → UInt8
  | .none => 0
  | .noexcept => 1
  | .noexceptFalse => 2
  | .throwNone => 3
  | .unknown => 4
  | .unnamed c => c

/-- `static_cast<NoexceptSpec>` of a byte. -/
def NoexceptSpec.ofCode (c : UInt8) : NoexceptSpec :=
  if h : 5 ≤ c.toNat then .unnamed ⟨c, h⟩
  else if c = 0 then .none
  else if c = 1 then .noexcept
  else if c = 2 then .noexceptFalse
  else if c = 3 then .throwNone
  else .unknown

@[simp] theorem NoexceptSpec.ofCode_code (k : NoexceptSpec) : NoexceptSpec.ofCode k.code = k := by
  cases k with
  | unnamed c => simp [NoexceptSpec.ofCode, NoexceptSpec.code, c.2]
  | _ => rfl

/-- `kNoString` as the format stores it. -/
def kNoString : ℕ := 2 ^ 32 - 1

namespace MappedStore

variable (m : MappedStore)

/-- `mappedString`. -/
def mappedString (id : SId) : Option Bytes :=
  if m.stringCount ≤ id then some []
  else do
    let off ← m.stringOffsets.fetchLe m.buffer (id * 4) 4
    if m.strings.length < off ∨ m.strings.length - off < 4 then some []
    else do
      let len ← m.strings.fetchLe m.buffer off 4
      if m.strings.length - off - 4 < len then some []
      else m.strings.fetch m.buffer (off + 4) len

/-- The validation at the end of `mappedRecord`: ids are below the string count, set
indices below the sizes of the set tables. -/
def validRecord (scopes guards raiis : ℕ) (se : StoredContext) : Bool :=
  se.caller < m.stringCount && se.callee < m.stringCount &&
    se.callerDisplay < m.stringCount && se.calleeDisplay < m.stringCount &&
    se.site < m.stringCount && se.tuPath.all (· < m.stringCount) &&
    se.scopeSet < scopes && se.guardSet < guards && se.raiiSet < raiis

/-- `mappedRecord`, with the sizes of the set tables. -/
def mappedRecord (scopes guards raiis pos : ℕ) : Option StoredContext :=
  if m.recordCount ≤ pos then some {}
  else do
    let field (off : ℕ) := m.records.fetchLe m.buffer (pos * kRecordBytes + off) 4
    let byte (off : ℕ) := m.records.fetchLe m.buffer (pos * kRecordBytes + off) 1
    let caller ← field 0
    let callee ← field 4
    let callerDisplay ← field 8
    let calleeDisplay ← field 12
    let site ← field 16
    let tuPath ← field 20
    let scopeSet ← field 24
    let guardSet ← field 28
    let raiiSet ← field 32
    let callerNoexcept ← byte 36
    let insideCatch ← byte 37
    let se : StoredContext :=
      { caller, callee, callerDisplay, calleeDisplay, site,
        tuPath := if tuPath = kNoString then none else some tuPath
        scopeSet, guardSet, raiiSet
        callerNoexcept := NoexceptSpec.ofCode (UInt8.ofNat callerNoexcept)
        insideCatchBlock := insideCatch != 0 }
    some { se with live := m.validRecord scopes guards raiis se }

/-- An order array of the section, or the records themselves, which are sorted by call
site (`order == nullptr`). -/
def orderAt (order : Option Region) (i : ℕ) : Option ℕ :=
  match order with
  | none => some i
  | some region => region.fetchLe m.buffer (i * 4) 4

/-- `fieldAt` of `mappedRange`: a position out of range compares above every id, `none`
here. The outer `Option` is the read. -/
def fieldAt (order : Option Region) (field i : ℕ) : Option (Option ℕ) := do
  let pos ← m.orderAt order i
  if m.recordCount ≤ pos then some none
  else (m.records.fetchLe m.buffer (pos * kRecordBytes + field) 4).map some

/-- `mappedRange`. -/
def mappedRange (order : Option Region) (count field : ℕ) (id : SId) : Option (ℕ × ℕ) := do
  let first ← partitionPoint
    (fun i => (m.fieldAt order field i).map fun v => v.any (· < id)) 0 count
  let last ← partitionPoint
    (fun i => (m.fieldAt order field i).map fun v => v.any (· ≤ id)) first count
  some (first, last)

/-- The bisection of `findId` over the ids in string order. -/
def searchId (key : Bytes) (lo hi : ℕ) : Option (Option SId) :=
  if lo < hi then
    match m.sortedIds.fetchLe m.buffer ((lo + (hi - lo) / 2) * 4) 4 with
    | none => none
    | some id =>
      match m.mappedString id with
      | none => none
      | some s =>
        if s = key then some (some id)
        else if s < key then searchId key (lo + (hi - lo) / 2 + 1) hi
        else searchId key lo (lo + (hi - lo) / 2)
  else some none
termination_by hi - lo

end MappedStore

end Vycor
