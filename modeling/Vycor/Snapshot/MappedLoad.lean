import Vycor.ControlFlow.InOrder
import Vycor.Lib.InPlace
import Vycor.Snapshot.ControlFlowLoad
import Vycor.Snapshot.Frame

/-!
# Attaching the control-flow section in place

A read-only load leaves the interner table, the records and the lookup arrays of the section in
the file and keeps where they lie. `Stores` says which records a store in the file has; the
section that a save writes is attached as a store of its records
(`mapControlFlow_putControlFlow`).
-/

namespace Vycor

open Reader

/-! ### Attaching -/

/-- `attachMapped`: the arrays behind the set tables. -/
def attachMapped (file : Bytes) (strings : Region) (stringCount : ℕ) : Read MappedStore := do
  let recordCount ← readNum
  -- the source asks here whether so many records are left, as the region does
  let records ← region (recordCount * kRecordBytes)
  let stringOffsets ← region (stringCount * 4)
  let sortedIds ← region (stringCount * 4)
  let byCaller ← region (recordCount * 4)
  let byCallee ← region (recordCount * 4)
  let callerDisplayCount ← checked readNum fun n => decide (n ≤ recordCount)
  let byCallerDisplay ← region (callerDisplayCount * 4)
  let calleeDisplayCount ← checked readNum fun n => decide (n ≤ recordCount)
  let byCalleeDisplay ← region (calleeDisplayCount * 4)
  return {
    buffer := file, strings, stringCount, stringOffsets, sortedIds, records, recordCount
    byCaller, byCallee, byCallerDisplay, callerDisplayCount, byCalleeDisplay, calleeDisplayCount }

/-- The section behind its head: the interner table is stepped over, the set tables are read and
the rest is attached. -/
def readInPlace (ll : Llvm) (file : Bytes) (tableBytes stringCount : ℕ) :
    Read ControlFlowIndex := do
  let table ← region tableBytes
  let sets ← readSetTables ll stringCount
  -- the strings stand behind their number
  let m ← attachMapped file ⟨table.start + 4, tableBytes - 4⟩ stringCount
  return {
    scopeSets := sets.1, guardSets := sets.2.1, raiiSets := sets.2.2
    liveCount := m.recordCount, mapped := some m }

/-- The control-flow section in `SnapshotIO::load`, for a read-only load. -/
def readMapped (ll : Llvm) (file : Bytes) : Read ControlFlowIndex := do
  let size ← readTableSize
  readInPlace ll file size.1 size.2

/-- A read-only load of the section at its place in the file. -/
def mapControlFlow (ll : Llvm) (file : Bytes) (range : SectionRange) : Option ControlFlowIndex :=
  let r := readMapped ll file ⟨range.bytes file, range.offset, true⟩
  if r.2.ok && r.2.rest.isEmpty then some r.1 else none

/-! ### What a store has -/

/-- The store has the records, in the arrays that `putLookups` writes. -/
structure MappedStore.Stores (m : MappedStore) (r : ControlFlowRecords)
    (sort : Sorter r.idBefore) : Prop where
  stringCount : m.stringCount = r.strings.length
  recordCount : m.recordCount = r.contexts.length
  strings : m.strings.Spans m.buffer (r.strings.flatMap putStr)
  stringOffsets : m.stringOffsets.Spans m.buffer (putArray (Vycor.stringOffsets 0 r.strings))
  sortedIds : m.sortedIds.Spans m.buffer (putArray (sort.run (List.range r.strings.length)))
  records : m.records.Spans m.buffer (r.contexts.flatMap putContext)
  byCaller : m.byCaller.Spans m.buffer (putArray (r.orderBy (·.caller)))
  byCallee : m.byCallee.Spans m.buffer (putArray (r.orderBy (·.callee)))
  callerDisplayCount :
    m.callerDisplayCount = (r.displayOrder (·.caller) (·.callerDisplay)).length
  byCallerDisplay : m.byCallerDisplay.Spans m.buffer
    (putArray (r.displayOrder (·.caller) (·.callerDisplay)))
  calleeDisplayCount :
    m.calleeDisplayCount = (r.displayOrder (·.callee) (·.calleeDisplay)).length
  byCalleeDisplay : m.byCalleeDisplay.Spans m.buffer
    (putArray (r.displayOrder (·.callee) (·.calleeDisplay)))

/-- The index of the set tables and a store. -/
def ControlFlowRecords.attach (r : ControlFlowRecords) (m : MappedStore) : ControlFlowIndex where
  scopeSets := r.scopeSets
  guardSets := r.guardSets
  raiiSets := r.raiiSets
  liveCount := r.contexts.length
  mapped := some m

/-- The blocks of the section that are attached. -/
def attachedBlocks (r : ControlFlowRecords) (sort : Sorter r.idBefore) : List Bytes :=
  [putId r.contexts.length, r.contexts.flatMap putContext,
    putArray (stringOffsets 0 r.strings), putArray (sort.run (List.range r.strings.length)),
    putArray (r.orderBy (·.caller)), putArray (r.orderBy (·.callee)),
    putId (r.displayOrder (·.caller) (·.callerDisplay)).length,
    putArray (r.displayOrder (·.caller) (·.callerDisplay)),
    putId (r.displayOrder (·.callee) (·.calleeDisplay)).length,
    putArray (r.displayOrder (·.callee) (·.calleeDisplay))]

theorem putControlFlow_eq (r : ControlFlowRecords) (sort : Sorter r.idBefore) :
    putControlFlow r sort = putId (putTable r.strings).length ++
      [putTable r.strings, putSetTables r, (attachedBlocks r sort).flatten].flatten := by
  simp only [putControlFlow, putLookups, attachedBlocks, putSetTables, putCounted, putArray, putId,
    List.flatten_cons, List.flatten_nil, List.append_nil, List.append_assoc]

@[simp] theorem length_putContext (se : StoredContext) : (putContext se).length = kRecordBytes := by
  simp [putContext, putFlag, putU8, kRecordBytes]

theorem length_records (l : List StoredContext) :
    (l.flatMap putContext).length = l.length * kRecordBytes :=
  Region.length_flatMap_of_size fun se _ => length_putContext se

section Attach

variable {r : ControlFlowRecords} {sort : Sorter r.idBefore} {file : Bytes} {pos : ℕ}

theorem readsAt_array (l : List ℕ) {n : ℕ} (hn : n = l.length) :
    ReadsAt pos (region (n * 4)) (putArray l) ⟨pos, (putArray l).length⟩ := by
  have hlen : n * 4 = (putArray l).length := by rw [length_putArray, hn, Nat.mul_comm]
  rw [hlen]
  exact ReadsAt.region _

/-- **The blocks are attached as a store of the records.** -/
theorem exists_attachMapped (h : r.Storable) {strings : Region}
    (hstrings : strings.Spans file (r.strings.flatMap putStr))
    (hblocks : (⟨pos, (attachedBlocks r sort).flatten.length⟩ : Region).Spans file
      (attachedBlocks r sort).flatten) :
    ∃ m : MappedStore, m.Stores r sort ∧
      ReadsAt pos (attachMapped file strings r.strings.length) (attachedBlocks r sort).flatten m := by
  have hcaller := ControlFlowRecords.length_orderBy fun se hse => (h.contexts se hse).caller
  have hcallee := ControlFlowRecords.length_orderBy fun se hse => (h.contexts se hse).callee
  have hcallerDisplay := ControlFlowRecords.length_displayOrder_le (·.caller)
    fun se hse => (h.contexts se hse).callerDisplay
  have hcalleeDisplay := ControlFlowRecords.length_displayOrder_le (·.callee)
    fun se hse => (h.contexts se hse).calleeDisplay
  have hsort : (sort.run (List.range r.strings.length)).length = r.strings.length :=
    (sort.perm _).length_eq.trans List.length_range
  have hrecords : r.contexts.length * kRecordBytes = (r.contexts.flatMap putContext).length :=
    (length_records _).symm
  -- where the blocks stand
  have hat {i : ℕ} {b : Bytes} (hi : (attachedBlocks r sort)[i]? = some b) {q : ℕ}
      (hpos : pos + ((attachedBlocks r sort).take i).flatten.length = q) :
      (⟨q, b.length⟩ : Region).Spans file b := hblocks.block hi hpos
  refine ⟨?_, ?_, ?_⟩
  rotate_left 2
  · apply ReadsAt.field (.of_codes (codes_num h.context_count) trivial)
    rw [hrecords]
    apply ReadsAt.field (.region _)
    apply ReadsAt.field (readsAt_array _ (length_stringOffsets _ _).symm)
    apply ReadsAt.field (readsAt_array _ hsort.symm)
    apply ReadsAt.field (readsAt_array _ hcaller.symm)
    apply ReadsAt.field (readsAt_array _ hcallee.symm)
    apply ReadsAt.field (.of_codes (Codes.checked (codes_num (hcallerDisplay.trans_lt h.context_count))
      (decide_eq_true hcallerDisplay)) trivial)
    apply ReadsAt.field (readsAt_array _ rfl)
    apply ReadsAt.field (.of_codes (Codes.checked (codes_num (hcalleeDisplay.trans_lt h.context_count))
      (decide_eq_true hcalleeDisplay)) trivial)
    apply ReadsAt.field (readsAt_array _ rfl)
    exact ReadsAt.done _
  · exact
      { stringCount := rfl
        recordCount := rfl
        strings := hstrings
        stringOffsets := hat (i := 2) rfl (by simp [attachedBlocks, Nat.add_assoc])
        sortedIds := hat (i := 3) rfl (by simp [attachedBlocks, Nat.add_assoc])
        records := hat (i := 1) rfl (by simp [attachedBlocks])
        byCaller := hat (i := 4) rfl (by simp [attachedBlocks, Nat.add_assoc])
        byCallee := hat (i := 5) rfl (by simp [attachedBlocks, Nat.add_assoc])
        callerDisplayCount := rfl
        byCallerDisplay := hat (i := 7) rfl (by simp [attachedBlocks, Nat.add_assoc])
        calleeDisplayCount := rfl
        byCalleeDisplay := hat (i := 9) rfl (by simp [attachedBlocks, Nat.add_assoc]) }

/-- **A saved section is attached as a store of its records.** -/
theorem exists_mapControlFlow {ll : Llvm} (hll : ll.AcceptsUtf8) (h : r.Storable)
    {range : SectionRange} (hinside : range.offset + range.length ≤ file.length)
    (hbytes : range.bytes file = putControlFlow r sort) :
    ∃ m : MappedStore, m.Stores r sort ∧ mapControlFlow ll file range = some (r.attach m) := by
  have hn : r.strings.length < 2 ^ 32 := h.string_count.trans (by decide)
  have hsection : (⟨range.offset, range.length⟩ : Region).Spans file (putControlFlow r sort) :=
    ⟨hinside, hbytes⟩
  have htable : (putTable r.strings).length = 4 + (r.strings.flatMap putStr).length := by
    rw [putTable, putCounted, List.length_append, putU32, length_toLe]
  -- the blocks of the section, the strings of the table by themselves
  have hblocks : putControlFlow r sort = [putId (putTable r.strings).length,
      putId r.strings.length, r.strings.flatMap putStr, putSetTables r,
      (attachedBlocks r sort).flatten].flatten := by
    rw [putControlFlow_eq, putTable, putCounted, putId, putId]
    simp only [List.flatten_cons, List.flatten_nil, List.append_nil, List.append_assoc]
  have hat := hblocks ▸ hsection
  have hstrings : (⟨range.offset + 4 + 4, (putTable r.strings).length - 4⟩ : Region).Spans file
      (r.strings.flatMap putStr) := by
    have hlen : (putTable r.strings).length - 4 = (r.strings.flatMap putStr).length := by omega
    rw [hlen]
    exact hat.block (i := 2) rfl (by simp [Nat.add_assoc])
  obtain ⟨m, hm, hread⟩ := exists_attachMapped h hstrings (hat.block (i := 4) rfl rfl)
  have hcount : m.recordCount = r.contexts.length := hm.recordCount
  refine ⟨m, hm, ?_⟩
  have hplace : range.offset + 4 + (putTable r.strings).length + (putSetTables r).length =
      range.offset + ([putId (putTable r.strings).length, putId r.strings.length,
        r.strings.flatMap putStr, putSetTables r].flatten).length := by
    simp only [List.flatten_cons, List.flatten_nil, List.append_nil, List.length_append,
      length_putId, htable]
    omega
  have hrest : ReadsAt (range.offset + 4)
      (readInPlace ll file (putTable r.strings).length r.strings.length)
      [putTable r.strings, putSetTables r, (attachedBlocks r sort).flatten].flatten
      (r.attach m) := by
    apply ReadsAt.field (.region _)
    apply ReadsAt.field (.of_codes (codes_setTables hll h) trivial)
    rw [hplace]
    apply ReadsAt.field hread
    rw [hcount]
    exact ReadsAt.done (r.attach m)
  have hsteps (r : Reader) : readMapped ll file r =
      readInPlace ll file (readTableSize r).1.1 (readTableSize r).1.2 (readTableSize r).2 :=
    bind_apply _ _ r
  have hrun : readMapped ll file ⟨putControlFlow r sort, range.offset, true⟩ =
      (r.attach m,
        ⟨[], range.offset + 4 + [putTable r.strings, putSetTables r,
          (attachedBlocks r sort).flatten].flatten.length, true⟩) := by
    have hhead := readTableSize_eq hn h.table
      (putSetTables r ++ (attachedBlocks r sort).flatten) range.offset
    have hsplit : putTable r.strings ++ (putSetTables r ++ (attachedBlocks r sort).flatten) =
        [putTable r.strings, putSetTables r, (attachedBlocks r sort).flatten].flatten := by
      simp
    rw [hsplit, ← putControlFlow_eq] at hhead
    have hrun := hrest []
    rw [List.append_nil] at hrun
    rw [hsteps, hhead]
    exact hrun
  rw [mapControlFlow, hbytes, hrun]
  rfl

end Attach

end Vycor
