import Vycor.Check.Journal

/-!
# Journals cut at any byte

A record is read back as the call that appended it (`loadRecord_payload`), and a record that
is cut short is not read at all (`readFramed_truncated`). So a cut journal loads as the calls
whose records lie wholly before the cut (`crash_safe`).
-/

namespace Vycor

open Reader

/-! ### Records are read back -/

theorem TuStatus.all_code (s : TuStatus) : TuStatus.all[s.code.toNat]? = some s := by
  cases s <;> rfl

theorem DiagnosticKind.all_code (k : DiagnosticKind) :
    DiagnosticKind.all[k.code.toNat]? = some k := by
  cases k <;> decide

/-- The detail of an outcome fits. -/
def TuOutcome.Fits (o : TuOutcome) : Prop := FitsStr o.detail

theorem codes_outcome (o : TuOutcome) : Codes o.Fits readOutcome (putOutcome o) o := by
  apply Codes.congr
  · apply Codes.field (Codes.u8 _)
    apply Codes.field (Codes.str _)
    simp only [TuStatus.all_code]
    exact Codes.done _
  · simp [TuOutcome.Fits, FitsStr]

/-- All lengths of a diagnostic fit. -/
def Diagnostic.Fits (d : Diagnostic) : Prop :=
  FitsStr d.callLocation ∧ FitsStr d.resolvedDecl ∧ FitsStr d.betterDecl ∧
    FitsStr d.missingHeader ∧ FitsStr d.message ∧ FitsStr d.checkName ∧
    FitsList FitsStr d.entities ∧ FitsStr d.scope ∧ FitsStr d.file

theorem codes_diagnosticFields (d : Diagnostic) :
    Codes d.Fits (readDiagnosticFields d.kind)
      [putStr d.callLocation, putStr d.resolvedDecl, putStr d.betterDecl, putStr d.missingHeader,
        putStr d.message, putStr d.checkName, putStrings d.entities, putStr d.scope,
        putStr d.file].flatten d := by
  apply Codes.congr
  · apply Codes.field (Codes.str _)
    apply Codes.field (Codes.str _)
    apply Codes.field (Codes.str _)
    apply Codes.field (Codes.str _)
    apply Codes.field (Codes.str _)
    apply Codes.field (Codes.str _)
    apply Codes.field (codes_strings _)
    apply Codes.field (Codes.str _)
    apply Codes.field (Codes.str _)
    exact Codes.done _
  · simp [Diagnostic.Fits, FitsStr]

/-- The part of `readDiagnostics` behind the code of a kind. -/
def readAfterKind (n : ℕ) (code : UInt32) : Read (List Diagnostic) :=
  match DiagnosticKind.all[code.toNat]? with
  | none => do
    fail
    return []
  | some kind => do
    let d ← readDiagnosticFields kind
    let rest ← readDiagnostics n
    return d :: rest

theorem codes_diagnosticList (l : List Diagnostic) :
    Codes (∀ d ∈ l, d.Fits) (readDiagnostics l.length) (l.flatMap putDiagnostic) l := by
  induction l with
  | nil => exact (Codes.pure []).congr (by simp)
  | cons d l ih =>
    have hfields : Codes (d.Fits ∧ ∀ d ∈ l, d.Fits)
        (readDiagnosticFields d.kind >>= fun d => do return d :: (← readDiagnostics l.length))
        _ (d :: l) := (codes_diagnosticFields d).bind ih.last
    have hkind := (Codes.u32 d.kind.code).bind (f := readAfterKind l.length)
      (by rw [readAfterKind, DiagnosticKind.all_code]; exact hfields)
    have hbytes : (d :: l).flatMap putDiagnostic = putU32 d.kind.code ++
        ([putStr d.callLocation, putStr d.resolvedDecl, putStr d.betterDecl,
          putStr d.missingHeader, putStr d.message, putStr d.checkName, putStrings d.entities,
          putStr d.scope, putStr d.file].flatten ++ l.flatMap putDiagnostic) := by
      simp [putDiagnostic]
    rw [hbytes]
    refine ⟨fun hφ post pos => ?_, fun hlen => List.forall_mem_cons.mpr (hkind.fits hlen).2⟩
    exact hkind.reads ⟨trivial, List.forall_mem_cons.mp hφ⟩ post pos

theorem codes_diagnostics (l : List Diagnostic) :
    Codes (FitsList Diagnostic.Fits l) decodeDiagnostics (encodeDiagnostics l) l :=
  Codes.behindCount (codes_diagnosticList l) fun d hnil => by
    have hlen := congrArg List.length hnil
    simp [putDiagnostic, putU32] at hlen

/-- The head of a record, with the path the reader gives the stamp. -/
theorem codes_stamped (tu : Bytes) (stamp : FileStamp) :
    Codes (FitsStr tu) readStamped [putStr tu, putStamp stamp].flatten
      (tu, { stamp with path := tu }) := by
  have hbytes : [putStr tu, putStamp stamp].flatten =
      [putStr tu, putU64 stamp.mtimeNs, putU64 stamp.size].flatten := by
    simp [putStamp]
  rw [hbytes]
  apply Codes.congr
  · apply Codes.field (Codes.str _)
    apply Codes.field (Codes.u64 _)
    apply Codes.field (Codes.u64 _)
    exact Codes.done _
  · simp [FitsStr]

theorem codes_attempt (phase : UInt8) (tu : Bytes) (stamp : FileStamp) :
    Codes (FitsStr tu) readAttempt [putU8 phase, [putStr tu, putStamp stamp].flatten].flatten
      (phase, tu, { stamp with path := tu }) := by
  apply Codes.congr
  · apply Codes.field (Codes.u8 _)
    apply Codes.field (codes_stamped tu stamp)
    exact Codes.done _
  · simp

theorem codes_phase1 (tu : Bytes) (stamp : FileStamp) (contribution : CheckIndexPayload)
    (outcome : TuOutcome) :
    Codes (FitsStr tu ∧ outcome.Fits ∧ contribution.Fits) readPhase1
      [[putStr tu, putStamp stamp].flatten, putOutcome outcome,
        encodeIndexPayload contribution].flatten
      (tu, { stamp := { stamp with path := tu }, outcome, payload := contribution }) := by
  apply Codes.congr
  · apply Codes.field (codes_stamped tu stamp)
    apply Codes.field (codes_outcome outcome)
    apply Codes.field (codes_payload contribution)
    exact Codes.done _
  · simp

theorem codes_phase2 (tu : Bytes) (stamp : FileStamp) (indexSetHash : UInt64)
    (diags : List Diagnostic) (outcome : TuOutcome) :
    Codes (FitsStr tu ∧ outcome.Fits ∧ FitsList Diagnostic.Fits diags) readPhase2
      [[putStr tu, putStamp stamp].flatten, putU64 indexSetHash, putOutcome outcome,
        encodeDiagnostics diags].flatten
      (tu, { stamp := { stamp with path := tu }, indexSetHash, outcome, diagnostics := diags }) := by
  apply Codes.congr
  · apply Codes.field (codes_stamped tu stamp)
    apply Codes.field (Codes.u64 indexSetHash)
    apply Codes.field (codes_outcome outcome)
    apply Codes.field (codes_diagnostics diags)
    exact Codes.done _
  · simp

/-- What stands alone is read to its end. -/
theorem Codes.reads_alone {α : Type} {φ : Prop} {dec : Read α} {bs : Bytes} {a : α}
    (h : Codes φ dec bs a) (hlen : bs.length < 2 ^ 32) :
    dec ⟨bs, 0, true⟩ = (a, ⟨[], bs.length, true⟩) := by
  have hread := h.reads (h.fits hlen) [] 0
  rwa [List.append_nil, Nat.zero_add] at hread

/-! ### Records cut short -/

/-- A payload whose frame is cut is not read: either its length is cut, or the room the length
asks for is not there. -/
theorem readFramed_truncated {payload cut : Bytes} (hlen : payload.length < 2 ^ 32)
    (hcut : cut <+: putFramed payload) (hlt : cut.length < (putFramed payload).length) (pos : ℕ) :
    (readFramed ⟨cut, pos, true⟩).1 = none := by
  rcases Nat.lt_or_ge cut.length 4 with hshort | hlong
  · rw [readFramed, u32_short hshort]
    rfl
  · obtain ⟨tail, htail⟩ := hcut
    have hframe : putFramed payload =
        putU32 (UInt32.ofNat payload.length) ++ (payload ++ putU32 (fnv32 payload)) := by
      simp [putFramed]
    have htake : cut.take 4 = putU32 (UInt32.ofNat payload.length) := by
      have := congrArg (List.take 4) (htail.trans hframe)
      rwa [List.take_append_of_le_length hlong, List.take_left' (by simp [putU32])] at this
    have hsplit : cut = putU32 (UInt32.ofNat payload.length) ++ cut.drop 4 := by
      rw [← htake, List.take_append_drop]
    have hfull : need (payload.length + 4) ⟨cut.drop 4, pos + 4, true⟩ =
        (false, ⟨cut.drop 4, pos + 4, false⟩) := by
      refine if_neg ?_
      simp only [hframe, List.length_append, putU32, length_toLe] at hlt
      simp only [Bool.true_and, decide_eq_true_eq, List.length_drop]
      omega
    have hsize : (putU32 (UInt32.ofNat payload.length)).length = 4 := length_toLe _ _
    rw [hsplit, readFramed, (Codes.u32 _).reads trivial, hsize]
    simp only [UInt32.toNat_ofNat_of_lt' hlen, hfull, Bool.false_eq_true, if_false]

namespace CheckCheckpoint

/-- A whole record does what the call that appended it records. -/
theorem loadRecord_payload (c : CheckCheckpoint) {call : JournalCall}
    (hlen : call.payload.length < 2 ^ 32) :
    c.loadRecord call.kind call.payload = call.perform c := by
  cases call with
  | recordAttempt phase tu stamp why =>
    have hcodes := codes_attempt phase tu stamp
    have hbytes : (JournalCall.recordAttempt phase tu stamp why).payload =
        [putU8 phase, [putStr tu, putStamp stamp].flatten].flatten ++ why.elim [] putOutcome := by
      simp [JournalCall.payload]
    rw [hbytes] at hlen ⊢
    rw [List.length_append] at hlen
    have hread := hcodes.reads (hcodes.fits (by omega)) (why.elim [] putOutcome) 0
    simp only [loadRecord, JournalCall.kind, if_true, hread, Bool.not_true, Bool.false_eq_true,
      if_false]
    cases why with
    | none => rfl
    | some outcome =>
      have hne : putOutcome outcome ≠ [] := by simp [putOutcome, putU8]
      have hout := codes_outcome outcome
      have hread' := hout.reads (hout.fits (by simp only [Option.elim] at hlen; omega)) []
        (0 + [putU8 phase, [putStr tu, putStamp stamp].flatten].flatten.length)
      rw [List.append_nil] at hread'
      simp only [Option.elim, hne, if_false, hread', Bool.not_true, Bool.false_eq_true]
      rfl
  | recordPhase1 tu stamp contribution outcome =>
    have hbytes : (JournalCall.recordPhase1 tu stamp contribution outcome).payload =
        [[putStr tu, putStamp stamp].flatten, putOutcome outcome,
          encodeIndexPayload contribution].flatten := by
      simp [JournalCall.payload]
    rw [hbytes] at hlen ⊢
    have hread := (codes_phase1 tu stamp contribution outcome).reads_alone hlen
    simp only [loadRecord, JournalCall.kind, hread]
    rfl
  | recordPhase2 tu stamp indexSetHash diags outcome =>
    have hbytes : (JournalCall.recordPhase2 tu stamp indexSetHash diags outcome).payload =
        [[putStr tu, putStamp stamp].flatten, putU64 indexSetHash, putOutcome outcome,
          encodeDiagnostics diags].flatten := by
      simp [JournalCall.payload]
    rw [hbytes] at hlen ⊢
    have hread := (codes_phase2 tu stamp indexSetHash diags outcome).reads_alone hlen
    simp only [loadRecord, JournalCall.kind, hread]
    rfl

/-- What is left of a record that is cut short ends the loop. -/
theorem loadLoop_torn {call : JournalCall} (hlen : call.payload.length < 2 ^ 32) {torn : Bytes}
    (hcut : torn <+: call.record) (hlt : torn.length < call.record.length) (rounds pos : ℕ)
    (s : CheckCheckpoint × ℕ) : loadLoop rounds ⟨torn, pos, true⟩ s = s := by
  cases rounds with
  | zero => rfl
  | succ rounds =>
    cases torn with
    | nil => rfl
    | cons kind torn =>
      rw [JournalCall.record, putU8, List.singleton_append, List.cons_prefix_cons] at hcut
      simp only [JournalCall.record, putU8, List.singleton_append, List.length_cons] at hlt
      have hu8 : u8 ⟨kind :: torn, pos, true⟩ = (kind, ⟨torn, pos + 1, true⟩) :=
        (Codes.u8 kind).reads trivial torn pos
      obtain ⟨stream, hstream⟩ : ∃ stream, readFramed ⟨torn, pos + 1, true⟩ = (none, stream) :=
        ⟨_, Prod.ext (readFramed_truncated hlen hcut.2 (by omega) _) rfl⟩
      simp only [loadLoop, List.isEmpty_cons, Bool.not_false, Bool.and_true, if_true, hu8, hstream]

/-- Records, each given by its kind and its payload. -/
def framesOf (records : List (UInt8 × Bytes)) : Bytes :=
  records.flatMap fun r => putU8 r.1 ++ putFramed r.2

/-- Whole records are read one after the other; as many rounds are left as there are bytes. -/
theorem loadLoop_frames {records : List (UInt8 × Bytes)} (hlen : ∀ r ∈ records, r.2.length < 2 ^ 32)
    (rest : Bytes) (pos : ℕ) (c : CheckCheckpoint) {rounds : ℕ}
    (hrounds : (framesOf records ++ rest).length ≤ rounds) :
    ∃ rounds', rest.length ≤ rounds' ∧
      loadLoop rounds ⟨framesOf records ++ rest, pos, true⟩ (c, pos) =
        loadLoop rounds' ⟨rest, pos + (framesOf records).length, true⟩
          (records.foldl (fun c r => c.loadRecord r.1 r.2) c, pos + (framesOf records).length) := by
  induction records generalizing pos c rounds with
  | nil => exact ⟨rounds, by simpa [framesOf] using hrounds, by simp [framesOf]⟩
  | cons r records ih =>
    rw [List.forall_mem_cons] at hlen
    have hbytes : framesOf (r :: records) ++ rest =
        putU8 r.1 ++ (putFramed r.2 ++ (framesOf records ++ rest)) := by
      simp [framesOf]
    have hsize : (framesOf (r :: records)).length =
        (putU8 r.1).length + (putFramed r.2).length + (framesOf records).length := by
      simp [framesOf, Nat.add_assoc]
    rw [hbytes] at hrounds
    simp only [List.length_append, putU8, List.length_singleton] at hrounds
    obtain ⟨rounds, rfl⟩ : ∃ n, rounds = n + 1 := ⟨rounds - 1, by omega⟩
    have hleft : (framesOf records ++ rest).length ≤ rounds := by
      rw [List.length_append]
      omega
    obtain ⟨rounds', hle, hrest⟩ := ih hlen.2
      (pos + (putU8 r.1).length + (putFramed r.2).length) (c.loadRecord r.1 r.2) hleft
    refine ⟨rounds', hle, ?_⟩
    rw [hsize, ← Nat.add_assoc, ← Nat.add_assoc, List.foldl_cons, ← hrest, hbytes]
    have hne : (putU8 r.1 ++ (putFramed r.2 ++ (framesOf records ++ rest))).isEmpty = false := rfl
    simp only [loadLoop, hne, Bool.not_false, Bool.and_true, if_true, (Codes.u8 _).reads trivial,
      (codes_framed _).reads hlen.1]

/-- The records that calls append. -/
theorem framesOf_calls (calls : List JournalCall) :
    framesOf (calls.map fun call => (call.kind, call.payload)) = journalOf calls := by
  rw [framesOf, journalOf, List.flatMap_map]
  rfl

/-- The records that calls append load as the calls. -/
theorem foldl_loadRecord_calls {calls : List JournalCall}
    (hlen : ∀ c ∈ calls, c.payload.length < 2 ^ 32) (c : CheckCheckpoint) :
    (calls.map fun call => (call.kind, call.payload)).foldl (fun c r => c.loadRecord r.1 r.2) c =
      calls.foldl JournalCall.perform c := by
  induction calls generalizing c with
  | nil => rfl
  | cons call calls ih =>
    rw [List.forall_mem_cons] at hlen
    rw [List.map_cons, List.foldl_cons, List.foldl_cons, loadRecord_payload c hlen.1, ih hlen.2]

/-- The records of calls are read one after the other. -/
theorem loadLoop_records {calls : List JournalCall} (hlen : ∀ c ∈ calls, c.payload.length < 2 ^ 32)
    (rest : Bytes) (pos : ℕ) (c : CheckCheckpoint) {rounds : ℕ}
    (hrounds : (journalOf calls ++ rest).length ≤ rounds) :
    ∃ rounds', rest.length ≤ rounds' ∧
      loadLoop rounds ⟨journalOf calls ++ rest, pos, true⟩ (c, pos) =
        loadLoop rounds' ⟨rest, pos + (journalOf calls).length, true⟩
          (calls.foldl JournalCall.perform c, pos + (journalOf calls).length) := by
  rw [← framesOf_calls] at hrounds ⊢
  rw [← foldl_loadRecord_calls hlen]
  refine loadLoop_frames (fun r hr => ?_) rest pos c hrounds
  obtain ⟨call, hcall, rfl⟩ := List.mem_map.mp hr
  exact hlen call hcall

/-! ### Cuts -/

/-- The calls whose records lie wholly within the first `n` bytes. -/
def wholeBefore : List JournalCall → ℕ → List JournalCall
  | [], _ => []
  | call :: calls, n =>
    if call.record.length ≤ n then call :: wholeBefore calls (n - call.record.length) else []

theorem wholeBefore_prefix (calls : List JournalCall) (n : ℕ) : wholeBefore calls n <+: calls := by
  induction calls generalizing n with
  | nil => exact List.nil_prefix
  | cons call calls ih =>
    rw [wholeBefore]
    split
    · exact List.cons_prefix_cons.mpr ⟨rfl, ih _⟩
    · exact List.nil_prefix

/-- The bytes before a cut: the whole records, and what is left of the record cut through. -/
theorem take_journalOf (calls : List JournalCall) (n : ℕ) :
    ∃ torn, (journalOf calls).take n = journalOf (wholeBefore calls n) ++ torn ∧
      (torn = [] ∨ ∃ call ∈ calls, torn <+: call.record ∧ torn.length < call.record.length) := by
  induction calls generalizing n with
  | nil => exact ⟨[], by simp [journalOf, wholeBefore], .inl rfl⟩
  | cons call calls ih =>
    have hbytes : journalOf (call :: calls) = call.record ++ journalOf calls := by simp [journalOf]
    rw [hbytes, wholeBefore]
    split
    case isTrue hle =>
      obtain ⟨torn, htake, htorn⟩ := ih (n - call.record.length)
      refine ⟨torn, ?_, htorn.imp_right fun ⟨c, hc, h⟩ => ⟨c, List.mem_cons_of_mem _ hc, h⟩⟩
      rw [List.take_append, List.take_of_length_le hle, htake]
      simp [journalOf]
    case isFalse hlt =>
      refine ⟨call.record.take n, ?_, .inr ⟨call, List.mem_cons_self, List.take_prefix _ _, ?_⟩⟩
      · rw [List.take_append_of_le_length (by omega)]
        simp [journalOf]
      · rw [List.length_take]
        omega

/-- A journal cut at any byte loads as the calls whose records are whole. -/
theorem loadRecords_take {calls : List JournalCall} (hlen : ∀ c ∈ calls, c.payload.length < 2 ^ 32)
    (n : ℕ) :
    loadRecords ((journalOf calls).take n) =
      (replayCalls (wholeBefore calls n), (journalOf (wholeBefore calls n)).length) := by
  obtain ⟨torn, htake, htorn⟩ := take_journalOf calls n
  have hwhole : ∀ c ∈ wholeBefore calls n, c.payload.length < 2 ^ 32 := fun c hc =>
    hlen c (( wholeBefore_prefix calls n).mem hc)
  obtain ⟨rounds, -, hloop⟩ := loadLoop_records hwhole torn 0 {} (le_refl _)
  rw [loadRecords, htake, hloop, Nat.zero_add]
  rcases htorn with rfl | ⟨call, hcall, hcut, hlt⟩
  · cases rounds <;> rfl
  · rw [loadLoop_torn (hlen call hcall) hcut hlt]
    rfl

/-- A journal that is not cut loads as all its calls. -/
theorem loadRecords_whole {calls : List JournalCall}
    (hlen : ∀ c ∈ calls, c.payload.length < 2 ^ 32) :
    loadRecords (journalOf calls) = (replayCalls calls, (journalOf calls).length) := by
  obtain ⟨rounds, -, hloop⟩ := loadLoop_records hlen [] 0 {} (le_refl _)
  rw [List.append_nil, Nat.zero_add] at hloop
  rw [loadRecords, hloop]
  cases rounds <;> rfl

theorem length_freshHeader (fp : UInt64) : (freshHeader fp).length = kHeaderSize := by
  simp [freshHeader, putU32, putU64, kHeaderSize]
  rfl

/-- Opening a file that starts with the header of a fresh journal. -/
theorem openJournal_header (fp : UInt64) (data : Bytes) :
    openJournal (some (freshHeader fp ++ data)) fp =
      ((loadRecords data).1, freshHeader fp ++ data.take (loadRecords data).2) := by
  have hsize := length_freshHeader fp
  have hmagic : (freshHeader fp ++ data).take 4 = kMagic := by
    simp only [freshHeader, List.flatten_cons, List.append_assoc]
    exact List.take_left' rfl
  have hheader : ((freshHeader fp ++ data).take kHeaderSize).drop 4 =
      putU32 kVersion ++ (putU64 fp ++ []) := by
    rw [List.take_left' hsize]
    simp only [freshHeader, List.flatten_cons, List.flatten_nil]
    exact List.drop_left' rfl
  have hroom : kHeaderSize ≤ (freshHeader fp ++ data).length := by
    rw [List.length_append, hsize]
    omega
  have hdrop : (freshHeader fp ++ data).drop kHeaderSize = data := List.drop_left' hsize
  have htake : ∀ n, (freshHeader fp ++ data).take (kHeaderSize + n) =
      freshHeader fp ++ data.take n := by
    intro n
    rw [← hsize, List.take_length_add_append]
  simp only [openJournal, hroom, hmagic, hheader, (Codes.u32 _).reads trivial,
    (Codes.u64 _).reads trivial, hdrop, htake, and_self, if_true]

/-- For every sequence of calls and every cut behind the header: loading restores what the
calls whose records lie wholly before the cut record, the valid prefix ends with the last of
them, and after truncating there and appending further records the journal loads as the kept
calls followed by the new ones. -/
theorem crash_safe {calls more : List JournalCall}
    (hcalls : ∀ c ∈ calls, c.payload.length < 2 ^ 32)
    (hmore : ∀ c ∈ more, c.payload.length < 2 ^ 32) (fp : UInt64) (n : ℕ) :
    let kept := wholeBefore calls n
    loadRecords ((journalOf calls).take n) = (replayCalls kept, (journalOf kept).length) ∧
      openJournal (some ((freshHeader fp ++ journalOf calls).take (kHeaderSize + n))) fp =
        (replayCalls kept, freshHeader fp ++ journalOf kept) ∧
      openJournal (some (freshHeader fp ++ journalOf kept ++ journalOf more)) fp =
        (replayCalls (kept ++ more), freshHeader fp ++ journalOf kept ++ journalOf more) := by
  intro kept
  have hload := loadRecords_take hcalls n
  refine ⟨hload, ?_, ?_⟩
  · obtain ⟨torn, htake, -⟩ := take_journalOf calls n
    rw [← length_freshHeader fp, List.take_length_add_append, openJournal_header, hload, htake,
      List.take_left]
  · have hall : ∀ c ∈ kept ++ more, c.payload.length < 2 ^ 32 := by
      intro c hc
      rcases List.mem_append.mp hc with hc | hc
      exacts [hcalls c (( wholeBefore_prefix calls n).mem hc), hmore c hc]
    have hbytes : journalOf kept ++ journalOf more = journalOf (kept ++ more) := by
      simp [journalOf]
    have hfull := loadRecords_whole hall
    rw [List.append_assoc, hbytes, openJournal_header, hfull, List.take_length]

/-- A phase-1 record and an attempt, cut through the attempt, then one more attempt. -/
theorem crash_safe_cut :
    let calls := [JournalCall.recordPhase1 [97] { path := [97] } {} { status := .indexed },
      .recordAttempt 1 [98] { path := [98] } none]
    let kept := wholeBefore calls 100
    let more := [JournalCall.recordAttempt 1 [99] { path := [99] } none]
    loadRecords ((journalOf calls).take 100) = (replayCalls kept, (journalOf kept).length) ∧
      openJournal (some ((freshHeader 7 ++ journalOf calls).take (kHeaderSize + 100))) 7 =
        (replayCalls kept, freshHeader 7 ++ journalOf kept) ∧
      openJournal (some (freshHeader 7 ++ journalOf kept ++ journalOf more)) 7 =
        (replayCalls (kept ++ more), freshHeader 7 ++ journalOf kept ++ journalOf more) :=
  crash_safe (by decide) (by decide) 7 100

end CheckCheckpoint

end Vycor
