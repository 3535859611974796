import Vycor.Check.CrashSafety

/-!
# Attempts of the running checkpoint

A checkpoint in use counts attempts on its own maps while it appends to the journal. The
counting is written twice in the source, once behind the appends and once in the loader;
`attempts_reopened` says that the running checkpoint answers as a reopened one does, on top
of whatever the journal held when it was opened.
-/

namespace Vycor

open Reader

namespace CheckCheckpoint

/-- `CheckCheckpoint::attempts`. The variable for the outcome keeps its value `why` where no
attempt with this stamp is recorded. -/
def attemptsOf (c : CheckCheckpoint) (phase : UInt8) (tu : Bytes) (stamp : FileStamp)
    (why : Option TuOutcome) : UInt32 × Option TuOutcome :=
  match c.attempts (attemptKey phase tu) with
  | none => (0, why)
  | some state => if state.stamp = stamp then (state.count, state.why) else (0, why)

/-- Completion clears the attempt counter of a TU and a phase. -/
def eraseAttempts (c : CheckCheckpoint) (phase : UInt8) (tu : Bytes) : CheckCheckpoint :=
  { c with attempts := Function.update c.attempts (attemptKey phase tu) none }

end CheckCheckpoint

/-- A checkpoint in use: its maps, and the journal behind them. -/
structure OpenCheckpoint where
  maps : CheckCheckpoint
  journal : Bytes

namespace OpenCheckpoint

/-- The checkpoint that `CheckCheckpoint::open` returns. -/
def opened (file : Option Bytes) (optionsFingerprint : UInt64) : OpenCheckpoint :=
  { maps := (CheckCheckpoint.openJournal file optionsFingerprint).1
    journal := (CheckCheckpoint.openJournal file optionsFingerprint).2 }

/-- `appendRecord`, where the append succeeds. -/
def appendRecord (c : OpenCheckpoint) (kind : UInt8) (payload : Bytes) : OpenCheckpoint :=
  { c with journal := c.journal ++ (putU8 kind ++ putFramed payload) }

/-- `recordAttempt`, `recordPhase1` and `recordPhase2`. The loaded results stay as they are. -/
def perform (c : OpenCheckpoint) (call : JournalCall) : OpenCheckpoint :=
  let c := c.appendRecord call.kind call.payload
  match call with
  | .recordAttempt phase tu stamp why => { c with maps := c.maps.addAttempt phase tu stamp why }
  | .recordPhase1 tu _ _ _ => { c with maps := c.maps.eraseAttempts kPhaseIndex tu }
  | .recordPhase2 tu _ _ _ _ => { c with maps := c.maps.eraseAttempts kPhaseAnalyze tu }

end OpenCheckpoint

/-- The stamp of a call carries the path of its TU. -/
def JournalCall.StampsTu : JournalCall → Prop
  | recordAttempt _ tu stamp _ => stamp.path = tu
  | recordPhase1 tu stamp _ _ => stamp.path = tu
  | recordPhase2 tu stamp _ _ _ => stamp.path = tu

instance instDecidableStampsTu (call : JournalCall) : Decidable call.StampsTu := by
  cases call <;> exact inferInstanceAs (Decidable (_ = _))

/-! ### What an opened journal holds -/

namespace CheckCheckpoint

/-- The loop reads records one after the other, and its valid end is the end of the last. -/
theorem loadLoop_split (rounds : ℕ) (rest : Bytes) (pos : ℕ) (c : CheckCheckpoint) :
    ∃ records tail, (∀ r ∈ records, r.2.length < 2 ^ 32) ∧ rest = framesOf records ++ tail ∧
      loadLoop rounds ⟨rest, pos, true⟩ (c, pos) =
        (records.foldl (fun c r => c.loadRecord r.1 r.2) c, pos + (framesOf records).length) := by
  have hnone : ∀ s, s = (c, pos) → ∃ records tail,
      (∀ r ∈ records, r.2.length < 2 ^ 32) ∧ rest = framesOf records ++ tail ∧
        s = (records.foldl (fun c r => c.loadRecord r.1 r.2) c,
          pos + (framesOf records).length) :=
    fun s hs => ⟨[], rest, by simp, rfl, hs⟩
  induction rounds generalizing rest pos c with
  | zero => exact hnone _ rfl
  | succ rounds ih =>
    cases rest with
    | nil => exact hnone _ rfl
    | cons kind rest =>
      have hu8 : u8 ⟨kind :: rest, pos, true⟩ = (kind, ⟨rest, pos + 1, true⟩) :=
        (Codes.u8 kind).reads trivial rest pos
      rcases hframed : readFramed ⟨rest, pos + 1, true⟩ with ⟨_ | payload, stream⟩
      · refine hnone _ ?_
        simp only [loadLoop, List.isEmpty_cons, Bool.not_false, Bool.and_true, if_true, hu8,
          hframed]
      · obtain ⟨hlen, post, rfl, rfl⟩ := readFramed_some hframed
        obtain ⟨records, tail, hall, htail, hloop⟩ :=
          ih post (pos + 1 + (putFramed payload).length) (c.loadRecord kind payload)
            fun s hs => ⟨[], post, by simp, rfl, hs⟩
        refine ⟨(kind, payload) :: records, tail, List.forall_mem_cons.mpr ⟨hlen, hall⟩, ?_, ?_⟩
        · rw [htail]
          simp [framesOf, putU8]
        · simp only [loadLoop, List.isEmpty_cons, Bool.not_false, Bool.and_true, if_true, hu8,
            hframed, hloop, List.foldl_cons]
          congr 1
          simp only [framesOf, List.flatMap_cons, List.length_append, putU8, List.length_singleton]
          omega

/-- Records load as they are. -/
theorem loadRecords_frames {records : List (UInt8 × Bytes)}
    (hlen : ∀ r ∈ records, r.2.length < 2 ^ 32) :
    loadRecords (framesOf records) =
      (records.foldl (fun c r => c.loadRecord r.1 r.2) {}, (framesOf records).length) := by
  obtain ⟨rounds, -, hloop⟩ := loadLoop_frames hlen [] 0 {} (le_refl _)
  rw [List.append_nil, Nat.zero_add] at hloop
  rw [loadRecords, hloop]
  cases rounds <;> rfl

/-- The header that `open` accepts is the one it writes. -/
theorem eq_freshHeader {buf : Bytes} {fp : UInt64} (hsize : kHeaderSize ≤ buf.length)
    (hmagic : buf.take 4 = kMagic)
    (hversion : (u32 ⟨(buf.take kHeaderSize).drop 4, 0, true⟩).1 = kVersion)
    (hfp : (u64 (u32 ⟨(buf.take kHeaderSize).drop 4, 0, true⟩).2).1 = fp) :
    buf.take kHeaderSize = freshHeader fp := by
  have hlen : ((buf.take kHeaderSize).drop 4).length = 12 := by
    rw [List.length_drop, List.length_take, min_eq_left hsize]
    rfl
  obtain ⟨v, rest, hrest⟩ := @exists_putU32 ((buf.take kHeaderSize).drop 4) (by omega)
  have hlen' : rest.length = 8 := by
    rw [hrest, List.length_append, putU32, length_toLe] at hlen
    omega
  obtain ⟨w, last, hlast⟩ := @exists_putU64 rest (by omega)
  have hlast0 : last = [] := by
    rw [hlast, List.length_append, putU64, length_toLe] at hlen'
    exact List.length_eq_zero_iff.mp (by omega)
  rw [hrest, (Codes.u32 v).reads trivial] at hversion hfp
  obtain rfl : v = kVersion := hversion
  rw [hlast, (Codes.u64 w).reads trivial] at hfp
  obtain rfl : w = fp := hfp
  have htake : (buf.take kHeaderSize).take 4 = kMagic := by
    rw [List.take_take]
    exact hmagic
  rw [← List.take_append_drop 4 (buf.take kHeaderSize), htake, hrest, hlast, hlast0]
  rfl

/-- An opened journal holds a header and whole records, and its maps are those of the records. -/
theorem openJournal_spec (file : Option Bytes) (fp : UInt64) :
    ∃ records, (∀ r ∈ records, r.2.length < 2 ^ 32) ∧
      openJournal file fp = (records.foldl (fun c r => c.loadRecord r.1 r.2) {},
        freshHeader fp ++ framesOf records) := by
  have hfresh : ∃ records, (∀ r ∈ records, r.2.length < 2 ^ 32) ∧
      (({}, freshHeader fp) : CheckCheckpoint × Bytes) =
        (records.foldl (fun c r => c.loadRecord r.1 r.2) {}, freshHeader fp ++ framesOf records) :=
    ⟨[], by simp, by simp [framesOf]⟩
  rcases file with _ | buf
  · exact hfresh
  · have hopen : openJournal (some buf) fp =
        if kHeaderSize ≤ buf.length ∧ buf.take 4 = kMagic then
          if (u32 ⟨(buf.take kHeaderSize).drop 4, 0, true⟩).1 = kVersion ∧
              (u64 (u32 ⟨(buf.take kHeaderSize).drop 4, 0, true⟩).2).1 = fp then
            ((loadRecords (buf.drop kHeaderSize)).1,
              buf.take (kHeaderSize + (loadRecords (buf.drop kHeaderSize)).2))
          else ({}, freshHeader fp)
        else ({}, freshHeader fp) := rfl
    rw [hopen]
    split_ifs with hmagic hheader
    · have hbuf := eq_freshHeader hmagic.1 hmagic.2 hheader.1 hheader.2
      obtain ⟨records, tail, hlen, hdata, hloop⟩ :=
        loadLoop_split (buf.drop kHeaderSize).length (buf.drop kHeaderSize) 0 {}
      refine ⟨records, hlen, ?_⟩
      have hload : loadRecords (buf.drop kHeaderSize) =
          (records.foldl (fun c r => c.loadRecord r.1 r.2) {}, (framesOf records).length) := by
        rw [loadRecords, hloop, Nat.zero_add]
      have hall : buf = freshHeader fp ++ (framesOf records ++ tail) := by
        rw [← hdata, ← hbuf, List.take_append_drop]
      have hkept : buf.take (kHeaderSize + (framesOf records).length) =
          freshHeader fp ++ framesOf records := by
        rw [hall, ← length_freshHeader fp, List.take_length_add_append, List.take_left]
      rw [hload, hkept]
    · exact hfresh
    · exact hfresh

end CheckCheckpoint

/-! ### The running checkpoint -/

namespace OpenCheckpoint

open CheckCheckpoint

theorem journal_foldl_perform (calls : List JournalCall) (c : OpenCheckpoint) :
    (calls.foldl perform c).journal = c.journal ++ journalOf calls := by
  induction calls generalizing c with
  | nil => simp [journalOf]
  | cons call calls ih =>
    have hstep : (c.perform call).journal = c.journal ++ call.record := by
      cases call <;> rfl
    rw [List.foldl_cons, ih, hstep, List.append_assoc]
    rfl

/-- One call: the counting behind the append is the counting of the loader. -/
theorem attempts_perform {c : OpenCheckpoint} {d : CheckCheckpoint}
    (h : c.maps.attempts = d.attempts) {call : JournalCall} (hpath : call.StampsTu) :
    (c.perform call).maps.attempts = (call.perform d).attempts := by
  cases call with
  | recordAttempt phase tu stamp why =>
    obtain rfl : stamp.path = tu := hpath
    simp only [perform, appendRecord, JournalCall.perform, addAttempt, h]
  | recordPhase1 tu stamp contribution outcome =>
    simp only [perform, appendRecord, JournalCall.perform, eraseAttempts, addPhase1, h]
  | recordPhase2 tu stamp indexSetHash diags outcome =>
    simp only [perform, appendRecord, JournalCall.perform, eraseAttempts, addPhase2, h]

theorem attempts_foldl_perform {calls : List JournalCall} (hpath : ∀ c ∈ calls, c.StampsTu)
    {c : OpenCheckpoint} {d : CheckCheckpoint} (h : c.maps.attempts = d.attempts) :
    (calls.foldl perform c).maps.attempts = (calls.foldl JournalCall.perform d).attempts := by
  induction calls generalizing c d with
  | nil => exact h
  | cons call calls ih =>
    rw [List.forall_mem_cons] at hpath
    exact ih hpath.2 (attempts_perform h hpath.1)

/-- A journal that was appended to loads as its calls on top of what it held when it was
opened. -/
theorem opened_appended (file : Option Bytes) (fp : UInt64) {calls : List JournalCall}
    (hlen : ∀ c ∈ calls, c.payload.length < 2 ^ 32) :
    (opened (some (calls.foldl perform (opened file fp)).journal) fp).maps =
      calls.foldl JournalCall.perform (opened file fp).maps := by
  obtain ⟨records, hrecords, hopen⟩ := openJournal_spec file fp
  have hall : ∀ r ∈ records ++ calls.map fun call => (call.kind, call.payload),
      r.2.length < 2 ^ 32 := by
    intro r hr
    rcases List.mem_append.mp hr with hr | hr
    · exact hrecords r hr
    · obtain ⟨call, hcall, rfl⟩ := List.mem_map.mp hr
      exact hlen call hcall
  have hframes : framesOf records ++ journalOf calls =
      framesOf (records ++ calls.map fun call => (call.kind, call.payload)) := by
    rw [← framesOf_calls, framesOf, framesOf, framesOf, List.flatMap_append]
  rw [journal_foldl_perform, opened, opened, hopen, List.append_assoc, hframes, openJournal_header,
    loadRecords_frames hall, List.foldl_append, foldl_loadRecord_calls hlen]

/-- **Attempt counts survive a restart**: after any sequence of calls on any opened journal,
the running checkpoint answers as the reopened one does. -/
theorem attempts_reopened (file : Option Bytes) (fp : UInt64) {calls : List JournalCall}
    (hpath : ∀ c ∈ calls, c.StampsTu) (hlen : ∀ c ∈ calls, c.payload.length < 2 ^ 32)
    (phase : UInt8) (tu : Bytes) (stamp : FileStamp) (why : Option TuOutcome) :
    (calls.foldl perform (opened file fp)).maps.attemptsOf phase tu stamp why =
      (opened (some (calls.foldl perform (opened file fp)).journal) fp).maps.attemptsOf phase tu
        stamp why := by
  rw [attemptsOf, attemptsOf, opened_appended file fp hlen, attempts_foldl_perform hpath rfl]

/-- Two attempts, the second one journaled with its outcome. -/
theorem attempts_reopened_crashed :
    let calls := [JournalCall.recordAttempt kPhaseIndex [97] { path := [97], size := 5 } none,
      .recordAttempt kPhaseIndex [97] { path := [97], size := 5 } (some { status := .crashed })]
    (calls.foldl perform (opened none 7)).maps.attemptsOf kPhaseIndex [97]
        { path := [97], size := 5 } none = (2, some { status := .crashed }) ∧
      (calls.foldl perform (opened none 7)).maps.attemptsOf kPhaseIndex [97]
          { path := [97], size := 5 } none =
        (opened (some (calls.foldl perform (opened none 7)).journal) 7).maps.attemptsOf kPhaseIndex
          [97] { path := [97], size := 5 } none :=
  ⟨by decide, attempts_reopened none 7 (by decide) (by decide) kPhaseIndex [97]
    { path := [97], size := 5 } none⟩

/-! ### A payload whose length does not fit its field -/

/-- An attempt at the TU `a`, and its completion with a message of `n` bytes. -/
def longMessage (n : ℕ) : List JournalCall :=
  [.recordAttempt kPhaseAnalyze [97] { path := [97] } none,
    .recordPhase2 [97] { path := [97] } 0 [{ message := List.replicate n 0 }] {}]

/-- The completion is not read back, so the reopened journal still holds the attempt. -/
theorem maps_reopened_longMessage {n : ℕ} (hn : n + 78 = 2 ^ 32) :
    (opened (some ((longMessage n).foldl perform (opened none 7)).journal) 7).maps =
      ({} : CheckCheckpoint).addAttempt kPhaseAnalyze [97] { path := [97] } none := by
  have hjournal : ((longMessage n).foldl perform (opened none 7)).journal =
      freshHeader 7 ++ journalOf (longMessage n) := journal_foldl_perform _ _
  rw [hjournal, opened, openJournal_header, longMessage]
  obtain ⟨rest, hrest⟩ : ∃ rest, (JournalCall.recordPhase2 [97] { path := [97] } 0
      [{ message := List.replicate n 0 }] {}).payload = [] ++ (putU32 1 ++ rest) := by
    simp only [JournalCall.payload, putStr, List.flatten_cons, List.append_assoc, List.nil_append]
    exact ⟨_, rfl⟩
  have hsize : (JournalCall.recordPhase2 [97] { path := [97] } 0
      [{ message := List.replicate n 0 }] {}).payload.length = 0 + 2 ^ 32 := by
    rw [← hn]
    simp only [JournalCall.payload, encodeDiagnostics, putCounted, putDiagnostic, putStr,
      putStrings, putStamp, putOutcome, putU32, putU64, putU8, List.flatten_cons,
      List.flatten_nil, List.length_append, List.length_nil, List.length_singleton, length_toLe,
      List.flatMap_cons, List.flatMap_nil, List.length_replicate]
    omega
  generalize JournalCall.recordPhase2 [97] { path := [97] } 0
    [{ message := List.replicate n 0 }] {} = done at hrest hsize ⊢
  have hbytes : journalOf [.recordAttempt kPhaseAnalyze [97] { path := [97] } none, done] =
      journalOf [.recordAttempt kPhaseAnalyze [97] { path := [97] } none] ++
        putU8 done.kind ++ (putFramed done.payload ++ []) := by
    simp [journalOf, JournalCall.record]
  obtain ⟨rounds, -, hloop⟩ := @loadLoop_records
    [.recordAttempt kPhaseAnalyze [97] { path := [97] } none] (by decide)
    (putU8 done.kind ++ (putFramed done.payload ++ [])) 0 {} _ (le_refl _)
  rw [loadRecords, hbytes, List.append_assoc, hloop]
  cases rounds with
  | zero => rfl
  | succ rounds =>
    -- the reader takes no bytes for the payload, and the length of the path for the checksum
    have hnone := readFramed_overlong hrest (by simp) hsize (by decide) []
      (0 + (journalOf [.recordAttempt kPhaseAnalyze [97] { path := [97] } none]).length +
        (putU8 done.kind).length)
    have hne : (putU8 done.kind ++ (putFramed done.payload ++ [])).isEmpty = false := rfl
    rcases hframed : readFramed ⟨putFramed done.payload ++ [],
        0 + (journalOf [.recordAttempt kPhaseAnalyze [97] { path := [97] } none]).length +
          (putU8 done.kind).length, true⟩ with ⟨_ | payload, stream⟩
    · simp only [loadLoop, hne, Bool.not_false, Bool.and_true, if_true,
        (Codes.u8 _).reads trivial, hframed]
      rfl
    · rw [hframed] at hnone
      cases hnone

/-- Below 4 GiB is needed: a completion with a message of nearly 4 GiB clears the attempt in
the running checkpoint only. -/
theorem attempts_reopened_needs_short : ¬ ∀ (file : Option Bytes) (fp : UInt64)
    (calls : List JournalCall), (∀ c ∈ calls, c.StampsTu) →
    ∀ (phase : UInt8) (tu : Bytes) (stamp : FileStamp) (why : Option TuOutcome),
      (calls.foldl perform (opened file fp)).maps.attemptsOf phase tu stamp why =
        (opened (some (calls.foldl perform (opened file fp)).journal) fp).maps.attemptsOf phase tu
          stamp why := by
  intro hall
  obtain ⟨n, hn⟩ : ∃ n, n + 78 = 2 ^ 32 := ⟨2 ^ 32 - 78, by norm_num⟩
  have hpath : ∀ c ∈ longMessage n, c.StampsTu := by
    simp [longMessage, JournalCall.StampsTu]
  have heq := hall none 7 (longMessage n) hpath kPhaseAnalyze [97] { path := [97] } none
  rw [maps_reopened_longMessage hn] at heq
  have hrunning : ((longMessage n).foldl perform (opened none 7)).maps.attemptsOf kPhaseAnalyze
      [97] { path := [97] } none = (0, none) := by
    simp [longMessage, perform, eraseAttempts, attemptsOf]
  rw [hrunning] at heq
  exact absurd heq (by decide)

end OpenCheckpoint

end Vycor
