import Vycor.Check.Journal

/-!
# Index shards of phase 1

Each entry of an index shard carries how the parse of its TU ended and what the TU
contributes. `readCheckIndexShard` hands an entry over as soon as it has decoded it.
`SoundShard` says of the bytes of a file that they hold whole entries up to the end, and
`readCheckIndexShard_rejects_iff` that a rejected file hands nothing over exactly when it is
damaged in its header or its first entry.
-/

namespace Vycor

open Reader

/-- The head and the body of an index entry. The source stops at a bad outcome; reading on with
a failed reader changes nothing. -/
def readIndexEntry : Read (TuOutcome × CheckIndexPayload) := do
  let outcome ← readOutcome
  let payload ← decodeIndexPayload
  return (outcome, payload)

/-- An entry as it is handed over. -/
structure IndexEntry where
  tu : Bytes
  outcome : TuOutcome
  payload : CheckIndexPayload
  deriving DecidableEq, Repr

section

variable {σ : Type}

/-- The function `readCheckIndexShard` hands to `readShardFile`: `fn` stands for `onOutcome`
and the `fn` of the source, called one after the other. -/
def consumeIndexEntry (fn : IndexEntry → σ → σ) (tu : Bytes) (r : Reader) (s : σ) : Bool × σ :=
  let ((outcome, payload), r) := readIndexEntry r
  if r.ok then (true, fn ⟨tu, outcome, payload⟩ s) else (false, s)

/-- `readCheckIndexShard`. -/
def readCheckIndexShard (fn : IndexEntry → σ → σ) (file : Option Bytes) (s : σ) : Bool × σ :=
  readShardFile kIndexShardMagic (consumeIndexEntry fn) file s

/-- The entries handed over, in order. -/
def logEntry (e : IndexEntry) (log : List IndexEntry) : List IndexEntry := log ++ [e]

/-! ### Sound bytes -/

/-- The number of entries a header announces, and the bytes behind it. -/
def shardHeader (magic : Bytes) (file : Option Bytes) : Option (ℕ × Reader) :=
  match file with
  | none => none
  | some buf =>
    let (room, stream) := need 8 ⟨buf, 0, true⟩
    if !room || buf.take 4 != magic then none
    else
      let (version, stream) := u32 (stream.advance 4)
      if version != kShardVersion then none
      else
        let (count, stream) := u32 stream
        some (count.toNat, stream)

/-- The entry the stream stands at, when it is whole and its contents decode. -/
def entryAt (stream : Reader) : Option (IndexEntry × Reader) :=
  let (tu, stream) := str stream
  match readFramed stream with
  | (none, _) => none
  | (some payload, stream) =>
    let ((outcome, contribution), r) := readIndexEntry ⟨payload, 0, true⟩
    if r.ok then some (⟨tu, outcome, contribution⟩, stream) else none

/-- The stream holds the given entries, each whole, and nothing was cut short. -/
inductive SoundEntries : ℕ → Reader → List IndexEntry → Prop
  | done {stream : Reader} (hok : stream.ok = true) : SoundEntries 0 stream []
  | entry {n : ℕ} {stream rest : Reader} {e : IndexEntry} {es : List IndexEntry}
      (hat : entryAt stream = some (e, rest)) (hrest : SoundEntries n rest es) :
      SoundEntries (n + 1) stream (e :: es)

/-- The file is a whole index shard of the given entries. -/
def SoundShard (file : Option Bytes) (es : List IndexEntry) : Prop :=
  ∃ n stream, shardHeader kIndexShardMagic file = some (n, stream) ∧ SoundEntries n stream es

/-- The header and the first entry of the file are whole. -/
def FirstSound (file : Option Bytes) : Prop :=
  ∃ n stream e rest, shardHeader kIndexShardMagic file = some (n + 1, stream) ∧
    entryAt stream = some (e, rest)

/-! ### What is handed over -/

theorem readShardFile_eq (magic : Bytes) (fn : Bytes → Reader → σ → Bool × σ)
    (file : Option Bytes) (s : σ) :
    readShardFile magic fn file s =
      (shardHeader magic file).elim (false, s) fun h => readShardEntries fn h.1 h.2 s := by
  cases file with
  | none => rfl
  | some buf =>
    rcases hroom : need 8 ⟨buf, 0, true⟩ with ⟨room, stream⟩
    rcases hversion : u32 (stream.advance 4) with ⟨version, stream'⟩
    rcases hcount : u32 stream' with ⟨count, stream''⟩
    simp only [readShardFile, shardHeader, hroom, hversion, hcount]
    split_ifs <;> rfl

theorem readShardEntries_step (fn : IndexEntry → σ → σ) (n : ℕ) (stream : Reader) (s : σ) :
    readShardEntries (consumeIndexEntry fn) (n + 1) stream s =
      (entryAt stream).elim (false, s) fun e =>
        readShardEntries (consumeIndexEntry fn) n e.2 (fn e.1 s) := by
  rcases htu : str stream with ⟨tu, framed⟩
  rcases hframe : readFramed framed with ⟨_ | payload, rest⟩
  · simp only [readShardEntries, entryAt, htu, hframe, Option.elim_none]
  · rcases hread : readIndexEntry ⟨payload, 0, true⟩ with ⟨⟨outcome, contribution⟩, r⟩
    have hconsume : consumeIndexEntry fn tu ⟨payload, 0, true⟩ s =
        if r.ok then (true, fn ⟨tu, outcome, contribution⟩ s) else (false, s) := by
      simp only [consumeIndexEntry, hread]
    have hentry : entryAt stream =
        if r.ok then some (⟨tu, outcome, contribution⟩, rest) else none := by
      simp only [entryAt, htu, hframe, hread]
    rw [readShardEntries, htu, hentry]
    simp only [hframe, hconsume]
    cases r.ok <;> rfl

/-- Reading with any function is reading with a log and calling the function on the log. -/
theorem readShardEntries_eq_foldl (fn : IndexEntry → σ → σ) (n : ℕ) (stream : Reader) (s : σ)
    (log : List IndexEntry) :
    ∃ es, readShardEntries (consumeIndexEntry logEntry) n stream log =
        ((readShardEntries (consumeIndexEntry logEntry) n stream log).1, log ++ es) ∧
      readShardEntries (consumeIndexEntry fn) n stream s =
        ((readShardEntries (consumeIndexEntry logEntry) n stream log).1,
          es.foldl (fun s e => fn e s) s) := by
  induction n generalizing stream s log with
  | zero => exact ⟨[], by simp [readShardEntries], rfl⟩
  | succ n ih =>
    rw [readShardEntries_step, readShardEntries_step]
    rcases entryAt stream with _ | ⟨e, rest⟩
    · exact ⟨[], by simp, rfl⟩
    · obtain ⟨es, hlog, hfn⟩ := ih rest (fn e s) (logEntry e log)
      refine ⟨e :: es, ?_, hfn⟩
      simpa [logEntry] using hlog

/-- Reading accepts exactly the sound entries, and hands them all over. -/
theorem readShardEntries_accepts_iff {n : ℕ} {stream : Reader} {log out : List IndexEntry} :
    readShardEntries (consumeIndexEntry logEntry) n stream log = (true, out) ↔
      ∃ es, SoundEntries n stream es ∧ out = log ++ es := by
  induction n generalizing stream log with
  | zero =>
    constructor
    · intro h
      simp only [readShardEntries, Prod.mk.injEq] at h
      exact ⟨[], .done h.1, by simp [h.2]⟩
    · rintro ⟨es, hs, rfl⟩
      cases hs with
      | done hok => simp [readShardEntries, hok]
  | succ n ih =>
    rw [readShardEntries_step]
    constructor
    · intro h
      rcases hat : entryAt stream with _ | ⟨e, rest⟩
      · simp [hat] at h
      · rw [hat] at h
        obtain ⟨es, hs, rfl⟩ := ih.mp h
        exact ⟨e :: es, .entry hat hs, by simp [logEntry]⟩
    · rintro ⟨es, hs, rfl⟩
      cases hs with
      | entry hat hrest =>
        rw [hat]
        exact ih.mpr ⟨_, hrest, by simp [logEntry]⟩

/-- The entries a file hands over before it is accepted or rejected. -/
def handedOver (file : Option Bytes) : Bool × List IndexEntry :=
  readCheckIndexShard logEntry file []

theorem readCheckIndexShard_eq (fn : IndexEntry → σ → σ) (file : Option Bytes) (s : σ) :
    readCheckIndexShard fn file s =
      ((handedOver file).1, (handedOver file).2.foldl (fun s e => fn e s) s) := by
  rw [handedOver, readCheckIndexShard, readCheckIndexShard, readShardFile_eq, readShardFile_eq]
  rcases shardHeader kIndexShardMagic file with _ | ⟨n, stream⟩
  · rfl
  · obtain ⟨es, hlog, hfn⟩ := readShardEntries_eq_foldl fn n stream s []
    simp only [Option.elim_some]
    rw [hfn, hlog]
    rfl

/-- A file is accepted exactly when it is sound. -/
theorem handedOver_accepted_iff {file : Option Bytes} {es : List IndexEntry} :
    handedOver file = (true, es) ↔ SoundShard file es := by
  rw [handedOver, readCheckIndexShard, readShardFile_eq, SoundShard]
  rcases shardHeader kIndexShardMagic file with _ | ⟨n, stream⟩
  · simp
  · rw [Option.elim_some, readShardEntries_accepts_iff]
    simp

/-- Something is handed over exactly when the first entry is sound. -/
theorem handedOver_ne_nil_iff {file : Option Bytes} : (handedOver file).2 ≠ [] ↔ FirstSound file := by
  rw [handedOver, readCheckIndexShard, readShardFile_eq, FirstSound]
  rcases hheader : shardHeader kIndexShardMagic file with _ | ⟨n, stream⟩
  · simp
  · cases n with
    | zero => simp [readShardEntries]
    | succ n =>
      rw [Option.elim_some, readShardEntries_step]
      rcases hat : entryAt stream with _ | ⟨e, rest⟩
      · simp [hat]
      · obtain ⟨es, hlog, -⟩ := readShardEntries_eq_foldl logEntry n rest [] (logEntry e [])
        rw [Option.elim_some, hlog]
        simp [logEntry, hat]

/-- **A rejected file hands nothing over exactly when a file whose first entry is whole is
whole.** -/
theorem handedOver_rejects_iff (file : Option Bytes) :
    ((handedOver file).1 = false → (handedOver file).2 = []) ↔
      (FirstSound file → ∃ es, SoundShard file es) := by
  rw [← handedOver_ne_nil_iff]
  constructor
  · intro h hne
    refine ⟨(handedOver file).2, handedOver_accepted_iff.mp ?_⟩
    cases hok : (handedOver file).1
    · exact absurd (h hok) hne
    · rw [← hok]
  · intro h hrej
    by_contra hne
    obtain ⟨es, hes⟩ := h hne
    rw [handedOver_accepted_iff.mpr hes] at hrej
    cases hrej

end

end Vycor
