import Vycor.Check.Payload

/-!
# Worker shard files

The framing workers and the parent exchange results in: a magic, a version, and counted
entries, each a TU with a payload and its checksum. The reader hands every entry to a
function as soon as its checksum is verified (`readShardFile`), before it has looked at the
entries behind it; what the function did with the entries handed over so far is the state
`σ`, which stays when a later entry is found damaged.
-/

namespace Vycor

open Reader

/-- `fnv32`. -/
def fnv32 (data : Bytes) : UInt32 :=
  data.foldl (fun h b => (h ^^^ b.toUInt32) * 16777619) 2166136261

/-- `kShardVersion`. -/
def kShardVersion : UInt32 := 11

/-- `kIndexShardMagic`. -/
def kIndexShardMagic : Bytes := text "VYAI"

/-- `kGlobalIndexMagic`. -/
def kGlobalIndexMagic : Bytes := text "VYGI"

/-! ### Framed payloads -/

/-- A payload behind its length, with its checksum: the framing journal records and shard
entries share. -/
def putFramed (payload : Bytes) : Bytes :=
  [putU32 (UInt32.ofNat payload.length), payload, putU32 (fnv32 payload)].flatten

/-- A framed payload; `none` where it is cut short or the checksum differs. The source widens
the length before it adds the four bytes of the checksum. -/
def readFramed : Read (Option Bytes) := fun stream =>
  let (len, stream) := u32 stream
  let (room, stream) := need (len.toNat + 4) stream
  if room then
    let payload := stream.rest.take len.toNat
    let (checksum, stream) := u32 (stream.advance len.toNat)
    (if checksum == fnv32 payload then some payload else none, stream)
  else (none, stream)

theorem codes_framed (payload : Bytes) :
    Codes (payload.length < 2 ^ 32) readFramed (putFramed payload) (some payload) := by
  constructor
  · intro hlen post pos
    have hlen' : (UInt32.ofNat payload.length).toNat = payload.length :=
      UInt32.toNat_ofNat_of_lt' hlen
    have hbytes : putFramed payload ++ post =
        putU32 (UInt32.ofNat payload.length) ++ (payload ++ (putU32 (fnv32 payload) ++ post)) := by
      simp [putFramed]
    have hsize : pos + (putFramed payload).length =
        pos + (putU32 (UInt32.ofNat payload.length)).length + payload.length +
          (putU32 (fnv32 payload)).length := by
      simp only [putFramed, List.flatten_cons, List.flatten_nil, List.length_append,
        List.length_nil]
      omega
    have hroom : ∀ pos, need (payload.length + 4)
        ⟨payload ++ (putU32 (fnv32 payload) ++ post), pos, true⟩ =
        (true, ⟨payload ++ (putU32 (fnv32 payload) ++ post), pos, true⟩) := fun pos =>
      if_pos (by simp [putU32])
    have hadvance : ∀ pos, advance payload.length
        ⟨payload ++ (putU32 (fnv32 payload) ++ post), pos, true⟩ =
        ⟨putU32 (fnv32 payload) ++ post, pos + payload.length, true⟩ := fun pos => by
      simp [advance]
    rw [hbytes, hsize, readFramed, (Codes.u32 _).reads trivial]
    simp only [hlen', hroom, hadvance, (Codes.u32 _).reads trivial, List.take_left, if_true,
      beq_self_eq_true]
  · intro hlen
    simp only [putFramed, List.flatten_cons, List.length_append] at hlen
    omega

/-- What is read as a framed payload is one. -/
theorem readFramed_some {rest payload : Bytes} {pos : ℕ} {stream : Reader}
    (h : readFramed ⟨rest, pos, true⟩ = (some payload, stream)) :
    payload.length < 2 ^ 32 ∧ ∃ post, rest = putFramed payload ++ post ∧
      stream = ⟨post, pos + (putFramed payload).length, true⟩ := by
  by_cases hlen : 4 ≤ rest.length
  · obtain ⟨v, body, rfl⟩ := exists_putU32 hlen
    rw [readFramed, (Codes.u32 v).reads trivial] at h
    by_cases hroom : v.toNat + 4 ≤ body.length
    · obtain ⟨c, post, hpost⟩ : ∃ c post, body.drop v.toNat = putU32 c ++ post :=
        exists_putU32 (by rw [List.length_drop]; omega)
      have hneed : ∀ pos, need (v.toNat + 4) ⟨body, pos, true⟩ = (true, ⟨body, pos, true⟩) :=
        fun pos => if_pos (by simpa using hroom)
      have hadvance : ∀ pos, advance v.toNat ⟨body, pos, true⟩ =
          ⟨putU32 c ++ post, pos + v.toNat, true⟩ := fun pos => by rw [advance, hpost]
      simp only [hneed, hadvance, (Codes.u32 c).reads trivial, if_true] at h
      have hsum := congrArg Prod.fst h
      obtain rfl := congrArg Prod.snd h
      dsimp only at hsum
      obtain ⟨hc, hpayload⟩ := Option.ite_none_right_eq_some.mp hsum
      obtain rfl := Option.some_injective _ hpayload
      obtain rfl := eq_of_beq hc
      have htake : (body.take v.toNat).length = v.toNat := by
        rw [List.length_take]
        omega
      have hv : UInt32.ofNat (body.take v.toNat).length = v := by rw [htake, UInt32.ofNat_toNat]
      refine ⟨htake.trans_lt v.toNat_lt, post, ?_, ?_⟩
      · rw [putFramed, hv]
        simp only [List.flatten_cons, List.flatten_nil, List.append_nil, List.append_assoc]
        rw [← hpost, List.take_append_drop]
      · dsimp only
        simp only [putFramed, List.flatten_cons, List.flatten_nil, List.append_nil,
          List.length_append, htake, UInt32.ofNat_toNat, Nat.add_assoc]
    · have hneed : ∀ pos, need (v.toNat + 4) ⟨body, pos, true⟩ = (false, ⟨body, pos, false⟩) :=
        fun pos => if_neg (by simpa using hroom)
      simp only [hneed, Bool.false_eq_true, if_false] at h
      exact absurd (congrArg Prod.fst h) (by simp)
  · rw [readFramed, u32_short (by simpa using hlen)] at h
    exact absurd (congrArg Prod.fst h) (by simp [need])

/-- The length of a payload of `2 ^ 32` bytes or more is cut to 32 bits: the reader takes a
prefix for the payload and what follows it for the checksum. -/
theorem readFramed_overlong {payload cut rest : Bytes} {v : UInt32}
    (hpayload : payload = cut ++ (putU32 v ++ rest)) (hcut : cut.length < 2 ^ 32)
    (hlen : payload.length = cut.length + 2 ^ 32) (hv : v ≠ fnv32 cut) (post : Bytes) (pos : ℕ) :
    (readFramed ⟨putFramed payload ++ post, pos, true⟩).1 = none := by
  have hlen' : (UInt32.ofNat payload.length).toNat = cut.length := by
    rw [UInt32.toNat_ofNat', hlen, Nat.add_mod_right, Nat.mod_eq_of_lt hcut]
  obtain ⟨tail, htail⟩ : ∃ tail, putFramed payload ++ post =
      putU32 (UInt32.ofNat payload.length) ++ (cut ++ (putU32 v ++ tail)) :=
    ⟨rest ++ (putU32 (fnv32 payload) ++ post), by
      simp only [putFramed, List.flatten_cons, List.flatten_nil, List.append_nil,
        List.append_assoc]
      rw [hpayload]
      simp only [List.append_assoc]⟩
  have hroom : ∀ pos, need (cut.length + 4) ⟨cut ++ (putU32 v ++ tail), pos, true⟩ =
      (true, ⟨cut ++ (putU32 v ++ tail), pos, true⟩) := fun pos => if_pos (by simp [putU32])
  have hadvance : ∀ pos, advance cut.length ⟨cut ++ (putU32 v ++ tail), pos, true⟩ =
      ⟨putU32 v ++ tail, pos + cut.length, true⟩ := fun pos => by simp [advance]
  rw [htail, readFramed, (Codes.u32 _).reads trivial]
  simp only [hlen', hroom, hadvance, (Codes.u32 _).reads trivial, List.take_left, if_true,
    beq_eq_false_iff_ne.mpr hv, Bool.false_eq_true, if_false]

/-! ### Writing -/

/-- One entry of `writeShardFile`. -/
def putShardEntry (entry : Bytes × Bytes) : Bytes := [putStr entry.1, putFramed entry.2].flatten

/-- `writeShardFile`: the bytes of the file. -/
def writeShardFile (magic : Bytes) (tuPayloads : List (Bytes × Bytes)) : Bytes :=
  [magic, putU32 kShardVersion, putCounted putShardEntry tuPayloads].flatten

/-! ### Reading -/

/-- The loop of `readShardFile` over the entries left. -/
def readShardEntries {σ : Type} (fn : Bytes → Reader → σ → Bool × σ) :
    ℕ → Reader → σ → Bool × σ
  | 0, stream, s => (stream.ok, s)
  | n + 1, stream, s =>
    let (tu, stream) := str stream
    match readFramed stream with
    | (none, _) => (false, s)
    | (some payload, stream) =>
      let (ok, s) := fn tu ⟨payload, 0, true⟩ s
      if !ok then (false, s) else readShardEntries fn n stream s

/-- `readShardFile` of a file, `none` where it cannot be opened. -/
def readShardFile {σ : Type} (magic : Bytes) (fn : Bytes → Reader → σ → Bool × σ)
    (file : Option Bytes) (s : σ) : Bool × σ :=
  match file with
  | none => (false, s)
  | some buf =>
    let (room, stream) := need 8 ⟨buf, 0, true⟩
    if !room || buf.take 4 != magic then (false, s)
    else
      let (version, stream) := u32 (stream.advance 4)
      if version != kShardVersion then (false, s)
      else
        let (count, stream) := u32 stream
        readShardEntries fn count.toNat stream s

/-! ### The merged index -/

/-- `writeGlobalIndexFile`. -/
def writeGlobalIndexFile (index : GlobalIndex) (order : CheckIterOrder) : Bytes :=
  writeShardFile kGlobalIndexMagic
    [(text "<merged>", encodeIndexPayload (CheckIndexPayload.capture index order))]

/-- The function `readGlobalIndexFile` hands the entries to. -/
def applyMerged (_ : Bytes) (r : Reader) (into : GlobalIndex) : Bool × GlobalIndex :=
  let (payload, r) := decodeIndexPayload r
  if r.ok then (true, payload.applyTo into) else (false, into)

/-- `readGlobalIndexFile`. -/
def readGlobalIndexFile (file : Option Bytes) (into : GlobalIndex) : Bool × GlobalIndex :=
  readShardFile kGlobalIndexMagic applyMerged file into

/-! ### Reading back what was written -/

section

variable {σ : Type} {fn : Bytes → Reader → σ → Bool × σ}

/-- The first entry of a file is handed over when it fits. -/
theorem readShardEntries_succ (fn : Bytes → Reader → σ → Bool × σ) {e : Bytes × Bytes} (htu : e.1.length < 2 ^ 32)
    (hlen : e.2.length < 2 ^ 32) (n : ℕ) (post : Bytes) (pos : ℕ) (s : σ) :
    readShardEntries fn (n + 1) ⟨putShardEntry e ++ post, pos, true⟩ s =
      if (fn e.1 ⟨e.2, 0, true⟩ s).1 then
        readShardEntries fn n ⟨post, pos + (putShardEntry e).length, true⟩
          (fn e.1 ⟨e.2, 0, true⟩ s).2
      else (false, (fn e.1 ⟨e.2, 0, true⟩ s).2) := by
  have htuRead := (Codes.str e.1).reads htu (putFramed e.2 ++ post) pos
  have hframe := (codes_framed e.2).reads hlen post (pos + (putStr e.1).length)
  have hbytes : putShardEntry e ++ post = putStr e.1 ++ (putFramed e.2 ++ post) := by
    simp [putShardEntry]
  have hpos : pos + (putShardEntry e).length =
      pos + (putStr e.1).length + (putFramed e.2).length := by
    simp [putShardEntry, Nat.add_assoc]
  rw [readShardEntries, hbytes, htuRead, hpos]
  simp only [hframe]
  cases (fn e.1 ⟨e.2, 0, true⟩ s).1 <;> rfl

/-- The header of a written file leads to its entries. -/
theorem readShardFile_writeShardFile {magic : Bytes} (hmagic : magic.length = 4)
    {tuPayloads : List (Bytes × Bytes)} (hcount : tuPayloads.length < 2 ^ 32) (s : σ) :
    readShardFile magic fn (some (writeShardFile magic tuPayloads)) s =
      readShardEntries fn tuPayloads.length ⟨tuPayloads.flatMap putShardEntry, 12, true⟩ s := by
  have hbytes : writeShardFile magic tuPayloads = magic ++ (putU32 kShardVersion ++
      (putU32 (UInt32.ofNat tuPayloads.length) ++ tuPayloads.flatMap putShardEntry)) := by
    simp [writeShardFile, putCounted]
  have hroom : need 8 ⟨writeShardFile magic tuPayloads, 0, true⟩ =
      (true, ⟨writeShardFile magic tuPayloads, 0, true⟩) :=
    if_pos (by simp [hbytes, putU32, hmagic]; omega)
  have hadvance : advance 4 ⟨writeShardFile magic tuPayloads, 0, true⟩ =
      ⟨putU32 kShardVersion ++ (putU32 (UInt32.ofNat tuPayloads.length) ++
        tuPayloads.flatMap putShardEntry), 4, true⟩ := by
    rw [hbytes, advance, ← hmagic, List.drop_left, Nat.zero_add, hmagic]
  have htake : (writeShardFile magic tuPayloads).take 4 = magic := by
    rw [hbytes, ← hmagic, List.take_left]
  simp only [readShardFile, hroom, hadvance, htake, (Codes.u32 _).reads trivial, Bool.not_true,
    Bool.false_or, bne_self_eq_false, Bool.false_eq_true, if_false,
    UInt32.toNat_ofNat_of_lt' hcount]
  congr 1

end

end Vycor
