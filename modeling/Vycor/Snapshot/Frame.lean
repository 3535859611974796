import Vycor.Snapshot.Fingerprint
import Vycor.Snapshot.Records

/-!
# The frame of a snapshot file

A snapshot starts with a header: magic, format version, summary counts and a table with the
place and the checksum of each section; a checksum of the header closes it, and the sections
follow back to back. `parseHeader` is what a load trusts of the file: it finds the sections of
a file that was saved (`parseHeader_snapshotFile`), and whatever the bytes are, every section
it names lies behind the header and inside the file (`inside_of_parseHeader`).
-/

namespace Vycor

open Reader

/-- `kMagic`. -/
def kMagic : Bytes := text "VYCS"

/-- `SnapshotIO::kHeaderBytes`. -/
def kHeaderBytes : ℕ := 4 + 4 + 32 + 4 + 4 * 25 + 8

/-- `kSectionKinds`. -/
def kSectionKinds : ℕ := 4

/-- `IndexSummary`. -/
structure IndexSummary where
  nodes : UInt64 := 0
  edges : UInt64 := 0
  callSites : UInt64 := 0
  channelSites : UInt64 := 0
  deriving DecidableEq, Repr, Inhabited

/-- `checksumOf`. -/
def checksumOf (ll : Llvm) (bytes : Bytes) : UInt64 := UInt64.ofNat (ll.xxh3_64bits bytes)

/-- `sectionName`. -/
def sectionName (kind : ℕ) : Bytes :=
  if kind = 0 then text "meta" else if kind = 1 then text "graph"
  else if kind = 2 then text "control_flow" else if kind = 3 then text "channels"
  else text "unknown"

/-! ### Writing -/

/-- The entries of the section table, from a kind and an offset on. -/
def sectionTable (ll : Llvm) : ℕ → ℕ → List Bytes → Bytes
  | _, _, [] => []
  | kind, offset, bytes :: rest =>
    [putU8 (UInt8.ofNat kind), putU64 (UInt64.ofNat offset), putU64 (UInt64.ofNat bytes.length),
      putU64 (checksumOf ll bytes)].flatten ++ sectionTable ll (kind + 1) (offset + bytes.length) rest

/-- The part of the header that its checksum covers. -/
def headerBytes (ll : Llvm) (summary : IndexSummary) (sections : List Bytes) : Bytes :=
  [kMagic, putU32 (UInt32.ofNat kFormatVersion), putU64 summary.nodes, putU64 summary.edges,
    putU64 summary.callSites, putU64 summary.channelSites, putU32 (UInt32.ofNat kSectionKinds),
    sectionTable ll 0 kHeaderBytes sections].flatten

/-- The file that `SnapshotIO::save` writes. -/
def snapshotFile (ll : Llvm) (summary : IndexSummary) (sections : List Bytes) : Bytes :=
  headerBytes ll summary sections ++ putU64 (checksumOf ll (headerBytes ll summary sections)) ++
    sections.flatten

/-! ### Reading -/

/-- `Header::Range`. -/
structure SectionRange where
  offset : ℕ
  length : ℕ
  checksum : UInt64
  deriving DecidableEq, Repr

/-- `Header`. -/
structure SnapshotHeader where
  summary : IndexSummary
  ranges : ℕ → Option SectionRange

/-- The loop over the section table; `fileEnd` is `end`. -/
def parseTable (fileSize : ℕ) : ℕ → (ℕ → Option SectionRange) → ℕ → Reader →
    Except Bytes ((ℕ → Option SectionRange) × ℕ × Reader)
  | 0, ranges, fileEnd, r => .ok (ranges, fileEnd, r)
  | n + 1, ranges, fileEnd, r =>
    let kind := u8 r
    let offset := u64 kind.2
    let length := u64 offset.2
    let checksum := u64 length.2
    if kSectionKinds ≤ kind.1.toNat ∨ (ranges kind.1.toNat).isSome then
      .error (text "section table is malformed")
    else if offset.1.toNat < kHeaderBytes ∨ fileSize < offset.1.toNat ∨
        fileSize - offset.1.toNat < length.1.toNat then
      .error (text "section '" ++ sectionName kind.1.toNat ++
        text "' lies outside the file (truncated?)")
    else
      parseTable fileSize n
        (Function.update ranges kind.1.toNat
          (some ⟨offset.1.toNat, length.1.toNat, checksum.1⟩))
        (max fileEnd (offset.1.toNat + length.1.toNat)) checksum.2

/-- `parseHeader`: the header, or what is wrong. -/
def parseHeader (ll : Llvm) (buf : Bytes) : Except Bytes SnapshotHeader :=
  let magic := bytes 4 ⟨buf, 0, true⟩
  if !magic.2.ok || magic.1 ≠ kMagic then .error (text "not a megascope index (bad magic)")
  else
    let version := u32 magic.2
    if !version.2.ok then .error (text "truncated header")
    else if version.1 ≠ UInt32.ofNat kFormatVersion then
      .error (text "format version " ++ decimal version.1.toNat ++ text ", expected " ++
        decimal kFormatVersion)
    else if buf.length < kHeaderBytes then .error (text "truncated header")
    else
      let covered := kHeaderBytes - 8
      let tail := u64 ⟨(buf.drop covered).take 8, covered, true⟩
      if tail.1 ≠ checksumOf ll (buf.take covered) then .error (text "header checksum mismatch")
      else
        let nodes := u64 version.2
        let edges := u64 nodes.2
        let callSites := u64 edges.2
        let channelSites := u64 callSites.2
        let tableCount := u32 channelSites.2
        if tableCount.1.toNat ≠ kSectionKinds then
          .error (text "section table has " ++ decimal tableCount.1.toNat ++
            text " entries, expected " ++ decimal kSectionKinds)
        else do
          let table ← parseTable buf.length kSectionKinds (fun _ => none) kHeaderBytes tableCount.2
          if table.2.2.ok && decide (table.2.1 ≠ buf.length) then
            .error (decimal (buf.length - table.2.1) ++
              text " trailing byte(s) after the last section")
          else if table.2.2.ok then
            .ok ⟨⟨nodes.1, edges.1, callSites.1, channelSites.1⟩, table.1⟩
          else .error []

/-- The bytes of a section. -/
def SectionRange.bytes (range : SectionRange) (buf : Bytes) : Bytes :=
  (buf.drop range.offset).take range.length

/-- `verifySection`. -/
def verifySection (ll : Llvm) (buf : Bytes) (kind : ℕ) (range : SectionRange) : Except Bytes Unit :=
  if checksumOf ll (range.bytes buf) = range.checksum then .ok ()
  else .error (text "section '" ++ sectionName kind ++
    text "' checksum mismatch (the file is damaged)")

/-! ### What a parsed header promises -/

/-- What the loop over the section table keeps after `count` entries. -/
structure TableInv (fileSize : ℕ) (ranges : ℕ → Option SectionRange) (fileEnd count : ℕ) : Prop where
  inside : ∀ kind range, ranges kind = some range → kHeaderBytes ≤ range.offset ∧
    range.offset + range.length ≤ fileEnd
  reached : fileEnd = kHeaderBytes ∨ ∃ kind range, ranges kind = some range ∧
    range.offset + range.length = fileEnd
  present : (List.range kSectionKinds).countP (fun kind => (ranges kind).isSome) = count
  fits : fileEnd ≤ fileSize

/-- One more kind is present. -/
theorem countP_isSome_update {α : Type*} {m : ℕ → Option α} {n kind : ℕ} (a : α) (hkind : kind < n)
    (hnone : m kind = none) :
    (List.range n).countP (fun k => (Function.update m kind (some a) k).isSome) =
      (List.range n).countP (fun k => (m k).isSome) + 1 := by
  induction n with
  | zero => cases hkind
  | succ n ih =>
    rw [List.range_succ, List.countP_append, List.countP_append, List.countP_singleton,
      List.countP_singleton]
    by_cases heq : kind = n
    · subst heq
      have hold : ∀ k ∈ List.range kind, (Function.update m kind (some a) k).isSome = true ↔
          (m k).isSome = true := fun k hk => by
        rw [Function.update_of_ne (List.mem_range.mp hk).ne]
      rw [List.countP_congr hold, Function.update_self, hnone]
      rfl
    · rw [ih (by omega), Function.update_of_ne (Ne.symm heq)]
      omega

theorem TableInv.parseTable {fileSize n count : ℕ} {ranges ranges' : ℕ → Option SectionRange}
    {fileEnd fileEnd' : ℕ} {r r' : Reader} (h : TableInv fileSize ranges fileEnd count)
    (hparse : Vycor.parseTable fileSize n ranges fileEnd r = .ok (ranges', fileEnd', r')) :
    TableInv fileSize ranges' fileEnd' (count + n) := by
  induction n generalizing ranges fileEnd r count with
  | zero =>
    obtain ⟨rfl, rfl, rfl⟩ : ranges = ranges' ∧ fileEnd = fileEnd' ∧ r = r' := by
      simpa [Vycor.parseTable] using hparse
    exact h
  | succ n ih =>
    rw [Vycor.parseTable] at hparse
    split at hparse
    · cases hparse
    · split at hparse
      · cases hparse
      · rename_i hkind hplace
        obtain ⟨hkind, hnew⟩ := not_or.mp hkind
        rw [Bool.not_eq_true, Option.isSome_eq_false_iff, Option.isNone_iff_eq_none] at hnew
        set kind := (u8 r).1.toNat
        set offset := (u64 (u8 r).2).1.toNat
        set length := (u64 (u64 (u8 r).2).2).1.toNat
        have hstep : TableInv fileSize (Function.update ranges kind
            (some ⟨offset, length, (u64 (u64 (u64 (u8 r).2).2).2).1⟩))
            (max fileEnd (offset + length)) (count + 1) := by
          refine ⟨fun k range hk => ?_, ?_, ?_, ?_⟩
          · by_cases heq : k = kind
            · subst heq
              rw [Function.update_self, Option.some_inj] at hk
              subst hk
              exact ⟨not_lt.mp (not_or.mp hplace).1, le_max_right _ _⟩
            · rw [Function.update_of_ne heq] at hk
              exact ⟨(h.inside k range hk).1, (h.inside k range hk).2.trans (le_max_left _ _)⟩
          · by_cases hlast : fileEnd ≤ offset + length
            · rw [max_eq_right hlast]
              exact .inr ⟨kind, _, Function.update_self .., rfl⟩
            · rw [max_eq_left (not_le.mp hlast).le]
              refine h.reached.imp id fun hreach => ?_
              obtain ⟨k, range, hk, hend⟩ := hreach
              have hne : k ≠ kind := fun heq => by
                rw [heq, hnew] at hk
                cases hk
              exact ⟨k, range, by rw [Function.update_of_ne hne, hk], hend⟩
          · rw [countP_isSome_update _ (not_le.mp hkind) hnew, h.present]
          · exact max_le h.fits (by omega)
        have hrest := ih hstep hparse
        rwa [Nat.add_assoc, Nat.add_comm 1 n] at hrest

theorem exists_of_bind_eq_ok {ε α β : Type} {x : Except ε α} {f : α → Except ε β} {b : β}
    (h : (x >>= f) = .ok b) : ∃ a, x = .ok a ∧ f a = .ok b := by
  cases x with
  | error e => cases h
  | ok a => exact ⟨a, rfl, h⟩

/-- **A load reads sections inside the file only**, whatever the bytes of the file are: the
header names all of them, each lies between the header and the end of the file, and nothing
follows the last one. -/
theorem inside_of_parseHeader {ll : Llvm} {buf : Bytes} {h : SnapshotHeader}
    (hparse : parseHeader ll buf = .ok h) :
    (∀ kind < kSectionKinds, ∃ range, h.ranges kind = some range ∧ kHeaderBytes ≤ range.offset ∧
      range.offset + range.length ≤ buf.length ∧ (range.bytes buf).length = range.length) ∧
      (buf.length = kHeaderBytes ∨ ∃ kind range, h.ranges kind = some range ∧
        range.offset + range.length = buf.length) := by
  have hempty : TableInv buf.length (fun _ => none) kHeaderBytes 0 ∨ buf.length < kHeaderBytes := by
    by_cases hshort : buf.length < kHeaderBytes
    · exact .inr hshort
    · refine .inl ⟨fun _ _ hk => ?_, .inl rfl, rfl, not_lt.mp hshort⟩
      cases hk
  simp only [parseHeader] at hparse
  split at hparse
  · cases hparse
  split at hparse
  · cases hparse
  split at hparse
  · cases hparse
  split at hparse
  · cases hparse
  rename_i hlong
  split at hparse
  · cases hparse
  split at hparse
  · cases hparse
  obtain ⟨⟨ranges, fileEnd, r⟩, htable, hparse⟩ := exists_of_bind_eq_ok hparse
  dsimp only at hparse
  split at hparse
  · cases hparse
  rename_i hend
  split at hparse
  · rename_i hok
    obtain rfl := Except.ok.inj hparse
    have hinv := (hempty.resolve_right hlong).parseTable htable
    rw [Nat.zero_add] at hinv
    have hreached : fileEnd = buf.length := by
      by_contra hne
      exact hend (by rw [hok, decide_eq_true hne]; rfl)
    refine ⟨fun kind hkind => ?_, ?_⟩
    · have hpresent : (ranges kind).isSome = true :=
        List.countP_eq_length.mp (hinv.present.trans (List.length_range).symm) kind
          (List.mem_range.mpr hkind)
      obtain ⟨range, hrange⟩ := Option.isSome_iff_exists.mp hpresent
      obtain ⟨hbehind, hinside⟩ := hinv.inside kind range hrange
      refine ⟨range, hrange, hbehind, hreached ▸ hinside, ?_⟩
      rw [SectionRange.bytes, List.length_take, List.length_drop]
      omega
    · rw [← hreached]
      exact hinv.reached
  · cases hparse

/-! ### The frame of a saved file -/

/-- The ranges of sections that stand back to back, from a kind and an offset on. -/
def tableRanges (ll : Llvm) : ℕ → ℕ → List Bytes → (ℕ → Option SectionRange) →
    ℕ → Option SectionRange
  | _, _, [], ranges => ranges
  | kind, offset, bytes :: rest, ranges =>
    tableRanges ll (kind + 1) (offset + bytes.length) rest
      (Function.update ranges kind (some ⟨offset, bytes.length, checksumOf ll bytes⟩))

section Saved

variable {ll : Llvm}

theorem tableRanges_of_lt {sections : List Bytes} {kind offset k : ℕ}
    {ranges : ℕ → Option SectionRange} (hk : k < kind) :
    tableRanges ll kind offset sections ranges k = ranges k := by
  induction sections generalizing kind offset ranges with
  | nil => rfl
  | cons bytes rest ih =>
    rw [tableRanges, ih (by omega), Function.update_of_ne hk.ne]

theorem tableRanges_add (ll : Llvm) {sections : List Bytes} (kind offset : ℕ) {i : ℕ}
    (ranges : ℕ → Option SectionRange) {bytes : Bytes} (hi : sections[i]? = some bytes) :
    tableRanges ll kind offset sections ranges (kind + i) =
      some ⟨offset + (sections.take i).flatten.length, bytes.length, checksumOf ll bytes⟩ := by
  induction sections generalizing kind offset ranges i with
  | nil => cases hi
  | cons first rest ih =>
    cases i with
    | zero =>
      obtain rfl := Option.some_inj.mp hi
      change tableRanges ll (kind + 1) _ rest _ kind = _
      rw [tableRanges_of_lt (Nat.lt_succ_self kind), Function.update_self]
      rfl
    | succ i =>
      rw [tableRanges, ← Nat.add_assoc, Nat.add_right_comm, ih (kind + 1) _ _ hi, List.take_succ_cons,
        List.flatten_cons, List.length_append, Nat.add_assoc]

/-- The loop reads the table of sections that stand back to back. -/
theorem parseTable_sectionTable (ll : Llvm) (sections : List Bytes) {fileSize : ℕ}
    (kind offset pos : ℕ) (ranges : ℕ → Option SectionRange) (post : Bytes)
    (hkind : kind + sections.length ≤ kSectionKinds) (hnew : ∀ k, kind ≤ k → ranges k = none)
    (hoffset : kHeaderBytes ≤ offset) (hfits : offset + sections.flatten.length ≤ fileSize)
    (hsize : fileSize < 2 ^ 64) :
    parseTable fileSize sections.length ranges offset
      ⟨sectionTable ll kind offset sections ++ post, pos, true⟩ =
        .ok (tableRanges ll kind offset sections ranges, offset + sections.flatten.length,
          ⟨post, pos + 25 * sections.length, true⟩) := by
  induction sections generalizing kind offset ranges pos with
  | nil => rfl
  | cons bytes rest ih =>
    rw [List.length_cons] at hkind
    rw [List.flatten_cons, List.length_append] at hfits
    have hshape : sectionTable ll kind offset (bytes :: rest) ++ post =
        putU8 (UInt8.ofNat kind) ++ (putU64 (UInt64.ofNat offset) ++
          (putU64 (UInt64.ofNat bytes.length) ++ (putU64 (checksumOf ll bytes) ++
            (sectionTable ll (kind + 1) (offset + bytes.length) rest ++ post)))) := by
      simp only [sectionTable, List.flatten_cons, List.flatten_nil, List.append_nil,
        List.append_assoc]
    have hbyte : (UInt8.ofNat kind).toNat = kind := UInt8.toNat_ofNat_of_lt'
      (lt_of_lt_of_le (by omega : kind < kSectionKinds) (by decide))
    have hplace : (UInt64.ofNat offset).toNat = offset :=
      UInt64.toNat_ofNat_of_lt' (lt_of_le_of_lt (by omega : offset ≤ fileSize) hsize)
    have hlength : (UInt64.ofNat bytes.length).toNat = bytes.length :=
      UInt64.toNat_ofNat_of_lt' (lt_of_le_of_lt (by omega : bytes.length ≤ fileSize) hsize)
    have hrest := ih (kind + 1) (offset + bytes.length)
      (pos + (putU8 (UInt8.ofNat kind)).length + (putU64 (UInt64.ofNat offset)).length +
        (putU64 (UInt64.ofNat bytes.length)).length + (putU64 (checksumOf ll bytes)).length)
      (Function.update ranges kind (some ⟨offset, bytes.length, checksumOf ll bytes⟩))
      (by omega) (fun k hk => by rw [Function.update_of_ne (by omega), hnew k (by omega)])
      (by omega) (by omega)
    have hpos : pos + (putU8 (UInt8.ofNat kind)).length + (putU64 (UInt64.ofNat offset)).length +
        (putU64 (UInt64.ofNat bytes.length)).length + (putU64 (checksumOf ll bytes)).length +
          25 * rest.length = pos + 25 * (rest.length + 1) := by
      simp only [putU8, putU64, length_toLe, List.length_singleton]
      omega
    rw [List.length_cons, parseTable, hshape]
    simp only [(Codes.u8 _).reads trivial, (Codes.u64 _).reads trivial, hbyte, hplace, hlength]
    rw [if_neg (by rw [hnew kind le_rfl]; simp; omega), if_neg (by omega),
      max_eq_right (Nat.le_add_right _ _), hrest, List.flatten_cons, List.length_append,
      ← Nat.add_assoc, hpos]
    rfl

theorem length_sectionTable (ll : Llvm) (kind offset : ℕ) (sections : List Bytes) :
    (sectionTable ll kind offset sections).length = 25 * sections.length := by
  induction sections generalizing kind offset with
  | nil => rfl
  | cons bytes rest ih =>
    simp only [sectionTable, List.length_append, List.flatten_cons, List.flatten_nil, List.length_nil,
      putU8, putU64, length_toLe, ih, List.length_cons]
    omega

theorem length_headerBytes (summary : IndexSummary) {sections : List Bytes}
    (hsections : sections.length = kSectionKinds) :
    (headerBytes ll summary sections).length = kHeaderBytes - 8 := by
  simp only [headerBytes, List.flatten_cons, List.flatten_nil, List.length_append, List.length_nil,
    putU32, putU64, length_toLe, length_sectionTable, hsections]
  decide

/-- **The header of a saved file is read back**, and every section is found where it is. -/
theorem parseHeader_snapshotFile (summary : IndexSummary) {sections : List Bytes}
    (hsections : sections.length = kSectionKinds)
    (hsize : (snapshotFile ll summary sections).length < 2 ^ 64) :
    ∃ h, parseHeader ll (snapshotFile ll summary sections) = .ok h ∧ h.summary = summary ∧
      ∀ (kind : ℕ) (bytes : Bytes), sections[kind]? = some bytes → ∃ range,
        h.ranges kind = some range ∧ range.bytes (snapshotFile ll summary sections) = bytes ∧
          range.checksum = checksumOf ll bytes := by
  set file := snapshotFile ll summary sections with hfile
  set head := headerBytes ll summary sections with hhead
  have hheadlen : head.length = kHeaderBytes - 8 := length_headerBytes summary hsections
  have hsplit : file = head ++ (putU64 (checksumOf ll head) ++ sections.flatten) := by
    rw [hfile, snapshotFile, List.append_assoc]
  have hfilelen : file.length = kHeaderBytes + sections.flatten.length := by
    rw [hsplit, List.length_append, List.length_append, hheadlen, putU64, length_toLe]
    rw [← Nat.add_assoc]
    rfl
  have hshape : file = kMagic ++ (putU32 (UInt32.ofNat kFormatVersion) ++ (putU64 summary.nodes ++
      (putU64 summary.edges ++ (putU64 summary.callSites ++ (putU64 summary.channelSites ++
        (putU32 (UInt32.ofNat kSectionKinds) ++ (sectionTable ll 0 kHeaderBytes sections ++
          (putU64 (checksumOf ll head) ++ sections.flatten)))))))) := by
    rw [hsplit, hhead, headerBytes]
    simp only [List.flatten_cons, List.flatten_nil, List.append_nil, List.append_assoc]
  have hmagic := (Codes.bytes (by decide : kMagic.length = 4)).reads trivial
  have htail : (u64 ⟨(file.drop (kHeaderBytes - 8)).take 8, kHeaderBytes - 8, true⟩).1 =
      checksumOf ll (file.take (kHeaderBytes - 8)) := by
    have hstored := (Codes.u64 (checksumOf ll head)).reads trivial [] (kHeaderBytes - 8)
    rw [List.append_nil] at hstored
    rw [hsplit, ← hheadlen, List.drop_left, List.take_left, ← length_toLe 8
      (checksumOf ll head).toNat, ← putU64, List.take_left, hheadlen, hstored]
  have htable (pos : ℕ) := parseTable_sectionTable ll sections 0 kHeaderBytes pos (fun _ => none)
    (putU64 (checksumOf ll head) ++ sections.flatten) (by omega) (fun _ _ => rfl) le_rfl hfilelen.ge hsize
  refine ⟨⟨summary, tableRanges ll 0 kHeaderBytes sections fun _ => none⟩, ?_, rfl,
    fun kind bytes hbytes => ?_⟩
  · have hstart : Reader.bytes 4 ⟨file, 0, true⟩ = (kMagic, ⟨putU32 (UInt32.ofNat kFormatVersion) ++
        (putU64 summary.nodes ++ (putU64 summary.edges ++ (putU64 summary.callSites ++
          (putU64 summary.channelSites ++ (putU32 (UInt32.ofNat kSectionKinds) ++
            (sectionTable ll 0 kHeaderBytes sections ++
              (putU64 (checksumOf ll head) ++ sections.flatten))))))), 0 + kMagic.length, true⟩) := by
      rw [hshape]
      exact hmagic _ _
    have hcount : (UInt32.ofNat kSectionKinds).toNat = kSectionKinds := by decide
    rw [parseHeader, hstart]
    simp only [(Codes.u64 _).reads trivial, (Codes.u32 _).reads trivial, htail, hcount]
    rw [if_neg (by simp), if_neg (by simp), if_neg (by simp), if_neg (by omega), if_neg (by simp),
      if_neg (by simp), ← hsections, htable]
    change (if _ then _ else _) = _
    rw [if_neg (by simp [hfilelen])]
    rfl
  · have hrange := tableRanges_add ll 0 kHeaderBytes (fun _ => none) hbytes
    rw [Nat.zero_add] at hrange
    refine ⟨_, hrange, ?_, rfl⟩
    obtain ⟨hlt, hget⟩ := List.getElem?_eq_some_iff.mp hbytes
    have hwhole : sections.flatten =
        (sections.take kind).flatten ++ (bytes ++ (sections.drop (kind + 1)).flatten) := by
      conv_lhs => rw [← List.take_append_drop kind sections, List.drop_eq_getElem_cons hlt, hget]
      rw [List.flatten_append, List.flatten_cons]
    have hplace : file = (head ++ putU64 (checksumOf ll head) ++ (sections.take kind).flatten) ++
        (bytes ++ (sections.drop (kind + 1)).flatten) := by
      rw [hsplit, hwhole]
      simp only [List.append_assoc]
    have hbefore : (head ++ putU64 (checksumOf ll head) ++ (sections.take kind).flatten).length =
        kHeaderBytes + (sections.take kind).flatten.length := by
      rw [List.length_append, List.length_append, hheadlen, putU64, length_toLe]
      rfl
    rw [SectionRange.bytes, hplace, ← hbefore, List.drop_left, List.take_left]

end Saved

end Vycor
