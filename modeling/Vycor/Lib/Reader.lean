import Vycor.Lib.Memory

/-!
# Length-prefixed binary records

Writers of little-endian numbers, length-prefixed strings and counted lists, and the reader
for them: a cursor over a byte string whose failure is sticky, so that after the first
overrun every read answers zero or nothing and the caller looks at `ok` once.

`Codes φ dec bs a` says that `dec` reads `bs` back as `a` wherever `bs` stands, provided the
lengths in `a` fit their fields (`φ`), and that they do when `bs` is short. The rules follow
the way writers and readers are put together, so the statement about a record is assembled
field by field.
-/

namespace Vycor

/-! ### Writing -/

/-- A byte. -/
def putU8 (v : UInt8) : List UInt8 := [v]

/-- A 32-bit number. -/
def putU32 (v : UInt32) : List UInt8 := toLe 4 v.toNat

/-- A 64-bit number. -/
def putU64 (v : UInt64) : List UInt8 := toLe 8 v.toNat

/-- A string behind its length. The length is cut to 32 bits. -/
def putStr (s : List UInt8) : List UInt8 := putU32 (UInt32.ofNat s.length) ++ s

/-- The items of a list behind their number. The number is cut to 32 bits. -/
def putCounted {α : Type*} (put : α → List UInt8) (l : List α) : List UInt8 :=
  putU32 (UInt32.ofNat l.length) ++ l.flatMap put

/-! ### Reading -/

/-- A cursor over a byte string: the bytes from the position on, the position, and whether
every read so far stayed inside. -/
structure Reader where
  rest : List UInt8
  pos : ℕ := 0
  ok : Bool := true

/-- A computation that reads. -/
abbrev Read (α : Type) := StateM Reader α

namespace Reader

/-- Whether `n` more bytes can be read; if not, the reader fails. -/
def need (n : ℕ) : Read Bool := fun r =>
  if r.ok && decide (n ≤ r.rest.length) then (true, r) else (false, { r with ok := false })

/-- Step over `n` bytes. -/
def advance (n : ℕ) (r : Reader) : Reader :=
  { r with rest := r.rest.drop n, pos := r.pos + n }

/-- The next `n` bytes, nothing if they are not all there. -/
def bytes (n : ℕ) : Read (List UInt8) := do
  if ← need n then
    let r ← get
    set (r.advance n)
    return r.rest.take n
  else return []

/-- A byte. -/
def u8 : Read UInt8 := do return UInt8.ofNat (ofLe (← bytes 1))

/-- A 32-bit number. -/
def u32 : Read UInt32 := do return UInt32.ofNat (ofLe (← bytes 4))

/-- A 64-bit number. -/
def u64 : Read UInt64 := do return UInt64.ofNat (ofLe (← bytes 8))

/-- A string behind its length. -/
def str : Read (List UInt8) := do
  let n ← u32
  bytes n.toNat

/-- Mark the reader as failed. -/
def fail : Read Unit := modify fun r => { r with ok := false }

/-- Whether every read so far stayed inside. -/
def isOk : Read Bool := do return (← get).ok

/-- `n` items, one after the other, as long as the reader has not failed. -/
def times {α : Type} (item : Read α) : ℕ → Read (List α)
  | 0 => return []
  | n + 1 => do
    if ← isOk then
      let a ← item
      let rest ← times item n
      return a :: rest
    else return []

/-- The items of a list behind their number. -/
def counted {α : Type} (item : Read α) : Read (List α) := do
  let n ← u32
  times item n.toNat

end Reader

/-! ### Overruns -/

namespace Reader

theorem bytes_short {n : ℕ} {r : Reader} (h : r.rest.length < n) :
    bytes n r = ([], { r with ok := false }) := by
  have hneed : need n r = (false, { r with ok := false }) := if_neg (by simp; omega)
  change (match need n r with
    | (b, r) => (if b then (do
        let r ← get
        set (r.advance n)
        return r.rest.take n) else return [] : Read _) r) = _
  rw [hneed]
  rfl

theorem u32_short {r : Reader} (h : r.rest.length < 4) : u32 r = (0, { r with ok := false }) := by
  change (UInt32.ofNat (ofLe (bytes 4 r).1), (bytes 4 r).2) = _
  rw [bytes_short h]
  rfl

/-- Bytes are a number as it is written. -/
theorem exists_toLe {bs : List UInt8} {n : ℕ} (h : n ≤ bs.length) :
    ∃ v rest, v < 256 ^ n ∧ bs = toLe n v ++ rest := by
  have hlen : (bs.take n).length = n := by rw [List.length_take, min_eq_left h]
  have hlt := ofLe_lt (bs.take n)
  have hle := toLe_ofLe (bs.take n)
  rw [hlen] at hlt hle
  exact ⟨ofLe (bs.take n), bs.drop n, hlt, by rw [hle, List.take_append_drop]⟩

theorem exists_putU32 {bs : List UInt8} (h : 4 ≤ bs.length) :
    ∃ v rest, bs = putU32 v ++ rest := by
  obtain ⟨v, rest, hv, rfl⟩ := exists_toLe h
  exact ⟨UInt32.ofNat v, rest, by rw [putU32, UInt32.toNat_ofNat_of_lt' hv]⟩

theorem exists_putU64 {bs : List UInt8} (h : 8 ≤ bs.length) :
    ∃ v rest, bs = putU64 v ++ rest := by
  obtain ⟨v, rest, hv, rfl⟩ := exists_toLe h
  exact ⟨UInt64.ofNat v, rest, by rw [putU64, UInt64.toNat_ofNat_of_lt' hv]⟩

end Reader

/-! ### Reading back what was written -/

/-- `dec` reads `bs` back as `a` at any place, if the lengths in `a` fit (`φ`); and they fit
if `bs` is shorter than `2 ^ 32`. -/
structure Codes {α : Type} (φ : Prop) (dec : Read α) (bs : List UInt8) (a : α) : Prop where
  reads : φ → ∀ post pos, dec ⟨bs ++ post, pos, true⟩ = (a, ⟨post, pos + bs.length, true⟩)
  fits : bs.length < 2 ^ 32 → φ

namespace Codes

open Reader

variable {α β : Type} {φ ψ : Prop} {dec : Read α} {bs bs' : List UInt8} {a : α} {b : β}

theorem congr (h : Codes φ dec bs a) (hiff : φ ↔ ψ) : Codes ψ dec bs a :=
  ⟨fun hψ => h.reads (hiff.mpr hψ), fun hlen => hiff.mp (h.fits hlen)⟩

theorem value {a' : α} (h : Codes φ dec bs a) (heq : a = a') : Codes φ dec bs a' := heq ▸ h

theorem pure (a : α) : Codes True (return a : Read α) [] a :=
  ⟨fun _ _ _ => rfl, fun _ => trivial⟩

theorem bind {f : α → Read β} (h : Codes φ dec bs a) (h' : Codes ψ (f a) bs' b) :
    Codes (φ ∧ ψ) (dec >>= f) (bs ++ bs') b := by
  constructor
  · rintro ⟨hφ, hψ⟩ post pos
    have hfirst := h.reads hφ (bs' ++ post) pos
    have hnext := h'.reads hψ post (pos + bs.length)
    change (match dec ⟨bs ++ bs' ++ post, pos, true⟩ with | (a, r) => f a r) = _
    rw [List.append_assoc, hfirst, List.length_append, ← Nat.add_assoc]
    exact hnext
  · intro hlen
    rw [List.length_append] at hlen
    exact ⟨h.fits (by omega), h'.fits (by omega)⟩

/-- The last field of a record. -/
theorem last {f : α → β} (h : Codes φ dec bs a) :
    Codes φ (dec >>= fun x => return f x) bs (f a) := by
  have hbind : Codes (φ ∧ True) (dec >>= fun x => return f x) (bs ++ []) (f a) :=
    h.bind (pure (f a))
  rw [List.append_nil] at hbind
  exact hbind.congr (Iff.of_eq (and_true φ))

/-- A field of a record, where the rest of the record follows. -/
theorem field {f : α → Read β} {rest : List (List UInt8)} (h : Codes φ dec bs a)
    (h' : Codes ψ (f a) rest.flatten b) :
    Codes (φ ∧ ψ) (dec >>= f) (bs :: rest).flatten b := h.bind h'

/-- The end of a record. -/
theorem done (a : α) : Codes True (return a : Read α) ([] : List (List UInt8)).flatten a := pure a

/-- Bytes whose number is known. -/
theorem bytes {n : ℕ} (hn : bs.length = n) : Codes True (Reader.bytes n) bs bs := by
  refine ⟨fun _ post pos => ?_, fun _ => trivial⟩
  have hneed : need n ⟨bs ++ post, pos, true⟩ = (true, ⟨bs ++ post, pos, true⟩) :=
    if_pos (by simp [← hn])
  change (match need n ⟨bs ++ post, pos, true⟩ with
    | (b, r) => (if b then (do
        let r ← get
        set (r.advance n)
        return r.rest.take n) else return [] : Read _) r) = _
  rw [hneed, ← hn]
  simp only [if_true]
  change ((bs ++ post).take bs.length, (⟨(bs ++ post).drop bs.length, pos + bs.length, true⟩ : Reader)) = _
  rw [List.take_left, List.drop_left]

theorem u8 (v : UInt8) : Codes True Reader.u8 (putU8 v) v := by
  have h : Codes True Reader.u8 (putU8 v) (UInt8.ofNat (ofLe (putU8 v))) :=
    (bytes (n := 1) rfl).last
  simpa [putU8, ofLe] using h

theorem u32 (v : UInt32) : Codes True Reader.u32 (putU32 v) v := by
  have h : Codes True Reader.u32 (putU32 v) (UInt32.ofNat (ofLe (putU32 v))) :=
    (bytes (length_toLe 4 _)).last
  rwa [putU32, ofLe_toLe_of_lt v.toNat_lt, UInt32.ofNat_toNat] at h

theorem u64 (v : UInt64) : Codes True Reader.u64 (putU64 v) v := by
  have h : Codes True Reader.u64 (putU64 v) (UInt64.ofNat (ofLe (putU64 v))) :=
    (bytes (length_toLe 8 _)).last
  rwa [putU64, ofLe_toLe_of_lt v.toNat_lt, UInt64.ofNat_toNat] at h

theorem str (s : List UInt8) : Codes (s.length < 2 ^ 32) Reader.str (putStr s) s := by
  constructor
  · intro hlen
    have h : Codes (True ∧ True) Reader.str (putStr s) s :=
      (u32 (UInt32.ofNat s.length)).bind (bytes (UInt32.toNat_ofNat_of_lt' hlen).symm)
    exact h.reads ⟨trivial, trivial⟩
  · intro hlen
    simp only [putStr, List.length_append] at hlen
    omega

/-- Items read one after the other. -/
theorem times {φ : α → Prop} {item : Read α} {put : α → List UInt8}
    (h : ∀ a, Codes (φ a) item (put a) a) (l : List α) :
    Codes (∀ a ∈ l, φ a) (Reader.times item l.length) (l.flatMap put) l := by
  induction l with
  | nil => exact (pure []).congr (by simp)
  | cons a l ih =>
    have hitems := (h a).bind ih.last (f := fun a => do return a :: (← Reader.times item l.length))
    refine ⟨fun hφ post pos => ?_, fun hlen => List.forall_mem_cons.mpr (hitems.fits hlen)⟩
    exact hitems.reads (List.forall_mem_cons.mp hφ) post pos

/-- Items behind their number. The items must take room, so that few bytes hold few. -/
theorem behindCount {items : ℕ → Read (List α)} {put : α → List UInt8} {l : List α}
    (h : Codes φ (items l.length) (l.flatMap put) l) (hput : ∀ a, put a ≠ []) :
    Codes (l.length < 2 ^ 32 ∧ φ) (Reader.u32 >>= fun n => items n.toNat) (putCounted put l) l := by
  constructor
  · rintro ⟨hlen, hφ⟩
    rw [← UInt32.toNat_ofNat_of_lt' hlen] at h
    exact ((u32 (UInt32.ofNat l.length)).bind h).reads ⟨trivial, hφ⟩
  · intro hlen
    simp only [putCounted, List.length_append] at hlen
    have hcount : l.length ≤ (l.flatMap put).length := by
      rw [List.length_flatMap]
      calc l.length = (l.map fun _ => 1).sum := by simp
        _ ≤ (l.map fun a => (put a).length).sum :=
          List.sum_le_sum fun a _ => List.length_pos_iff.mpr (hput a)
    exact ⟨by omega, h.fits (by omega)⟩

/-- A counted list. -/
theorem counted {φ : α → Prop} {item : Read α} {put : α → List UInt8}
    (h : ∀ a, Codes (φ a) item (put a) a) (hput : ∀ a, put a ≠ []) (l : List α) :
    Codes (l.length < 2 ^ 32 ∧ ∀ a ∈ l, φ a) (Reader.counted item) (putCounted put l) l :=
  behindCount (times h l) hput

end Codes

end Vycor
