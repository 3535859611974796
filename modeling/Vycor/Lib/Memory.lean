import Mathlib

/-!
# Byte memory

Numbers as little-endian bytes, and reads of a buffer that say whether they stay inside:
`fetch` answers `none` for a read that does not, so that a computation over a buffer that
answers `some` has read nothing outside it. A `Region` is a part of a buffer; reads through
it must stay inside that part.
-/

namespace Vycor

/-- The number that bytes spell, the least significant one first. -/
def ofLe : List UInt8 → ℕ
  | [] => 0
  | b :: rest => b.toNat + 256 * ofLe rest

/-- The `n` lowest bytes of a number, the least significant one first. -/
def toLe : ℕ → ℕ → List UInt8
  | 0, _ => []
  | n + 1, v => UInt8.ofNat v :: toLe n (v / 256)

@[simp] theorem length_toLe (n v : ℕ) : (toLe n v).length = n := by
  induction n generalizing v with
  | zero => rfl
  | succ n ih => simp [toLe, ih]

theorem ofLe_toLe (n v : ℕ) : ofLe (toLe n v) = v % 256 ^ n := by
  induction n generalizing v with
  | zero => simp [toLe, ofLe, Nat.mod_one]
  | succ n ih =>
    simp only [toLe, ofLe, ih, UInt8.toNat_ofNat', Nat.reducePow]
    rw [pow_succ', Nat.mod_mul]

theorem ofLe_toLe_of_lt {n v : ℕ} (h : v < 256 ^ n) : ofLe (toLe n v) = v := by
  rw [ofLe_toLe, Nat.mod_eq_of_lt h]

theorem toLe_ofLe (bs : List UInt8) : toLe bs.length (ofLe bs) = bs := by
  induction bs with
  | nil => rfl
  | cons b rest ih =>
    have hb := b.toNat_lt
    have hlow : UInt8.ofNat (b.toNat + 256 * ofLe rest) = b := by
      rw [← UInt8.toNat_inj, UInt8.toNat_ofNat']
      omega
    have hhigh : (b.toNat + 256 * ofLe rest) / 256 = ofLe rest := by omega
    rw [List.length_cons, ofLe, toLe, hlow, hhigh, ih]

theorem ofLe_lt (bs : List UInt8) : ofLe bs < 256 ^ bs.length := by
  induction bs with
  | nil => simp [ofLe]
  | cons b rest ih =>
    have hb := b.toNat_lt
    simp only [ofLe, List.length_cons, pow_succ]
    omega

/-- The `n` bytes at an address, `none` when they are not all inside the buffer. -/
def fetch (buf : List UInt8) (addr n : ℕ) : Option (List UInt8) :=
  if addr + n ≤ buf.length then some ((buf.drop addr).take n) else none

theorem fetch_of_le {buf : List UInt8} {addr n : ℕ} (h : addr + n ≤ buf.length) :
    fetch buf addr n = some ((buf.drop addr).take n) := if_pos h

theorem length_of_fetch {buf bs : List UInt8} {addr n : ℕ} (h : fetch buf addr n = some bs) :
    bs.length = n := by
  simp only [fetch] at h
  split_ifs at h with hle
  obtain rfl := Option.some_injective _ h
  rw [List.length_take, List.length_drop]
  omega

/-- A part of a buffer. -/
structure Region where
  start : ℕ := 0
  length : ℕ := 0
  deriving DecidableEq, Inhabited

namespace Region

/-- The region lies inside the buffer. -/
def Inside (r : Region) (buf : List UInt8) : Prop := r.start + r.length ≤ buf.length

instance (r : Region) (buf : List UInt8) : Decidable (r.Inside buf) :=
  inferInstanceAs (Decidable (_ ≤ _))

/-- The `n` bytes at an offset of the region. -/
def fetch (r : Region) (buf : List UInt8) (off n : ℕ) : Option (List UInt8) :=
  if off + n ≤ r.length ∧ r.Inside buf then some ((buf.drop (r.start + off)).take n) else none

/-- The little-endian number of `n` bytes at an offset of the region. -/
def fetchLe (r : Region) (buf : List UInt8) (off n : ℕ) : Option ℕ :=
  (r.fetch buf off n).map ofLe

/-- The bytes of the region. -/
def bytes (r : Region) (buf : List UInt8) : List UInt8 := (buf.drop r.start).take r.length

variable {r : Region} {buf : List UInt8} {off n : ℕ}

theorem fetch_of_le (h : off + n ≤ r.length) (hr : r.Inside buf) :
    r.fetch buf off n = some ((buf.drop (r.start + off)).take n) := if_pos ⟨h, hr⟩

/-- A read inside the region reads the bytes of the region. -/
theorem fetch_eq (h : off + n ≤ r.length) (hr : r.Inside buf) :
    r.fetch buf off n = some (((r.bytes buf).drop off).take n) := by
  rw [fetch_of_le h hr, bytes, List.drop_take, List.drop_drop, List.take_take,
    Nat.min_eq_left (by omega)]

theorem fetchLe_eq (h : off + n ≤ r.length) (hr : r.Inside buf) :
    r.fetchLe buf off n = some (ofLe (((r.bytes buf).drop off).take n)) := by
  rw [fetchLe, fetch_eq h hr, Option.map_some]

theorem isSome_fetchLe (h : off + n ≤ r.length) (hr : r.Inside buf) :
    ∃ v < 256 ^ n, r.fetchLe buf off n = some v := by
  refine ⟨_, ?_, fetchLe_eq h hr⟩
  have hlen : (((r.bytes buf).drop off).take n).length = n := by
    rw [List.length_take, List.length_drop, bytes, List.length_take, List.length_drop]
    simp only [Inside] at hr
    omega
  have hlt := ofLe_lt (((r.bytes buf).drop off).take n)
  rwa [hlen] at hlt

end Region

end Vycor
