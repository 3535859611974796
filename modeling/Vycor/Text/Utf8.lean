import Vycor.Lib.Tables

/-!
# Index text

Strings are byte strings (`Bytes`). Everything the indexes store is *index text*: valid
UTF-8, obtained from raw bytes by an exact escape. A byte that is no part of a valid
sequence, and every byte of a code point that lies in the escape range itself, becomes the
code point `U+10FF00 + b`; everything else is copied. Hence the conversion is injective
(`fromIndexText_toIndexText`) and its image is UTF-8 (`utf8Text_toIndexText`).

The scanning loops of the source advance an index by the length of the sequence found
there. Here they walk the list with a counter of bytes still to copy (or to drop), which
makes them structural recursions.

`llvm::json::isUTF8` is not part of the repository; it is the field `isUTF8` of `Llvm`,
the record of the library functions the program calls.
-/

namespace Vycor

/-- A byte string, `std::string` in the source. -/
abbrev Bytes := List UInt8

/-- The bytes of a text that stands in the source as a literal. -/
def text (s : String) : Bytes := s.toUTF8.data.toList

/-- `std::to_string` of an unsigned number. -/
def decimal (n : ℕ) : Bytes := text (toString n)

instance lawfulBEqBytes : LawfulBEq Bytes := inferInstance

instance linearOrderByte : LinearOrder UInt8 where
  le_refl := UInt8.le_refl
  le_trans _ _ _ := UInt8.le_trans
  le_antisymm _ _ := UInt8.le_antisymm
  le_total := UInt8.le_total
  lt_iff_le_not_ge a b := by
    rw [UInt8.lt_iff_toNat_lt, UInt8.le_iff_toNat_le, UInt8.le_iff_toNat_le]
    omega
  toDecidableLE := inferInstance
  toDecidableLT := inferInstance
  toDecidableEq := inferInstance

instance lawfulBEqByte : LawfulBEq UInt8 := inferInstance

/-- The functions of the LLVM support library the indexes rely on: the UTF-8 test of its
JSON library and the 64-bit xxh3 checksum. -/
structure Llvm where
  isUTF8 : Bytes → Bool
  xxh3_64bits : Bytes → ℕ

/-! ### Sequences -/

/-- `utf8_detail::isCont`. -/
def isCont (c : UInt8) : Bool := (c &&& 0xC0) == 0x80

/-- `utf8_detail::seqLen` at the start of a (non-empty) suffix: the length of the valid
sequence there, `0` when there is none. -/
def seqLen : Bytes → ℕ
  | [] => 0
  | c :: rest =>
    if c < 0x80 then 1
    else if 0xC2 ≤ c ∧ c ≤ 0xDF then
      match rest with
      | b :: _ => if isCont b then 2 else 0
      | [] => 0
    else if 0xE0 ≤ c ∧ c ≤ 0xEF then
      match rest with
      | b :: d :: _ =>
        if !isCont b || !isCont d then 0
        else if c = 0xE0 ∧ b < 0xA0 then 0 -- overlong
        else if c = 0xED ∧ b > 0x9F then 0 -- surrogate
        else 3
      | _ => 0
    else if 0xF0 ≤ c ∧ c ≤ 0xF4 then
      match rest with
      | b :: d :: e :: _ =>
        if !isCont b || !isCont d || !isCont e then 0
        else if c = 0xF0 ∧ b < 0x90 then 0 -- overlong
        else if c = 0xF4 ∧ b > 0x8F then 0 -- above U+10FFFF
        else 4
      | _ => 0
    else 0

/-- `utf8_detail::isEscapeCodePoint`: the three bytes read are those of a sequence the
caller already measured. -/
def isEscapeCodePoint : Bytes → Bool
  | a :: b :: c :: _ => a == 0xF4 && b == 0x8F && decide (0xBE ≤ c)
  | _ => false

/-- `kEscapeBase`. -/
def kEscapeBase : ℕ := 0x10FF00

/-- `utf8_detail::appendEscape`. -/
def appendEscape (b : UInt8) : Bytes :=
  let cp := kEscapeBase + b.toNat
  [UInt8.ofNat (0xF0 ||| (cp >>> 18)), UInt8.ofNat (0x80 ||| ((cp >>> 12) &&& 0x3F)),
    UInt8.ofNat (0x80 ||| ((cp >>> 6) &&& 0x3F)), UInt8.ofNat (0x80 ||| (cp &&& 0x3F))]

/-- The byte an escape code point stands for. -/
def unescape : Bytes → UInt8
  | a :: b :: c :: d :: _ =>
    let cp := ((a.toNat &&& 0x07) <<< 18) ||| ((b.toNat &&& 0x3F) <<< 12) |||
      ((c.toNat &&& 0x3F) <<< 6) ||| (d.toNat &&& 0x3F)
    UInt8.ofNat (cp - kEscapeBase)
  | _ => 0

/-- The byte at the head of a suffix must be escaped. -/
def escapesAt (s : Bytes) : Bool := seqLen s == 0 || (seqLen s == 4 && isEscapeCodePoint s)

/-! ### The conversions -/

/-- The loop of `needsIndexEscape`, with `skip` bytes of the current sequence to pass. -/
def needsEscapeFrom : ℕ → Bytes → Bool
  | _, [] => false
  | skip + 1, _ :: rest => needsEscapeFrom skip rest
  | 0, b :: rest =>
    if b < 0x80 then needsEscapeFrom 0 rest
    else if escapesAt (b :: rest) then true
    else needsEscapeFrom (seqLen (b :: rest) - 1) rest

/-- `needsIndexEscape`. -/
def needsIndexEscape (s : Bytes) : Bool := needsEscapeFrom 0 s

/-- The loop of `toIndexText`, with `copy` bytes of the current sequence to copy. -/
def escapeFrom : ℕ → Bytes → Bytes
  | _, [] => []
  | copy + 1, b :: rest => b :: escapeFrom copy rest
  | 0, b :: rest =>
    if escapesAt (b :: rest) then appendEscape b ++ escapeFrom 0 rest
    else b :: escapeFrom (seqLen (b :: rest) - 1) rest

/-- `toIndexText`. -/
def toIndexText (s : Bytes) : Bytes := if needsIndexEscape s then escapeFrom 0 s else s

/-- `makeIndexText`, the conversion in place. -/
def makeIndexText (s : Bytes) : Bytes := if needsIndexEscape s then toIndexText s else s

/-- The loop of `fromIndexText`: `skip` bytes of the current sequence remain, to be copied
when `copy` holds and dropped otherwise. -/
def unescapeFrom : Bool → ℕ → Bytes → Bytes
  | _, _, [] => []
  | copy, skip + 1, b :: rest =>
    if copy then b :: unescapeFrom copy skip rest else unescapeFrom copy skip rest
  | _, 0, b :: rest =>
    if seqLen (b :: rest) == 4 && isEscapeCodePoint (b :: rest) then
      unescape (b :: rest) :: unescapeFrom false 3 rest
    else b :: unescapeFrom true (seqLen (b :: rest) - 1) rest

/-- `fromIndexText`. -/
def fromIndexText (t : Bytes) : Bytes := unescapeFrom true 0 t

/-- `lookupText`: an argument that is UTF-8 is taken as index text, raw bytes are
converted. -/
def lookupText (ll : Llvm) (s : Bytes) : Bytes := if ll.isUTF8 s then s else toIndexText s

/-! ### Strict UTF-8 -/

/-- One character of strict UTF-8 (RFC 3629, section 4, with the alternatives of one
length merged). -/
inductive Utf8Char : Bytes → Prop where
  | one {a : UInt8} : a < 0x80 → Utf8Char [a]
  | two {a b : UInt8} : 0xC2 ≤ a → a ≤ 0xDF → isCont b → Utf8Char [a, b]
  | three {a b c : UInt8} : 0xE0 ≤ a → a ≤ 0xEF → isCont b → isCont c →
      (a = 0xE0 → 0xA0 ≤ b) → (a = 0xED → b ≤ 0x9F) → Utf8Char [a, b, c]
  | four {a b c d : UInt8} : 0xF0 ≤ a → a ≤ 0xF4 → isCont b → isCont c → isCont d →
      (a = 0xF0 → 0x90 ≤ b) → (a = 0xF4 → b ≤ 0x8F) → Utf8Char [a, b, c, d]

/-- Strictly valid UTF-8: a sequence of characters. -/
inductive Utf8Text : Bytes → Prop where
  | nil : Utf8Text []
  | cons {c rest : Bytes} : Utf8Char c → Utf8Text rest → Utf8Text (c ++ rest)

/-- The library's UTF-8 test accepts every strictly valid string. -/
def Llvm.AcceptsUtf8 (ll : Llvm) : Prop := ∀ s, Utf8Text s → ll.isUTF8 s = true

theorem Utf8Char.length_pos {c : Bytes} (h : Utf8Char c) : 0 < c.length := by
  cases h <;> simp

/-- A byte above the ASCII range is not below it (the guards of `seqLen` in order). -/
private theorem not_lt_of_le {a b c : UInt8} (h : b ≤ a) (hbc : c ≤ b) : ¬ a < c :=
  not_lt.mpr (hbc.trans h)

/-- `seqLen` measures a character in front of any text. -/
theorem seqLen_append {c : Bytes} (h : Utf8Char c) (t : Bytes) : seqLen (c ++ t) = c.length := by
  cases h with
  | one ha => simp [seqLen, ha]
  | two h1 h2 hb =>
    have h0 : ¬ _ < (0x80 : UInt8) := not_lt_of_le h1 (by decide)
    simp [seqLen, h0, h1, h2, hb]
  | @three a b c h1 h2 hb hc he hd =>
    have h0 : ¬ a < (0x80 : UInt8) := not_lt_of_le h1 (by decide)
    have h3 : ¬ a ≤ (0xDF : UInt8) := not_le.mpr (lt_of_lt_of_le (by decide) h1)
    have e1 : ¬ (a = 0xE0 ∧ b < 0xA0) := fun ⟨x, y⟩ => not_lt.mpr (he x) y
    have e2 : ¬ (a = 0xED ∧ b > 0x9F) := fun ⟨x, y⟩ => not_lt.mpr (hd x) y
    simp [seqLen, h0, h1, h2, h3, hb, hc, e1, e2]
  | @four a b c d h1 h2 hb hc hd he hf =>
    have h0 : ¬ a < (0x80 : UInt8) := not_lt_of_le h1 (by decide)
    have h3 : ¬ a ≤ (0xDF : UInt8) := not_le.mpr (lt_of_lt_of_le (by decide) h1)
    have h4 : ¬ a ≤ (0xEF : UInt8) := not_le.mpr (lt_of_lt_of_le (by decide) h1)
    have e1 : ¬ (a = 0xF0 ∧ b < 0x90) := fun ⟨x, y⟩ => not_lt.mpr (he x) y
    have e2 : ¬ (a = 0xF4 ∧ b > 0x8F) := fun ⟨x, y⟩ => not_lt.mpr (hf x) y
    simp [seqLen, h0, h1, h2, h3, h4, hb, hc, hd, e1, e2]

/-- The scan of a UTF-8 test, over the bytes still to skip of the current character. -/
def utf8From : ℕ → Bytes → Bool
  | skip, [] => skip == 0
  | skip + 1, _ :: rest => utf8From skip rest
  | 0, b :: rest => seqLen (b :: rest) != 0 && utf8From (seqLen (b :: rest) - 1) rest

theorem utf8From_append (c t : Bytes) : utf8From c.length (c ++ t) = utf8From 0 t := by
  induction c with
  | nil => rfl
  | cons b c ih => exact ih

/-- A strict UTF-8 test as the library's, for the examples. -/
def utf8Llvm : Llvm := ⟨utf8From 0, fun _ => 0⟩

theorem acceptsUtf8_utf8Llvm : utf8Llvm.AcceptsUtf8 := by
  intro s hs
  change utf8From 0 s = true
  induction hs with
  | nil => rfl
  | @cons c rest hc hrest ih =>
    have hlen := seqLen_append hc rest
    have hpos := hc.length_pos
    cases c with
    | nil => cases hc
    | cons b c =>
      have hstep : utf8From 0 (b :: (c ++ rest)) = utf8From c.length (c ++ rest) := by
        rw [List.cons_append] at hlen
        simp [utf8From, hlen]
      rw [List.cons_append, hstep, utf8From_append]
      exact ih

/-- A positive `seqLen` is the length of a character at the head. -/
theorem utf8Char_of_seqLen {s : Bytes} (h : seqLen s ≠ 0) :
    ∃ c t, s = c ++ t ∧ Utf8Char c ∧ seqLen s = c.length := by
  cases s with
  | nil => simp [seqLen] at h
  | cons a rest =>
    suffices hs : ∃ c t, a :: rest = c ++ t ∧ Utf8Char c by
      obtain ⟨c, t, hct, hc⟩ := hs
      exact ⟨c, t, hct, hc, by rw [hct]; exact seqLen_append hc t⟩
    rw [seqLen.eq_def] at h
    dsimp only at h
    split_ifs at h with h1 h2 h3 h4
    · exact ⟨[a], rest, rfl, .one h1⟩
    · match rest with
      | [] => simp at h
      | b :: t =>
        simp only [ne_eq, ite_eq_right_iff, OfNat.ofNat_ne_zero, imp_false, not_not] at h
        exact ⟨[a, b], t, rfl, .two h2.1 h2.2 h⟩
    · match rest with
      | [] | [_] => simp at h
      | b :: c :: t =>
        simp only [ne_eq] at h
        split_ifs at h with g1 g2 g3
        · exact absurd rfl h
        · exact absurd rfl h
        · exact absurd rfl h
        · simp only [Bool.or_eq_true, Bool.not_eq_eq_eq_not, Bool.not_true, not_or,
            Bool.not_eq_false] at g1
          exact ⟨[a, b, c], t, rfl, .three h3.1 h3.2 g1.1 g1.2
            (fun e => not_lt.mp fun hl => g2 ⟨e, hl⟩) (fun e => not_lt.mp fun hl => g3 ⟨e, hl⟩)⟩
    · match rest with
      | [] | [_] | [_, _] => simp at h
      | b :: c :: d :: t =>
        simp only [ne_eq] at h
        split_ifs at h with g1 g2 g3
        · exact absurd rfl h
        · exact absurd rfl h
        · exact absurd rfl h
        · simp only [Bool.or_eq_true, Bool.not_eq_eq_eq_not, Bool.not_true, not_or,
            Bool.not_eq_false] at g1
          exact ⟨[a, b, c, d], t, rfl, .four h4.1 h4.2 g1.1.1 g1.1.2 g1.2
            (fun e => not_lt.mp fun hl => g2 ⟨e, hl⟩) (fun e => not_lt.mp fun hl => g3 ⟨e, hl⟩)⟩
    · exact absurd rfl h

/-! ### The loops, one sequence at a time -/

theorem escapeFrom_copy (k : ℕ) (s : Bytes) :
    escapeFrom k s = s.take k ++ escapeFrom 0 (s.drop k) := by
  induction k generalizing s with
  | zero => simp
  | succ k ih =>
    cases s with
    | nil => simp [escapeFrom]
    | cons b rest => simp [escapeFrom, ih rest]

theorem unescapeFrom_copy (k : ℕ) (s : Bytes) :
    unescapeFrom true k s = s.take k ++ unescapeFrom true 0 (s.drop k) := by
  induction k generalizing s with
  | zero => simp
  | succ k ih =>
    cases s with
    | nil => simp [unescapeFrom]
    | cons b rest => simp [unescapeFrom, ih rest]

theorem unescapeFrom_drop (k : ℕ) (s : Bytes) :
    unescapeFrom false k s = unescapeFrom true 0 (s.drop k) := by
  induction k generalizing s with
  | zero => cases s <;> simp [unescapeFrom]
  | succ k ih =>
    cases s with
    | nil => simp [unescapeFrom]
    | cons b rest => simp [unescapeFrom, ih rest]

theorem needsEscapeFrom_skip (k : ℕ) (s : Bytes) :
    needsEscapeFrom k s = needsEscapeFrom 0 (s.drop k) := by
  induction k generalizing s with
  | zero => simp
  | succ k ih =>
    cases s with
    | nil => simp [needsEscapeFrom]
    | cons b rest => simp [needsEscapeFrom, ih rest]

/-- At a sequence that is not escaped, the loop copies it. -/
theorem escapeFrom_char {c : Bytes} (hc : Utf8Char c) (t : Bytes)
    (he : escapesAt (c ++ t) = false) : escapeFrom 0 (c ++ t) = c ++ escapeFrom 0 t := by
  obtain ⟨b, rest, rfl⟩ : ∃ b rest, c = b :: rest := by cases hc <;> exact ⟨_, _, rfl⟩
  have hl : seqLen (b :: (rest ++ t)) = rest.length + 1 := by
    simpa using seqLen_append hc t
  rw [List.cons_append] at he ⊢
  rw [escapeFrom, if_neg (by simp [he]), hl, Nat.add_sub_cancel, escapeFrom_copy]
  simp

/-- A text nothing is escaped in is a sequence of characters the loop copies. -/
theorem escapeFrom_eq_self {s : Bytes} (h : needsEscapeFrom 0 s = false) :
    escapeFrom 0 s = s := by
  induction hn : s.length using Nat.strong_induction_on generalizing s with
  | _ n ih =>
    cases s with
    | nil => rfl
    | cons b rest =>
      have he : escapesAt (b :: rest) = false := by
        rw [needsEscapeFrom] at h
        split_ifs at h with h1 h2
        · simp [escapesAt, seqLen, h1]
        · simpa using h2
      have h0 : seqLen (b :: rest) ≠ 0 := fun h0 => by simp [escapesAt, h0] at he
      obtain ⟨c, t, hct, hc, hl⟩ := utf8Char_of_seqLen h0
      have hnext : needsEscapeFrom 0 t = false := by
        have hd : t = (b :: rest).drop c.length := by rw [hct]; simp
        obtain ⟨b', r', rfl⟩ : ∃ b r, c = b :: r := by cases hc <;> exact ⟨_, _, rfl⟩
        obtain ⟨rfl, rfl⟩ : b = b' ∧ rest = r' ++ t := by simpa using hct
        rw [needsEscapeFrom] at h
        split_ifs at h with h1 h2
        · have hr : r' = [] := by
            have : (b :: r').length = 1 := by rw [← hl]; simp [seqLen, h1]
            simpa using this
          simpa [hr] using h
        · rw [needsEscapeFrom_skip] at h
          rw [hl] at h
          simpa using h
      rw [hct] at he ⊢
      rw [escapeFrom_char hc t he, ih t.length ?_ hnext rfl]
      rw [← hn, hct, List.length_append]
      have := hc.length_pos
      omega

theorem toIndexText_eq (s : Bytes) : toIndexText s = escapeFrom 0 s := by
  unfold toIndexText needsIndexEscape
  split_ifs with h
  · rfl
  · exact (escapeFrom_eq_self (by simpa using h)).symm

/-! ### Escapes -/

/-- The facts about the 128 escapes, checked one by one. -/
private theorem appendEscape_table : ∀ n : ℕ, n < 256 → 0x80 ≤ n →
    ∃ c d : UInt8, appendEscape (UInt8.ofNat n) = [0xF4, 0x8F, c, d] ∧ 0xBE ≤ c ∧
      isCont c ∧ isCont d ∧ unescape [0xF4, 0x8F, c, d] = UInt8.ofNat n := by
  intro n hn h
  refine ⟨UInt8.ofNat (0x80 ||| (((kEscapeBase + (UInt8.ofNat n).toNat) >>> 6) &&& 0x3F)),
    UInt8.ofNat (0x80 ||| ((kEscapeBase + (UInt8.ofNat n).toNat) &&& 0x3F)), ?_⟩
  revert n
  decide +kernel

private theorem appendEscape_spec {b : UInt8} (h : 0x80 ≤ b) :
    ∃ c d : UInt8, appendEscape b = [0xF4, 0x8F, c, d] ∧ 0xBE ≤ c ∧
      isCont c ∧ isCont d ∧ unescape [0xF4, 0x8F, c, d] = b := by
  have := appendEscape_table b.toNat b.toNat_lt (by
    have := UInt8.le_iff_toNat_le.mp h
    simpa using this)
  simpa using this

/-- Only bytes above the ASCII range are escaped. -/
private theorem le_of_escapesAt {b : UInt8} {rest : Bytes} (h : escapesAt (b :: rest) = true) :
    0x80 ≤ b := by
  by_contra hlt
  rw [not_le] at hlt
  simp [escapesAt, seqLen, hlt] at h

private theorem utf8Char_appendEscape {b : UInt8} (h : 0x80 ≤ b) :
    Utf8Char (appendEscape b) := by
  obtain ⟨c, d, he, -, hc, hd, -⟩ := appendEscape_spec h
  rw [he]
  exact .four (by decide) (by decide) (by decide) hc hd (by decide) (by decide)

/-- What the escape loop writes, one sequence at a time: either an escape or a copied
character outside the escape range. -/
theorem escapeFrom_induction {motive : Bytes → Bytes → Prop} (nil : motive [] [])
    (escape : ∀ b rest, escapesAt (b :: rest) = true → motive rest (escapeFrom 0 rest) →
      motive (b :: rest) (appendEscape b ++ escapeFrom 0 rest))
    (copy : ∀ c t, Utf8Char c → escapesAt (c ++ t) = false → motive t (escapeFrom 0 t) →
      motive (c ++ t) (c ++ escapeFrom 0 t)) (s : Bytes) : motive s (escapeFrom 0 s) := by
  induction hn : s.length using Nat.strong_induction_on generalizing s with
  | _ n ih =>
    cases s with
    | nil => exact nil
    | cons b rest =>
      cases he : escapesAt (b :: rest) with
      | true =>
        have := escape b rest he (ih rest.length (by simp [← hn]) rest rfl)
        rwa [escapeFrom, if_pos he]
      | false =>
        have h0 : seqLen (b :: rest) ≠ 0 := fun h0 => by simp [escapesAt, h0] at he
        obtain ⟨c, t, hct, hc, -⟩ := utf8Char_of_seqLen h0
        rw [hct] at he ⊢
        rw [escapeFrom_char hc t he]
        refine copy c t hc he (ih t.length ?_ t rfl)
        rw [← hn, hct, List.length_append]
        have := hc.length_pos
        omega

/-- Index text is strictly valid UTF-8. -/
theorem utf8Text_toIndexText (s : Bytes) : Utf8Text (toIndexText s) := by
  rw [toIndexText_eq]
  induction s using escapeFrom_induction with
  | nil => exact .nil
  | escape b rest he ih => exact .cons (utf8Char_appendEscape (le_of_escapesAt he)) ih
  | copy c t hc _ ih => exact .cons hc ih

/-- **Exact escape.** Decoding index text gives the raw bytes back. -/
theorem fromIndexText_toIndexText (s : Bytes) : fromIndexText (toIndexText s) = s := by
  rw [toIndexText_eq, fromIndexText]
  induction s using escapeFrom_induction with
  | nil => rfl
  | escape b rest he ih =>
    obtain ⟨c, d, hcd, hge, hc, hd, hu⟩ := appendEscape_spec (le_of_escapesAt he)
    have hlen : seqLen ([0xF4, 0x8F, c, d] ++ escapeFrom 0 rest) = 4 := by
      rw [← hcd, seqLen_append (utf8Char_appendEscape (le_of_escapesAt he)), hcd]
      rfl
    have hu' : unescape (0xF4 :: 0x8F :: c :: d :: escapeFrom 0 rest) = b := hu
    rw [hcd]
    simp only [List.cons_append, List.nil_append] at hlen ⊢
    rw [unescapeFrom, if_pos (by simp [hlen, isEscapeCodePoint, hge]), hu', unescapeFrom_drop]
    simp [ih]
  | copy c t hc he ih =>
    obtain ⟨b, r, rfl⟩ : ∃ b r, c = b :: r := by cases hc <;> exact ⟨_, _, rfl⟩
    have hlen := seqLen_append hc (escapeFrom 0 t)
    have hesc : (seqLen (b :: (r ++ escapeFrom 0 t)) == 4 &&
        isEscapeCodePoint (b :: (r ++ escapeFrom 0 t))) = false := by
      -- both tests read only the bytes of the character
      have hlt := seqLen_append hc t
      cases hc <;> simp_all [escapesAt, isEscapeCodePoint]
    simp only [List.cons_append] at hlen ⊢
    rw [unescapeFrom, if_neg (by simp [hesc]), hlen, unescapeFrom_copy]
    simp [ih]

theorem toIndexText_injective : Function.Injective toIndexText :=
  Function.LeftInverse.injective fromIndexText_toIndexText

@[simp] theorem toIndexText_nil : toIndexText [] = [] := rfl

theorem toIndexText_eq_nil {s : Bytes} : toIndexText s = [] ↔ s = [] :=
  toIndexText_injective.eq_iff' toIndexText_nil

/-! ### Texts that stay -/

/-- A character outside the escape range needs no escape. -/
theorem needsEscapeFrom_char {c : Bytes} (hc : Utf8Char c) (t : Bytes)
    (he : escapesAt (c ++ t) = false) : needsEscapeFrom 0 (c ++ t) = needsEscapeFrom 0 t := by
  obtain ⟨b, rest, rfl⟩ : ∃ b rest, c = b :: rest := by cases hc <;> exact ⟨_, _, rfl⟩
  have hlen : seqLen (b :: (rest ++ t)) = rest.length + 1 := by
    simpa using seqLen_append hc t
  rw [List.cons_append] at he ⊢
  rw [needsEscapeFrom]
  split_ifs with hascii hesc
  · -- an ASCII character is one byte
    have hone : seqLen (b :: (rest ++ t)) = 1 := by simp [seqLen, hascii]
    have hrest : rest = [] := List.eq_nil_of_length_eq_zero (by omega)
    rw [hrest, List.nil_append]
  · rw [he] at hesc
    cases hesc
  · rw [hlen, Nat.add_sub_cancel, needsEscapeFrom_skip, List.drop_left]

/-- An escape makes the text longer, so only a text without escapes stays as it is. -/
theorem escapeFrom_grows (s : Bytes) : s.length ≤ (escapeFrom 0 s).length ∧
    (escapeFrom 0 s = s → needsEscapeFrom 0 s = false) := by
  induction s using escapeFrom_induction with
  | nil => exact ⟨le_rfl, fun _ => rfl⟩
  | escape b rest he ih =>
    have hlonger : (b :: rest).length < (appendEscape b ++ escapeFrom 0 rest).length := by
      rw [List.length_append, List.length_cons, appendEscape]
      simp only [List.length_cons, List.length_nil]
      omega
    exact ⟨hlonger.le, fun heq => absurd (congrArg List.length heq) (by omega)⟩
  | copy c t hc he ih =>
    refine ⟨?_, fun heq => ?_⟩
    · rw [List.length_append, List.length_append]
      omega
    · rw [needsEscapeFrom_char hc t he]
      exact ih.2 (List.append_cancel_left heq)

theorem needsIndexEscape_eq_false_iff {s : Bytes} :
    needsIndexEscape s = false ↔ toIndexText s = s := by
  constructor
  · intro h
    rw [toIndexText, if_neg (by rw [h]; exact Bool.false_ne_true)]
  · intro h
    rw [toIndexText_eq] at h
    exact (escapeFrom_grows s).2 h

/-- **Index text is an exact escape**: strictly valid UTF-8 that decodes to the raw bytes,
which only a text that needs an escape differs from, and which a lookup takes as it is. -/
theorem indexText_exact {ll : Llvm} (hll : ll.AcceptsUtf8) (s : Bytes) :
    Utf8Text (toIndexText s) ∧ fromIndexText (toIndexText s) = s ∧
      (needsIndexEscape s = false ↔ toIndexText s = s) ∧ makeIndexText s = toIndexText s ∧
        lookupText ll (toIndexText s) = toIndexText s := by
  refine ⟨utf8Text_toIndexText s, fromIndexText_toIndexText s, needsIndexEscape_eq_false_iff,
    ?_, ?_⟩
  · rw [makeIndexText]
    split_ifs with hneeds
    · rfl
    · exact (needsIndexEscape_eq_false_iff.mp (Bool.not_eq_true _ ▸ hneeds)).symm
  · rw [lookupText, if_pos (hll _ (utf8Text_toIndexText s))]

/-- A stray byte in a file name. -/
theorem indexText_exact_stray :
    utf8Llvm.AcceptsUtf8 ∧ toIndexText [97, 0xE9] ≠ [97, 0xE9] ∧
      lookupText utf8Llvm (toIndexText [97, 0xE9]) = toIndexText [97, 0xE9] := by
  obtain ⟨-, -, hneeds, -, hlookup⟩ := indexText_exact acceptsUtf8_utf8Llvm [97, 0xE9]
  refine ⟨acceptsUtf8_utf8Llvm, fun heq => ?_, hlookup⟩
  have hfalse := hneeds.mpr heq
  revert hfalse
  decide

end Vycor
