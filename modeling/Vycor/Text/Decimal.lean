import Vycor.Text.Utf8
import Vycor.Report.Paths

/-!
# Decimal numbers

`decimal n` is made of digits, and `asUnsigned` reads it back.
-/

namespace Vycor

/-- The digits of a number, a byte for each. -/
theorem decimal_eq_map (n : ℕ) :
    decimal n = (Nat.toDigits 10 n).map fun c => c.val.toUInt8 := by
  have hrepr : (toString n).toByteArray = (Nat.toDigits 10 n).utf8Encode := by
    rw [← String.utf8Encode_toList, ← Nat.toList_repr]
    rfl
  have hdecimal : decimal n = (Nat.toDigits 10 n).flatMap String.utf8EncodeChar := by
    rw [decimal, text]
    exact (congrArg (fun b : ByteArray => b.data.toList) hrepr).trans (by simp [List.utf8Encode])
  rw [hdecimal, List.map_eq_flatMap]
  refine List.flatMap_congr fun c hc => ?_
  have hdigit := Nat.isDigit_of_mem_toDigits (by decide) (by decide) hc
  rw [Char.isDigit, Bool.and_eq_true, decide_eq_true_eq, decide_eq_true_eq] at hdigit
  refine String.utf8EncodeChar_eq_singleton (Char.utf8Size_eq_one_iff.mpr ?_)
  exact UInt32.le_trans hdigit.2 (by decide)

/-- The byte of a digit keeps its number. -/
theorem toNat_of_mem_toDigits {n : ℕ} {c : Char} (hc : c ∈ Nat.toDigits 10 n) :
    c.val.toUInt8.toNat = c.toNat ∧ 48 ≤ c.toNat ∧ c.toNat ≤ 57 := by
  have hdigit := Nat.isDigit_of_mem_toDigits (by decide) (by decide) hc
  rw [Char.isDigit, Bool.and_eq_true, decide_eq_true_eq, decide_eq_true_eq] at hdigit
  have hlow : 48 ≤ c.toNat := hdigit.1
  have hhigh : c.toNat ≤ 57 := hdigit.2
  refine ⟨?_, hlow, hhigh⟩
  have hval : c.val.toNat = c.toNat := rfl
  rw [UInt32.toNat_toUInt8, hval]
  omega

theorem isDecimal_of_mem_decimal {n : ℕ} {c : UInt8} (hc : c ∈ decimal n) :
    isDecimal c = true := by
  rw [decimal_eq_map, List.mem_map] at hc
  obtain ⟨d, hd, rfl⟩ := hc
  obtain ⟨hval, hlow, hhigh⟩ := toNat_of_mem_toDigits hd
  simp only [isDecimal, Bool.and_eq_true, decide_eq_true_eq, UInt8.le_iff_toNat_le, hval]
  exact ⟨hlow, hhigh⟩

theorem decimal_ne_nil (n : ℕ) : decimal n ≠ [] := by
  rw [decimal_eq_map]
  exact fun h => Nat.toDigits_ne_nil (List.map_eq_nil_iff.mp h)

/-- A byte that is no digit is none of a number's. -/
theorem notMem_decimal {c : UInt8} (hc : isDecimal c = false) (n : ℕ) : c ∉ decimal n :=
  fun h => Bool.false_ne_true (hc.symm.trans (isDecimal_of_mem_decimal h))

/-- The value of the digits is the number. -/
theorem foldl_decimal (n : ℕ) :
    (decimal n).foldl (fun n c => 10 * n + (c.toNat - 48)) 0 = n := by
  have hfold (l : List Char) (hl : ∀ c ∈ l, c ∈ Nat.toDigits 10 n) (init : ℕ) :
      (l.map fun c => c.val.toUInt8).foldl (fun n c => 10 * n + (c.toNat - 48)) init =
        Nat.ofDigitChars 10 l init := by
    induction l generalizing init with
    | nil => rfl
    | cons c l ih =>
      have hval := (toNat_of_mem_toDigits (hl c List.mem_cons_self)).1
      rw [List.map_cons, List.foldl_cons, hval, ih fun d hd => hl d (.tail c hd),
        Nat.ofDigitChars_cons]
      rfl
  rw [decimal_eq_map, hfold _ (fun _ hc => hc), Nat.ofDigitChars_ten_toDigits]

/-- **A number that fits is read back.** -/
theorem asUnsigned_decimal {n : ℕ} (h : n < 2 ^ 32) : asUnsigned (decimal n) = some n := by
  have hall : (decimal n).all isDecimal = true :=
    List.all_eq_true.mpr fun _ => isDecimal_of_mem_decimal
  rw [asUnsigned, if_pos ⟨decimal_ne_nil n, hall⟩]
  simp only [foldl_decimal, if_pos h]

end Vycor
