import Mathlib.Data.Nat.Find
import Mathlib.Tactic.Common
import Mathlib.Tactic.Push
import Mathlib.Data.Nat.Notation

/-!
# Bisection with checked probes

The binary searches of the program probe an array that may not be readable everywhere, so
a probe answers `none` for a read outside its region. `partitionPoint` is the loop that
looks for the first index at which a monotone test fails.
-/

namespace Vycor

/-- `while (lo < hi)` with the test at the middle deciding the half. -/
def partitionPoint (test : ℕ → Option Bool) (lo hi : ℕ) : Option ℕ :=
  if lo < hi then
    match test (lo + (hi - lo) / 2) with
    | none => none
    | some true => partitionPoint test (lo + (hi - lo) / 2 + 1) hi
    | some false => partitionPoint test lo (lo + (hi - lo) / 2)
  else some lo
termination_by hi - lo

/-- Probes inside the range are enough for the loop to answer, with an index of the
range. -/
theorem exists_partitionPoint {test : ℕ → Option Bool} {lo hi : ℕ} (hle : lo ≤ hi)
    (h : ∀ i, lo ≤ i → i < hi → ∃ b, test i = some b) :
    ∃ k, partitionPoint test lo hi = some k ∧ lo ≤ k ∧ k ≤ hi := by
  induction lo, hi using partitionPoint.induct test with
  | case1 lo hi hlt hnone =>
    obtain ⟨b, hb⟩ := h _ (by omega) (by omega : lo + (hi - lo) / 2 < hi)
    rw [hnone] at hb
    cases hb
  | case2 lo hi hlt htrue ih =>
    obtain ⟨k, hk, hlo, hhi⟩ := ih (by omega) fun i h1 h2 => h i (by omega) h2
    refine ⟨k, ?_, by omega, hhi⟩
    rw [partitionPoint, if_pos hlt, htrue]
    exact hk
  | case3 lo hi hlt hfalse ih =>
    obtain ⟨k, hk, hlo, hhi⟩ := ih (by omega) fun i h1 h2 => h i h1 (by omega)
    refine ⟨k, ?_, hlo, by omega⟩
    rw [partitionPoint, if_pos hlt, hfalse]
    exact hk
  | case4 lo hi hge =>
    exact ⟨lo, by rw [partitionPoint, if_neg hge], le_rfl, hle⟩

/-- On a test that holds up to a point and fails from there on, the loop finds the point. -/
theorem partitionPoint_eq {test : ℕ → Option Bool} {lo hi k : ℕ} (hlo : lo ≤ k) (hhi : k ≤ hi)
    (htrue : ∀ i, lo ≤ i → i < k → test i = some true)
    (hfalse : ∀ i, k ≤ i → i < hi → test i = some false) :
    partitionPoint test lo hi = some k := by
  induction lo, hi using partitionPoint.induct test with
  | case1 lo hi hlt hnone =>
    rcases lt_or_ge (lo + (hi - lo) / 2) k with hk | hk
    · rw [htrue _ (by omega) hk] at hnone
      cases hnone
    · rw [hfalse _ hk (by omega)] at hnone
      cases hnone
  | case2 lo hi hlt ht ih =>
    rw [partitionPoint, if_pos hlt, ht]
    refine ih ?_ hhi (fun i h1 h2 => htrue i (by omega) h2) hfalse
    by_contra hk
    rw [hfalse _ (by omega) (by omega)] at ht
    cases ht
  | case3 lo hi hlt hf ih =>
    rw [partitionPoint, if_pos hlt, hf]
    refine ih hlo ?_ htrue fun i h1 h2 => hfalse i h1 (by omega)
    by_contra hk
    rw [htrue _ (by omega) (by omega)] at hf
    cases hf
  | case4 lo hi hge =>
    rw [partitionPoint, if_neg hge]
    congr 1
    omega

/-- On a test that, once it fails, fails from there on, the loop divides the range. -/
theorem exists_partitionPoint_of_antitone {test : ℕ → Option Bool} {b : ℕ → Bool} {lo hi : ℕ}
    (hle : lo ≤ hi) (htest : ∀ i, lo ≤ i → i < hi → test i = some (b i))
    (hanti : ∀ i j, lo ≤ i → i ≤ j → j < hi → b j = true → b i = true) :
    ∃ k, partitionPoint test lo hi = some k ∧ lo ≤ k ∧ k ≤ hi ∧
      ∀ i, lo ≤ i → i < hi → (b i = true ↔ i < k) := by
  have hex : ∃ i, lo ≤ i ∧ (hi ≤ i ∨ b i = false) := ⟨hi, hle, .inl le_rfl⟩
  obtain ⟨hlo, hend⟩ := Nat.find_spec hex
  have hhi : Nat.find hex ≤ hi := Nat.find_min' hex ⟨hle, .inl le_rfl⟩
  have hiff : ∀ i, lo ≤ i → i < hi → (b i = true ↔ i < Nat.find hex) := by
    intro i h1 h2
    constructor
    · intro hb
      by_contra hge
      push Not at hge
      have hfail : b (Nat.find hex) = false := hend.resolve_left (by omega)
      rw [hanti _ i hlo hge h2 hb] at hfail
      cases hfail
    · intro hlt
      have hmin := Nat.find_min hex hlt
      push Not at hmin
      simpa using (hmin h1).2
  refine ⟨Nat.find hex, partitionPoint_eq hlo hhi (fun i h1 h2 => ?_) (fun i h1 h2 => ?_), hlo,
    hhi, hiff⟩
  · rw [htest i h1 (by omega), (hiff i h1 (by omega)).mpr h2]
  · have hb : b i = false := by
      rw [← Bool.not_eq_true, hiff i (by omega) h2]
      omega
    rw [htest i (by omega) h2, hb]

end Vycor
