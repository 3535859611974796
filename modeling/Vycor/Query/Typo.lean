import Vycor.Lib.Alignment
import Vycor.Text.Utf8

/-!
# Typing mistakes

`typoDistance` is a dynamic program over three rows of 32-bit cells. A row is written over
the oldest of the three, and a row without a cell within the bound ends the run. The rows
hold the distances of the prefixes (`RowIs`): a cell reads only cells of its own row that
this round has written, and of the two rows before it, so what a recycled row held does not
matter. The cells are too small to wrap when the words are shorter than `2 ^ 31`.
-/

namespace Vycor

/-- `StringRef::lower`. -/
def asciiLower (s : Bytes) : Bytes := s.map fun c => if 65 ≤ c ∧ c ≤ 90 then c + 32 else c

/-- `std::min`. -/
def smaller (c d : UInt32) : UInt32 := if d < c then d else c

/-- A cell of `typoDistance`, of row `i` and column `j`, both from 1 on. -/
def typoCell (a b : Bytes) (i j : ℕ) (prev2 prev cur : List UInt32) : UInt32 :=
  let d := smaller (smaller (prev.getD j 0 + 1) (cur.getD (j - 1) 0 + 1))
    (prev.getD (j - 1) 0 + if a.getD (i - 1) 0 = b.getD (j - 1) 0 then 0 else 1)
  if 1 < i ∧ 1 < j ∧ a.getD (i - 1) 0 = b.getD (j - 2) 0 ∧ a.getD (i - 2) 0 = b.getD (j - 1) 0 then
    smaller d (prev2.getD (j - 2) 0 + 1)
  else d

/-- A row of `typoDistance`, written over `cur`, and the least of its cells. -/
def typoRow (a b : Bytes) (i : ℕ) (prev2 prev cur : List UInt32) : List UInt32 × UInt32 :=
  (List.range b.length).foldl (fun s k =>
    let d := typoCell a b i (k + 1) prev2 prev s.1
    (s.1.set (k + 1) d, smaller s.2 d)) (cur.set 0 (UInt32.ofNat i), UInt32.ofNat i)

/-- The loop of `typoDistance` over the rows. -/
def typoLoop (a b : Bytes) (bound : UInt32) :
    List ℕ → List UInt32 → List UInt32 → List UInt32 → UInt32
  | [], _, prev, _ => prev.getD b.length 0
  | i :: rest, prev2, prev, cur =>
    let row := typoRow a b i prev2 prev cur
    if bound < row.2 then bound + 1
    -- the oldest row is the next to be written over
    else typoLoop a b bound rest prev row.1 prev2

/-- `typoDistance`. -/
def typoDistance (a b : Bytes) (bound : UInt32) : UInt32 :=
  typoLoop (asciiLower a) (asciiLower b) bound (List.range' 1 a.length)
    (List.replicate (b.length + 1) 0) ((List.range (b.length + 1)).map UInt32.ofNat)
    (List.replicate (b.length + 1) 0)

/-! ### Cells -/

theorem toNat_smaller (c d : UInt32) : (smaller c d).toNat = min c.toNat d.toNat := by
  rw [smaller]
  split_ifs with h
  · exact (min_eq_right (UInt32.lt_iff_toNat_lt.mp h).le).symm
  · exact (min_eq_left (not_lt.mp (mt UInt32.lt_iff_toNat_lt.mpr h))).symm

/-- One more edit does not wrap. -/
theorem toNat_add_one {c : UInt32} {d : ℕ} (hc : c.toNat = d) (hd : d + 1 < 2 ^ 32) :
    (c + 1).toNat = d + 1 := by
  rw [UInt32.toNat_add, hc]
  exact Nat.mod_eq_of_lt hd

section Rows

variable {a b : Bytes}

/-- Up to a column, the cells of a row are the distances of the prefixes. -/
structure RowUpTo (a b : Bytes) (i k : ℕ) (row : List UInt32) : Prop where
  length_eq : row.length = b.length + 1
  cell : ∀ j ≤ k, (row.getD j 0).toNat = prefixDistance a b i j

/-- All the cells. -/
abbrev RowIs (a b : Bytes) (i : ℕ) (row : List UInt32) : Prop := RowUpTo a b i b.length row

theorem getElem?_eq_getD {l : Bytes} {i : ℕ} (hi : i < l.length) : l[i]? = some (l.getD i 0) := by
  rw [List.getD_eq_getElem?_getD, List.getElem?_eq_getElem hi, Option.getD_some]

/-- A cell is written from cells that are there. -/
theorem toNat_typoCell (hsize : a.length + b.length < 2 ^ 32) {i k : ℕ} (hi : i < a.length)
    (hk : k < b.length) {prev2 prev cur : List UInt32}
    (hprev2 : 0 < i → RowIs a b (i - 1) prev2) (hprev : RowIs a b i prev)
    (hcur : RowUpTo a b (i + 1) k cur) :
    (typoCell a b (i + 1) (k + 1) prev2 prev cur).toNat = prefixDistance a b (i + 1) (k + 1) := by
  have hup := toNat_add_one (hprev.cell (k + 1) hk) (by have := prefixDistance_le a b i (k + 1); omega)
  have hleft := toNat_add_one (hcur.cell k (Nat.le_refl k))
    (by have := prefixDistance_le a b (i + 1) k; omega)
  have hdiag : (prev.getD k 0 + if a.getD i 0 = b.getD k 0 then 0 else 1).toNat =
      prefixDistance a b i k + if a.getD i 0 = b.getD k 0 then 0 else 1 := by
    split_ifs
    · rw [UInt32.add_zero, hprev.cell k hk.le, Nat.add_zero]
    · exact toNat_add_one (hprev.cell k hk.le) (by have := prefixDistance_le a b i k; omega)
  have hstep : (smaller (smaller (prev.getD (k + 1) 0 + 1) (cur.getD k 0 + 1))
      (prev.getD k 0 + if a.getD i 0 = b.getD k 0 then 0 else 1)).toNat =
      min (min (prefixDistance a b i (k + 1) + 1) (prefixDistance a b (i + 1) k + 1))
        (prefixDistance a b i k + if a.getD i 0 = b.getD k 0 then 0 else 1) := by
    rw [toNat_smaller, toNat_smaller, hup, hleft, hdiag]
  have hswap : (1 < i + 1 ∧ 1 < k + 1 ∧ a.getD i 0 = b.getD (k - 1) 0 ∧
      a.getD (i - 1) 0 = b.getD k 0) ↔
      (0 < i ∧ 0 < k ∧ b[k - 1]? = some (a.getD i 0) ∧ a[i - 1]? = some (b.getD k 0)) := by
    rw [getElem?_eq_getD (by omega : k - 1 < b.length), getElem?_eq_getD (by omega : i - 1 < a.length),
      Option.some_inj, Option.some_inj, eq_comm (a := b.getD (k - 1) 0)]
    exact and_congr Nat.lt_add_left_iff_pos (and_congr Nat.lt_add_left_iff_pos Iff.rfl)
  have hi2 : i + 1 - 2 = i - 1 := by omega
  have hk2 : k + 1 - 2 = k - 1 := by omega
  rw [prefixDistance_succ (getElem?_eq_getD hi) (getElem?_eq_getD hk), typoCell, Nat.add_sub_cancel,
    Nat.add_sub_cancel, hi2, hk2]
  by_cases h : 0 < i ∧ 0 < k ∧ b[k - 1]? = some (a.getD i 0) ∧ a[i - 1]? = some (b.getD k 0)
  · have hback := toNat_add_one ((hprev2 h.1).cell (k - 1) (by omega))
      (by have := prefixDistance_le a b (i - 1) (k - 1); omega)
    rw [if_pos (hswap.mpr h), if_pos h, toNat_smaller, hstep, hback]
  · rw [if_neg (mt hswap.mp h), if_neg h, hstep]

/-! ### Rows -/

/-- The first cells of a row, as far as it is written. -/
def typoCells (a b : Bytes) (i : ℕ) (prev2 prev cur : List UInt32) (k : ℕ) :
    List UInt32 × UInt32 :=
  (List.range k).foldl (fun s k =>
    let d := typoCell a b i (k + 1) prev2 prev s.1
    (s.1.set (k + 1) d, smaller s.2 d)) (cur.set 0 (UInt32.ofNat i), UInt32.ofNat i)

theorem typoCells_succ (i : ℕ) (prev2 prev cur : List UInt32) (k : ℕ) :
    typoCells a b i prev2 prev cur (k + 1) =
      let s := typoCells a b i prev2 prev cur k
      let d := typoCell a b i (k + 1) prev2 prev s.1
      (s.1.set (k + 1) d, smaller s.2 d) := by
  rw [typoCells, List.range_succ, List.foldl_append]
  rfl

/-- A round writes the next row, and its minimum is below every cell. -/
theorem typoCells_spec (hsize : a.length + b.length < 2 ^ 32) {i : ℕ} (hi : i < a.length)
    {prev2 prev cur : List UInt32} (hprev2 : 0 < i → RowIs a b (i - 1) prev2)
    (hprev : RowIs a b i prev) (hcur : cur.length = b.length + 1) {k : ℕ} (hk : k ≤ b.length) :
    RowUpTo a b (i + 1) k (typoCells a b (i + 1) prev2 prev cur k).1 ∧
      ∀ j ≤ k, (typoCells a b (i + 1) prev2 prev cur k).2.toNat ≤ prefixDistance a b (i + 1) j := by
  induction k with
  | zero =>
    have hfirst : (UInt32.ofNat (i + 1)).toNat = prefixDistance a b (i + 1) 0 := by
      rw [prefixDistance_zero_right hi, UInt32.toNat_ofNat_of_lt' (by simp only [UInt32.size]; omega)]
    refine ⟨⟨(List.length_set ..).trans hcur, fun j hj => ?_⟩, fun j hj => ?_⟩
    · obtain rfl := Nat.le_zero.mp hj
      rw [← hfirst, typoCells, List.range_zero, List.foldl_nil, List.getD_eq_getElem?_getD,
        List.getElem?_set_self (by omega), Option.getD_some]
    · obtain rfl := Nat.le_zero.mp hj
      exact hfirst.le
  | succ k ih =>
    obtain ⟨hrow, hmin⟩ := ih (Nat.le_of_succ_le hk)
    have hcell := toNat_typoCell hsize hi hk hprev2 hprev hrow
    rw [typoCells_succ]
    refine ⟨⟨(List.length_set ..).trans hrow.length_eq, fun j hj => ?_⟩, fun j hj => ?_⟩
    · dsimp only
      rcases Nat.le_succ_iff.mp hj with hj | rfl
      · rw [List.getD_eq_getElem?_getD, List.getElem?_set_ne (by omega), ← List.getD_eq_getElem?_getD]
        exact hrow.cell j hj
      · rw [List.getD_eq_getElem?_getD, List.getElem?_set_self (by rw [hrow.length_eq]; omega),
          Option.getD_some, hcell]
    · dsimp only
      rw [toNat_smaller, hcell]
      rcases Nat.le_succ_iff.mp hj with hj | rfl
      · exact (min_le_left _ _).trans (hmin j hj)
      · exact min_le_right _ _

/-- **The loop**: the distance, or `bound + 1` where the distance is above the bound. -/
theorem typoLoop_spec (hsize : a.length + b.length < 2 ^ 32) {bound : UInt32}
    {left i : ℕ} (hleft : i + left = a.length)
    {prev2 prev cur : List UInt32} (hprev2 : 0 < i → RowIs a b (i - 1) prev2)
    (hlen2 : prev2.length = b.length + 1) (hprev : RowIs a b i prev)
    (hcur : cur.length = b.length + 1) :
    (typoLoop a b bound (List.range' (i + 1) left) prev2 prev cur).toNat = osaDistance a b ∨
      bound.toNat < osaDistance a b ∧
        typoLoop a b bound (List.range' (i + 1) left) prev2 prev cur = bound + 1 := by
  induction left generalizing i prev2 prev cur with
  | zero =>
    obtain rfl : i = a.length := by omega
    left
    rw [List.range'_zero, typoLoop, hprev.cell _ (Nat.le_refl _), prefixDistance_length]
  | succ left ih =>
    have hi : i < a.length := by omega
    obtain ⟨hrow, hmin⟩ := typoCells_spec hsize hi hprev2 hprev hcur (Nat.le_refl b.length)
    rw [List.range'_succ, typoLoop]
    split_ifs with hcut
    · -- some prefix of `b` is as near to this prefix of `a` as the words are to each other
      obtain ⟨j, hj, hle⟩ := exists_column_le a b (i := i + 1) hi
      exact .inr ⟨(UInt32.lt_iff_toNat_lt.mp hcut).trans_le ((hmin j hj).trans hle), rfl⟩
    · exact ih (by omega) (fun _ => hprev) hprev.length_eq hrow hlen2

end Rows

/-! ### The distance -/

@[simp] theorem length_asciiLower (s : Bytes) : (asciiLower s).length = s.length :=
  List.length_map _

/-- The distance of two names up to case. -/
noncomputable def nameDistance (a b : Bytes) : ℕ := osaDistance (asciiLower a) (asciiLower b)

/-- Names whose lengths differ are at least so far apart. -/
theorem length_sub_le_nameDistance (a b : Bytes) :
    (a.length - b.length) + (b.length - a.length) ≤ nameDistance a b := by
  have h := (aligned_osaDistance (asciiLower a) (asciiLower b)).length_le
  rw [length_asciiLower, length_asciiLower] at h
  rw [nameDistance]
  omega

/-- **The distance is exact within the bound**, and above the bound where it is cut off. -/
theorem typoDistance_spec {a b : Bytes} {bound : UInt32} (ha : a.length < 2 ^ 31)
    (hb : b.length < 2 ^ 31) (hbound : bound.toNat < 2 ^ 31) :
    (nameDistance a b ≤ bound.toNat → (typoDistance a b bound).toNat = nameDistance a b) ∧
      (bound.toNat < nameDistance a b → bound < typoDistance a b bound) := by
  have hlen : (List.replicate (b.length + 1) (0 : UInt32)).length = (asciiLower b).length + 1 := by
    rw [List.length_replicate, length_asciiLower]
  have hfirst : RowIs (asciiLower a) (asciiLower b) 0
      ((List.range (b.length + 1)).map UInt32.ofNat) := by
    refine ⟨by simp, fun j hj => ?_⟩
    rw [length_asciiLower] at hj
    rw [prefixDistance_zero_left (by rwa [length_asciiLower]), List.getD_eq_getElem?_getD,
      List.getElem?_map, List.getElem?_range (by omega), Option.map_some, Option.getD_some]
    exact UInt32.toNat_ofNat_of_lt' (by simp only [UInt32.size]; omega)
  have hspec := @typoLoop_spec (asciiLower a) (asciiLower b)
    (by rw [length_asciiLower, length_asciiLower]; omega) bound a.length 0
    (by rw [length_asciiLower, Nat.zero_add]) _ _ _ (fun h => absurd h (lt_irrefl 0)) hlen hfirst hlen
  have hplus : (bound + 1).toNat = bound.toNat + 1 := toNat_add_one rfl (by omega)
  rw [typoDistance]
  rcases hspec with hexact | ⟨hover, hcut⟩
  · refine ⟨fun _ => hexact, fun hlt => UInt32.lt_iff_toNat_lt.mpr ?_⟩
    exact hexact.symm ▸ hlt
  · refine ⟨fun hle => absurd hover (not_lt.mpr hle), fun _ => UInt32.lt_iff_toNat_lt.mpr ?_⟩
    rw [hcut, hplus]
    exact Nat.lt_succ_self _

end Vycor
