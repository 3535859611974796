import Mathlib.Order.Lattice.Nat
import Mathlib.Data.List.Basic
import Mathlib.Tactic.Common

/-!
# Optimal string alignment

Two words are aligned letter by letter, from left to right, by keeping, replacing, deleting
or inserting a letter or by swapping two neighbours; no letter takes part in two edits
(`Aligned`). The distance of two words is the least number of edits (`osaDistance`).

A dynamic program fills in the distances of the prefixes. Its recurrence looks at the last
letters (`osaDistance_concat`), where a swap reaches back over two; and it may stop at a row
without a cell within the bound, because an alignment of the words passes every row at no
more than its own cost (`exists_column_le`).
-/

namespace Vycor

variable {α : Type*}

/-- The first word becomes the second by so many edits. -/
inductive Aligned : List α → List α → ℕ → Prop
  | nil : Aligned [] [] 0
  | keep {a b : List α} {k : ℕ} (x : α) : Aligned a b k → Aligned (x :: a) (x :: b) k
  | replace {a b : List α} {k : ℕ} (x y : α) :
      Aligned a b k → Aligned (x :: a) (y :: b) (k + 1)
  | delete {a b : List α} {k : ℕ} (x : α) : Aligned a b k → Aligned (x :: a) b (k + 1)
  | insert {a b : List α} {k : ℕ} (y : α) : Aligned a b k → Aligned a (y :: b) (k + 1)
  | swap {a b : List α} {k : ℕ} (x y : α) :
      Aligned a b k → Aligned (x :: y :: a) (y :: x :: b) (k + 1)

namespace Aligned

variable {a b a' b' : List α} {k k' : ℕ}

theorem append (h : Aligned a b k) (h' : Aligned a' b' k') :
    Aligned (a ++ a') (b ++ b') (k + k') := by
  induction h with
  | nil => rwa [Nat.zero_add]
  | keep x _ ih => exact ih.keep x
  | replace x y _ ih => exact Nat.add_right_comm _ 1 _ ▸ ih.replace x y
  | delete x _ ih => exact Nat.add_right_comm _ 1 _ ▸ ih.delete x
  | insert y _ ih => exact Nat.add_right_comm _ 1 _ ▸ ih.insert y
  | swap x y _ ih => exact Nat.add_right_comm _ 1 _ ▸ ih.swap x y

/-- An alignment can be read from the right. -/
theorem reverse (h : Aligned a b k) : Aligned a.reverse b.reverse k := by
  induction h with
  | nil => exact nil
  | keep x _ ih => simpa using ih.append (nil.keep x)
  | replace x y _ ih => simpa using ih.append (nil.replace x y)
  | delete x _ ih => simpa using ih.append (nil.delete x)
  | insert y _ ih => simpa using ih.append (nil.insert y)
  | swap x y _ ih => simpa using ih.append (nil.swap y x)

/-- An edit changes the length by one at most. -/
theorem length_le (h : Aligned a b k) : a.length ≤ b.length + k ∧ b.length ≤ a.length + k := by
  induction h with
  | nil => simp
  | keep => simp only [List.length_cons]; omega
  | replace => simp only [List.length_cons]; omega
  | delete => simp only [List.length_cons]; omega
  | insert => simp only [List.length_cons]; omega
  | swap => simp only [List.length_cons]; omega

/-- **An alignment passes every row** at no more than its own cost. A swap that begins in the
row before replaces its first letter there. -/
theorem exists_column (h : Aligned a b k) :
    ∀ i ≤ a.length, ∃ j ≤ b.length, ∃ k' ≤ k, Aligned (a.take i) (b.take j) k' := by
  induction h with
  | nil => exact fun i _ => ⟨0, Nat.le_refl 0, 0, Nat.le_refl 0, by rw [List.take_nil]; exact nil⟩
  | @keep a b k x _ ih =>
    rintro (_ | i) hi
    · exact ⟨0, Nat.zero_le _, 0, Nat.zero_le _, nil⟩
    · obtain ⟨j, hj, k', hk, h'⟩ := ih i (Nat.le_of_succ_le_succ hi)
      exact ⟨j + 1, Nat.succ_le_succ hj, k', hk, h'.keep x⟩
  | @replace a b k x y _ ih =>
    rintro (_ | i) hi
    · exact ⟨0, Nat.zero_le _, 0, Nat.zero_le _, nil⟩
    · obtain ⟨j, hj, k', hk, h'⟩ := ih i (Nat.le_of_succ_le_succ hi)
      exact ⟨j + 1, Nat.succ_le_succ hj, k' + 1, Nat.succ_le_succ hk, h'.replace x y⟩
  | @delete a b k x _ ih =>
    rintro (_ | i) hi
    · exact ⟨0, Nat.zero_le _, 0, Nat.zero_le _, nil⟩
    · obtain ⟨j, hj, k', hk, h'⟩ := ih i (Nat.le_of_succ_le_succ hi)
      exact ⟨j, hj, k' + 1, Nat.succ_le_succ hk, h'.delete x⟩
  | @insert a b k y _ ih =>
    intro i hi
    obtain ⟨j, hj, k', hk, h'⟩ := ih i hi
    exact ⟨j + 1, Nat.succ_le_succ hj, k' + 1, Nat.succ_le_succ hk, h'.insert y⟩
  | @swap a b k x y _ ih =>
    rintro (_ | _ | i) hi
    · exact ⟨0, Nat.zero_le _, 0, Nat.zero_le _, nil⟩
    · exact ⟨1, Nat.succ_le_succ (Nat.zero_le _), 1, Nat.succ_le_succ (Nat.zero_le _),
        nil.replace x y⟩
    · simp only [List.length_cons] at hi
      obtain ⟨j, hj, k', hk, h'⟩ := ih i (by omega)
      exact ⟨j + 2, by simp only [List.length_cons]; omega, k' + 1, Nat.succ_le_succ hk, h'.swap x y⟩

theorem nil_left (b : List α) : Aligned [] b b.length := by
  induction b with
  | nil => exact nil
  | cons y b ih => exact ih.insert y

theorem nil_right (a : List α) : Aligned a [] a.length := by
  induction a with
  | nil => exact nil
  | cons x a ih => exact ih.delete x

end Aligned

/-- The least number of edits. -/
noncomputable def osaDistance (a b : List α) : ℕ := sInf {k | Aligned a b k}

section Distance

variable {a b : List α}

theorem aligned_add_length (a b : List α) : Aligned a b (a.length + b.length) := by
  simpa using (Aligned.nil_right a).append (Aligned.nil_left b)

theorem aligned_osaDistance (a b : List α) : Aligned a b (osaDistance a b) :=
  Nat.sInf_mem (s := {k | Aligned a b k}) ⟨_, aligned_add_length a b⟩

theorem osaDistance_le {k : ℕ} (h : Aligned a b k) : osaDistance a b ≤ k := Nat.sInf_le h

theorem osaDistance_le_add (a b : List α) : osaDistance a b ≤ a.length + b.length :=
  osaDistance_le (aligned_add_length a b)

theorem osaDistance_nil_left (b : List α) : osaDistance [] b = b.length := by
  refine Nat.le_antisymm (osaDistance_le (Aligned.nil_left b)) ?_
  simpa using (aligned_osaDistance [] b).length_le.2

theorem osaDistance_nil_right (a : List α) : osaDistance a [] = a.length := by
  refine Nat.le_antisymm (osaDistance_le (Aligned.nil_right a)) ?_
  simpa using (aligned_osaDistance a []).length_le.1

theorem osaDistance_reverse (a b : List α) : osaDistance a.reverse b.reverse = osaDistance a b := by
  refine Nat.le_antisymm (osaDistance_le (aligned_osaDistance a b).reverse) (osaDistance_le ?_)
  simpa using (aligned_osaDistance a.reverse b.reverse).reverse

/-- **The cut is sound**: some prefix of the second word is as near to a prefix of the first
as the words are to each other. -/
theorem exists_column_le (a b : List α) {i : ℕ} (hi : i ≤ a.length) :
    ∃ j ≤ b.length, osaDistance (a.take i) (b.take j) ≤ osaDistance a b := by
  obtain ⟨j, hj, k', hk, h⟩ := (aligned_osaDistance a b).exists_column i hi
  exact ⟨j, hj, (osaDistance_le h).trans hk⟩

/-! ### The recurrence -/

variable [DecidableEq α]

/-- The three steps without a swap. -/
noncomputable def stepDistance (x y : α) (a b : List α) : ℕ :=
  min (min (osaDistance a (y :: b) + 1) (osaDistance (x :: a) b + 1))
    (osaDistance a b + if x = y then 0 else 1)

theorem aligned_step (x y : α) (a b : List α) :
    Aligned (x :: a) (y :: b) (stepDistance x y a b) := by
  refine min_rec' _ (min_rec' _ ((aligned_osaDistance a (y :: b)).delete x)
    ((aligned_osaDistance (x :: a) b).insert y)) ?_
  split_ifs with heq
  · exact heq ▸ (aligned_osaDistance a b).keep x
  · exact (aligned_osaDistance a b).replace x y

/-- An alignment of two words that begin with `x` and `y` takes one of the three steps, or
swaps the two letters. -/
theorem stepDistance_le {x y : α} {k : ℕ} (h : Aligned (x :: a) (y :: b) k) :
    stepDistance x y a b ≤ k ∨
      ∃ a' b', a = y :: a' ∧ b = x :: b' ∧ osaDistance a' b' + 1 ≤ k := by
  rw [stepDistance]
  cases h with
  | keep _ h =>
    have := osaDistance_le h
    exact .inl (by rw [if_pos rfl]; omega)
  | replace _ _ h =>
    have := osaDistance_le h
    exact .inl (by split_ifs <;> omega)
  | delete _ h =>
    have := osaDistance_le h
    exact .inl (by omega)
  | insert _ h =>
    have := osaDistance_le h
    exact .inl (by omega)
  | swap _ _ h => exact .inr ⟨_, _, rfl, rfl, Nat.succ_le_succ (osaDistance_le h)⟩

theorem osaDistance_cons {x y : α} (h : ∀ a' b', ¬ (a = y :: a' ∧ b = x :: b')) :
    osaDistance (x :: a) (y :: b) = stepDistance x y a b := by
  refine Nat.le_antisymm (osaDistance_le (aligned_step x y a b)) ?_
  rcases stepDistance_le (aligned_osaDistance (x :: a) (y :: b)) with hle | ⟨a', b', ha, hb, -⟩
  · exact hle
  · exact absurd ⟨ha, hb⟩ (h a' b')

theorem osaDistance_swap (x y : α) (a b : List α) :
    osaDistance (x :: y :: a) (y :: x :: b) =
      min (stepDistance x y (y :: a) (x :: b)) (osaDistance a b + 1) := by
  refine Nat.le_antisymm (le_min (osaDistance_le (aligned_step x y _ _))
    (osaDistance_le ((aligned_osaDistance a b).swap x y))) ?_
  rcases stepDistance_le (aligned_osaDistance (x :: y :: a) (y :: x :: b)) with
    hle | ⟨a', b', ha, hb, hle⟩
  · exact (min_le_left _ _).trans hle
  · obtain rfl := (List.cons_eq_cons.mp ha).2
    obtain rfl := (List.cons_eq_cons.mp hb).2
    exact (min_le_right _ _).trans hle

/-! ### Prefixes -/

/-- The distance of two prefixes. -/
noncomputable def prefixDistance (a b : List α) (i j : ℕ) : ℕ :=
  osaDistance (a.take i) (b.take j)

omit [DecidableEq α] in
theorem prefixDistance_eq (a b : List α) (i j : ℕ) :
    prefixDistance a b i j = osaDistance (a.take i).reverse (b.take j).reverse :=
  (osaDistance_reverse _ _).symm

omit [DecidableEq α] in
theorem prefixDistance_length (a b : List α) :
    prefixDistance a b a.length b.length = osaDistance a b := by
  rw [prefixDistance, List.take_length, List.take_length]

omit [DecidableEq α] in
theorem prefixDistance_zero_left {j : ℕ} (hj : j ≤ b.length) : prefixDistance a b 0 j = j := by
  rw [prefixDistance, List.take_zero, osaDistance_nil_left, List.length_take, min_eq_left hj]

omit [DecidableEq α] in
theorem prefixDistance_zero_right {i : ℕ} (hi : i ≤ a.length) : prefixDistance a b i 0 = i := by
  rw [prefixDistance, List.take_zero, osaDistance_nil_right, List.length_take, min_eq_left hi]

omit [DecidableEq α] in
theorem prefixDistance_le (a b : List α) (i j : ℕ) : prefixDistance a b i j ≤ i + j :=
  (osaDistance_le_add _ _).trans
    (Nat.add_le_add (List.length_take_le i a) (List.length_take_le j b))

omit [DecidableEq α] in
/-- The last letter of a prefix, from the right. -/
theorem reverse_take_succ {a : List α} {i : ℕ} {x : α} (hx : a[i]? = some x) :
    (a.take (i + 1)).reverse = x :: (a.take i).reverse := by
  rw [List.take_add_one, hx, Option.toList_some, List.reverse_append, List.reverse_singleton]
  rfl

omit [DecidableEq α] in
theorem getElem?_of_reverse_take {a a' : List α} {i : ℕ} (hi : i ≤ a.length) {y : α}
    (h : (a.take i).reverse = y :: a') : 0 < i ∧ a[i - 1]? = some y := by
  have hlast : (a.take i).getLast? = some y := by rw [← List.head?_reverse, h, List.head?_cons]
  rw [List.getLast?_eq_getElem?, List.length_take, min_eq_left hi, List.getElem?_take] at hlast
  obtain ⟨hpos, hy⟩ := Option.ite_none_right_eq_some.mp hlast
  exact ⟨by omega, hy⟩

/-- **The recurrence for prefixes**: the swap reaches back over two letters of each word. -/
theorem prefixDistance_succ {i j : ℕ} {x y : α} (hx : a[i]? = some x) (hy : b[j]? = some y) :
    prefixDistance a b (i + 1) (j + 1) =
      if 0 < i ∧ 0 < j ∧ b[j - 1]? = some x ∧ a[i - 1]? = some y then
        min (min (min (prefixDistance a b i (j + 1) + 1) (prefixDistance a b (i + 1) j + 1))
          (prefixDistance a b i j + if x = y then 0 else 1)) (prefixDistance a b (i - 1) (j - 1) + 1)
      else
        min (min (prefixDistance a b i (j + 1) + 1) (prefixDistance a b (i + 1) j + 1))
          (prefixDistance a b i j + if x = y then 0 else 1) := by
  have hia := (List.getElem?_eq_some_iff.mp hx).1
  have hjb := (List.getElem?_eq_some_iff.mp hy).1
  simp only [prefixDistance_eq, reverse_take_succ hx, reverse_take_succ hy]
  by_cases hswap : 0 < i ∧ 0 < j ∧ b[j - 1]? = some x ∧ a[i - 1]? = some y
  · rw [if_pos hswap]
    obtain ⟨hi, hj, hbx, hay⟩ := hswap
    obtain ⟨i, rfl⟩ := Nat.exists_eq_add_one_of_ne_zero (Nat.ne_of_gt hi)
    obtain ⟨j, rfl⟩ := Nat.exists_eq_add_one_of_ne_zero (Nat.ne_of_gt hj)
    rw [Nat.add_sub_cancel] at hbx hay
    rw [reverse_take_succ hay, reverse_take_succ hbx]
    exact osaDistance_swap x y _ _
  · rw [if_neg hswap]
    refine osaDistance_cons fun a' b' hab => hswap ?_
    obtain ⟨hi, hay⟩ := getElem?_of_reverse_take hia.le hab.1
    obtain ⟨hj, hbx⟩ := getElem?_of_reverse_take hjb.le hab.2
    exact ⟨hi, hj, hbx, hay⟩

end Distance

end Vycor
