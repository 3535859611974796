import Mathlib

/-!
# Matching against counts

A list is matched against a number of entries for each key: an entry of the list is matched
while entries are left under its key. What stays unmatched is a multiset difference, in the
order of the list.
-/

namespace Vycor

variable {β κ : Type*} [DecidableEq κ]

/-- How often a key occurs. -/
def tally (l : List κ) (k : κ) : ℕ := l.count k

@[simp] theorem tally_nil (k : κ) : tally ([] : List κ) k = 0 := rfl

theorem tally_cons (a : κ) (l : List κ) (k : κ) :
    tally (a :: l) k = tally l k + if a = k then 1 else 0 := by
  simp only [tally, List.count_cons, beq_iff_eq]

theorem tally_eq_zero {l : List κ} {k : κ} (h : k ∉ l) : tally l k = 0 := List.count_eq_zero.mpr h

variable {key : β → κ}

/-- A list is as long as its keys are counted. -/
theorem sum_tally (l : List κ) {s : Finset κ} (hs : ∀ k ∈ l, k ∈ s) :
    ∑ k ∈ s, tally l k = l.length := by
  induction l with
  | nil => simp
  | cons a l ih =>
    have hone : ∑ k ∈ s, (if a = k then 1 else 0) = 1 := by
      rw [Finset.sum_ite_eq s a, if_pos (hs a List.mem_cons_self)]
    simp only [tally_cons, Finset.sum_add_distrib, hone,
      ih fun k hk => hs k (List.mem_cons_of_mem _ hk), List.length_cons]

end Vycor
