import Mathlib.Data.List.Destutter
import Mathlib.Data.List.Sort
import Mathlib.Data.Prod.Lex

/-!
# Unstable sorting

`std::sort` promises an order of the elements in which none stands before a lesser one. How
it orders elements that compare equal is its own affair, so results about a program that
sorts are stated for every `Sorter` of the comparison.
-/

namespace Vycor

/-- What `std::sort` with a comparison may do. -/
structure Sorter {α : Type*} (less : α → α → Bool) where
  run : List α → List α
  perm : ∀ l, (run l).Perm l
  sorted : ∀ l, (run l).Pairwise fun a b => less b a = false

/-- The stable sort by a key that the comparison compares. -/
def Sorter.byKey {α κ : Type*} [LinearOrder κ] {less : α → α → Bool} (key : α → κ)
    (h : ∀ a b, less a b = decide (key a < key b)) : Sorter less where
  run l := l.insertionSort fun a b => key a ≤ key b
  perm l := List.perm_insertionSort _ l
  sorted l := by
    have : Std.Total fun a b : α => key a ≤ key b := ⟨fun a b => le_total _ _⟩
    have : IsTrans α fun a b => key a ≤ key b := ⟨fun _ _ _ => le_trans⟩
    refine (List.pairwise_insertionSort _ l).imp fun {a b} hab => ?_
    rw [h]
    simpa using hab

/-- A comparison of one field before the others compares pairs. -/
theorem lexBefore_iff {α β : Type*} [LinearOrder α] [LinearOrder β] {x x' : α} {k k' : β}
    [Decidable (x ≠ x')] [Decidable (x < x')] {b : Bool} (hb : b = true ↔ k < k') :
    (if x ≠ x' then decide (x < x') else b) = true ↔ toLex (x, k) < toLex (x', k') := by
  rw [Prod.Lex.toLex_lt_toLex]
  by_cases h : x = x'
  · simp [h, hb]
  · simp [h]

section Unique

variable {α κ : Type*} [LinearOrder κ] {less : α → α → Bool} {key : α → κ}

theorem Sorter.pairwise_map (h : ∀ a b, less a b = decide (key a < key b)) (sort : Sorter less)
    (l : List α) : ((sort.run l).map key).Pairwise (· ≤ ·) := by
  rw [List.pairwise_map]
  refine (sort.sorted l).imp fun {a b} hab => ?_
  rw [h, decide_eq_false_iff_not, not_lt] at hab
  exact hab

/-- Elements with the same keys sort to the same keys. -/
theorem Sorter.map_run_eq (h : ∀ a b, less a b = decide (key a < key b)) (sort sort' : Sorter less)
    {l l' : List α} (hperm : (l.map key).Perm (l'.map key)) :
    (sort.run l).map key = (sort'.run l').map key := by
  have hruns : ((sort.run l).map key).Perm ((sort'.run l').map key) :=
    (((sort.perm l).map key).trans hperm).trans ((sort'.perm l').map key).symm
  exact hruns.eq_of_pairwise (fun _ _ _ _ => le_antisymm) (sort.pairwise_map h l)
    (sort'.pairwise_map h l')

/-- **Sorting and `std::unique`**: when the test for equal neighbours compares the key that is
sorted by, the keys of the result depend on the keys alone, not on the order given. -/
theorem Sorter.map_destutter_eq (h : ∀ a b, less a b = decide (key a < key b))
    (sort sort' : Sorter less) {same : α → α → Bool}
    (hsame : ∀ a b, same a b = true ↔ key a = key b) {l l' : List α}
    (hperm : (l.map key).Perm (l'.map key)) :
    ((sort.run l).destutter fun a b => ¬ same a b).map key =
      ((sort'.run l').destutter fun a b => ¬ same a b).map key := by
  have hmap : ∀ l : List α, (l.destutter fun a b => ¬ same a b).map key =
      (l.map key).destutter (· ≠ ·) := by
    intro l
    refine List.map_destutter fun a _ b _ => ?_
    rw [hsame]
  rw [hmap, hmap, sort.map_run_eq h sort' hperm]

end Unique

end Vycor
