import Mathlib.Data.List.Sort
import Mathlib.Data.List.Dedup
import Mathlib.Data.List.Perm.Basic

/-!
# Entries grouped by a key

The contents of an ordered map whose values are built from the entries of each key: the keys
in increasing order, each with its entries in the order they came.
-/

namespace Vycor

variable {α κ : Type*} [LinearOrder κ]

/-- The keys of some entries, in increasing order. -/
def keysOf (key : α → κ) (l : List α) : List κ := ((l.map key).dedup).insertionSort (· ≤ ·)

/-- The entries of one key. -/
def entriesOf (key : α → κ) (l : List α) (k : κ) : List α := l.filter fun a => key a = k

/-- The entries of a list by key. -/
def groupedBy (key : α → κ) (l : List α) : List (κ × List α) :=
  (keysOf key l).map fun k => (k, entriesOf key l k)

variable {key : α → κ} {l l' : List α} {k : κ}

theorem mem_keysOf : k ∈ keysOf key l ↔ ∃ a ∈ l, key a = k := by
  rw [keysOf, (List.perm_insertionSort _ _).mem_iff, List.mem_dedup, List.mem_map]

theorem nodup_keysOf (key : α → κ) (l : List α) : (keysOf key l).Nodup :=
  (List.perm_insertionSort _ _).nodup_iff.mpr (List.nodup_dedup _)

theorem mem_entriesOf {a : α} : a ∈ entriesOf key l k ↔ a ∈ l ∧ key a = k := by
  simp [entriesOf]

/-- Lists with the same keys have them in the same order. -/
theorem keysOf_congr (h : ∀ k, (∃ a ∈ l, key a = k) ↔ ∃ a ∈ l', key a = k) :
    keysOf key l = keysOf key l' := by
  have hperm : (l.map key).dedup.Perm (l'.map key).dedup := by
    rw [List.perm_ext_iff_of_nodup (List.nodup_dedup _) (List.nodup_dedup _)]
    intro k
    rw [List.mem_dedup, List.mem_dedup, List.mem_map, List.mem_map, h k]
  exact List.Perm.eq_of_pairwise (fun _ _ _ _ => le_antisymm) (List.pairwise_insertionSort _ _)
    (List.pairwise_insertionSort _ _)
    ((List.perm_insertionSort _ _).trans (hperm.trans (List.perm_insertionSort _ _).symm))

end Vycor
