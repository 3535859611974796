import Mathlib

/-!
# Positions in a log

An index over an append-only log keeps the positions of the entries with a property, in
ascending order. `positions p l` is that list; this file says how it changes when the log
grows, when entries are changed in place and when entries are dropped (`rank`), and that
reading the log at the positions gives back the entries.
-/

namespace Vycor

variable {α β : Type*}

/-- The positions of the entries of a log that pass a test, ascending. -/
def positions (p : α → Bool) (l : List α) : List ℕ :=
  (List.range l.length).filter fun i => l[i]?.any p

@[simp] theorem positions_nil (p : α → Bool) : positions p [] = [] := rfl

theorem mem_positions {p : α → Bool} {l : List α} {i : ℕ} :
    i ∈ positions p l ↔ ∃ a, l[i]? = some a ∧ p a = true := by
  simp only [positions, List.mem_filter, List.mem_range]
  constructor
  · rintro ⟨hi, ha⟩
    rw [List.getElem?_eq_getElem hi] at ha ⊢
    exact ⟨_, rfl, by simpa using ha⟩
  · rintro ⟨a, hi, ha⟩
    exact ⟨(List.getElem?_eq_some_iff.mp hi).1, by simp [hi, ha]⟩

/-- The log grows by one entry. -/
theorem positions_concat (p : α → Bool) (l : List α) (a : α) :
    positions p (l ++ [a]) = positions p l ++ if p a then [l.length] else [] := by
  simp only [positions, List.length_append, List.length_singleton, List.range_succ,
    List.filter_append]
  congr 1
  · refine List.filter_congr fun i hi => ?_
    rw [List.getElem?_append_left (List.mem_range.mp hi)]
  · simp [List.filter_cons]

/-- Entries change in place, and a filter of the old positions is right for the new ones. -/
theorem positions_filter {p : α → Bool} {p' : β → Bool} {q : ℕ → Bool} {l : List α} {l' : List β}
    (hlen : l'.length = l.length)
    (h : ∀ i a b, l[i]? = some a → l'[i]? = some b → p' b = (p a && q i)) :
    positions p' l' = (positions p l).filter q := by
  simp only [positions, List.filter_filter, hlen]
  refine List.filter_congr fun i hi => ?_
  have hi := List.mem_range.mp hi
  rw [List.getElem?_eq_getElem (by omega : i < l'.length), List.getElem?_eq_getElem hi]
  simp only [Option.any_some]
  rw [h i _ _ (List.getElem?_eq_getElem hi) (List.getElem?_eq_getElem (by omega : i < l'.length)),
    Bool.and_comm]

/-- Reading the log at the positions gives the entries. -/
theorem filterMap_positions (p : α → Bool) (l : List α) :
    (positions p l).filterMap (l[·]?) = l.filter p := by
  induction l using List.reverseRecOn with
  | nil => rfl
  | append_singleton l a ih =>
    have hold : ∀ i ∈ positions p l, (l ++ [a])[i]? = l[i]? := by
      intro i hi
      obtain ⟨b, hb, -⟩ := mem_positions.mp hi
      exact List.getElem?_append_left (List.getElem?_eq_some_iff.mp hb).1
    rw [positions_concat, List.filterMap_append, List.filter_append, List.filterMap_congr hold, ih]
    congr 1
    by_cases hp : p a = true
    · simp [hp]
    · simp [hp]

/-- What stands at a position of a list grown by one. -/
theorem getElem?_concat_eq_some {l : List α} {a b : α} {i : ℕ} :
    (l ++ [a])[i]? = some b ↔ l[i]? = some b ∨ i = l.length ∧ a = b := by
  rcases Nat.lt_trichotomy i l.length with hlt | rfl | hgt
  · rw [List.getElem?_append_left hlt]
    simp [hlt.ne]
  · simp
  · rw [List.getElem?_eq_none (by simp; omega), List.getElem?_eq_none hgt.le]
    simp [hgt.ne']

/-- A count of two kinds, nothing being of both. -/
theorem countP_add {p q r : α → Bool} {l : List α}
    (h : ∀ a, (if r a then 1 else 0) = (if p a then 1 else 0) + if q a then 1 else 0) :
    l.countP r = l.countP p + l.countP q := by
  induction l with
  | nil => rfl
  | cons a l ih =>
    have := h a
    rw [List.countP_cons, List.countP_cons, List.countP_cons]
    omega

/-- Replacing one entry of a log changes a count by that entry alone. -/
theorem countP_set (p : α → Bool) {l : List α} {i : ℕ} {a : α} (h : l[i]? = some a) (b : α) :
    (l.set i b).countP p + (if p a then 1 else 0) = l.countP p + if p b then 1 else 0 := by
  induction l generalizing i with
  | nil => cases h
  | cons c l ih =>
    cases i with
    | zero =>
      obtain rfl : c = a := by simpa using h
      simp only [List.set_cons_zero, List.countP_cons]
      omega
    | succ i =>
      have := ih (i := i) (by simpa using h)
      simp only [List.set_cons_succ, List.countP_cons]
      omega

/-! ### Dropping entries -/

/-- How many entries that pass stand before a position: where the entry stands once the others
are dropped. -/
def rank (p : α → Bool) (l : List α) (i : ℕ) : ℕ := (l.take i).countP p

section Rank

variable {p : α → Bool} {l : List α}

theorem rank_cons_succ (b : α) (i : ℕ) :
    rank p (b :: l) (i + 1) = rank p l i + if p b then 1 else 0 := by
  rw [rank, List.take_succ_cons, List.countP_cons]
  rfl

/-- An entry that stays stands at its rank, and only such entries do. -/
theorem getElem?_filter_iff {a : α} {j : ℕ} :
    (l.filter p)[j]? = some a ↔ ∃ i : ℕ, l[i]? = some a ∧ p a = true ∧ rank p l i = j := by
  induction l generalizing j with
  | nil => simp
  | cons b l ih =>
    have htail : (∃ i : ℕ, (b :: l)[i]? = some a ∧ p a = true ∧ rank p (b :: l) i = j) ↔
        (b = a ∧ p a = true ∧ j = 0) ∨
          ∃ i : ℕ, l[i]? = some a ∧ p a = true ∧ (rank p l i + if p b then 1 else 0) = j := by
      constructor
      · rintro ⟨i, hi, ha, hj⟩
        cases i with
        | zero => exact .inl ⟨Option.some_inj.mp hi, ha, hj.symm⟩
        | succ i => exact .inr ⟨i, hi, ha, by rwa [rank_cons_succ] at hj⟩
      · rintro (⟨rfl, ha, rfl⟩ | ⟨i, hi, ha, hj⟩)
        · exact ⟨0, rfl, ha, rfl⟩
        · exact ⟨i + 1, hi, ha, by rw [rank_cons_succ, hj]⟩
    rw [htail]
    by_cases hb : p b = true
    · rw [List.filter_cons_of_pos hb]
      simp only [hb, if_true]
      cases j with
      | zero =>
        rw [List.getElem?_cons_zero, Option.some_inj]
        constructor
        · rintro rfl
          exact .inl ⟨rfl, hb, rfl⟩
        · rintro (⟨rfl, -, -⟩ | ⟨i, -, -, hj⟩)
          · rfl
          · cases hj
      | succ j =>
        rw [List.getElem?_cons_succ, ih]
        simp
    · rw [List.filter_cons_of_neg hb, ih]
      simp only [hb, if_false, Nat.add_zero, Bool.false_eq_true]
      constructor
      · exact .inr
      · rintro (⟨rfl, ha, -⟩ | h)
        · exact absurd ha hb
        · exact h

theorem rank_concat_of_le {i : ℕ} (hi : i ≤ l.length) (b : α) :
    rank p (l ++ [b]) i = rank p l i := by
  rw [rank, List.take_append_of_le_length hi]
  rfl

theorem rank_length : rank p l l.length = (l.filter p).length := by
  rw [rank, List.take_length, List.countP_eq_length_filter]

/-- The positions after the drop. -/
theorem positions_filter_map (q : α → Bool) :
    positions q (l.filter p) = (positions (fun a => p a && q a) l).map (rank p l) := by
  induction l using List.reverseRecOn with
  | nil => rfl
  | append_singleton l a ih =>
    have hold : (positions (fun a => p a && q a) l).map (rank p (l ++ [a])) =
        (positions (fun a => p a && q a) l).map (rank p l) := by
      refine List.map_congr_left fun i hi => rank_concat_of_le ?_ a
      obtain ⟨b, hb, -⟩ := mem_positions.mp hi
      exact (List.getElem?_eq_some_iff.mp hb).1.le
    rw [positions_concat, List.map_append, hold, ← ih, List.filter_append]
    by_cases hp : p a = true
    · rw [List.filter_cons_of_pos hp, List.filter_nil, positions_concat]
      by_cases hq : q a = true
      · simp [hp, hq, rank_concat_of_le le_rfl, rank_length]
      · simp [hp, hq]
    · simp [hp]

/-- Two entries that stay keep their order. -/
theorem rank_lt_rank {i j : ℕ} {a : α} (hi : l[i]? = some a) (ha : p a = true) (hij : i < j) :
    rank p l i < rank p l j := by
  induction l generalizing i j with
  | nil => cases hi
  | cons b l ih =>
    obtain ⟨j, rfl⟩ := Nat.exists_eq_succ_of_ne_zero (by omega : j ≠ 0)
    rw [Nat.succ_eq_add_one, rank_cons_succ]
    cases i with
    | zero =>
      obtain rfl := Option.some_inj.mp hi
      simp [rank, ha]
    | succ i =>
      rw [rank_cons_succ]
      have := ih hi (by omega : i < j)
      omega

theorem rank_inj {i j : ℕ} {a b : α} (hi : l[i]? = some a) (ha : p a = true)
    (hj : l[j]? = some b) (hb : p b = true) (h : rank p l i = rank p l j) : i = j := by
  rcases Nat.lt_trichotomy i j with hlt | heq | hgt
  · exact absurd h (rank_lt_rank hi ha hlt).ne
  · exact heq
  · exact absurd h (rank_lt_rank hj hb hgt).ne'

end Rank

end Vycor
