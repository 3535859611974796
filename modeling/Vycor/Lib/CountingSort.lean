import Vycor.Lib.Positions

/-!
# Counting sort

Elements with keys below a bound are sorted in one pass over the elements and one over the
keys: count the keys, add up the counts to the start of every key, put every element at the
next place of its key. The result lists the elements key by key, each key's in their order
(`countingSort_eq`), so the sort is stable.
-/

namespace Vycor

variable {α β : Type*}

/-- The elements key by key, for keys below `n`. -/
def byKey (n : ℕ) (key : α → ℕ) (items : List α) : List α :=
  (List.range n).flatMap fun k => items.filter fun a => decide (key a = k)

/-- Count an element for the start of the next key. -/
def countKey (key : α → ℕ) (starts : ℕ → ℕ) (a : α) : ℕ → ℕ :=
  Function.update starts (key a + 1) (starts (key a + 1) + 1)

/-- Add up the counts. -/
def addUp (starts : ℕ → ℕ) (k : ℕ) : ℕ → ℕ :=
  Function.update starts (k + 1) (starts (k + 1) + starts k)

/-- Put an element at the next place of its key. -/
def place (key : α → ℕ) (acc : (ℕ → ℕ) × List α) (a : α) : (ℕ → ℕ) × List α :=
  (Function.update acc.1 (key a) (acc.1 (key a) + 1), acc.2.set (acc.1 (key a)) a)

/-- Counting sort of elements with keys below `n`. -/
def countingSort [Inhabited α] (n : ℕ) (key : α → ℕ) (items : List α) : List α :=
  let starts := items.foldl (countKey key) fun _ => 0
  let starts := (List.range n).foldl addUp starts
  (items.foldl (place key) (starts, List.replicate items.length default)).2

section Loops

variable {key : α → ℕ} {n : ℕ} {items : List α}

theorem foldl_countKey (starts : ℕ → ℕ) (k : ℕ) :
    items.foldl (countKey key) starts k =
      starts k + items.countP fun a => decide (key a + 1 = k) := by
  induction items generalizing starts with
  | nil => rfl
  | cons a rest ih =>
    rw [List.foldl_cons, ih, List.countP_cons, countKey, Function.update_apply]
    by_cases h : k = key a + 1
    · subst h
      simp
      omega
    · simp [h, Ne.symm h]

/-- The start of a key is the number of the elements with smaller keys. -/
theorem foldl_addUp (k : ℕ) (hk : k ≤ n) :
    (List.range n).foldl addUp (items.foldl (countKey key) fun _ => 0) k =
      items.countP fun a => decide (key a < k) := by
  -- after some steps the counts are added up to there
  have hsteps : ∀ j, (∀ k ≤ j, (List.range j).foldl addUp
      (items.foldl (countKey key) fun _ => 0) k = items.countP fun a => decide (key a < k)) ∧
        ∀ k > j, (List.range j).foldl addUp (items.foldl (countKey key) fun _ => 0) k =
          items.countP fun a => decide (key a + 1 = k) := by
    intro j
    induction j with
    | zero =>
      refine ⟨fun k hk => ?_, fun k _ => ?_⟩
      · rw [Nat.le_zero.mp hk, List.range_zero, List.foldl_nil, foldl_countKey]
        simp
      · rw [List.range_zero, List.foldl_nil, foldl_countKey, Nat.zero_add]
    | succ j ih =>
      rw [List.range_succ, List.foldl_append, List.foldl_cons, List.foldl_nil]
      refine ⟨fun k hk => ?_, fun k hk => ?_⟩
      · rcases Nat.lt_or_eq_of_le hk with hlt | rfl
        · rw [addUp, Function.update_of_ne (by omega)]
          exact ih.1 k (by omega)
        · rw [addUp, Function.update_self, ih.2 (j + 1) (by omega), ih.1 j le_rfl]
          refine (countP_add fun a => ?_).symm
          simp only [decide_eq_true_eq]
          split_ifs <;> omega
      · rw [addUp, Function.update_of_ne (by omega)]
        exact ih.2 k (by omega)
  exact (hsteps n).1 k hk

/-- How many elements stand before those with a key. -/
def below (key : α → ℕ) (items : List α) (k : ℕ) : ℕ := items.countP fun a => decide (key a < k)

theorem below_succ (key : α → ℕ) (items : List α) (k : ℕ) :
    below key items (k + 1) = below key items k + items.countP fun a => decide (key a = k) := by
  refine countP_add fun a => ?_
  simp only [decide_eq_true_eq]
  split_ifs <;> omega

theorem below_le (key : α → ℕ) (items : List α) {k k' : ℕ} (h : k < k') :
    below key items k + (items.countP fun a => decide (key a = k)) ≤ below key items k' := by
  rw [← below_succ]
  refine List.countP_mono_left fun a _ ha => ?_
  simp only [decide_eq_true_eq] at ha ⊢
  omega

/-- The first elements stand at their places. -/
structure Placed (key : α → ℕ) (items done : List α) (acc : (ℕ → ℕ) × List α) : Prop where
  starts : ∀ a ∈ items,
    acc.1 (key a) = below key items (key a) + done.countP fun b => decide (key b = key a)
  length : acc.2.length = items.length
  placed : ∀ (k j : ℕ) a, (done.filter fun b => decide (key b = k))[j]? = some a →
    acc.2[below key items k + j]? = some a

theorem Placed.place {done rest : List α} {a : α} {acc : (ℕ → ℕ) × List α}
    (h : Placed key items done acc) (hitems : items = done ++ a :: rest) :
    Placed key items (done ++ [a]) (Vycor.place key acc a) := by
  have hmem : a ∈ items := by rw [hitems]; simp
  have hstart := h.starts a hmem
  have hcount : (done.countP fun b => decide (key b = key a)) <
      items.countP fun b => decide (key b = key a) := by
    rw [hitems, List.countP_append, List.countP_cons_of_pos (by simp)]
    omega
  have hdone : ∀ k, (done.countP fun b => decide (key b = k)) ≤
      items.countP fun b => decide (key b = k) := fun k =>
    (List.Sublist.countP_le (hitems ▸ List.sublist_append_left _ _))
  have htotal : below key items (key a) + (items.countP fun b => decide (key b = key a)) ≤
      items.length := by
    rw [← below_succ]
    exact List.countP_le_length
  refine ⟨fun b hb => ?_, by simp [Vycor.place, h.length], fun k j b hb => ?_⟩
  · dsimp only [Vycor.place]
    rw [Function.update_apply, List.countP_append]
    by_cases hk : key b = key a
    · simp [hk, hstart, Nat.add_assoc]
    · simp [hk, Ne.symm hk, h.starts b hb]
  · rw [Vycor.place, hstart]
    rw [List.filter_append] at hb
    by_cases hj : j < (done.filter fun b => decide (key b = k)).length
    · -- the elements placed before stand elsewhere
      rw [List.getElem?_append_left hj] at hb
      rw [← List.countP_eq_length_filter] at hj
      have hne : below key items (key a) + (done.countP fun b => decide (key b = key a)) ≠
          below key items k + j := by
        have hk := hdone k
        rcases Nat.lt_trichotomy k (key a) with hlt | rfl | hgt
        · have := below_le key items hlt
          omega
        · omega
        · have := below_le key items hgt
          omega
      rw [List.getElem?_set_ne hne]
      exact h.placed k j b hb
    · rw [List.getElem?_append_right (not_lt.mp hj)] at hb
      by_cases hk : key a = k
      · subst hk
        rw [List.filter_cons_of_pos (by simp), List.filter_nil, List.getElem?_singleton] at hb
        split_ifs at hb with hzero
        obtain rfl := Option.some_inj.mp hb
        have hjeq : j = done.countP fun b => decide (key b = key a) := by
          rw [List.countP_eq_length_filter]
          omega
        rw [hjeq, List.getElem?_set_self (by rw [h.length]; omega)]
      · rw [List.filter_cons_of_neg (by simpa using hk)] at hb
        cases hb

theorem Placed.foldl {done rest : List α} {acc : (ℕ → ℕ) × List α}
    (h : Placed key items done acc) (hitems : items = done ++ rest) :
    Placed key items items (rest.foldl (Vycor.place key) acc) := by
  induction rest generalizing done acc with
  | nil =>
    rw [List.append_nil] at hitems
    subst hitems
    exact h
  | cons a rest ih => exact ih (h.place hitems) (by rw [hitems, List.append_cons])

/-- The places of the elements are those of the list by keys. -/
theorem Placed.take_eq {acc : (ℕ → ℕ) × List α} (h : Placed key items items acc) (m : ℕ) :
    acc.2.take (below key items m) = byKey m key items := by
  induction m with
  | zero => simp [below, byKey]
  | succ m ih =>
    have hslice : ((acc.2.drop (below key items m)).take
        (items.countP fun a => decide (key a = m))) = items.filter fun a => decide (key a = m) := by
      refine List.ext_getElem? fun j => ?_
      rw [List.getElem?_take, List.getElem?_drop, List.countP_eq_length_filter]
      split_ifs with hj
      · rw [List.getElem?_eq_getElem hj]
        exact h.placed m j _ (List.getElem?_eq_getElem hj)
      · rw [List.getElem?_eq_none (not_lt.mp hj)]
    rw [below_succ, List.take_add, ih, hslice, byKey, byKey, List.range_succ, List.flatMap_append]
    simp

/-- **Counting sort lists the elements by their keys.** -/
theorem countingSort_eq [Inhabited α] (hkeys : ∀ a ∈ items, key a < n) :
    countingSort n key items = byKey n key items := by
  have hstart : Placed key items [] ((List.range n).foldl addUp
      (items.foldl (countKey key) fun _ => 0), List.replicate items.length default) := by
    refine ⟨fun a ha => ?_, List.length_replicate, fun k j a ha => by simp at ha⟩
    exact foldl_addUp _ (hkeys a ha).le
  have hall : below key items n = items.length :=
    List.countP_eq_length.mpr fun a ha => decide_eq_true (hkeys a ha)
  have hplaced := hstart.foldl (List.nil_append items).symm
  have htake := hplaced.take_eq n
  rw [hall, List.take_of_length_le hplaced.length.le] at htake
  exact htake

end Loops

/-! ### The list by keys -/

section ByKey

variable {key : α → ℕ} {n : ℕ} {items : List α}

theorem mem_byKey {a : α} : a ∈ byKey n key items ↔ a ∈ items ∧ key a < n := by
  simp only [byKey, List.mem_flatMap, List.mem_range, List.mem_filter, decide_eq_true_eq]
  constructor
  · rintro ⟨k, hk, ha, rfl⟩
    exact ⟨ha, hk⟩
  · rintro ⟨ha, hk⟩
    exact ⟨_, hk, ha, rfl⟩

theorem byKey_succ (m : ℕ) (key : α → ℕ) (items : List α) :
    byKey (m + 1) key items = byKey m key items ++ items.filter fun a => decide (key a = m) := by
  rw [byKey, byKey, List.range_succ, List.flatMap_append, List.flatMap_singleton]

/-- The order is stable: the elements with a key keep theirs. -/
theorem filter_byKey (n : ℕ) (key : α → ℕ) (items : List α) (k : ℕ) :
    (byKey n key items).filter (fun a => decide (key a = k)) =
      if k < n then items.filter fun a => decide (key a = k) else [] := by
  induction n with
  | zero => simp [byKey]
  | succ m ih =>
    rw [byKey_succ, List.filter_append, ih, List.filter_filter]
    rcases Nat.lt_trichotomy k m with hlt | rfl | hgt
    · have hnone : (items.filter fun a => decide (key a = k) && decide (key a = m)) = [] :=
        List.filter_eq_nil_iff.mpr fun a _ => by simp; omega
      rw [if_pos hlt, if_pos (by omega), hnone, List.append_nil]
    · simp
    · have hnone : (items.filter fun a => decide (key a = k) && decide (key a = m)) = [] :=
        List.filter_eq_nil_iff.mpr fun a _ => by simp; omega
      rw [if_neg (by omega), if_neg (by omega), hnone, List.append_nil]

theorem sorted_byKey (n : ℕ) (key : α → ℕ) (items : List α) :
    (byKey n key items).Pairwise fun a b => key a ≤ key b := by
  refine List.pairwise_flatMap.mpr ⟨fun k _ => ?_, ?_⟩
  · refine List.pairwise_of_forall_mem_list fun a ha b hb => ?_
    rw [List.mem_filter, decide_eq_true_eq] at ha hb
    omega
  · refine List.pairwise_lt_range.imp fun hlt a ha b hb => ?_
    rw [List.mem_filter, decide_eq_true_eq] at ha hb
    omega

theorem perm_byKey (hkeys : ∀ a ∈ items, key a < n) : (byKey n key items).Perm items := by
  have hsome (m : ℕ) : (byKey m key items).Perm (items.filter fun a => decide (key a < m)) := by
    induction m with
    | zero => simp [byKey]
    | succ m ih =>
      have hparts := List.filter_append_perm (fun a => decide (key a < m))
        (items.filter fun a => decide (key a < m + 1))
      rw [List.filter_filter, List.filter_filter] at hparts
      rw [byKey_succ]
      refine (ih.append_right _).trans (List.Perm.trans (.of_eq ?_) hparts)
      congr 1
      · refine List.filter_congr fun a _ => ?_
        rw [← Bool.decide_and, decide_eq_decide]
        omega
      · refine List.filter_congr fun a _ => ?_
        rw [← decide_not, ← Bool.decide_and, decide_eq_decide]
        omega
  have hall : (items.filter fun a => decide (key a < n)) = items :=
    List.filter_eq_self.mpr fun a ha => decide_eq_true (hkeys a ha)
  have hperm := hsome n
  rwa [hall] at hperm

end ByKey

end Vycor
