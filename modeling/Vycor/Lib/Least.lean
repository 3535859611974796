import Mathlib.Data.List.MinMax
import Mathlib.Data.Prod.Lex
import Mathlib.Order.BooleanAlgebra.Basic

/-!
# The first element with the least key

Sorting a list stably and taking its head, and keeping the least element seen so far, both
give the first of the elements with the least key, `firstLeast`. It depends on the order of
the list only as far as the elements with the least key differ (`firstLeast_eq_of_perm`,
`firstLeast_cons_of_le`).
-/

namespace Vycor

variable {α κ : Type*} [LinearOrder κ] {key : α → κ} {l l' : List α} {a b : α}

/-- The first element of a list with the least key. -/
def firstLeast (key : α → κ) (l : List α) : Option α := l.argmin key

/-- An element of a list with the least key. -/
structure Least (key : α → κ) (l : List α) (a : α) : Prop where
  mem : a ∈ l
  le : ∀ b ∈ l, key a ≤ key b

theorem Least.of_perm (h : Least key l a) (hp : l.Perm l') : Least key l' a :=
  ⟨hp.mem_iff.mp h.mem, fun b hb => h.le b (hp.mem_iff.mpr hb)⟩

/-- Keep the element so far unless the next one is less. -/
theorem firstLeast_concat (key : α → κ) (l : List α) (a : α) :
    firstLeast key (l ++ [a]) = match firstLeast key l with
      | none => some a
      | some b => if key a < key b then some a else some b := by
  rw [firstLeast, List.argmin_concat, firstLeast]
  cases l.argmin key <;> rfl

theorem firstLeast_cons (key : α → κ) (a : α) (l : List α) :
    firstLeast key (a :: l) = match firstLeast key l with
      | none => some a
      | some b => if key b < key a then some b else some a := by
  rw [firstLeast, List.argmin_cons, firstLeast]
  cases l.argmin key <;> rfl

theorem firstLeast_eq_none : firstLeast key l = none ↔ l = [] := List.argmin_eq_none

theorem least_of_firstLeast (h : firstLeast key l = some a) : Least key l a :=
  ⟨List.argmin_mem h, fun _ hb => List.le_of_mem_argmin hb h⟩

theorem exists_firstLeast (hl : l ≠ []) : ∃ a, firstLeast key l = some a :=
  Option.ne_none_iff_exists'.mp (mt firstLeast_eq_none.mp hl)

theorem firstLeast_cons_of_le (h : ∀ b ∈ l, key a ≤ key b) :
    firstLeast key (a :: l) = some a := by
  rw [firstLeast_cons]
  rcases hl : firstLeast key l with _ | b
  · rfl
  · exact if_neg (not_lt.mpr (h b (least_of_firstLeast hl).mem))

/-- The head of a stable sort by a key. -/
theorem head?_mergeSort_eq_firstLeast (key : α → κ) (l : List α) :
    (l.mergeSort fun a b => decide (key a ≤ key b)).head? = firstLeast key l := by
  have htrans : ∀ a b c : α, decide (key a ≤ key b) → decide (key b ≤ key c) →
      decide (key a ≤ key c) := by
    simp only [decide_eq_true_eq]
    exact fun _ _ _ => le_trans
  have htotal : ∀ a b : α, decide (key a ≤ key b) || decide (key b ≤ key a) := by
    simpa using fun a b => le_total (key a) (key b)
  induction l with
  | nil => simp [firstLeast]
  | cons a rest ih =>
    obtain ⟨low, high, hcons, hrest, hlow⟩ := List.mergeSort_cons htrans htotal a rest
    have hsorted := List.pairwise_mergeSort htrans htotal (a :: rest)
    rw [hcons] at hsorted ⊢
    rw [firstLeast_cons, ← ih, hrest]
    -- either the head precedes all of the rest, or something sorts strictly before it
    cases low with
    | cons b low =>
      have hb := hlow b (.head _)
      simp only [Bool.not_eq_true', decide_eq_false_iff_not, not_le] at hb
      simp [hb]
    | nil =>
      cases high with
      | nil => rfl
      | cons b high =>
        have hab : key a ≤ key b := by
          simpa using (List.pairwise_cons.mp hsorted).1 b (.head _)
        simp [not_lt.mpr hab]

/-- Where the least elements are all one, the order of the list does not matter. -/
theorem firstLeast_eq_of_perm (hperm : l'.Perm l)
    (hleast : ∀ a b, Least key l a → Least key l b → a = b) :
    firstLeast key l' = firstLeast key l := by
  rcases hpick : firstLeast key l with _ | a
  · rw [firstLeast_eq_none] at hpick ⊢
    rw [hpick] at hperm
    exact hperm.eq_nil
  · have hne : l' ≠ [] := by
      rintro rfl
      rw [hperm.symm.eq_nil] at hpick
      cases hpick
    obtain ⟨b, hb⟩ : ∃ b, firstLeast key l' = some b := exists_firstLeast hne
    rw [hb, hleast b a ((least_of_firstLeast hb).of_perm hperm) (least_of_firstLeast hpick)]

/-- Everything before the choice is greater, and nothing behind it is less. -/
theorem firstLeast_eq_some_iff : firstLeast key l = some a ↔
    ∃ before behind, l = before ++ a :: behind ∧ (∀ b ∈ before, key a < key b) ∧
      ∀ b ∈ behind, key a ≤ key b := by
  constructor
  · intro h
    induction l with
    | nil => cases h
    | cons b l ih =>
      rw [firstLeast_cons] at h
      rcases hl : firstLeast key l with _ | c
      · rw [hl] at h
        obtain rfl := Option.some_inj.mp h
        rw [firstLeast_eq_none.mp hl]
        exact ⟨[], [], rfl, by simp, by simp⟩
      · rw [hl] at h
        dsimp only at h
        split_ifs at h with hlt
        · obtain rfl := Option.some_inj.mp h
          obtain ⟨before, behind, rfl, hbefore, hbehind⟩ := ih hl
          refine ⟨b :: before, behind, rfl, ?_, hbehind⟩
          exact List.forall_mem_cons.mpr ⟨hlt, hbefore⟩
        · obtain rfl := Option.some_inj.mp h
          refine ⟨[], l, rfl, by simp, fun d hd => ?_⟩
          exact (not_lt.mp hlt).trans ((least_of_firstLeast hl).le d hd)
  · rintro ⟨before, behind, rfl, hbefore, hbehind⟩
    induction before with
    | nil => exact firstLeast_cons_of_le hbehind
    | cons b before ih =>
      rw [List.forall_mem_cons] at hbefore
      rw [List.cons_append, firstLeast_cons, ih hbefore.2]
      exact if_pos hbefore.1

/-- The choice is also the choice among any of the elements that include it. -/
theorem firstLeast_filter (h : firstLeast key l = some a) {p : α → Bool} (ha : p a = true) :
    firstLeast key (l.filter p) = some a := by
  obtain ⟨before, behind, rfl, hbefore, hbehind⟩ := firstLeast_eq_some_iff.mp h
  refine firstLeast_eq_some_iff.mpr ⟨before.filter p, behind.filter p, ?_, ?_, ?_⟩
  · rw [List.filter_append, List.filter_cons_of_pos ha]
  · exact fun b hb => hbefore b (List.mem_of_mem_filter hb)
  · exact fun b hb => hbehind b (List.mem_of_mem_filter hb)

theorem firstLeast_map {β : Type*} (f : β → α) (l : List β) :
    firstLeast key (l.map f) = (firstLeast (fun b => key (f b)) l).map f := by
  rcases hl : firstLeast (fun b => key (f b)) l with _ | b
  · rw [firstLeast_eq_none.mp hl]
    rfl
  · obtain ⟨before, behind, rfl, hbefore, hbehind⟩ := firstLeast_eq_some_iff.mp hl
    refine firstLeast_eq_some_iff.mpr ⟨before.map f, behind.map f, by simp, ?_, ?_⟩
    · simpa using hbefore
    · simpa using hbehind

/-- Only the order of the keys matters. -/
theorem firstLeast_congr {κ' : Type*} [LinearOrder κ'] {key' : α → κ'}
    (h : ∀ b ∈ l, ∀ c ∈ l, key b < key c ↔ key' b < key' c) :
    firstLeast key l = firstLeast key' l := by
  rcases hl : firstLeast key l with _ | a
  · rw [firstLeast_eq_none.mp hl]
    rfl
  · obtain ⟨before, behind, rfl, hbefore, hbehind⟩ := firstLeast_eq_some_iff.mp hl
    refine (firstLeast_eq_some_iff.mpr ⟨before, behind, rfl, fun b hb => ?_, fun b hb => ?_⟩).symm
    · exact (h a (by simp) b (by simp [hb])).mp (hbefore b hb)
    · rw [← not_lt, ← h b (by simp [hb]) a (by simp), not_lt]
      exact hbehind b hb

/-- A preference that comes first in the key: the choice is made among the preferred elements
as long as there is one. -/
theorem firstLeast_prefer (prefers : α → Bool) (key : α → κ) (l : List α) :
    firstLeast (fun a => toLex (!prefers a, key a)) l =
      match firstLeast key (l.filter prefers) with
      | some a => some a
      | none => firstLeast key l := by
  rcases hl : firstLeast key (l.filter prefers) with _ | a
  · -- nothing is preferred
    have hnone := List.filter_eq_nil_iff.mp (firstLeast_eq_none.mp hl)
    refine firstLeast_congr fun b hb c hc => ?_
    have hb' := hnone b hb
    have hc' := hnone c hc
    rw [Bool.not_eq_true] at hb' hc'
    simp [Prod.Lex.toLex_lt_toLex, hb', hc']
  · obtain ⟨before, behind, hsplit, hbefore, hbehind⟩ := firstLeast_eq_some_iff.mp hl
    obtain ⟨l₁, l₂, rfl, hl₁, hl₂⟩ := List.filter_eq_append_iff.mp hsplit
    obtain ⟨l₃, l₄, rfl, hl₃, ha, hl₄⟩ := List.filter_eq_cons_iff.mp hl₂
    have hself : ∀ b, key a ≤ key b → toLex (!prefers a, key a) ≤ toLex (!prefers b, key b) := by
      intro b hab
      rw [Prod.Lex.toLex_le_toLex, ha]
      cases prefers b <;> simp [hab]
    refine firstLeast_eq_some_iff.mpr ⟨l₁ ++ l₃, l₄, by simp, fun b hb => ?_, fun b hb => ?_⟩
    · rw [Prod.Lex.toLex_lt_toLex, ha]
      rcases hp : prefers b
      · simp
      · rcases List.mem_append.mp hb with hb | hb
        · simp [hbefore b (hl₁ ▸ List.mem_filter.mpr ⟨hb, hp⟩)]
        · exact absurd hp (by simpa using hl₃ b hb)
    · rcases hp : prefers b
      · rw [Prod.Lex.toLex_le_toLex, ha]
        simp
      · have := hself b (hbehind b (hl₄ ▸ List.mem_filter.mpr ⟨hb, hp⟩))
        rwa [hp] at this

end Vycor
