import Mathlib.Data.List.Infix
import Mathlib.Tactic.Common

/-!
# Cutting a pattern out of a text

`cutAll` removes a pattern from a text from left to right, each time at its first occurrence
behind the part already copied. Where the pattern is known to separate segments, and to
stand nowhere else, what is left are the segments (`cutAll_intercalate`).

A pattern of one letter twice is found behind any text that has it nowhere and does not end
in the letter (`cutFirst_doubled`).
-/

namespace Vycor

variable {α : Type*} [DecidableEq α]

/-- The text before and behind the first occurrence of a pattern. -/
def cutFirst (pat : List α) : List α → Option (List α × List α)
  | [] => if pat = [] then some ([], []) else none
  | c :: text =>
    if pat.isPrefixOf (c :: text) then some ([], (c :: text).drop pat.length)
    else (cutFirst pat text).map fun s => (c :: s.1, s.2)

/-- The text without the occurrences of a pattern; the first argument is fuel. -/
def cutAll (pat : List α) : ℕ → List α → List α
  | 0, text => text
  | fuel + 1, text =>
    match cutFirst pat text with
    | none => text
    | some (before, behind) => before ++ cutAll pat fuel behind

/-- The text before the last occurrence of a letter. -/
def beforeLast (c : α) : List α → Option (List α)
  | [] => none
  | a :: text =>
    match beforeLast c text with
    | some before => some (a :: before)
    | none => if a = c then some [] else none

/-- In the joined text the pattern stands only between the segments. -/
def OnlyBetween (pat : List α) : List (List α) → Prop
  | [] => True
  | [s] => ¬ pat <:+: s
  | s :: t :: rest =>
    (∀ i < s.length, ¬ pat <+: (s ++ pat ++ pat.intercalate (t :: rest)).drop i) ∧
      OnlyBetween pat (t :: rest)

instance decidableOnlyBetween (pat : List α) : ∀ segs, Decidable (OnlyBetween pat segs)
  | [] => isTrue trivial
  | [_] => inferInstanceAs (Decidable (¬ _))
  | _ :: t :: rest =>
    have : Decidable (OnlyBetween pat (t :: rest)) := decidableOnlyBetween pat (t :: rest)
    inferInstanceAs (Decidable (_ ∧ _))

theorem cutFirst_eq_none {pat : List α} (hpat : pat ≠ []) {text : List α}
    (h : ¬ pat <:+: text) : cutFirst pat text = none := by
  induction text with
  | nil => rw [cutFirst, if_neg hpat]
  | cons c text ih =>
    have hhead : ¬ pat.isPrefixOf (c :: text) = true := by
      rw [List.isPrefixOf_iff_prefix]
      exact fun hp => h hp.isInfix
    rw [cutFirst, if_neg hhead, ih fun hi => h (hi.trans (List.suffix_cons c text).isInfix)]
    simp

/-- The first occurrence stands behind `s`. -/
theorem cutFirst_append {pat : List α} (hpat : pat ≠ []) {s rest : List α}
    (h : ∀ i < s.length, ¬ pat <+: (s ++ pat ++ rest).drop i) :
    cutFirst pat (s ++ pat ++ rest) = some (s, rest) := by
  induction s with
  | nil =>
    obtain ⟨c, tail, rfl⟩ := List.exists_cons_of_ne_nil hpat
    have hhere : (c :: tail).isPrefixOf (c :: (tail ++ rest)) = true := by
      rw [List.isPrefixOf_iff_prefix]
      exact ⟨rest, rfl⟩
    rw [List.nil_append, List.cons_append, cutFirst, if_pos hhere]
    simp
  | cons c s ih =>
    have hhead : ¬ pat.isPrefixOf (c :: (s ++ pat ++ rest)) = true := by
      rw [List.isPrefixOf_iff_prefix]
      exact h 0 (Nat.zero_lt_succ _)
    have htail : ∀ i < s.length, ¬ pat <+: (s ++ pat ++ rest).drop i := by
      intro i hi
      exact h (i + 1) (by rw [List.length_cons]; omega)
    rw [List.cons_append, List.cons_append, cutFirst, if_neg hhead, ih htail]
    rfl

omit [DecidableEq α] in
theorem length_le_of_intercalate {pat : List α} {s t : List α} {rest : List (List α)} :
    (pat.intercalate (t :: rest)).length + pat.length ≤
      (pat.intercalate (s :: t :: rest)).length := by
  rw [List.intercalate_cons_cons, List.length_append, List.length_append]
  omega

/-- **Cutting the pattern out leaves the segments**, when it stands only between them. -/
theorem cutAll_intercalate {pat : List α} (hpat : pat ≠ []) {segs : List (List α)}
    (h : OnlyBetween pat segs) {fuel : ℕ} (hfuel : (pat.intercalate segs).length ≤ fuel) :
    cutAll pat fuel (pat.intercalate segs) = segs.flatten := by
  induction segs generalizing fuel with
  | nil =>
    cases fuel with
    | zero => rfl
    | succ fuel => rw [List.intercalate_nil, cutAll, cutFirst, if_neg hpat, List.flatten_nil]
  | cons s segs ih =>
    cases segs with
    | nil =>
      rw [List.intercalate_singleton, List.flatten_singleton]
      cases fuel with
      | zero => rfl
      | succ fuel => rw [cutAll, cutFirst_eq_none hpat h]
    | cons t rest =>
      have hlen := @length_le_of_intercalate α pat s t rest
      have hpos := List.length_pos_iff.mpr hpat
      cases fuel with
      | zero => omega
      | succ fuel =>
        have hcut := cutFirst_append hpat h.1
        rw [← List.intercalate_cons_cons] at hcut
        rw [cutAll, hcut, List.flatten_cons]
        dsimp only
        rw [ih h.2 (by omega)]

/-! ### A letter -/

theorem cutFirst_letter {c : α} {s rest : List α} (h : c ∉ s) :
    cutFirst [c] (s ++ c :: rest) = some (s, rest) := by
  induction s with
  | nil => simp [cutFirst]
  | cons a s ih =>
    have hhead : ¬ [c].isPrefixOf (a :: (s ++ c :: rest)) = true := by
      simp [Ne.symm (List.ne_of_not_mem_cons h).symm]
    rw [List.cons_append, cutFirst, if_neg hhead, ih (List.not_mem_of_not_mem_cons h)]
    rfl

theorem beforeLast_eq_none {c : α} {text : List α} (h : c ∉ text) : beforeLast c text = none := by
  induction text with
  | nil => rfl
  | cons a text ih =>
    rw [beforeLast, ih (List.not_mem_of_not_mem_cons h)]
    exact if_neg (List.ne_of_not_mem_cons h).symm

theorem beforeLast_append {c : α} {s rest : List α} (h : c ∉ rest) :
    beforeLast c (s ++ c :: rest) = some s := by
  induction s with
  | nil =>
    rw [List.nil_append, beforeLast, beforeLast_eq_none h]
    exact if_pos rfl
  | cons a s ih => rw [List.cons_append, beforeLast, ih]

theorem prefix_of_beforeLast {c : α} {text before : List α}
    (h : beforeLast c text = some before) : before <+: text := by
  induction text generalizing before with
  | nil => cases h
  | cons a text ih =>
    rw [beforeLast] at h
    cases hb : beforeLast c text with
    | none =>
      simp only [hb, Option.ite_none_right_eq_some, Option.some.injEq] at h
      exact h.2 ▸ List.nil_prefix
    | some b =>
      simp only [hb, Option.some.injEq] at h
      exact h ▸ (List.prefix_cons_inj a).mpr (ih hb)

/-! ### A letter twice -/

omit [DecidableEq α] in
theorem doubled_infix_cons {c a : α} {s : List α} :
    [c, c] <:+: a :: s ↔ a = c ∧ s.head? = some c ∨ [c, c] <:+: s := by
  rw [List.infix_cons_iff, List.cons_prefix_cons, eq_comm]
  cases s with
  | nil => simp
  | cons b s => simp [eq_comm]

omit [DecidableEq α] in
/-- Where two texts meet, a letter can only double between them. -/
theorem doubled_infix_append {c : α} {s t : List α} :
    [c, c] <:+: s ++ t ↔
      [c, c] <:+: s ∨ [c, c] <:+: t ∨ s.getLast? = some c ∧ t.head? = some c := by
  induction s with
  | nil => simp
  | cons a s ih =>
    rw [List.cons_append, doubled_infix_cons, doubled_infix_cons, ih]
    cases s with
    | nil => simp; tauto
    | cons b s => simp [List.getLast?_cons_cons]; tauto

/-- A text that the first doubled letter can stand behind. -/
structure Undoubled (c : α) (s : List α) : Prop where
  no_double : ¬ [c, c] <:+: s
  last_ne : s.getLast? ≠ some c

omit [DecidableEq α] in
theorem undoubled_of_notMem {c : α} {s : List α} (h : c ∉ s) : Undoubled c s where
  no_double hi := h (hi.subset List.mem_cons_self)
  last_ne hl := h (List.mem_of_getLast? hl)

omit [DecidableEq α] in
theorem Undoubled.append_no_double {c : α} {s t : List α} (hs : Undoubled c s)
    (ht : ¬ [c, c] <:+: t) : ¬ [c, c] <:+: s ++ t := by
  rw [doubled_infix_append]
  rintro (h | h | h)
  exacts [hs.no_double h, ht h, hs.last_ne h.1]

omit [DecidableEq α] in
theorem Undoubled.append {c : α} {s t : List α} (hs : Undoubled c s) (ht : Undoubled c t) :
    Undoubled c (s ++ t) where
  no_double := hs.append_no_double ht.no_double
  last_ne := by
    rcases List.eq_nil_or_concat' t with rfl | ⟨t, a, rfl⟩
    · rw [List.append_nil]
      exact hs.last_ne
    · have hlast := ht.last_ne
      rw [List.getLast?_concat] at hlast
      rwa [← List.append_assoc, List.getLast?_concat]

omit [DecidableEq α] in
theorem undoubled_flatMap {β : Type*} {c : α} {f : β → List α} {l : List β}
    (h : ∀ b ∈ l, Undoubled c (f b)) : Undoubled c (l.flatMap f) := by
  induction l with
  | nil => exact undoubled_of_notMem List.not_mem_nil
  | cons b l ih =>
    rw [List.forall_mem_cons] at h
    exact h.1.append (ih h.2)

/-- The first doubled letter stands behind a text that has none and does not end in it. -/
theorem cutFirst_doubled {c : α} {s rest : List α} (h : Undoubled c s) :
    cutFirst [c, c] (s ++ c :: c :: rest) = some (s, rest) := by
  obtain ⟨h, hlast⟩ := h
  induction s with
  | nil => simp [cutFirst]
  | cons a s ih =>
    rw [doubled_infix_cons, not_or, not_and] at h
    have hhead : ¬ [c, c].isPrefixOf (a :: (s ++ c :: c :: rest)) = true := by
      rw [List.isPrefixOf_iff_prefix, List.cons_prefix_cons]
      rintro ⟨rfl, hp⟩
      cases s with
      | nil => exact hlast rfl
      | cons b s => exact h.1 rfl (congrArg some (List.cons_prefix_cons.mp hp).1.symm)
    have htail : s.getLast? ≠ some c := by
      cases s with
      | nil => simp
      | cons b s => rwa [List.getLast?_cons_cons] at hlast
    rw [List.cons_append, cutFirst, if_neg hhead, ih h.2 htail]
    rfl

/-- A text with a doubled letter has a first one. -/
theorem exists_first_doubled {c : α} {text : List α} (h : [c, c] <:+: text) :
    ∃ s rest, text = s ++ c :: c :: rest ∧ Undoubled c s := by
  induction text with
  | nil => simp at h
  | cons a text ih =>
    by_cases hhere : a = c ∧ text.head? = some c
    · obtain ⟨rfl, hhead⟩ := hhere
      obtain ⟨rest, rfl⟩ := List.head?_eq_some_iff.mp hhead
      exact ⟨[], rest, rfl, undoubled_of_notMem List.not_mem_nil⟩
    · obtain ⟨s, rest, rfl, hs, hlast⟩ := ih ((doubled_infix_cons.mp h).resolve_left hhere)
      have hhead : ¬ (a = c ∧ s.head? = some c) := fun hd => hhere ⟨hd.1, by simp [hd.2]⟩
      refine ⟨a :: s, rest, rfl, doubled_infix_cons.not.mpr (not_or.mpr ⟨hhead, hs⟩), ?_⟩
      cases s with
      | nil =>
        intro ha
        exact hhere ⟨Option.some_inj.mp ha, rfl⟩
      | cons b s => rwa [List.getLast?_cons_cons]

end Vycor
