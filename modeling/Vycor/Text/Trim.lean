import Vycor.Text.Utf8
import Mathlib.Data.List.DropRight

/-!
# Trimming

`StringRef::trim` on byte strings. A text that neither starts nor ends with a blank survives
any blanks put around it (`trimBlanks_pad`), and blanks behind it go even when they belong to
a longer text (`trimBlanks_append`).
-/

namespace Vycor

/-- `StringRef::trim`: blanks, tabs, newlines, vertical tabs, form feeds, carriage returns
at either end. -/
def trimBlanks (s : Bytes) : Bytes :=
  let blank : UInt8 → Bool := fun c => c = 32 || (9 ≤ c && c ≤ 13)
  ((s.dropWhile blank).reverse.dropWhile blank).reverse

/-- The letters `trimBlanks` takes away. -/
def isPadding (c : UInt8) : Bool := c = 32 || (9 ≤ c && c ≤ 13)

/-- Neither end of a text is blank. -/
def Trimmed (s : Bytes) : Prop :=
  (∀ c ∈ s.head?, isPadding c = false) ∧ ∀ c ∈ s.getLast?, isPadding c = false

theorem trimBlanks_eq (s : Bytes) : trimBlanks s = (s.dropWhile isPadding).rdropWhile isPadding := rfl

theorem dropWhile_isPadding_pad {w s t : Bytes} (hw : ∀ c ∈ w, isPadding c = true)
    (hs : ∀ c ∈ s.head?, isPadding c = false) (hne : s ≠ []) :
    (w ++ (s ++ t)).dropWhile isPadding = s ++ t := by
  obtain ⟨a, s, rfl⟩ := List.exists_cons_of_ne_nil hne
  have ha : ¬ isPadding a = true := by simp [hs a rfl]
  rw [List.dropWhile_append_of_pos hw, List.cons_append, List.dropWhile_cons_of_neg ha]

/-- Only what follows the last letter of a text is cut from its end. -/
theorem rdropWhile_isPadding_append {s t : Bytes} (hs : ∀ c ∈ s.getLast?, isPadding c = false)
    (hne : s ≠ []) : (s ++ t).rdropWhile isPadding = s ++ t.rdropWhile isPadding := by
  induction t using List.reverseRecOn with
  | nil =>
    have hlast : ¬ isPadding (s.getLast hne) = true := by
      simp [hs _ (List.getLast?_eq_some_getLast hne)]
    rw [List.append_nil, List.rdropWhile_nil, List.append_nil,
      List.rdropWhile_eq_self_iff.mpr fun _ => hlast]
  | append_singleton t c ih =>
    by_cases hc : isPadding c = true
    · rw [← List.append_assoc, List.rdropWhile_concat_pos _ _ _ hc,
        List.rdropWhile_concat_pos _ _ _ hc, ih]
    · rw [← List.append_assoc, List.rdropWhile_concat_neg _ _ _ hc,
        List.rdropWhile_concat_neg _ _ _ hc, List.append_assoc]

theorem trimBlanks_append {w s t : Bytes} (hw : ∀ c ∈ w, isPadding c = true) (hs : Trimmed s)
    (hne : s ≠ []) : trimBlanks (w ++ (s ++ t)) = s ++ t.rdropWhile isPadding := by
  rw [trimBlanks_eq, dropWhile_isPadding_pad hw hs.1 hne, rdropWhile_isPadding_append hs.2 hne]

/-- **Blanks around a text are taken away.** -/
theorem trimBlanks_pad {w s w' : Bytes} (hw : ∀ c ∈ w, isPadding c = true) (hs : Trimmed s)
    (hne : s ≠ []) (hw' : ∀ c ∈ w', isPadding c = true) : trimBlanks (w ++ (s ++ w')) = s := by
  rw [trimBlanks_append hw hs hne, List.rdropWhile_eq_nil_iff.mpr hw', List.append_nil]

theorem trimBlanks_self {s : Bytes} (hs : Trimmed s) (hne : s ≠ []) : trimBlanks s = s := by
  simpa using trimBlanks_append (w := []) (t := []) (by simp) hs hne

/-- The texts `trimBlanks` leaves alone. -/
theorem trimmed_of_trimBlanks {s : Bytes} (h : trimBlanks s = s) : Trimmed s := by
  rw [trimBlanks_eq] at h
  have hprefix : s <+: s.dropWhile isPadding := by
    simpa only [h] using List.rdropWhile_prefix isPadding (l := s.dropWhile isPadding)
  have hhead : s.dropWhile isPadding = s :=
    (List.dropWhile_suffix _).sublist.antisymm hprefix.sublist
  rw [hhead] at h
  constructor
  · intro c hc
    obtain ⟨t, rfl⟩ := List.head?_eq_some_iff.mp hc
    exact Bool.eq_false_iff.mpr (List.dropWhile_eq_self_iff.mp hhead (by simp))
  · intro c hc
    obtain ⟨hne, rfl⟩ := List.mem_getLast?_eq_getLast hc
    simpa using List.rdropWhile_eq_self_iff.mp h hne

end Vycor
