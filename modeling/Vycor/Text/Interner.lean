import Vycor.Text.Utf8

/-!
# The string interner

`StringInterner` is an append-only table of strings whose positions are the ids. The hash
index of the source maps every string to the first position that holds it; it is the
function `find`. Ids are natural numbers: the source's 32-bit ids are dense from zero, so
nothing depends on their width below 2³² strings.

A table grown by `intern` alone has no repeated string (`nodup_intern`), and then `find`
and `resolve` are inverse to each other (`find_resolve`, `resolve_of_find`).
-/

namespace Vycor

/-- Interned string id, `StringInterner::Id`. -/
abbrev SId := ℕ

/-- `StringInterner`: the strings in id order. -/
structure StringInterner where
  strings : List Bytes := []
  deriving DecidableEq, Inhabited

namespace StringInterner

variable {t t' : StringInterner} {s s' : Bytes} {i j : SId}

/-- `StringInterner::size`. -/
def size (t : StringInterner) : ℕ := t.strings.length

/-- `StringInterner::find`. -/
def find (t : StringInterner) (s : Bytes) : Option SId := t.strings.idxOf? s

/-- `StringInterner::resolve`; an id out of range, which the source never passes, reads as
the empty string. -/
def resolve (t : StringInterner) (id : SId) : Bytes := t.strings.getD id []

/-- `StringInterner::intern`: the table and the id of the string in it. -/
def intern (t : StringInterner) (s : Bytes) : StringInterner × SId :=
  match t.find s with
  | some id => (t, id)
  | none => (⟨t.strings ++ [s]⟩, t.size)

/-- Intern a list of strings, returning their ids in order. -/
def internAll : StringInterner → List Bytes → StringInterner × List SId
  | t, [] => (t, [])
  | t, s :: rest =>
    (((t.intern s).1.internAll rest).1, (t.intern s).2 :: ((t.intern s).1.internAll rest).2)

/-- `t'` extends `t`: ids stay valid and keep their strings. -/
def Extends (t t' : StringInterner) : Prop := t.strings <+: t'.strings

theorem Extends.refl (t : StringInterner) : t.Extends t := List.prefix_rfl

theorem Extends.trans {t'' : StringInterner} (h : t.Extends t') (h' : t'.Extends t'') :
    t.Extends t'' :=
  List.IsPrefix.trans h h'

theorem Extends.size_le (h : t.Extends t') : t.size ≤ t'.size := h.length_le

theorem find_eq_none : t.find s = none ↔ s ∉ t.strings := List.idxOf?_eq_none_iff

theorem find_eq_some (h : t.find s = some i) : ∃ hi : i < t.strings.length, t.strings[i] = s := by
  obtain ⟨hi, hs, -⟩ := List.findIdx?_eq_some_iff_getElem.mp h
  exact ⟨hi, by simpa using hs⟩

theorem lt_of_find (h : t.find s = some i) : i < t.size := (find_eq_some h).1

@[simp] theorem resolve_of_find (h : t.find s = some i) : t.resolve i = s := by
  obtain ⟨hi, hs⟩ := find_eq_some h
  simp [resolve, hi, hs]

theorem find_inj (h : t.find s = some i) (h' : t.find s' = some i) : s = s' := by
  rw [← resolve_of_find h, resolve_of_find h']

theorem resolve_mem (h : i < t.size) : t.resolve i ∈ t.strings := by
  simp only [resolve, size] at *
  simp [h]

theorem exists_find (h : i < t.size) : ∃ j, t.find (t.resolve i) = some j := by
  rcases hf : t.find (t.resolve i) with _ | j
  · exact absurd (resolve_mem h) (find_eq_none.mp hf)
  · exact ⟨j, rfl⟩

/-- In a table without repeats, an id is found again from its string. -/
theorem find_resolve (hn : t.strings.Nodup) (h : i < t.size) : t.find (t.resolve i) = some i := by
  obtain ⟨j, hj⟩ := exists_find h
  obtain ⟨hj', hs⟩ := find_eq_some hj
  have hi : i < t.strings.length := h
  have : t.strings[j] = t.strings[i] := by rw [hs]; simp [resolve, hi]
  rw [hj, hn.getElem_inj_iff.mp this]

theorem resolve_inj (hn : t.strings.Nodup) (hi : i < t.size) (hj : j < t.size) :
    t.resolve i = t.resolve j ↔ i = j := by
  constructor
  · intro h
    have hj' := find_resolve hn hj
    rw [← h, find_resolve hn hi] at hj'
    exact Option.some_injective _ hj'
  · rintro rfl; rfl

theorem find_eq_some_iff (hn : t.strings.Nodup) :
    t.find s = some i ↔ i < t.size ∧ t.resolve i = s := by
  constructor
  · exact fun h => ⟨lt_of_find h, resolve_of_find h⟩
  · rintro ⟨hi, rfl⟩
    exact find_resolve hn hi

/-! ### Growth -/

theorem Extends.resolve_eq (h : t.Extends t') (hi : i < t.size) : t'.resolve i = t.resolve i := by
  obtain ⟨r, hr⟩ := h
  simp only [resolve, size] at *
  rw [← hr, List.getD_append _ _ _ _ hi]

theorem Extends.find_eq (h : t.Extends t') (hf : t.find s = some i) : t'.find s = some i := by
  obtain ⟨r, hr⟩ := h
  simp only [find] at *
  rw [← hr, List.idxOf?, List.findIdx?_append]
  simp only [List.idxOf?] at hf
  simp [hf]

theorem extends_intern (t : StringInterner) (s : Bytes) : t.Extends (t.intern s).1 := by
  unfold intern
  split
  · exact Extends.refl t
  · exact List.prefix_append _ _

@[simp] theorem find_intern (t : StringInterner) (s : Bytes) :
    (t.intern s).1.find s = some (t.intern s).2 := by
  unfold intern
  split
  next id h => exact h
  next h =>
    simp only [find, size, List.idxOf?, List.findIdx?_append]
    simp only [find, List.idxOf?] at h
    simp [h]

theorem intern_of_find (h : t.find s = some i) : t.intern s = (t, i) := by
  unfold intern
  rw [h]

theorem mem_intern : s' ∈ (t.intern s).1.strings ↔ s' ∈ t.strings ∨ s' = s := by
  unfold intern
  split
  next id h =>
    constructor
    · exact Or.inl
    · rintro (h' | rfl)
      · exact h'
      · obtain ⟨hi, rfl⟩ := find_eq_some h
        exact List.getElem_mem hi
  next h => simp

theorem nodup_intern (hn : t.strings.Nodup) (s : Bytes) : (t.intern s).1.strings.Nodup := by
  unfold intern
  split
  · exact hn
  next h =>
    rw [List.nodup_append]
    refine ⟨hn, by simp, fun a ha b hb hab => find_eq_none.mp h ?_⟩
    rw [List.mem_singleton] at hb
    rwa [← hb, ← hab]

theorem find_intern_of_ne (t : StringInterner) (h : s' ≠ s) :
    (t.intern s).1.find s' = t.find s' := by
  rcases hf : t.find s' with _ | i
  · rw [find_eq_none, mem_intern, not_or]
    exact ⟨find_eq_none.mp hf, h⟩
  · exact (extends_intern t s).find_eq hf

/-! ### Interning a whole table -/

theorem extends_internAll (t : StringInterner) (l : List Bytes) : t.Extends (t.internAll l).1 := by
  induction l generalizing t with
  | nil => exact Extends.refl t
  | cons s rest ih => exact (extends_intern t s).trans (ih _)

theorem nodup_internAll (hn : t.strings.Nodup) (l : List Bytes) :
    (t.internAll l).1.strings.Nodup := by
  induction l generalizing t with
  | nil => exact hn
  | cons s rest ih => exact ih (nodup_intern hn s)

@[simp] theorem length_internAll (t : StringInterner) (l : List Bytes) :
    (t.internAll l).2.length = l.length := by
  induction l generalizing t with
  | nil => rfl
  | cons s rest ih => simp [internAll, ih]

/-- Position `i` of the returned ids is the id of the `i`-th string. -/
theorem find_internAll (t : StringInterner) (l : List Bytes) (i : ℕ) (hi : i < l.length) :
    (t.internAll l).1.find l[i] = some ((t.internAll l).2.getD i 0) := by
  induction l generalizing t i with
  | nil => simp at hi
  | cons s rest ih =>
    cases i with
    | zero => simpa [internAll] using (extends_internAll _ rest).find_eq (find_intern t s)
    | succ i => simpa [internAll] using ih (t.intern s).1 i (by simpa using hi)

theorem mem_internAll {l : List Bytes} :
    s ∈ (t.internAll l).1.strings ↔ s ∈ t.strings ∨ s ∈ l := by
  induction l generalizing t with
  | nil => simp [internAll]
  | cons s' rest ih =>
    simp only [internAll, ih, mem_intern, List.mem_cons]
    tauto

end StringInterner

end Vycor
