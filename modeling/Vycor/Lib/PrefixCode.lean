import Mathlib

/-!
# Self-delimiting codes

A code `α → List β` is *self-delimiting* when the end of a code word can be told from the
word itself: what follows it does not matter. Such codes compose: fields are written one
after another, lists behind their length. A list of self-delimiting words needs no length
when nothing follows it.

A code with a length field of fixed width is self-delimiting for values whose length fits
(`SelfDelimitingOn`).
-/

namespace Vycor

variable {α α' β : Type*}

/-- The end of a code word can be told from the word. -/
def SelfDelimiting (code : α → List β) : Prop :=
  ∀ a a' r r', code a ++ r = code a' ++ r' → a = a' ∧ r = r'

/-- The same, for the values of a set. -/
def SelfDelimitingOn (S : Set α) (code : α → List β) : Prop :=
  ∀ a ∈ S, ∀ a' ∈ S, ∀ r r', code a ++ r = code a' ++ r' → a = a' ∧ r = r'

namespace SelfDelimitingOn

variable {code : α → List β} {S : Set α}

/-- Words of one length. -/
theorem of_length {n : ℕ} (hlen : ∀ a ∈ S, (code a).length = n) (hinj : Set.InjOn code S) :
    SelfDelimitingOn S code := by
  intro a ha a' ha' r r' h
  obtain ⟨hword, hr⟩ := List.append_inj h ((hlen a ha).trans (hlen a' ha').symm)
  exact ⟨hinj ha ha' hword, hr⟩

/-- Lists of one length, word by word. -/
theorem flatMap_of_length (h : SelfDelimitingOn S code) {l l' : List α}
    (hl : l.length = l'.length) (hS : ∀ a ∈ l, a ∈ S) (hS' : ∀ a ∈ l', a ∈ S) {r r' : List β}
    (heq : l.flatMap code ++ r = l'.flatMap code ++ r') : l = l' ∧ r = r' := by
  induction l generalizing l' with
  | nil =>
    obtain rfl := List.length_eq_zero_iff.mp hl.symm
    exact ⟨rfl, by simpa using heq⟩
  | cons a l ih =>
    cases l' with
    | nil => simp at hl
    | cons a' l' =>
      rw [List.forall_mem_cons] at hS hS'
      simp only [List.flatMap_cons, List.append_assoc] at heq
      obtain ⟨rfl, hrest⟩ := h _ hS.1 _ hS'.1 _ _ heq
      obtain ⟨rfl, hr⟩ := ih (by simpa using hl) hS.2 hS'.2 hrest
      exact ⟨rfl, hr⟩

/-- A list behind its length, which takes a word of its own. -/
theorem counted (h : SelfDelimitingOn S code) {N : ℕ} {len : ℕ → List β}
    (hlen : SelfDelimitingOn {n | n < N} len) :
    SelfDelimitingOn {l : List α | l.length < N ∧ ∀ a ∈ l, a ∈ S}
      fun l => len l.length ++ l.flatMap code := by
  rintro l ⟨hl, hS⟩ l' ⟨hl', hS'⟩ r r' heq
  simp only [List.append_assoc] at heq
  obtain ⟨hsame, hrest⟩ := hlen _ hl _ hl' _ _ heq
  exact h.flatMap_of_length hsame hS hS' hrest

end SelfDelimitingOn

namespace SelfDelimiting

variable {code : α → List β} {code' : α' → List β}

theorem on (h : SelfDelimiting code) (S : Set α) : SelfDelimitingOn S code :=
  fun a _ a' _ => h a a'

/-- A single letter. -/
theorem letter {f : α → β} (hf : Function.Injective f) : SelfDelimiting fun a => [f a] := by
  intro a a' r r' h
  rw [List.singleton_append, List.singleton_append, List.cons.injEq] at h
  exact ⟨hf h.1, h.2⟩

/-- One word after another. -/
theorem pair (h : SelfDelimiting code) (h' : SelfDelimiting code') :
    SelfDelimiting fun p : α × α' => code p.1 ++ code' p.2 := by
  rintro ⟨a, b⟩ ⟨a', b'⟩ r r' hab
  simp only [List.append_assoc] at hab
  obtain ⟨rfl, hrest⟩ := h _ _ _ _ hab
  obtain ⟨rfl, hr⟩ := h' _ _ _ _ hrest
  exact ⟨rfl, hr⟩

/-- A value written through the fields that determine it. -/
theorem comap (h : SelfDelimiting code) {f : α' → α} (hf : Function.Injective f) :
    SelfDelimiting fun a => code (f a) := by
  intro a a' r r' haa
  obtain ⟨hfa, hr⟩ := h _ _ _ _ haa
  exact ⟨hf hfa, hr⟩

/-- Lists of one length, word by word. -/
theorem flatMap_of_length (h : SelfDelimiting code) {l l' : List α} (hl : l.length = l'.length)
    {r r' : List β} (heq : l.flatMap code ++ r = l'.flatMap code ++ r') : l = l' ∧ r = r' :=
  (h.on Set.univ).flatMap_of_length hl (fun _ _ => trivial) (fun _ _ => trivial) heq

/-- A list behind its length. -/
theorem counted (h : SelfDelimiting code) {f : ℕ → β} (hf : Function.Injective f) :
    SelfDelimiting fun l : List α => f l.length :: l.flatMap code := by
  intro l l' r r' heq
  rw [List.cons_append, List.cons_append, List.cons.injEq] at heq
  exact h.flatMap_of_length (hf heq.1) heq.2

/-- A list with nothing behind it. -/
theorem flatMap_injective (h : SelfDelimiting code) (hne : ∀ a, code a ≠ []) :
    Function.Injective fun l : List α => l.flatMap code := by
  intro l l' heq
  dsimp only at heq
  induction l generalizing l' with
  | nil =>
    cases l' with
    | nil => rfl
    | cons a l' => simp [hne] at heq
  | cons a l ih =>
    cases l' with
    | nil => simp [hne] at heq
    | cons a' l' =>
      rw [List.flatMap_cons, List.flatMap_cons] at heq
      obtain ⟨rfl, hrest⟩ := h _ _ _ _ heq
      rw [ih hrest]

end SelfDelimiting

end Vycor
