import Vycor.Lib.Tables

/-!
# Worklist closure

The transitive closure of a successor function, computed with a stack and a visited set:
pop an element, mark and push its unvisited successors, record them in order. The loop
takes one unit of fuel per popped element; on a finite universe closed under successors
the cardinality of the universe is enough fuel (`mem_closureFrom`), because every element
is pushed at most once.
-/

namespace Vycor

variable {α : Type*} [DecidableEq α]

/-- The elements of a list not visited so far, each taken once, in order. -/
def freshOf (visited l : List α) : List α := (admitNew visited (l.map fun a => (a, a))).2

theorem find?_diag (l : List α) (k a : α) :
    (l.map fun b => (b, b)).find? (fun c => c.1 = k) = some (k, a) ↔ a = k ∧ k ∈ l := by
  induction l with
  | nil => simp
  | cons b rest ih =>
    by_cases h : b = k
    · subst h; simp [eq_comm]
    · simp only [List.map_cons, List.find?_cons, h, decide_false, ih, List.mem_cons,
        Ne.symm h, false_or]

theorem mem_freshOf {visited l : List α} {a : α} : a ∈ freshOf visited l ↔ a ∉ visited ∧ a ∈ l := by
  rw [freshOf, mem_admitNew_snd]
  constructor
  · rintro ⟨k, hk, hf⟩
    obtain ⟨rfl, hl⟩ := (find?_diag l k a).mp hf
    exact ⟨hk, hl⟩
  · rintro ⟨hv, hl⟩
    exact ⟨a, hv, (find?_diag l a a).mpr ⟨rfl, hl⟩⟩

theorem nodup_freshOf (visited l : List α) : (freshOf visited l).Nodup := by
  induction l generalizing visited with
  | nil => simp [freshOf, admitNew]
  | cons b rest ih =>
    simp only [freshOf, List.map_cons]
    unfold admitNew
    split_ifs with h
    · exact ih visited
    · refine List.nodup_cons.mpr ⟨fun hb => ?_, ih (b :: visited)⟩
      exact (mem_freshOf.mp (show b ∈ freshOf (b :: visited) rest from hb)).1 (by simp)

/-- The worklist loop: `stack` holds the elements still to expand (top first), `visited`
all elements ever pushed, `result` the closure so far, in discovery order. -/
def closureLoop (succ : α → List α) : ℕ → List α → List α → List α → List α
  | 0, _, _, result => result
  | _ + 1, [], _, result => result
  | fuel + 1, cur :: stack, visited, result =>
    let fresh := freshOf visited (succ cur)
    closureLoop succ fuel (fresh.reverse ++ stack) (fresh ++ visited) (result ++ fresh)

/-- The closure of `start`, which is itself not listed. -/
def closureFrom (succ : α → List α) (fuel : ℕ) (start : α) : List α :=
  closureLoop succ fuel [start] [start] []

/-- One step of the successor relation. -/
def Succ (succ : α → List α) (a b : α) : Prop := b ∈ succ a

section Correct

variable {succ : α → List α} {start : α}

/-- What the loop maintains: the visited elements are exactly `start` and the recorded
ones, all reachable, and every visited element off the stack is fully expanded. -/
structure ClosureInv (succ : α → List α) (start : α) (stack visited result : List α) :
    Prop where
  visited_iff : ∀ a, a ∈ visited ↔ a = start ∨ a ∈ result
  start_notMem : start ∉ result
  nodup : visited.Nodup
  stack_subset : ∀ a ∈ stack, a ∈ visited
  reach : ∀ a ∈ visited, Relation.ReflTransGen (Succ succ) start a
  expanded : ∀ a ∈ visited, a ∉ stack → ∀ b ∈ succ a, b ∈ visited

theorem ClosureInv.step {cur : α} {stack visited result : List α}
    (h : ClosureInv succ start (cur :: stack) visited result) :
    ClosureInv succ start ((freshOf visited (succ cur)).reverse ++ stack)
      (freshOf visited (succ cur) ++ visited) (result ++ freshOf visited (succ cur)) where
  visited_iff a := by
    simp only [List.mem_append, h.visited_iff a]
    tauto
  start_notMem := by
    rw [List.mem_append, not_or]
    refine ⟨h.start_notMem, fun hs => (mem_freshOf.mp hs).1 ?_⟩
    exact (h.visited_iff start).mpr (.inl rfl)
  nodup := by
    rw [List.nodup_append]
    exact ⟨nodup_freshOf _ _, h.nodup, fun a ha b hb hab =>
      (mem_freshOf.mp ha).1 (hab ▸ hb)⟩
  stack_subset a ha := by
    rcases List.mem_append.mp ha with ha | ha
    · exact List.mem_append_left _ (List.mem_reverse.mp ha)
    · exact List.mem_append_right _ (h.stack_subset a (List.mem_cons_of_mem _ ha))
  reach a ha := by
    rcases List.mem_append.mp ha with ha | ha
    · exact (h.reach cur (h.stack_subset cur (by simp))).tail (mem_freshOf.mp ha).2
    · exact h.reach a ha
  expanded a ha hns b hb := by
    rw [List.mem_append, List.mem_reverse, not_or] at hns
    rcases List.mem_append.mp ha with ha | ha
    · exact absurd ha hns.1
    · by_cases hc : a = cur
      · subst hc
        by_cases hv : b ∈ visited
        · exact List.mem_append_right _ hv
        · exact List.mem_append_left _ (mem_freshOf.mpr ⟨hv, hb⟩)
      · exact List.mem_append_right _ (h.expanded a ha (by simp [hc, hns.2]) b hb)

/-- With enough fuel the loop ends with an empty stack: the universe bounds the number of
elements still to be pushed. -/
theorem closureLoop_spec {U : Finset α} (hU : ∀ a ∈ U, ∀ b ∈ succ a, b ∈ U) :
    ∀ (fuel : ℕ) (stack visited result : List α),
      ClosureInv succ start stack visited result → (∀ a ∈ visited, a ∈ U) →
      U.card + stack.length ≤ fuel + visited.length →
      ∃ visited', ClosureInv succ start [] visited' (closureLoop succ fuel stack visited result)
  | 0, stack, visited, result, h, hv, hf => by
    have hle : visited.length ≤ U.card := by
      rw [← List.toFinset_card_of_nodup h.nodup]
      exact Finset.card_le_card fun a ha => hv a (List.mem_toFinset.mp ha)
    have hs : stack = [] := List.eq_nil_of_length_eq_zero (by omega)
    subst hs
    exact ⟨visited, by simpa [closureLoop] using h⟩
  | fuel + 1, [], visited, result, h, _, _ => ⟨visited, by simpa [closureLoop] using h⟩
  | fuel + 1, cur :: stack, visited, result, h, hv, hf => by
    rw [closureLoop]
    have hcur : cur ∈ U := hv cur (h.stack_subset cur (by simp))
    refine closureLoop_spec hU fuel _ _ _ h.step (fun a ha => ?_) ?_
    · rcases List.mem_append.mp ha with ha | ha
      · exact hU cur hcur a (mem_freshOf.mp ha).2
      · exact hv a ha
    · simp only [List.length_append, List.length_reverse, List.length_cons] at hf ⊢
      omega

/-- **Worklist closure.** With the cardinality of a closed finite universe as fuel, the
closure lists exactly the elements other than the start that the start reaches. -/
theorem mem_closureFrom {U : Finset α} (hU : ∀ a ∈ U, ∀ b ∈ succ a, b ∈ U) (hs : start ∈ U)
    {fuel : ℕ} (hf : U.card ≤ fuel) {a : α} :
    a ∈ closureFrom succ fuel start ↔
      a ≠ start ∧ Relation.ReflTransGen (Succ succ) start a := by
  have hinit : ClosureInv succ start [start] [start] [] :=
    { visited_iff := by simp
      start_notMem := by simp
      nodup := by simp
      stack_subset := by simp
      reach := by simp [Relation.ReflTransGen.refl]
      expanded := by simp }
  obtain ⟨visited, h⟩ := closureLoop_spec hU fuel [start] [start] [] hinit (by simpa using hs)
    (by simp only [List.length_cons, List.length_nil]; omega)
  have hall : ∀ b, Relation.ReflTransGen (Succ succ) start b → b ∈ visited := by
    intro b hb
    induction hb with
    | refl => exact (h.visited_iff start).mpr (.inl rfl)
    | tail _ hbc ih => exact h.expanded _ ih (by simp) _ hbc
  constructor
  · intro ha
    have hav : a ∈ visited := (h.visited_iff a).mpr (.inr ha)
    exact ⟨fun he => h.start_notMem (he ▸ ha), h.reach a hav⟩
  · rintro ⟨hne, hr⟩
    exact ((h.visited_iff a).mp (hall a hr)).resolve_left hne

end Correct

end Vycor
