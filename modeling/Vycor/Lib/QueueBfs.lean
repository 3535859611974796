import Mathlib.Data.List.Nodup
import Mathlib.Data.Finset.Card
import Mathlib.Data.Nat.Find
import Mathlib.Logic.Function.Basic

/-!
# Breadth-first search with a queue

A search that marks a node when it is put on the queue, with its depth and the edge it was
found by. The nodes in the order they were queued, with their depths, are the *trace*: the
nodes taken off the queue and the queue itself. `TraceInv` is what every followed edge keeps;
once the queue is empty, a trace whose nodes were expanded up to a depth bound is the table
of the distances up to that bound (`TraceInv.mem_iff_of_closed`).
-/

namespace Vycor

variable {α ε : Type*} [DecidableEq α]

/-- What a search with a queue changes. -/
structure QueueBfs (α ε : Type*) where
  visited : List α := []
  queue : List (α × ℕ) := []
  parent : α → Option ε := fun _ => none

/-- Put a node on the queue, unless it was there before. -/
def QueueBfs.enqueue (st : QueueBfs α ε) (a : α) (depth : ℕ) (found : Option ε) : QueueBfs α ε :=
  if a ∈ st.visited then st
  else
    { visited := a :: st.visited
      queue := st.queue ++ [(a, depth)]
      parent := Function.update st.parent a found }

/-- `n` edges lead from a start to a node. -/
inductive StepsTo (out : α → List ε) (tgt : ε → α) (starts : List α) : ℕ → α → Prop where
  | start {a : α} (h : a ∈ starts) : StepsTo out tgt starts 0 a
  | step {n : ℕ} {b : α} {e : ε} (h : StepsTo out tgt starts n b) (he : e ∈ out b) :
      StepsTo out tgt starts (n + 1) (tgt e)

/-- The fewest edges that lead from a start to a node. -/
def IsDistance (out : α → List ε) (tgt : ε → α) (starts : List α) (d : ℕ) (a : α) : Prop :=
  StepsTo out tgt starts d a ∧ ∀ n < d, ¬ StepsTo out tgt starts n a

omit [DecidableEq α] in
theorem IsDistance.unique {out : α → List ε} {tgt : ε → α} {starts : List α} {d d' : ℕ} {a : α}
    (h : IsDistance out tgt starts d a) (h' : IsDistance out tgt starts d' a) : d = d' := by
  by_contra hne
  rcases Nat.lt_or_gt_of_ne hne with hlt | hlt
  exacts [h'.2 d hlt h.1, h.2 d' hlt h'.1]

omit [DecidableEq α] in
/-- A node that is reached at all has a distance. -/
theorem StepsTo.exists_isDistance {out : α → List ε} {tgt : ε → α} {starts : List α} {n : ℕ}
    {a : α} (h : StepsTo out tgt starts n a) : ∃ d ≤ n, IsDistance out tgt starts d a := by
  classical
  have hex : ∃ n, StepsTo out tgt starts n a := ⟨n, h⟩
  exact ⟨Nat.find hex, Nat.find_min' hex h, Nat.find_spec hex, fun m hm => Nat.find_min hex hm⟩

/-- What holds of the nodes queued so far: every node stands once, in the order of depth; the
starts have depth zero and no parent, the others an edge from a node one step nearer. -/
structure TraceInv (out : α → List ε) (tgt : ε → α) (starts : List α) (bound : ℕ)
    (trace : List (α × ℕ)) (st : QueueBfs α ε) : Prop where
  visited_iff : ∀ a, a ∈ st.visited ↔ ∃ d, (a, d) ∈ trace
  nodup : (trace.map Prod.fst).Nodup
  sorted : trace.Pairwise fun x y => x.2 ≤ y.2
  zero : ∀ a, (a, 0) ∈ trace ↔ a ∈ starts
  root : ∀ a, (a, 0) ∈ trace → st.parent a = none
  pred : ∀ a d, (a, d + 1) ∈ trace → d < bound ∧
    ∃ e b, st.parent a = some e ∧ tgt e = a ∧ (b, d) ∈ trace ∧ e ∈ out b

variable {out : α → List ε} {tgt : ε → α} {starts : List α} {bound : ℕ} {trace : List (α × ℕ)}
  {st : QueueBfs α ε}

namespace TraceInv

omit [DecidableEq α] in
/-- A node has one depth. -/
theorem depth_unique (h : TraceInv out tgt starts bound trace st) {a : α} {d d' : ℕ}
    (hd : (a, d) ∈ trace) (hd' : (a, d') ∈ trace) : d = d' := by
  have heq := List.inj_on_of_nodup_map h.nodup hd hd' rfl
  exact congrArg Prod.snd heq

omit [DecidableEq α] in
theorem mono (h : TraceInv out tgt starts bound trace st) {bound' : ℕ} (hle : bound ≤ bound') :
    TraceInv out tgt starts bound' trace st :=
  { h with pred := fun a d had => ⟨(h.pred a d had).1.trans_le hle, (h.pred a d had).2⟩ }

omit [DecidableEq α] in
theorem depth_le_bound (h : TraceInv out tgt starts bound trace st) {a : α} {d : ℕ}
    (hd : (a, d) ∈ trace) : d ≤ bound := by
  cases d with
  | zero => omega
  | succ d => exact (h.pred a d hd).1

omit [DecidableEq α] in
/-- The depths are numbers of edges. -/
theorem stepsTo (h : TraceInv out tgt starts bound trace st) {a : α} {d : ℕ}
    (hd : (a, d) ∈ trace) : StepsTo out tgt starts d a := by
  induction d generalizing a with
  | zero => exact .start ((h.zero a).mp hd)
  | succ d ih =>
    obtain ⟨-, e, b, -, rfl, hb, he⟩ := h.pred a d hd
    exact .step (ih hb) he

omit [DecidableEq α] in
/-- Nearer nodes stand on the trace, so a depth is smaller than the number of its nodes. -/
theorem depth_lt_length (h : TraceInv out tgt starts bound trace st) {a : α} {d : ℕ}
    (hd : (a, d) ∈ trace) : d < trace.length := by
  have hbelow : ∀ n a, (a, n) ∈ trace → ∀ k ≤ n, ∃ b, (b, k) ∈ trace := by
    intro n
    induction n with
    | zero =>
      intro a ha k hk
      obtain rfl : k = 0 := by omega
      exact ⟨a, ha⟩
    | succ n ih =>
      intro a ha k hk
      rcases hk.lt_or_eq with hlt | rfl
      · obtain ⟨-, -, b, -, -, hb, -⟩ := h.pred a n ha
        exact ih b hb k (by omega)
      · exact ⟨a, ha⟩
  have hsub : Finset.range (d + 1) ⊆ (trace.map Prod.snd).toFinset := by
    intro k hk
    obtain ⟨b, hb⟩ := hbelow d a hd k (by simpa [Nat.lt_succ_iff] using hk)
    exact List.mem_toFinset.mpr (List.mem_map.mpr ⟨(b, k), hb, rfl⟩)
  have hcard := (Finset.card_le_card hsub).trans (List.toFinset_card_le _)
  rwa [Finset.card_range, List.length_map] at hcard

omit [DecidableEq α] in
/-- A node is at most as deep as nodes were visited. -/
theorem depth_le_visited (h : TraceInv out tgt starts bound trace st) {a : α} {d : ℕ}
    (hd : (a, d) ∈ trace) : d ≤ st.visited.length := by
  have hlen := h.depth_lt_length hd
  have hvisited : trace.length ≤ st.visited.length := by
    have hsub : trace.map Prod.fst ⊆ st.visited := by
      intro b hb
      obtain ⟨⟨b, n⟩, hn, rfl⟩ := List.mem_map.mp hb
      exact (h.visited_iff b).mpr ⟨n, hn⟩
    simpa using (List.subperm_of_subset h.nodup hsub).length_le
  omega

/-- Following an edge of a node one step nearer than the end of the trace. -/
theorem follow (h : TraceInv out tgt starts bound trace st) {u : α} {d : ℕ} {e : ε}
    (hu : (u, d) ∈ trace) (hd : d < bound) (hlast : ∀ x ∈ trace, x.2 ≤ d + 1) (he : e ∈ out u) :
    ∃ more, TraceInv out tgt starts bound (trace ++ more) (st.enqueue (tgt e) (d + 1) (some e)) ∧
      (st.enqueue (tgt e) (d + 1) (some e)).queue = st.queue ++ more ∧
      (∀ x ∈ more, x.2 = d + 1) ∧ ∃ d' ≤ d + 1, (tgt e, d') ∈ trace ++ more := by
  rw [QueueBfs.enqueue]
  split_ifs with hv
  · obtain ⟨d', hd'⟩ := (h.visited_iff _).mp hv
    refine ⟨[], by simpa using h, by simp, by simp, d', hlast _ hd', by simpa using hd'⟩
  · have hnew : ∀ n, (tgt e, n) ∉ trace := fun n hn => hv ((h.visited_iff _).mpr ⟨n, hn⟩)
    -- an old node keeps its parent
    have hold : ∀ {a n}, (a, n) ∈ trace →
        Function.update st.parent (tgt e) (some e) a = st.parent a := by
      intro a n ha
      have hne : a ≠ tgt e := by
        rintro rfl
        exact hnew n ha
      exact Function.update_of_ne hne _ _
    refine ⟨[(tgt e, d + 1)], ?_, rfl, by simp, d + 1, le_rfl, by simp⟩
    refine ⟨fun a => ?_, ?_, ?_, fun a => ?_, fun a ha => ?_, fun a n ha => ?_⟩
    · simp only [List.mem_cons, h.visited_iff, List.mem_append, List.not_mem_nil, or_false,
        Prod.mk.injEq, exists_or, exists_eq_right]
      exact or_comm
    · rw [List.map_append, List.nodup_append]
      refine ⟨h.nodup, by simp, ?_⟩
      rintro a ha b hb rfl
      obtain ⟨⟨a, n⟩, hn, rfl⟩ := List.mem_map.mp ha
      simp only [List.map_cons, List.map_nil, List.mem_singleton] at hb
      exact hnew n (hb ▸ hn)
    · rw [List.pairwise_append]
      refine ⟨h.sorted, by simp, fun x hx y hy => ?_⟩
      rw [List.mem_singleton.mp hy]
      exact hlast x hx
    · rw [List.mem_append, h.zero]
      simp
    · have ha' : (a, 0) ∈ trace := by simpa using ha
      exact (hold ha').trans (h.root a ha')
    · rcases List.mem_append.mp ha with ha | ha
      · obtain ⟨hn, e', b, hpar, htgt, hb, he'⟩ := h.pred a n ha
        exact ⟨hn, e', b, (hold ha).trans hpar, htgt, List.mem_append_left _ hb, he'⟩
      · obtain ⟨rfl, hn⟩ := Prod.mk.injEq _ _ _ _ ▸ List.mem_singleton.mp ha
        obtain rfl : n = d := by omega
        exact ⟨hd, e, u, Function.update_self _ _ _, rfl, List.mem_append_left _ hu, he⟩

/-- Queueing nodes from scratch, all at depth zero. -/
theorem queue_starts (l : List α) {st : QueueBfs α ε}
    (hst : st = l.foldl (fun st a => st.enqueue a 0 none) ({} : QueueBfs α ε)) :
    (∀ a, a ∈ st.visited ↔ a ∈ l) ∧ (∀ a d, (a, d) ∈ st.queue ↔ d = 0 ∧ a ∈ l) ∧
      (st.queue.map Prod.fst).Nodup ∧ ∀ a, st.parent a = none := by
  subst hst
  induction l using List.reverseRecOn with
  | nil => simp
  | append_singleton rest b ih =>
    obtain ⟨hvisited, hqueue, hnodup, hparent⟩ := ih
    rw [List.foldl_append, List.foldl_cons, List.foldl_nil]
    generalize rest.foldl (fun st a => st.enqueue a 0 none) ({} : QueueBfs α ε) = st at *
    rw [QueueBfs.enqueue]
    split_ifs with hb
    · have hmem := (hvisited b).mp hb
      have hrest : ∀ a, a ∈ rest ↔ a ∈ rest ++ [b] := by
        intro a
        rw [List.mem_append, List.mem_singleton]
        exact ⟨.inl, fun h => h.elim id fun h => h ▸ hmem⟩
      exact ⟨fun a => (hvisited a).trans (hrest a),
        fun a d => (hqueue a d).trans (and_congr_right fun _ => hrest a), hnodup, hparent⟩
    · refine ⟨fun a => ?_, fun a d => ?_, ?_, fun a => ?_⟩
      · simp [hvisited, or_comm]
      · simp only [List.mem_append, hqueue, List.mem_singleton, Prod.mk.injEq]
        tauto
      · rw [List.map_append, List.nodup_append]
        refine ⟨hnodup, by simp, ?_⟩
        rintro a ha c hc rfl
        obtain ⟨⟨a, n⟩, hn, rfl⟩ := List.mem_map.mp ha
        obtain rfl : a = b := by simpa using hc
        exact hb ((hvisited a).mpr ((hqueue a n).mp hn).2)
      · by_cases ha : a = b
        · simp [ha]
        · simp [ha, hparent]

/-- The search starts with the starts on the queue, each once. -/
theorem start (out : α → List ε) (tgt : ε → α) (bound : ℕ) (starts : List α) :
    TraceInv out tgt starts bound
      (starts.foldl (fun st a => st.enqueue a 0 none) ({} : QueueBfs α ε)).queue
      (starts.foldl (fun st a => st.enqueue a 0 none) ({} : QueueBfs α ε)) := by
  obtain ⟨hvisited, hqueue, hnodup, hparent⟩ := @queue_starts α ε _ starts _ rfl
  refine ⟨fun a => ?_, hnodup, ?_, fun a => ?_, fun a _ => hparent a, fun a d ha => ?_⟩
  · simp [hvisited, hqueue]
  · refine List.pairwise_of_forall_mem_list fun x hx y hy => ?_
    rw [((hqueue x.1 x.2).mp hx).1]
    omega
  · simp [hqueue]
  · have := ((hqueue a (d + 1)).mp ha).1
    omega

omit [DecidableEq α] in
/-- **Distances up to a bound.** A trace whose nodes below the bound were all expanded lists
exactly the nodes at each distance up to it. -/
theorem mem_iff_of_closed (h : TraceInv out tgt starts bound trace st)
    (hclosed : ∀ b d, (b, d) ∈ trace → d < bound → ∀ e ∈ out b, ∃ d' ≤ d + 1, (tgt e, d') ∈ trace)
    (a : α) (d : ℕ) : (a, d) ∈ trace ↔ d ≤ bound ∧ IsDistance out tgt starts d a := by
  have hreach : ∀ n a, StepsTo out tgt starts n a → n ≤ bound → ∃ d ≤ n, (a, d) ∈ trace := by
    intro n a hsteps hn
    induction hsteps with
    | start ha => exact ⟨0, le_rfl, (h.zero _).mpr ha⟩
    | step _ he ih =>
      obtain ⟨m, hm, hb⟩ := ih (by omega)
      obtain ⟨d', hd', hmem⟩ := hclosed _ m hb (by omega) _ he
      exact ⟨d', by omega, hmem⟩
  constructor
  · intro ha
    refine ⟨h.depth_le_bound ha, h.stepsTo ha, fun n hn hsteps => ?_⟩
    obtain ⟨m, hm, hmem⟩ := hreach n a hsteps (by have := h.depth_le_bound ha; omega)
    have := h.depth_unique ha hmem
    omega
  · rintro ⟨hd, hdist⟩
    obtain ⟨m, hm, hmem⟩ := hreach d a hdist.1 hd
    rcases hm.lt_or_eq with hlt | rfl
    · exact absurd (h.stepsTo hmem) (hdist.2 m hlt)
    · exact hmem

end TraceInv

end Vycor
