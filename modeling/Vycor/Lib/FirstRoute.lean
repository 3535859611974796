import Mathlib.Data.List.Lex
import Mathlib.Data.Prod.Lex
import Vycor.Lib.QueueBfs

/-!
# Which node a breadth-first search meets first

A search with a queue meets nodes in the order of their *first routes*: a route is a walk from
a start, told by the positions of the start and of the edges in their lists, and shorter
routes come first, then those whose edges are listed first. `FirstInv` is what a search keeps
that follows the edges of every node it takes off the queue; the node at the head of the queue
is the end of the first route to any node that has not been taken off (`FirstInv.head_first`).
-/

namespace Vycor

variable {α ε : Type*}

/-- A walk through a graph, by the positions of its start and of its edges; its nodes, the last
one first. -/
inductive Route (out : α → List ε) (tgt : ε → α) (starts : List α) : List ℕ → List α → Prop where
  | start {i : ℕ} {a : α} (h : starts[i]? = some a) : Route out tgt starts [i] [a]
  | step {p : List ℕ} {a : α} {l : List α} {j : ℕ} {e : ε} (h : Route out tgt starts p (a :: l))
      (he : (out a)[j]? = some e) : Route out tgt starts (p ++ [j]) (tgt e :: a :: l)

/-- The place of a route in the order of a search. -/
def routeKey (p : List ℕ) : ℕ ×ₗ List ℕ := toLex (p.length, p)

theorem routeKey_lt_iff {p q : List ℕ} :
    routeKey p < routeKey q ↔ p.length < q.length ∨ p.length = q.length ∧ p < q :=
  Prod.Lex.toLex_lt_toLex

theorem routeKey_injective : Function.Injective routeKey := by
  intro p q h
  exact congrArg Prod.snd (toLex.injective h)

theorem length_le_of_routeKey_le {p q : List ℕ} (h : routeKey p ≤ routeKey q) :
    p.length ≤ q.length := by
  by_contra hlt
  exact absurd h (not_le.mpr (routeKey_lt_iff.mpr (.inl (not_le.mp hlt))))

theorem append_lt_append {p q : List ℕ} (hlen : p.length = q.length) (h : p < q) (s t : List ℕ) :
    p ++ s < q ++ t := by
  induction p generalizing q with
  | nil =>
    obtain rfl : q = [] := List.length_eq_zero_iff.mp hlen.symm
    exact absurd h (lt_irrefl _)
  | cons i p ih =>
    cases q with
    | nil => simp at hlen
    | cons j q =>
      rw [List.cons_append, List.cons_append, List.cons_lt_cons_iff]
      rcases List.cons_lt_cons_iff.mp h with hij | ⟨hij, hpq⟩
      · exact .inl hij
      · exact .inr ⟨hij, ih (by simpa using hlen) hpq⟩

/-- Routes that go on keep their order. -/
theorem routeKey_concat_lt {p q : List ℕ} (h : routeKey p < routeKey q) (i j : ℕ) :
    routeKey (p ++ [i]) < routeKey (q ++ [j]) := by
  rw [routeKey_lt_iff, List.length_append, List.length_append] at *
  rcases h with hlen | ⟨hlen, hlt⟩
  · exact .inl (by simpa using hlen)
  · exact .inr ⟨by rw [hlen]; rfl, append_lt_append hlen hlt _ _⟩

theorem routeKey_concat_le {p q : List ℕ} (h : routeKey p ≤ routeKey q) (j : ℕ) :
    routeKey (p ++ [j]) ≤ routeKey (q ++ [j]) := by
  rcases h.lt_or_eq with hlt | heq
  · exact (routeKey_concat_lt hlt j j).le
  · rw [routeKey_injective heq]

/-- Edges of a node are met in their order. -/
theorem routeKey_concat_lt_concat (p : List ℕ) {i j : ℕ} (h : i < j) :
    routeKey (p ++ [i]) < routeKey (p ++ [j]) := by
  refine routeKey_lt_iff.mpr (.inr ⟨by simp, ?_⟩)
  induction p with
  | nil => exact List.cons_lt_cons_iff.mpr (.inl h)
  | cons k p ih => exact List.cons_lt_cons_iff.mpr (.inr ⟨rfl, ih⟩)

theorem routeKey_singleton_lt {i j : ℕ} (h : i < j) : routeKey [i] < routeKey [j] :=
  routeKey_concat_lt_concat [] h

theorem routeKey_lt_concat (p : List ℕ) (j : ℕ) : routeKey p < routeKey (p ++ [j]) :=
  routeKey_lt_iff.mpr (.inl (by simp))

variable {out : α → List ε} {tgt : ε → α} {src : ε → α} {starts : List α}

namespace Route

theorem length_eq {p : List ℕ} {l : List α} (h : Route out tgt starts p l) :
    p.length = l.length := by
  induction h with
  | start => rfl
  | step _ _ ih => simpa using ih

theorem ne_nil {p : List ℕ} {l : List α} (h : Route out tgt starts p l) : l ≠ [] := by
  cases h <;> simp

/-- The positions determine the nodes. -/
theorem nodes_unique {p : List ℕ} {l l' : List α} (h : Route out tgt starts p l)
    (h' : Route out tgt starts p l') : l = l' := by
  induction h generalizing l' with
  | @start i a ha =>
    generalize hp : [i] = p at h'
    cases h' with
    | start ha' =>
      obtain rfl := (List.cons.inj hp).1
      rw [ha] at ha'
      rw [Option.some.inj ha']
    | @step p' _ _ j _ h' =>
      have hlen := congrArg List.length hp
      have hne := h'.ne_nil
      have hpos : p'.length ≠ 0 := by
        rw [h'.length_eq]
        simp
      rw [List.length_append, List.length_singleton, List.length_singleton] at hlen
      omega
  | @step p a l j e hr he ih =>
    generalize hp : p ++ [j] = p₁ at h'
    cases h' with
    | start ha' =>
      have hlen := congrArg List.length hp
      have hpos : p.length ≠ 0 := by
        rw [hr.length_eq]
        simp
      rw [List.length_append, List.length_singleton, List.length_singleton] at hlen
      omega
    | step h' he' =>
      obtain ⟨rfl, hj⟩ := List.append_inj' hp rfl
      obtain rfl := (List.cons.inj hj).1
      obtain ⟨rfl, rfl⟩ := List.cons.inj (ih h')
      rw [he] at he'
      rw [Option.some.inj he']

/-- The last node is a start or the end of an edge. -/
theorem mem_starts_or_target {p : List ℕ} {a : α} {l : List α}
    (h : Route out tgt starts p (a :: l)) : a ∈ starts ∨ ∃ b, ∃ e ∈ out b, tgt e = a := by
  cases h with
  | start ha => exact .inl (List.mem_of_getElem? ha)
  | step _ he => exact .inr ⟨_, _, List.mem_of_getElem? he, rfl⟩

end Route

/-- The route that comes first among those to nodes with a property. -/
structure FirstRoute (out : α → List ε) (tgt : ε → α) (starts : List α) (P : α → Prop)
    (p : List ℕ) (a : α) (l : List α) : Prop where
  route : Route out tgt starts p (a :: l)
  ends : P a
  first : ∀ q b l', Route out tgt starts q (b :: l') → P b → routeKey p ≤ routeKey q

theorem FirstRoute.unique {P : α → Prop} {p q : List ℕ} {a b : α} {l l' : List α}
    (h : FirstRoute out tgt starts P p a l) (h' : FirstRoute out tgt starts P q b l') :
    p = q ∧ a = b ∧ l = l' := by
  obtain rfl := routeKey_injective ((h.first q b l' h'.route h'.ends).antisymm
    (h'.first p a l h.route h.ends))
  exact ⟨rfl, List.cons.inj (h.route.nodes_unique h'.route)⟩

/-- The edges that nodes were found by lead through a list of nodes, the last one first, to a
start. -/
inductive FoundBy (parent : α → Option ε) (src : ε → α) : List α → Prop where
  | start {a : α} (h : parent a = none) : FoundBy parent src [a]
  | step {a : α} {e : ε} {l : List α} (h : parent a = some e) (hl : FoundBy parent src (src e :: l)) :
      FoundBy parent src (a :: src e :: l)

/-! ### The invariant of the search -/

variable [DecidableEq α]

/-- What a search keeps that has taken the nodes of `done` off the queue and followed the edges
`followed`: every node it has met is met by `route`, and in that order. -/
structure FirstInv (out : α → List ε) (tgt src : ε → α) (starts : List α) (bound : ℕ)
    (route : α → List ℕ) (followed : α → ℕ → Prop) (done : List (α × ℕ)) (st : QueueBfs α ε) :
    Prop where
  visited_iff : ∀ a, a ∈ st.visited ↔ ∃ d, (a, d) ∈ done ++ st.queue
  depth : ∀ x ∈ done ++ st.queue, (route x.1).length = x.2 + 1 ∧ x.2 ≤ bound
  met : ∀ x ∈ done ++ st.queue, ∃ l, Route out tgt starts (route x.1) (x.1 :: l) ∧
    FoundBy st.parent src (x.1 :: l) ∧ ∀ b ∈ x.1 :: l, b ∈ st.visited
  sorted : (done ++ st.queue).Pairwise fun x y => routeKey (route x.1) < routeKey (route y.1)
  origin : ∀ x ∈ done ++ st.queue,
    (route x.1).length = 1 ∨ ∃ y ∈ done, ∃ j, route x.1 = route y.1 ++ [j]
  starts_met : ∀ i a, starts[i]? = some a →
    ∃ d, (a, d) ∈ done ++ st.queue ∧ routeKey (route a) ≤ routeKey [i]
  closed : ∀ y ∈ done, ∀ j e, followed y.1 j → (out y.1)[j]? = some e →
    ∃ d, (tgt e, d) ∈ done ++ st.queue ∧ routeKey (route (tgt e)) ≤ routeKey (route y.1 ++ [j])

/-- The edges of the nodes above the bound that were taken off the queue. -/
def followedBelow (bound : ℕ) (done : List (α × ℕ)) (b : α) (_ : ℕ) : Prop :=
  ∃ d < bound, (b, d) ∈ done

namespace FirstInv

variable {bound : ℕ} {route : α → List ℕ} {followed : α → ℕ → Prop} {done : List (α × ℕ)}
  {st : QueueBfs α ε}

omit [DecidableEq α] in
theorem nodup (h : FirstInv out tgt src starts bound route followed done st) :
    ((done ++ st.queue).map Prod.fst).Nodup := by
  rw [List.Nodup, List.pairwise_map]
  refine h.sorted.imp fun {x y} hlt heq => ?_
  rw [heq] at hlt
  exact lt_irrefl _ hlt

omit [DecidableEq α] in
/-- Following fewer edges promises less. -/
theorem weaken {followed' : α → ℕ → Prop}
    (h : FirstInv out tgt src starts bound route followed done st)
    (hle : ∀ b j, followed' b j → followed b j) :
    FirstInv out tgt src starts bound route followed' done st :=
  ⟨h.visited_iff, h.depth, h.met, h.sorted, h.origin, h.starts_met,
    fun y hy j e hf he => h.closed y hy j e (hle y.1 j hf) he⟩

/-- A chain of nodes that were met keeps its parents when another node is met. -/
theorem foundBy_update {parent : α → Option ε} {l : List α} {new : α} {found : Option ε}
    (h : FoundBy parent src l) (hnew : new ∉ l) :
    FoundBy (Function.update parent new found) src l := by
  induction h with
  | start ha =>
    exact .start (by rw [Function.update_of_ne (by simpa using Ne.symm (List.ne_of_not_mem_cons hnew)), ha])
  | step ha _ ih =>
    rw [List.mem_cons, not_or] at hnew
    exact .step (by rw [Function.update_of_ne (Ne.symm hnew.1), ha]) (ih hnew.2)

/-- One edge of a node that was taken off the queue. -/
theorem follow (hsrc : ∀ b, ∀ e ∈ out b, src e = b)
    (h : FirstInv out tgt src starts bound route followed done st) {u : α} {d j : ℕ} {e : ε}
    (hu : (u, d) ∈ done) (hd : d < bound) (he : (out u)[j]? = some e)
    (hlast : ∀ x ∈ done ++ st.queue, routeKey (route x.1) < routeKey (route u ++ [j])) :
    ∃ route', FirstInv out tgt src starts bound route'
        (fun b i => followed b i ∨ b = u ∧ i = j) done (st.enqueue (tgt e) (d + 1) (some e)) ∧
      (∀ x ∈ done ++ st.queue, route' x.1 = route x.1) ∧
      ∀ x ∈ done ++ (st.enqueue (tgt e) (d + 1) (some e)).queue,
        routeKey (route' x.1) < routeKey (route' u ++ [j + 1]) := by
  have hnext := routeKey_concat_lt_concat (route u) (Nat.lt_succ_self j)
  rw [QueueBfs.enqueue]
  split_ifs with hv
  · refine ⟨route, ⟨h.visited_iff, h.depth, h.met, h.sorted, h.origin, h.starts_met, ?_⟩,
      fun _ _ => rfl, fun x hx => (hlast x hx).trans hnext⟩
    rintro y hy i e' (hf | ⟨rfl, rfl⟩) he'
    · exact h.closed y hy i e' hf he'
    · rw [he] at he'
      obtain rfl := Option.some.inj he'
      obtain ⟨d', hd'⟩ := (h.visited_iff _).mp hv
      exact ⟨d', hd', (hlast _ hd').le⟩
  · -- a node met for the first time stands at the end of the queue
    have hne : ∀ x ∈ done ++ st.queue, x.1 ≠ tgt e := by
      rintro x hx heq
      exact hv ((h.visited_iff _).mpr ⟨x.2, heq ▸ hx⟩)
    have hu' : (u, d) ∈ done ++ st.queue := List.mem_append_left _ hu
    let route' := Function.update route (tgt e) (route u ++ [j])
    have hold : ∀ x ∈ done ++ st.queue, route' x.1 = route x.1 := fun x hx =>
      Function.update_of_ne (hne x hx) _ _
    have hnew : route' (tgt e) = route u ++ [j] := Function.update_self _ _ _
    have hmem : ∀ x, x ∈ done ++ (st.queue ++ [(tgt e, d + 1)]) ↔
        x ∈ done ++ st.queue ∨ x = (tgt e, d + 1) := by
      intro x
      rw [← List.append_assoc, List.mem_append, List.mem_singleton]
    have hmet : ∀ {l}, (∀ b ∈ l, b ∈ st.visited) → FoundBy st.parent src l →
        FoundBy (Function.update st.parent (tgt e) (some e)) src l := fun hl hfound =>
      foundBy_update hfound fun hin => hv (hl _ hin)
    refine ⟨route', ⟨fun a => ?_, fun x hx => ?_, fun x hx => ?_, ?_, fun x hx => ?_,
      fun i a ha => ?_, ?_⟩, hold, fun x hx => ?_⟩
    · simp only [List.mem_cons, h.visited_iff, hmem, Prod.mk.injEq, exists_or, exists_eq_right]
      tauto
    · rcases (hmem x).mp hx with hx | rfl
      · rw [hold x hx]
        exact h.depth x hx
      · dsimp only
        rw [hnew, List.length_append, (h.depth _ hu').1]
        exact ⟨rfl, by omega⟩
    · rcases (hmem x).mp hx with hx | rfl
      · obtain ⟨l, hr, hfound, hl⟩ := h.met x hx
        rw [hold x hx]
        exact ⟨l, hr, hmet hl hfound, fun b hb => List.mem_cons_of_mem _ (hl b hb)⟩
      · obtain ⟨l, hr, hfound, hl⟩ := h.met _ hu'
        dsimp only
        rw [hnew]
        refine ⟨u :: l, .step hr he, ?_, fun b hb => ?_⟩
        · have hsrc' := hsrc u e (List.mem_of_getElem? he)
          have hstep := @FoundBy.step _ _ _ src _ _ l
            (Function.update_self (tgt e) (some e) st.parent) (hsrc'.symm ▸ hmet hl hfound)
          rwa [hsrc'] at hstep
        · rcases List.mem_cons.mp hb with rfl | hb
          · exact List.mem_cons_self
          · exact List.mem_cons_of_mem _ (hl b hb)
    · dsimp only
      rw [← List.append_assoc, List.pairwise_append]
      refine ⟨?_, by simp, fun x hx y hy => ?_⟩
      · refine h.sorted.imp_of_mem fun {x y} hx hy hlt => ?_
        rwa [hold x hx, hold y hy]
      · rw [List.mem_singleton.mp hy, hold x hx, hnew]
        exact hlast x hx
    · rcases (hmem x).mp hx with hx | rfl
      · rw [hold x hx]
        refine (h.origin x hx).imp_right ?_
        rintro ⟨y, hy, i, hroute⟩
        exact ⟨y, hy, i, by rw [hold y (List.mem_append_left _ hy), hroute]⟩
      · exact .inr ⟨(u, d), hu, j, by rw [hold _ hu']; exact hnew⟩
    · obtain ⟨d', hd', hle⟩ := h.starts_met i a ha
      exact ⟨d', (hmem _).mpr (.inl hd'), by rw [hold _ hd']; exact hle⟩
    · rintro y hy i e' hf he'
      have hy' : y ∈ done ++ st.queue := List.mem_append_left _ hy
      rw [hold y hy']
      rcases hf with hf | ⟨hyu, rfl⟩
      · obtain ⟨d', hd', hle⟩ := h.closed y hy i e' hf he'
        exact ⟨d', (hmem _).mpr (.inl hd'), by rw [hold _ hd']; exact hle⟩
      · rw [hyu, he] at he'
        obtain rfl := Option.some.inj he'
        exact ⟨d + 1, (hmem _).mpr (.inr rfl), by rw [hnew, hyu]⟩
    · rw [hold _ hu']
      rcases (hmem x).mp hx with hx | rfl
      · rw [hold x hx]
        exact (hlast x hx).trans hnext
      · dsimp only
        rw [hnew]
        exact hnext

theorem mem_enqueue {a : α} {d : ℕ} {found : Option ε} {x : α × ℕ}
    (h : x ∈ done ++ st.queue) : x ∈ done ++ (st.enqueue a d found).queue := by
  rw [QueueBfs.enqueue]
  split_ifs
  · exact h
  · rw [← List.append_assoc]
    exact List.mem_append_left _ h

/-- The edges of a node from the `k`-th on. -/
theorem expand (hsrc : ∀ b, ∀ e ∈ out b, src e = b) {u : α} {d k : ℕ} {l : List ε}
    (h : FirstInv out tgt src starts bound route followed done st) (hu : (u, d) ∈ done)
    (hd : d < bound) (hl : (out u).drop k = l)
    (hlast : ∀ x ∈ done ++ st.queue, routeKey (route x.1) < routeKey (route u ++ [k])) :
    ∃ route', FirstInv out tgt src starts bound route'
        (fun b i => followed b i ∨ b = u ∧ k ≤ i) done
        (l.foldl (fun st e => st.enqueue (tgt e) (d + 1) (some e)) st) := by
  induction l generalizing k st route followed with
  | nil =>
    have hend : (out u).length ≤ k := List.drop_eq_nil_iff.mp hl
    refine ⟨route, h.visited_iff, h.depth, h.met, h.sorted, h.origin, h.starts_met, ?_⟩
    rintro y hy i e (hf | ⟨hyu, hi⟩) he
    · exact h.closed y hy i e hf he
    · rw [hyu, List.getElem?_eq_none (by omega)] at he
      cases he
  | cons e l ih =>
    have he : (out u)[k]? = some e := by
      rw [← List.head?_drop, hl, List.head?_cons]
    have hrest : (out u).drop (k + 1) = l := by
      rw [← List.tail_drop, hl, List.tail_cons]
    obtain ⟨route', h', -, hlast'⟩ := h.follow hsrc hu hd he hlast
    obtain ⟨route'', h''⟩ := ih h' hrest hlast'
    refine ⟨route'', h''.weaken fun b i hf => ?_⟩
    rcases hf with hf | ⟨rfl, hi⟩
    · exact .inl (.inl hf)
    · rcases hi.lt_or_eq with hlt | rfl
      · exact .inr ⟨rfl, hlt⟩
      · exact .inl (.inr ⟨rfl, rfl⟩)

omit [DecidableEq α] in
/-- A node is taken off the queue. -/
theorem pop (h : FirstInv out tgt src starts bound route (followedBelow bound done) done st)
    {x : α × ℕ} {rest : List (α × ℕ)} (hq : st.queue = x :: rest) :
    FirstInv out tgt src starts bound route (followedBelow bound done) (done ++ [x])
      { st with queue := rest } := by
  have happend : done ++ [x] ++ rest = done ++ st.queue := by simp [hq]
  refine ⟨fun a => ?_, fun y hy => ?_, fun y hy => ?_, ?_, fun y hy => ?_, fun i a ha => ?_,
    fun y _ j e hf he => ?_⟩
  · rw [happend]
    exact h.visited_iff a
  · exact h.depth y (happend ▸ hy)
  · exact h.met y (happend ▸ hy)
  · rw [happend]
    exact h.sorted
  · refine (h.origin y (happend ▸ hy)).imp_right ?_
    rintro ⟨z, hz, hroute⟩
    exact ⟨z, List.mem_append_left _ hz, hroute⟩
  · rw [happend]
    exact h.starts_met i a ha
  · obtain ⟨d, hlt, hd⟩ := hf
    rw [happend]
    exact h.closed (y.1, d) hd j e ⟨d, hlt, hd⟩ he

/-- One round of the search: a node is taken off the queue, and its edges are followed unless it
stands at the bound. -/
theorem next (hsrc : ∀ b, ∀ e ∈ out b, src e = b)
    (h : FirstInv out tgt src starts bound route (followedBelow bound done) done st) {u : α} {d : ℕ}
    {rest : List (α × ℕ)} (hq : st.queue = (u, d) :: rest) :
    ∃ route', FirstInv out tgt src starts bound route'
      (followedBelow bound (done ++ [(u, d)])) (done ++ [(u, d)])
      ((if d < bound then out u else []).foldl
        (fun st e => st.enqueue (tgt e) (d + 1) (some e)) { st with queue := rest }) := by
  have hpop := h.pop hq
  have hu : (u, d) ∈ done ++ [(u, d)] := by simp
  have hdepth := (hpop.depth (u, d) (List.mem_append_left _ hu)).1
  split_ifs with hd
  · have hlast : ∀ x ∈ done ++ [(u, d)] ++ rest,
        routeKey (route x.1) < routeKey (route u ++ [0]) := by
      intro x hx
      have hx' : x ∈ done ++ st.queue := by simpa [hq] using hx
      rcases h.origin x hx' with hone | ⟨y, hy, j, hroute⟩
      · refine routeKey_lt_iff.mpr (.inl ?_)
        rw [hone, List.length_append, hdepth]
        simp
      · -- the node was met from one that was taken off before
        have hlt := (List.pairwise_append.mp h.sorted).2.2 y hy (u, d) (by simp [hq])
        rw [hroute]
        exact routeKey_concat_lt hlt j 0
    obtain ⟨route', h'⟩ := hpop.expand hsrc hu hd (List.drop_zero) hlast
    refine ⟨route', h'.weaken ?_⟩
    rintro b i ⟨d', hd', hb⟩
    rcases List.mem_append.mp hb with hb | hb
    · exact .inl ⟨d', hd', hb⟩
    · exact .inr ⟨congrArg Prod.fst (List.mem_singleton.mp hb), Nat.zero_le _⟩
  · refine ⟨route, hpop.weaken ?_⟩
    rintro b i ⟨d', hd', hb⟩
    rcases List.mem_append.mp hb with hb | hb
    · exact ⟨d', hd', hb⟩
    · have := congrArg Prod.snd (List.mem_singleton.mp hb)
      dsimp only at this
      omega

/-- A search that has put the starts of a prefix on the queue. -/
theorem start_aux {pre suf : List α}
    (hstarts : starts = pre ++ suf) {st : QueueBfs α ε}
    (hst : st = pre.foldl (fun st a => st.enqueue a 0 none) {}) :
    (∀ a, a ∈ st.visited ↔ a ∈ pre) ∧ (∀ a d, (a, d) ∈ st.queue ↔ d = 0 ∧ a ∈ pre) ∧
      (∀ a, st.parent a = none) ∧
      st.queue.Pairwise fun x y => starts.idxOf x.1 < starts.idxOf y.1 := by
  subst hst
  induction pre using List.reverseRecOn generalizing suf with
  | nil => simp
  | append_singleton pre b ih =>
    obtain ⟨hvisited, hqueue, hparent, hsorted⟩ := @ih (b :: suf) (by simp [hstarts])
    rw [List.foldl_append, List.foldl_cons, List.foldl_nil]
    generalize pre.foldl (fun st a => st.enqueue a 0 none) ({} : QueueBfs α ε) = st at *
    rw [QueueBfs.enqueue]
    split_ifs with hb
    · have hmem := (hvisited b).mp hb
      have hpre : ∀ a, a ∈ pre ↔ a ∈ pre ++ [b] := by
        intro a
        rw [List.mem_append, List.mem_singleton]
        exact ⟨.inl, fun h => h.elim id fun h => h ▸ hmem⟩
      exact ⟨fun a => (hvisited a).trans (hpre a),
        fun a d => (hqueue a d).trans (and_congr_right fun _ => hpre a), hparent, hsorted⟩
    · have hnew : b ∉ pre := fun hin => hb ((hvisited b).mpr hin)
      have hidx : starts.idxOf b = pre.length := by
        rw [hstarts, List.append_assoc, List.idxOf_append_of_notMem hnew]
        simp
      refine ⟨fun a => ?_, fun a d => ?_, fun a => ?_, ?_⟩
      · simp [hvisited, or_comm]
      · simp only [List.mem_append, hqueue, List.mem_singleton, Prod.mk.injEq]
        tauto
      · by_cases ha : a = b
        · simp [ha]
        · simp [ha, hparent]
      · rw [List.pairwise_append]
        refine ⟨hsorted, by simp, fun x hx y hy => ?_⟩
        have hin := ((hqueue x.1 x.2).mp hx).2
        rw [List.mem_singleton.mp hy, hidx, hstarts, List.append_assoc,
          List.idxOf_append_of_mem hin]
        exact List.idxOf_lt_length_of_mem hin

/-- The search begins with the starts on the queue. -/
theorem start (out : α → List ε) (tgt src : ε → α) (bound : ℕ) (starts : List α) :
    FirstInv out tgt src starts bound (fun a => [starts.idxOf a]) (followedBelow bound []) []
      (starts.foldl (fun st a => st.enqueue a 0 none) {}) := by
  obtain ⟨hvisited, hqueue, hparent, hsorted⟩ :=
    start_aux (ε := ε) (List.append_nil starts).symm rfl
  have hzero : ∀ x, x ∈ (starts.foldl (fun st a => st.enqueue a 0 none)
      ({} : QueueBfs α ε)).queue → x.2 = 0 ∧ x.1 ∈ starts := fun x hx => (hqueue x.1 x.2).mp hx
  refine ⟨fun a => ?_, fun x hx => ?_, fun x hx => ?_, ?_, fun _ _ => .inl rfl, fun i a ha => ?_,
    by simp⟩
  · simp [hvisited, hqueue]
  · simp [(hzero x hx).1]
  · have hx' := (hzero x hx).2
    refine ⟨[], .start (List.getElem?_idxOf hx'), .start (hparent _), fun b hb => ?_⟩
    obtain rfl := List.mem_singleton.mp hb
    exact (hvisited _).mpr hx'
  · exact hsorted.imp fun hlt => routeKey_singleton_lt hlt
  · refine ⟨0, (hqueue a 0).mpr ⟨rfl, List.mem_of_getElem? ha⟩, ?_⟩
    have hle : starts.idxOf a ≤ i := by
      obtain ⟨hi, heq⟩ := List.getElem?_eq_some_iff.mp ha
      by_contra hlt
      have hne := List.not_of_lt_findIdx (not_le.mp hlt)
      simp [heq] at hne
    rcases hle.lt_or_eq with hlt | heq
    · exact (routeKey_singleton_lt hlt).le
    · rw [heq]

/-! ### What the search meets -/

omit [DecidableEq α] in
/-- The end of a route was taken off the queue, or a node on the queue comes before. -/
theorem met_or_before (h : FirstInv out tgt src starts bound route (followedBelow bound done) done st)
    {q : List ℕ} {l : List α} (hr : Route out tgt starts q l) {a : α} {l' : List α}
    (hl : l = a :: l') (hlen : q.length ≤ bound + 1) :
    (∃ d, (a, d) ∈ done ∧ routeKey (route a) ≤ routeKey q) ∨
      ∃ y ∈ st.queue, routeKey (route y.1) ≤ routeKey q := by
  have hside : ∀ {a q}, (∃ d, (a, d) ∈ done ++ st.queue ∧ routeKey (route a) ≤ routeKey q) →
      (∃ d, (a, d) ∈ done ∧ routeKey (route a) ≤ routeKey q) ∨
        ∃ y ∈ st.queue, routeKey (route y.1) ≤ routeKey q := by
    rintro a q ⟨d, hd, hle⟩
    exact (List.mem_append.mp hd).imp (fun hd => ⟨d, hd, hle⟩) fun hd => ⟨(a, d), hd, hle⟩
  induction hr generalizing a l' with
  | start ha =>
    obtain rfl := (List.cons.inj hl).1
    exact hside (h.starts_met _ _ ha)
  | @step p b l j e hr he ih =>
    obtain rfl := (List.cons.inj hl).1
    rw [List.length_append, List.length_singleton] at hlen
    rcases ih rfl (by omega) with ⟨d, hd, hle⟩ | ⟨y, hy, hle⟩
    · have hdepth := (h.depth (b, d) (List.mem_append_left _ hd)).1
      have hlt : d < bound := by
        have := length_le_of_routeKey_le hle
        dsimp only at hdepth
        omega
      obtain ⟨d', hd', hle'⟩ := h.closed (b, d) hd j e ⟨d, hlt, hd⟩ he
      exact hside ⟨d', hd', hle'.trans (routeKey_concat_le hle j)⟩
    · exact .inr ⟨y, hy, (hle.trans_lt (routeKey_lt_concat p j)).le⟩

omit [DecidableEq α] in
/-- The node at the head of the queue ends the first route to the nodes with a property that no
node before it has. -/
theorem head_first (h : FirstInv out tgt src starts bound route (followedBelow bound done) done st)
    {u : α} {d : ℕ} {rest : List (α × ℕ)} (hq : st.queue = (u, d) :: rest) {P : α → Prop}
    (hdone : ∀ x ∈ done, ¬ P x.1) (hu : P u) :
    ∃ p l, FirstRoute out tgt starts P p u l ∧ p.length = d + 1 ∧ d ≤ bound ∧
      FoundBy st.parent src (u :: l) := by
  have hmem : (u, d) ∈ done ++ st.queue := by simp [hq]
  obtain ⟨l, hroute, hfound, -⟩ := h.met _ hmem
  obtain ⟨hlen, hd⟩ := h.depth _ hmem
  refine ⟨route u, l, ⟨hroute, hu, fun q b l' hr hb => ?_⟩, hlen, hd, hfound⟩
  by_cases hq' : q.length ≤ bound + 1
  · rcases h.met_or_before hr rfl hq' with ⟨d', hd', -⟩ | ⟨y, hy, hle⟩
    · exact absurd hb (hdone _ hd')
    · refine le_trans ?_ hle
      rw [hq] at hy
      rcases List.mem_cons.mp hy with rfl | hy
      · exact le_rfl
      · have hsorted := (List.pairwise_append.mp h.sorted).2.1
        rw [hq] at hsorted
        exact ((List.pairwise_cons.mp hsorted).1 y hy).le
  · exact (routeKey_lt_iff.mpr (.inl (by dsimp only at hlen; omega))).le

omit [DecidableEq α] in
/-- A search whose queue is empty has taken off every node within the bound. -/
theorem mem_done_of_route
    (h : FirstInv out tgt src starts bound route (followedBelow bound done) done st)
    (hq : st.queue = []) {q : List ℕ} {a : α} {l : List α} (hr : Route out tgt starts q (a :: l))
    (hlen : q.length ≤ bound + 1) : ∃ d, (a, d) ∈ done := by
  rcases h.met_or_before hr rfl hlen with ⟨d, hd, -⟩ | ⟨y, hy, -⟩
  · exact ⟨d, hd⟩
  · rw [hq] at hy
    cases hy

omit [DecidableEq α] in
/-- Every node is taken off once, so a search takes no more rounds than there are nodes. -/
theorem length_le_card (h : FirstInv out tgt src starts bound route followed done st)
    {nodes : List α} (hstarts : starts ⊆ nodes)
    (hout : ∀ b, ∀ e ∈ out b, tgt e ∈ nodes) :
    (done ++ st.queue).length ≤ nodes.length := by
  have hsub : (done ++ st.queue).map Prod.fst ⊆ nodes := by
    intro a ha
    obtain ⟨x, hx, rfl⟩ := List.mem_map.mp ha
    obtain ⟨l, hroute, -⟩ := h.met x hx
    rcases hroute.mem_starts_or_target with ha | ⟨b, e, he, htgt⟩
    · exact hstarts ha
    · exact htgt ▸ hout b e he
  simpa using (List.subperm_of_subset h.nodup hsub).length_le

end FirstInv

end Vycor
