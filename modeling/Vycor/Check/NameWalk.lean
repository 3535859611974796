import Vycor.Check.Index
import Vycor.Check.Journal
import Vycor.Lib.FirstRoute
import Vycor.Lib.StdSort

/-!
# Walks over function names

`analyzeExceptionEscape` and `analyzeStaticInitOrder` walk the call summaries by name, breadth
first and up to a depth of `kMaxDepth`. A name is queued once, with the name it was found by;
the hops of a finding are read off these parents.
-/

namespace Vycor

/-- The queue of a walk, and the call each name was found by. -/
abbrev NameWalk := QueueBfs Bytes (Bytes × Bytes)

/-- `kMaxDepth`. -/
def kMaxDepth : ℕ := 16

namespace NameWalk

/-- The seeds of a walk, at depth zero. -/
def seeded (seeds : List Bytes) : NameWalk :=
  seeds.foldl (fun st seed => st.enqueue seed 0 none) ({} : NameWalk)

/-- The callees of a name, one deeper. -/
def follow (st : NameWalk) (name : Bytes) (depth : ℕ) (callees : List Bytes) : NameWalk :=
  callees.foldl (fun st callee => st.enqueue callee (depth + 1) (some (name, callee))) st

/-- `parent[name]`: the name it was found by, empty for a seed. -/
def parentOf (st : NameWalk) (name : Bytes) : Bytes := ((st.parent name).map Prod.fst).getD []

/-- The names from `cur` back along the parents, up to the first empty one. -/
def hopsBack (st : NameWalk) : ℕ → Bytes → List Bytes
  | 0, _ => []
  | n + 1, cur => if cur = [] then [] else cur :: hopsBack st n (st.parentOf cur)

/-- The chain the walk found, unless a name on it is empty. -/
theorem hopsBack_of_foundBy {st : NameWalk} {cur : Bytes} {l : List Bytes}
    (h : FoundBy st.parent Prod.fst (cur :: l)) {n : ℕ} (hn : l.length < n) :
    hopsBack st n cur = (cur :: l).takeWhile (· ≠ []) := by
  generalize hl : cur :: l = l' at h
  induction h generalizing cur l n with
  | @start a ha =>
    obtain ⟨rfl, rfl⟩ := List.cons.inj hl
    obtain ⟨n, rfl⟩ : ∃ m, n = m + 1 := ⟨n - 1, by omega⟩
    have hpar : st.parentOf cur = [] := by rw [parentOf, ha]; rfl
    have hend : ∀ m, hopsBack st m [] = [] := fun m => by cases m <;> simp [hopsBack]
    rw [hopsBack, hpar, hend]
    by_cases hcur : cur = [] <;> simp [hcur]
  | @step a e l' ha hl' ih =>
    obtain ⟨rfl, rfl⟩ := List.cons.inj hl
    rw [List.length_cons] at hn
    obtain ⟨n, rfl⟩ : ∃ m, n = m + 1 := ⟨n - 1, by omega⟩
    have hpar : st.parentOf cur = e.1 := by rw [parentOf, ha]; rfl
    rw [hopsBack, hpar, ih (n := n) (by omega) rfl]
    by_cases hcur : cur = []
    · simp [hcur]
    · have htake : (cur :: e.1 :: l').takeWhile (· ≠ []) =
          cur :: (e.1 :: l').takeWhile (· ≠ []) :=
        List.takeWhile_cons_of_pos (by simpa using hcur)
      rw [if_neg hcur, htake]

theorem takeWhile_eq_self_iff {l : List Bytes} : l.takeWhile (· ≠ []) = l ↔ [] ∉ l := by
  rw [List.takeWhile_eq_self_iff]
  constructor
  · intro h hin
    simpa using h [] hin
  · intro h x hx
    have hne : x ≠ [] := fun heq => h (heq ▸ hx)
    simpa using hne

/-! ### The calls a walk follows -/

/-- Calls by name as edges. -/
def callEdges (calls : Bytes → List Bytes) (name : Bytes) : List (Bytes × Bytes) :=
  (calls name).map fun callee => (name, callee)

theorem follow_eq (calls : Bytes → List Bytes) (st : NameWalk) (name : Bytes) (depth : ℕ) :
    follow st name depth (calls name) =
      (callEdges calls name).foldl (fun st e => st.enqueue e.2 (depth + 1) (some e)) st := by
  rw [follow, callEdges, List.foldl_map]

theorem src_callEdges (calls : Bytes → List Bytes) :
    ∀ b, ∀ e ∈ callEdges calls b, e.1 = b := by
  intro b e he
  obtain ⟨c, -, rfl⟩ := List.mem_map.mp he
  rfl

/-- A walk up to the depth bound, after the names of `done` were taken off its queue. -/
def Walked (calls : Bytes → List Bytes) (seeds : List Bytes) (done : List (Bytes × ℕ))
    (st : NameWalk) : Prop :=
  ∃ route, FirstInv (callEdges calls) Prod.snd Prod.fst seeds (kMaxDepth - 1) route
    (followedBelow (kMaxDepth - 1) done) done st

/-- The route to a name that a walk takes. -/
def FirstCall (calls : Bytes → List Bytes) (seeds : List Bytes) (P : Bytes → Prop) (p : List ℕ)
    (name : Bytes) (callers : List Bytes) : Prop :=
  FirstRoute (callEdges calls) Prod.snd seeds P p name callers

section Walked

variable {calls : Bytes → List Bytes} {seeds : List Bytes} {done rest : List (Bytes × ℕ)}
  {st : NameWalk} {name : Bytes} {depth : ℕ}

theorem walked_seeded (calls : Bytes → List Bytes) (seeds : List Bytes) :
    Walked calls seeds [] (seeded seeds) :=
  ⟨_, FirstInv.start _ _ _ _ seeds⟩

/-- One round: the calls of the name are followed unless it stands at the bound. -/
theorem Walked.next (h : Walked calls seeds done st) (hq : st.queue = (name, depth) :: rest) :
    Walked calls seeds (done ++ [(name, depth)])
      (if kMaxDepth ≤ depth + 1 then { st with queue := rest }
        else follow { st with queue := rest } name depth (calls name)) := by
  obtain ⟨route, h⟩ := h
  obtain ⟨route', h'⟩ := h.next (src_callEdges calls) hq
  refine ⟨route', ?_⟩
  by_cases hd : kMaxDepth ≤ depth + 1
  · rw [if_pos hd]
    rwa [if_neg (by omega)] at h'
  · rw [if_neg hd, follow_eq]
    rwa [if_pos (by omega)] at h'

/-- A round that follows no calls. -/
theorem Walked.skip (h : Walked calls seeds done st) (hq : st.queue = (name, depth) :: rest)
    (hno : kMaxDepth ≤ depth + 1 ∨ calls name = []) :
    Walked calls seeds (done ++ [(name, depth)]) { st with queue := rest } := by
  have hnext := h.next hq
  rcases hno with hd | hno
  · rwa [if_pos hd] at hnext
  · rw [hno] at hnext
    split_ifs at hnext
    · exact hnext
    · exact hnext

theorem Walked.head_first (h : Walked calls seeds done st) (hq : st.queue = (name, depth) :: rest)
    {P : Bytes → Prop} (hdone : ∀ x ∈ done, ¬ P x.1) (hname : P name) :
    ∃ p callers, FirstCall calls seeds P p name callers ∧ p.length ≤ kMaxDepth ∧
      FoundBy st.parent Prod.fst (name :: callers) := by
  obtain ⟨route, h⟩ := h
  obtain ⟨p, l, hfirst, hlen, hd, hfound⟩ := h.head_first hq hdone hname
  refine ⟨p, l, hfirst, ?_, hfound⟩
  have : kMaxDepth - 1 < kMaxDepth := by decide
  omega

theorem Walked.mem_done (h : Walked calls seeds done st) (hq : st.queue = []) {p : List ℕ}
    {callers : List Bytes} (hr : Route (callEdges calls) Prod.snd seeds p (name :: callers))
    (hlen : p.length ≤ kMaxDepth) : ∃ d, (name, d) ∈ done := by
  obtain ⟨route, h⟩ := h
  exact h.mem_done_of_route hq hr (hlen.trans (by decide))

/-- A walk takes no more rounds than there are names. -/
theorem Walked.length_le (h : Walked calls seeds done st) {names : List Bytes}
    (hcalls : ∀ b, calls b ⊆ names) : (done ++ st.queue).length ≤ (seeds ++ names).length := by
  obtain ⟨route, h⟩ := h
  refine h.length_le_card (List.subset_append_left _ _) fun b e he => ?_
  obtain ⟨c, hc, rfl⟩ := List.mem_map.mp he
  exact List.mem_append_right _ (hcalls b hc)

end Walked

/-! ### Chains of calls -/

/-- A chain of calls, the first one of a list, to a name with a property. -/
inductive CallsTo (calls : Bytes → List Bytes) (P : Bytes → Prop) : List Bytes → List Bytes → Prop
    where
  | last {start : List Bytes} {name : Bytes} (hcall : name ∈ start) (hname : P name) :
      CallsTo calls P start [name]
  | call {start : List Bytes} {name : Bytes} {chain : List Bytes} (hcall : name ∈ start)
      (hchain : CallsTo calls P (calls name) chain) : CallsTo calls P start (name :: chain)

section CallsTo

variable {calls : Bytes → List Bytes} {P : Bytes → Prop} {seeds start : List Bytes} {name : Bytes}
  {callers : List Bytes} {p : List ℕ}

/-- A route goes on as a chain. -/
theorem callsTo_of_route {l tail : List Bytes} (hr : Route (callEdges calls) Prod.snd seeds p l)
    (hl : l = name :: callers)
    (htail : ∀ start, name ∈ start → CallsTo calls P start (name :: tail)) :
    CallsTo calls P seeds (callers.reverse ++ name :: tail) := by
  induction hr generalizing name callers tail with
  | start ha =>
    obtain ⟨rfl, rfl⟩ := List.cons.inj hl
    exact htail seeds (List.mem_of_getElem? ha)
  | step hr he ih =>
    obtain ⟨rfl, rfl⟩ := List.cons.inj hl
    obtain ⟨callee, hcallee, rfl⟩ := List.mem_map.mp (List.mem_of_getElem? he)
    rw [List.reverse_cons, List.append_assoc]
    exact ih rfl fun start hstart => .call hstart (htail _ hcallee)

/-- A chain is a route. -/
theorem exists_route_of_callsTo_aux {chain : List Bytes} (h : CallsTo calls P start chain) {k : ℕ}
    (hstart : ∀ name ∈ start, ∃ p callers,
      Route (callEdges calls) Prod.snd seeds p (name :: callers) ∧ p.length = k + 1) :
    ∃ p name callers, Route (callEdges calls) Prod.snd seeds p (name :: callers) ∧ P name ∧
      p.length = k + chain.length := by
  induction h generalizing k with
  | last hcall hname =>
    obtain ⟨p, callers, hr, hlen⟩ := hstart _ hcall
    exact ⟨p, _, callers, hr, hname, hlen⟩
  | @call start name chain hcall _ ih =>
    obtain ⟨p, callers, hr, hlen⟩ := hstart _ hcall
    obtain ⟨q, last, l, hq, hlast, hlen'⟩ := ih (k := k + 1) fun callee hcallee => by
      obtain ⟨j, hj⟩ := List.mem_iff_getElem?.mp hcallee
      refine ⟨p ++ [j], name :: callers, .step (e := (name, callee)) hr ?_, by simpa using hlen⟩
      rw [callEdges, List.getElem?_map, hj]
      rfl
    refine ⟨q, last, l, hq, hlast, ?_⟩
    rw [List.length_cons]
    omega

theorem exists_route_of_callsTo {chain : List Bytes} (h : CallsTo calls P seeds chain) :
    ∃ p name callers, Route (callEdges calls) Prod.snd seeds p (name :: callers) ∧ P name ∧
      p.length = chain.length := by
  obtain ⟨p, name, callers, hr, hname, hlen⟩ := exists_route_of_callsTo_aux (k := 0) h fun name hname => by
      obtain ⟨i, hi⟩ := List.mem_iff_getElem?.mp hname
      exact ⟨[i], [], .start hi, rfl⟩
  exact ⟨p, name, callers, hr, hname, by omega⟩

theorem FirstCall.callsTo (h : FirstCall calls seeds P p name callers) :
    CallsTo calls P seeds (name :: callers).reverse := by
  rw [List.reverse_cons]
  exact callsTo_of_route h.route rfl fun start hstart => .last hstart h.ends

/-- No chain is shorter than the first route. -/
theorem FirstCall.length_le (h : FirstCall calls seeds P p name callers) {chain : List Bytes}
    (hchain : CallsTo calls P seeds chain) : p.length ≤ chain.length := by
  obtain ⟨q, last, l, hq, hlast, hlen⟩ := exists_route_of_callsTo hchain
  exact hlen ▸ length_le_of_routeKey_le (h.first q last l hq hlast)

/-- The callers of a name, back along the parents, up to the first empty one. -/
theorem hopsBack_parentOf {st : NameWalk} (h : FoundBy st.parent Prod.fst (name :: callers)) {n : ℕ}
    (hn : callers.length ≤ n) : hopsBack st n (parentOf st name) = callers.takeWhile (· ≠ []) := by
  generalize hl : name :: callers = l at h
  cases h with
  | start ha =>
    obtain ⟨rfl, rfl⟩ := List.cons.inj hl
    have hpar : parentOf st name = [] := by rw [parentOf, ha]; rfl
    rw [hpar]
    cases n <;> simp [hopsBack]
  | @step _ e _ ha hrest =>
    obtain ⟨rfl, rfl⟩ := List.cons.inj hl
    have hpar : parentOf st name = e.1 := by rw [parentOf, ha]; rfl
    rw [hpar]
    exact hopsBack_of_foundBy hrest (by simpa using hn)

end CallsTo

end NameWalk

namespace GlobalIndex

theorem mem_of_findFunctionSummary {g : GlobalIndex} {name : Bytes} {s : FunctionSummaryEntry}
    (h : g.findFunctionSummary name = some s) : s ∈ g.functionSummaries.entries := by
  obtain ⟨i, -, hi⟩ := Option.bind_eq_some_iff.mp h
  exact List.mem_of_getElem? hi

end GlobalIndex

/-- The comparison by definition site and name. -/
def siteBefore (file file' : Bytes) (line line' : ℕ) (name name' : Bytes) : Bool :=
  if file ≠ file' then file < file'
  else if line ≠ line' then line < line'
  else name < name'

theorem siteBefore_iff {file file' : Bytes} {line line' : ℕ} {name name' : Bytes} :
    siteBefore file file' line line' name name' = true ↔
      toLex (file, toLex (line, name)) < toLex (file', toLex (line', name')) :=
  lexBefore_iff (lexBefore_iff decide_eq_true_iff)

end Vycor
