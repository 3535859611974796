import Vycor.PathSearch.Basic

/-!
# Searches that differ in their ids only

A walk looks at ids through equality, the caller edges, the in-degrees, the starts and the
corridor. Two searches in which these agree along a one-to-one relation of ids take the same
decisions at every step and reach related states (`Related.searchTargets`).
-/

namespace Vycor

section Lists

variable {α β : Type*} {R : α → β → Prop}

/-- Along a one-to-one relation, related elements are in related lists together. -/
theorem mem_iff_of_forall₂ (hR : ∀ {a b a' b'}, R a a' → R b b' → (a = b ↔ a' = b'))
    {l : List α} {l' : List β} (hl : List.Forall₂ R l l') {a : α} {a' : β} (ha : R a a') :
    a ∈ l ↔ a' ∈ l' := by
  induction hl with
  | nil => simp
  | cons h _ ih => rw [List.mem_cons, List.mem_cons, hR ha h, ih]

/-- A test that related elements pass together is passed in related lists together. -/
theorem any_eq_of_forall₂ {p : α → Bool} {p' : β → Bool} (hp : ∀ {a a'}, R a a' → p a = p' a')
    {l : List α} {l' : List β} (hl : List.Forall₂ R l l') : l.any p = l'.any p' := by
  induction hl with
  | nil => rfl
  | cons h _ ih => rw [List.any_cons, List.any_cons, hp h, ih]

end Lists

/-- Two edges with related names and the same attributes. -/
structure Edge.Related {ι ι' : Type*} (R : ι → ι' → Prop) (e : Edge ι) (e' : Edge ι') : Prop where
  caller : R e.caller e'.caller
  callee : R e.callee e'.callee
  callSite : R e.callSite e'.callSite
  kind : e.kind = e'.kind
  confidence : e.confidence = e'.confidence
  execContext : e.execContext = e'.execContext
  indirectionDepth : e.indirectionDepth = e'.indirectionDepth

/-- Two states of a walk over related ids. -/
structure SearchState.Related (R : SId → SId → Prop) (st st' : SearchState) : Prop where
  found : List.Forall₂ (List.Forall₂ (Edge.Related R)) st.found st'.found
  deadAt : ∀ {i i'}, R i i' → st.deadAt i = st'.deadAt i'
  hubs : List.Forall₂ (fun h h' => R h.1 h'.1 ∧ h.2 = h'.2) st.hubs st'.hubs
  depthLimit : st.depthLimit = st'.depthLimit
  workBudget : st.workBudget = st'.workBudget
  hubPruned : st.hubPruned = st'.hubPruned
  truncated : st.truncated = st'.truncated
  expansions : st.expansions = st'.expansions

theorem SearchState.Related.empty (R : SId → SId → Prop) :
    SearchState.Related R ({} : SearchState) {} :=
  ⟨.nil, fun _ => rfl, .nil, rfl, rfl, rfl, rfl, rfl⟩

/-- Two searches that read the same along a one-to-one relation of ids. -/
structure Search.Related (R : SId → SId → Prop) (S S' : Search) : Prop where
  inj : ∀ {i j i' j'}, R i i' → R j j' → (i = j ↔ i' = j')
  callersOf : ∀ {i i'}, R i i' → List.Forall₂ (Edge.Related R) (S.callersOf i) (S'.callersOf i')
  storedInDegree : ∀ {i i'}, R i i' → S.storedInDegree i = S'.storedInDegree i'
  limits : S.limits = S'.limits
  cycles : S.cycles = S'.cycles
  admits : ∀ {e e'}, Edge.Related R e e' → S.admits e = S'.admits e'
  startSet : ∀ {i i'}, R i i' → (i ∈ S.startSet ↔ i' ∈ S'.startSet)
  minFromStart : ∀ {i i'}, R i i' → S.minFromStart i = S'.minFromStart i'

namespace Search.Related

variable {R : SId → SId → Prop} {S S' : Search} (h : Search.Related R S S')
variable {node node' : SId} {chain chain' : List EdgeRef} {st st' : SearchState}

include h

/-! ### The tests of a walk -/

theorem pathLimitHit (hst : st.Related R st') : S.pathLimitHit st = S'.pathLimitHit st' := by
  rw [Search.pathLimitHit, Search.pathLimitHit, h.limits, hst.found.length_eq]

theorem overBudget (n : ℕ) : S.overBudget n = S'.overBudget n := by
  rw [Search.overBudget, Search.overBudget, h.limits]

theorem hasCorridorCaller (hn : R node node') :
    S.hasCorridorCaller node = S'.hasCorridorCaller node' :=
  any_eq_of_forall₂ (fun he => by rw [h.admits he, h.minFromStart he.caller]) (h.callersOf hn)

theorem excluded (hn : R node node') (hc : List.Forall₂ (Edge.Related R) chain chain')
    {e e' : EdgeRef} (he : Edge.Related R e e') :
    S.excluded node chain e = S'.excluded node' chain' e' := by
  have hnodes : e.caller ∈ node :: chain.map (·.callee) ↔
      e'.caller ∈ node' :: chain'.map (·.callee) := by
    refine mem_iff_of_forall₂ h.inj (.cons hn ?_) he.caller
    rw [List.forall₂_map_left_iff, List.forall₂_map_right_iff]
    exact hc.imp fun _ _ he => he.callee
  -- two keys are equal when their three ids are
  have hkeys : e.pathKey ∈ chain.map (·.pathKey) ↔ e'.pathKey ∈ chain'.map (·.pathKey) := by
    refine mem_iff_of_forall₂ (R := fun k k' => R k.1 k'.1 ∧ R k.2.1 k'.2.1 ∧ R k.2.2 k'.2.2)
      (fun {a b a' b'} ha hb => ?_) ?_ ⟨he.caller, he.callee, he.callSite⟩
    · rw [Prod.ext_iff, Prod.ext_iff, Prod.ext_iff, Prod.ext_iff, h.inj ha.1 hb.1,
        h.inj ha.2.1 hb.2.1, h.inj ha.2.2 hb.2.2]
    · rw [List.forall₂_map_left_iff, List.forall₂_map_right_iff]
      exact hc.imp fun _ _ he => ⟨he.caller, he.callee, he.callSite⟩
  unfold Search.excluded
  rw [h.cycles]
  cases S'.cycles with
  | simpleNodes => exact decide_eq_decide.mpr hnodes
  | simpleEdges => exact decide_eq_decide.mpr hkeys

/-! ### The updates of a walk -/

theorem memoize (hst : st.Related R st') (hn : R node node') (depth : ℕ) :
    (st.memoize node depth).Related R (st'.memoize node' depth) := by
  refine { hst with deadAt := fun {i i'} hi => ?_ }
  simp only [SearchState.memoize, Function.update_apply, h.inj hi hn, hst.deadAt hi,
    hst.deadAt hn]

theorem skipHub (hst : st.Related R st') (hn : R node node') (degree : ℕ) :
    (st.skipHub node degree).Related R (st'.skipHub node' degree) := by
  have hmem : node ∈ st.hubs.map Prod.fst ↔ node' ∈ st'.hubs.map Prod.fst := by
    refine mem_iff_of_forall₂ h.inj ?_ hn
    rw [List.forall₂_map_left_iff, List.forall₂_map_right_iff]
    exact hst.hubs.imp fun _ _ hh => hh.1
  refine { hst with hubs := ?_, hubPruned := rfl }
  simp only [SearchState.skipHub, hmem]
  split_ifs
  · exact hst.hubs
  · exact List.rel_append hst.hubs (.cons ⟨hn, rfl⟩ .nil)

/-! ### The walk -/

/-- Two visits that lead related states to related ones and answer alike. -/
def Agrees (_ : Search.Related R S S')
    (dfs dfs' : SId → List EdgeRef → SearchState → SearchState × Flags) : Prop :=
  ∀ {node node' chain chain' st st'}, R node node' →
    List.Forall₂ (Edge.Related R) chain chain' → st.Related R st' →
    (dfs node chain st).1.Related R (dfs' node' chain' st').1 ∧
      (dfs node chain st).2 = (dfs' node' chain' st').2

variable {dfs dfs' : SId → List EdgeRef → SearchState → SearchState × Flags}

theorem expand (hdfs : h.Agrees dfs dfs') (hn : R node node')
    (hc : List.Forall₂ (Edge.Related R) chain chain') {l l' : List EdgeRef}
    (hl : List.Forall₂ (Edge.Related R) l l') (hst : st.Related R st') (fl : Flags) :
    (S.expand dfs node chain l st fl).1.Related R (S'.expand dfs' node' chain' l' st' fl).1 ∧
      (S.expand dfs node chain l st fl).2 = (S'.expand dfs' node' chain' l' st' fl).2 := by
  induction hl generalizing st st' fl with
  | nil => exact ⟨hst, rfl⟩
  | @cons e e' rest rest' he hrest ih =>
    have hempty : rest.isEmpty = rest'.isEmpty := by cases hrest <;> rfl
    unfold Search.expand
    rw [h.admits he, h.minFromStart he.caller]
    split
    · exact ih hst fl
    · rcases S'.minFromStart e'.caller with _ | d
      · exact ih hst fl
      · dsimp only
        obtain ⟨hrel, hflags⟩ := hdfs he.caller (.cons he hc) hst
        rw [h.overBudget, hc.length_eq, h.excluded hn hc he, h.pathLimitHit hrel, hflags]
        split_ifs
        · exact ih (by exact { hst with depthLimit := rfl }) fl
        · exact ih hst _
        · exact ⟨{ hrel with truncated := by rw [hrel.truncated, hempty] }, rfl⟩
        · exact ih hrel _

theorem explore (hdfs : h.Agrees dfs dfs') (hn : R node node')
    (hc : List.Forall₂ (Edge.Related R) chain chain') (hst : st.Related R st') :
    (S.explore dfs node chain st).1.Related R (S'.explore dfs' node' chain' st').1 ∧
      (S.explore dfs node chain st).2 = (S'.explore dfs' node' chain' st').2 := by
  unfold Search.explore
  rw [h.limits, h.storedInDegree hn, hc.length_eq, h.pathLimitHit hst, h.hasCorridorCaller hn]
  split_ifs
  · exact ⟨h.skipHub hst hn _, rfl⟩
  · exact ⟨{ hst with depthLimit := by rw [hst.depthLimit] }, rfl⟩
  · exact ⟨{ hst with truncated := by rw [hst.truncated] }, rfl⟩
  · exact h.expand hdfs hn hc (h.callersOf hn) hst {}

theorem visit (hdfs : h.Agrees dfs dfs') : h.Agrees (S.visit dfs) (S'.visit dfs') := by
  intro node node' chain chain' st st' hn hc hst
  have hhit : decide (node ∈ S.startSet ∧ 0 < chain.length) =
      decide (node' ∈ S'.startSet ∧ 0 < chain'.length) := by
    rw [hc.length_eq, decide_eq_decide, h.startSet hn]
  have hcounted : SearchState.Related R { st with expansions := st.expansions + 1 }
      { st' with expansions := st'.expansions + 1 } :=
    { hst with expansions := by rw [hst.expansions] }
  have hrecorded : SearchState.Related R
      { st with expansions := st.expansions + 1, found := st.found ++ [chain] }
      { st' with expansions := st'.expansions + 1, found := st'.found ++ [chain'] } :=
    { hcounted with found := List.rel_append hst.found (.cons hc .nil) }
  have hwork : (S'.limits.maxWork ≠ 0 ∧ S'.limits.maxWork ≤ st.expansions) =
      (S'.limits.maxWork ≠ 0 ∧ S'.limits.maxWork ≤ st'.expansions) := by rw [hst.expansions]
  unfold Search.visit
  dsimp only
  rw [h.pathLimitHit hst, h.limits, hst.deadAt hn, hhit, hc.length_eq]
  generalize decide (node' ∈ S'.startSet ∧ 0 < chain'.length) = hit
  -- the state the callers are explored from
  obtain ⟨from₁, from₂, hfrom₁, hfrom₂, hfrom⟩ : ∃ from₁ from₂,
      (if hit = true then { st with expansions := st.expansions + 1, found := st.found ++ [chain] }
        else { st with expansions := st.expansions + 1 }) = from₁ ∧
      (if hit = true then
          { st' with expansions := st'.expansions + 1, found := st'.found ++ [chain'] }
        else { st' with expansions := st'.expansions + 1 }) = from₂ ∧
      SearchState.Related R from₁ from₂ := by
    cases hit
    · exact ⟨_, _, rfl, rfl, hcounted⟩
    · exact ⟨_, _, rfl, rfl, hrecorded⟩
  obtain ⟨hrel, hflags⟩ := h.explore hdfs hn hc hfrom
  rw [hfrom₁, hfrom₂, hflags]
  simp only [hwork]
  split_ifs
  · exact ⟨{ hst with truncated := rfl }, rfl⟩
  · exact ⟨{ hst with workBudget := rfl }, rfl⟩
  · exact ⟨hcounted, rfl⟩
  · exact ⟨h.memoize hrel hn _, rfl⟩
  · exact ⟨hrel, rfl⟩

/-- **Related searches stay related.** -/
theorem walk (left : ℕ) : h.Agrees (S.dfs left) (S'.dfs left) := by
  induction left with
  | zero =>
    have hstop : h.Agrees (fun _ _ st => (st, {})) (fun _ _ st => (st, {})) := by
      intro node node' chain chain' st st' _ _ hst
      exact ⟨hst, rfl⟩
    intro node node' chain chain' st st' hn hc hst
    rw [Search.dfs, Search.dfs]
    exact h.visit hstop hn hc hst
  | succ left ih =>
    intro node node' chain chain' st st' hn hc hst
    rw [Search.dfs, Search.dfs]
    exact h.visit ih hn hc hst

theorem searchTargets {l l' : List SId} (hl : List.Forall₂ R l l') (hst : st.Related R st') :
    (S.searchTargets l st).Related R (S'.searchTargets l' st') := by
  induction hl generalizing st st' with
  | nil => exact hst
  | @cons t t' rest rest' ht hrest ih =>
    unfold Search.searchTargets
    rw [h.pathLimitHit hst, h.minFromStart ht]
    split_ifs
    · exact { hst with truncated := rfl }
    · rcases S'.minFromStart t' with _ | d
      · exact ih hst
      · dsimp only
        rw [h.overBudget]
        split_ifs
        · exact ih (by exact { hst with depthLimit := rfl })
        · rw [h.limits]
          exact ih (h.walk _ ht .nil hst).1

end Search.Related

end Vycor
