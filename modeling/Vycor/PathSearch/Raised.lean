import Vycor.PathSearch.Contract

/-!
# Raising the limits of a search

A search that ends without a stop bit was cut nowhere, so a search of the same request with
every limit raised or lifted takes the same steps: the two runs agree on their whole state,
and on every return value but for the blocked bit of a visit that recorded a path.
-/

namespace Vycor

/-- Every limit of `l` is raised or lifted in `l'`; the depth up to the cap. -/
structure SearchLimits.Raised (l l' : SearchLimits) : Prop where
  maxPaths : l'.maxPaths = 0 ∨ l.maxPaths ≠ 0 ∧ l.maxPaths ≤ l'.maxPaths
  maxDepth : l.effectiveDepth ≤ l'.effectiveDepth
  maxFanIn : l'.maxFanIn = 0 ∨ l.maxFanIn ≠ 0 ∧ l.maxFanIn ≤ l'.maxFanIn
  maxWork : l'.maxWork = 0 ∨ l.maxWork ≠ 0 ∧ l.maxWork ≤ l'.maxWork

theorem SearchLimits.effectiveDepth_pos (l : SearchLimits) : 0 < l.effectiveDepth := by
  unfold effectiveDepth kPathSearchDepthCap
  split_ifs
  · omega
  · omega

theorem SearchLimits.effectiveDepth_le (l : SearchLimits) :
    l.effectiveDepth ≤ kPathSearchDepthCap := by
  unfold effectiveDepth
  split_ifs
  · exact le_refl _
  · omega

theorem SearchLimits.effectiveDepth_capped (l : SearchLimits) :
    l.capped.effectiveDepth = l.effectiveDepth := by
  have hpos := l.effectiveDepth_pos
  have hle := l.effectiveDepth_le
  change (if l.effectiveDepth = 0 ∨ l.effectiveDepth > kPathSearchDepthCap then _ else _) = _
  rw [if_neg (by omega)]
  rfl

/-- Lifting every limit raises it. -/
theorem SearchLimits.Raised.lifted (l : SearchLimits) : l.Raised ⟨0, 0, 0, 0⟩ :=
  ⟨.inl rfl, l.effectiveDepth_le, .inl rfl, .inl rfl⟩

/-- No stop bit is set. -/
structure SearchState.Clear (st : SearchState) : Prop where
  truncated : st.truncated = false
  depthLimit : st.depthLimit = false
  workBudget : st.workBudget = false
  hubPruned : st.hubPruned = false

/-- Return values that lead to the same steps. -/
def Flags.Alike (fl fl' : Flags) : Prop := fl.found = fl'.found ∧ (fl.found = false → fl = fl')

theorem Flags.Alike.refl (fl : Flags) : fl.Alike fl := ⟨rfl, fun _ => rfl⟩

theorem Flags.Alike.clean {fl fl' : Flags} (h : fl.Alike fl') : fl.clean = fl'.clean := by
  rcases hf : fl.found
  · rw [h.2 hf]
  · simp [Flags.clean, hf, ← h.1]

theorem Flags.Alike.or {a a' b b' : Flags} (h : a.Alike a') (h' : b.Alike b') :
    (a.or b).Alike (a'.or b') := by
  refine ⟨by simp only [Flags.or, h.1, h'.1], fun hf => ?_⟩
  obtain ⟨ha, hb⟩ := Bool.or_eq_false_iff.mp hf
  rw [h.2 ha, h'.2 hb]

theorem Flags.Alike.blocked {fl fl' : Flags} (h : fl.Alike fl') :
    Flags.Alike { fl with blocked := true } { fl' with blocked := true } :=
  ⟨h.1, fun _ => by rw [h.1]⟩

/-- Two found results are alike. -/
theorem Flags.Alike.of_found {fl fl' : Flags} (h : fl.found = true) (h' : fl'.found = true) :
    fl.Alike fl' :=
  ⟨h.trans h'.symm, fun hf => by simp [h] at hf⟩

namespace Search

open SearchState

variable {S : Search} {l' : SearchLimits} {st : SearchState}

/-- The search with other limits. -/
def withLimits (S : Search) (l' : SearchLimits) : Search := { S with limits := l' }

/-- The first search, if it ends clear, started clear, the second one ended alike, and a
path was recorded only if the return value says so. -/
def Follows (st : SearchState) (r r' : SearchState × Flags) : Prop :=
  Clear r.1 → Clear st ∧ r'.1 = r.1 ∧ r.2.Alike r'.2 ∧ (r.2.found = false → r.1.found = st.found)

/-- A walk under the path limit. -/
theorem pathLimitHit_eq_false_iff : S.pathLimitHit st = false ↔
    S.limits.maxPaths = 0 ∨ st.found.length < S.limits.maxPaths := by
  by_cases h : S.limits.maxPaths = 0
  · simp [pathLimitHit, h]
  · simp [pathLimitHit, h]

theorem overBudget_eq_false_iff {n : ℕ} : S.overBudget n = false ↔
    S.limits.maxDepth = 0 ∨ n ≤ S.limits.maxDepth := by
  by_cases h : S.limits.maxDepth = 0
  · simp [overBudget, h]
  · simp [overBudget, h]

@[simp] theorem limits_withLimits : (S.withLimits l').limits = l' := rfl

section Raise

variable (hr : S.limits.Raised l') (hS : S.limits.maxDepth = S.limits.effectiveDepth)
  (hl' : l'.maxDepth = l'.effectiveDepth)

include hr in
theorem pathLimitHit_withLimits (h : S.pathLimitHit st = false) :
    (S.withLimits l').pathLimitHit st = false := by
  have hmax := hr.maxPaths
  rw [pathLimitHit_eq_false_iff] at h ⊢
  rw [limits_withLimits]
  omega

include hr hS hl' in
theorem overBudget_withLimits {n : ℕ} (h : S.overBudget n = false) :
    (S.withLimits l').overBudget n = false := by
  have hle := hr.maxDepth
  have hpos := S.limits.effectiveDepth_pos
  rw [overBudget_eq_false_iff] at h ⊢
  rw [limits_withLimits]
  omega

end Raise

/-! ### One caller of a node -/

section Step

variable {dfs dfs' : SId → List EdgeRef → SearchState → SearchState × Flags} {node : SId}
  {chain rest l : List EdgeRef} {e : EdgeRef} {fl fl' : Flags} {d : ℕ}

theorem expand_skip (h : S.admits e = true → S.minFromStart e.caller = none) :
    S.expand dfs node chain (e :: rest) st fl = S.expand dfs node chain rest st fl := by
  rw [expand]
  rcases hadm : S.admits e
  · simp
  · simp [h hadm]

theorem expand_cut (hadm : S.admits e = true) (hm : S.minFromStart e.caller = some d)
    (hbud : S.overBudget (d + chain.length + 1) = true) :
    S.expand dfs node chain (e :: rest) st fl =
      S.expand dfs node chain rest { st with depthLimit := true } fl := by
  rw [expand]
  simp [hadm, hm, hbud]

theorem expand_excluded (hadm : S.admits e = true) (hm : S.minFromStart e.caller = some d)
    (hbud : S.overBudget (d + chain.length + 1) = false)
    (hexc : S.excluded node chain e = true) :
    S.expand dfs node chain (e :: rest) st fl =
      S.expand dfs node chain rest st { fl with blocked := true } := by
  rw [expand]
  simp [hadm, hm, hbud, hexc]

theorem expand_last (hadm : S.admits e = true) (hm : S.minFromStart e.caller = some d)
    (hbud : S.overBudget (d + chain.length + 1) = false)
    (hexc : S.excluded node chain e = false)
    (hlim : S.pathLimitHit (dfs e.caller (e :: chain) st).1 = true) :
    S.expand dfs node chain (e :: rest) st fl =
      ({ (dfs e.caller (e :: chain) st).1 with
          truncated := (dfs e.caller (e :: chain) st).1.truncated || !rest.isEmpty },
        { fl.or (dfs e.caller (e :: chain) st).2 with blocked := true }) := by
  rw [expand]
  simp [hadm, hm, hbud, hexc, hlim]

theorem expand_next (hadm : S.admits e = true) (hm : S.minFromStart e.caller = some d)
    (hbud : S.overBudget (d + chain.length + 1) = false)
    (hexc : S.excluded node chain e = false)
    (hlim : S.pathLimitHit (dfs e.caller (e :: chain) st).1 = false) :
    S.expand dfs node chain (e :: rest) st fl =
      S.expand dfs node chain rest (dfs e.caller (e :: chain) st).1
        (fl.or (dfs e.caller (e :: chain) st).2) := by
  rw [expand]
  simp [hadm, hm, hbud, hexc, hlim]

/-- A node without a caller on the corridor is not expanded. -/
theorem expand_of_no_corridor
    (hno : ∀ e ∈ l, S.admits e = true → S.minFromStart e.caller = none) :
    S.expand dfs node chain l st fl = (st, fl) := by
  induction l with
  | nil => rfl
  | cons e rest ih =>
    rw [expand_skip (hno e (.head _)), ih fun e' he' => hno e' (.tail _ he')]

theorem no_corridor_of_hasCorridorCaller (h : S.hasCorridorCaller node = false) :
    ∀ e ∈ S.callersOf node, S.admits e = true → S.minFromStart e.caller = none := by
  intro e he hadm
  have := List.any_eq_false.mp h e he
  simpa [hadm] using this

end Step

/-- A visit that neither the path limit nor the work budget cuts. -/
theorem visit_uncut {dfs : SId → List EdgeRef → SearchState → SearchState × Flags} {node : SId}
    {chain : List EdgeRef} (hlim : S.pathLimitHit st = false)
    (hwork : ¬ (S.limits.maxWork ≠ 0 ∧ S.limits.maxWork ≤ st.expansions)) :
    S.visit dfs node chain st =
      if (st.deadAt node).any (· ≤ chain.length) then
        ({ st with expansions := st.expansions + 1 }, {})
      else
        (if (Flags.or { found := decide (node ∈ S.startSet ∧ 0 < chain.length) }
              (S.explore dfs node chain (S.recordHit node chain st)).2).clean then
            (S.explore dfs node chain (S.recordHit node chain st)).1.memoize node chain.length
          else (S.explore dfs node chain (S.recordHit node chain st)).1,
          Flags.or { found := decide (node ∈ S.startSet ∧ 0 < chain.length) }
            (S.explore dfs node chain (S.recordHit node chain st)).2) := by
  have hst : (if decide (node ∈ S.startSet ∧ 0 < chain.length) = true then
      { st with expansions := st.expansions + 1, found := st.found ++ [chain] }
      else { st with expansions := st.expansions + 1 }) = S.recordHit node chain st := by
    unfold recordHit
    by_cases hc : node ∈ S.startSet ∧ 0 < chain.length
    · simp [hc]
    · simp [hc]
  rw [visit, if_neg (by simp [hlim]), if_neg hwork]
  dsimp only
  rw [hst]

/-! ### Two runs side by side -/

section Runs

variable (hr : S.limits.Raised l') (hS : S.limits.maxDepth = S.limits.effectiveDepth)
  (hl' : l'.maxDepth = l'.effectiveDepth)
  {dfs dfs' : SId → List EdgeRef → SearchState → SearchState × Flags} {node : SId}
  {chain : List EdgeRef}

include hr hS hl' in
/-- The loops over the callers of a node. -/
theorem follows_expand
    (hdfs : ∀ e st, Follows st (dfs e.caller (e :: chain) st) (dfs' e.caller (e :: chain) st))
    (l : List EdgeRef) (st : SearchState) {fl fl' : Flags} (hlim : S.pathLimitHit st = false)
    (hfl : fl.Alike fl') (hclear : Clear (S.expand dfs node chain l st fl).1) :
    Clear st ∧ ((S.withLimits l').expand dfs' node chain l st fl').1 =
        (S.expand dfs node chain l st fl).1 ∧
      (S.expand dfs node chain l st fl).2.Alike
        ((S.withLimits l').expand dfs' node chain l st fl').2 ∧
      ((S.expand dfs node chain l st fl).2.found = false →
        fl.found = false ∧ (S.expand dfs node chain l st fl).1.found = st.found) := by
  induction l generalizing st fl fl' with
  | nil => exact ⟨hclear, rfl, hfl, fun hf => ⟨hf, rfl⟩⟩
  | cons e rest ih =>
    by_cases hskip : S.admits e = true → S.minFromStart e.caller = none
    · rw [expand_skip hskip] at hclear ⊢
      rw [expand_skip (S := S.withLimits l') hskip]
      exact ih st hlim hfl hclear
    · obtain ⟨hadm, hm⟩ := Classical.not_imp.mp hskip
      obtain ⟨d, hm⟩ := Option.ne_none_iff_exists'.mp hm
      rcases hbud : S.overBudget (d + chain.length + 1)
      · have hbud' := overBudget_withLimits hr hS hl' hbud
        rcases hexc : S.excluded node chain e
        · have hstep := hdfs e st
          rcases hlim' : S.pathLimitHit (dfs e.caller (e :: chain) st).1
          · rw [expand_next hadm hm hbud hexc hlim'] at hclear ⊢
            obtain ⟨hst, heq, halike, hfound⟩ := hstep (ih _ hlim' (.refl _) hclear).1
            have hlim'' := pathLimitHit_withLimits hr hlim'
            rw [← heq] at hlim''
            rw [expand_next (S := S.withLimits l') hadm hm hbud' hexc hlim'', heq]
            obtain ⟨-, hstate, hflags, hnot⟩ := ih _ hlim' (hfl.or halike) hclear
            refine ⟨hst, hstate, hflags, fun hf => ?_⟩
            obtain ⟨hor, hsame⟩ := hnot hf
            obtain ⟨hfl0, hr0⟩ := Bool.or_eq_false_iff.mp hor
            exact ⟨hfl0, hsame.trans (hfound hr0)⟩
          · -- the limit was hit on the last caller, by a path the visit recorded
            rw [expand_last hadm hm hbud hexc hlim'] at hclear ⊢
            obtain ⟨htrunc, hempty⟩ := Bool.or_eq_false_iff.mp hclear.truncated
            obtain rfl : rest = [] := by simpa using hempty
            obtain ⟨hst, heq, halike, hfound⟩ :=
              hstep ⟨htrunc, hclear.depthLimit, hclear.workBudget, hclear.hubPruned⟩
            have hgrown : (dfs e.caller (e :: chain) st).2.found = true := by
              rw [← Bool.not_eq_false]
              intro hr0
              rw [pathLimitHit, hfound hr0, ← pathLimitHit, hlim] at hlim'
              cases hlim'
            have hgrown' := halike.1 ▸ hgrown
            rcases hlim'' : (S.withLimits l').pathLimitHit (dfs' e.caller (e :: chain) st).1
            · rw [expand_next (S := S.withLimits l') hadm hm hbud' hexc hlim'', expand, heq]
              refine ⟨hst, by simp, .of_found ?_ ?_, fun hf => ?_⟩
              · simp [Flags.or, hgrown]
              · simp [Flags.or, hgrown']
              · simp [Flags.or, hgrown] at hf
            · rw [expand_last (S := S.withLimits l') hadm hm hbud' hexc hlim'', heq]
              refine ⟨hst, rfl, .of_found ?_ ?_, fun hf => ?_⟩
              · simp [Flags.or, hgrown]
              · simp [Flags.or, hgrown']
              · simp [Flags.or, hgrown] at hf
        · rw [expand_excluded hadm hm hbud hexc] at hclear ⊢
          rw [expand_excluded (S := S.withLimits l') hadm hm hbud' hexc]
          exact ih st hlim hfl.blocked hclear
      · -- an edge over the bound leaves the depth bit
        rw [expand_cut hadm hm hbud] at hclear
        exact absurd (ih { st with depthLimit := true } hlim hfl hclear).1.depthLimit (by simp)

include hr hS hl' in
/-- The walks of a node's callers. The blocked bit of a visit that stops at the path limit
need not match. -/
theorem follows_explore
    (hdfs : chain.length < S.limits.maxDepth → ∀ e st,
      Follows st (dfs e.caller (e :: chain) st) (dfs' e.caller (e :: chain) st))
    (hclear : Clear (S.explore dfs node chain st).1) :
    Clear st ∧ ((S.withLimits l').explore dfs' node chain st).1 = (S.explore dfs node chain st).1 ∧
      (S.explore dfs node chain st).2.found =
        ((S.withLimits l').explore dfs' node chain st).2.found ∧
      (S.pathLimitHit st = false → (S.explore dfs node chain st).2.Alike
        ((S.withLimits l').explore dfs' node chain st).2) ∧
      ((S.explore dfs node chain st).2.found = false →
        (S.explore dfs node chain st).1.found = st.found) := by
  have hpos := S.limits.effectiveDepth_pos
  have hdepth := hr.maxDepth
  by_cases hhub : S.limits.maxFanIn ≠ 0 ∧ 0 < chain.length ∧
      S.limits.maxFanIn < S.storedInDegree node
  · rw [explore, if_pos hhub] at hclear
    exact absurd hclear.hubPruned (by simp [SearchState.skipHub])
  · have hhub' : ¬ ((S.withLimits l').limits.maxFanIn ≠ 0 ∧ 0 < chain.length ∧
        (S.withLimits l').limits.maxFanIn < (S.withLimits l').storedInDegree node) := by
      have hmax := hr.maxFanIn
      change ¬ (l'.maxFanIn ≠ 0 ∧ 0 < chain.length ∧ l'.maxFanIn < S.storedInDegree node)
      omega
    have hidle : S.hasCorridorCaller node = false →
        ((S.withLimits l').explore dfs' node chain st).1 = st ∧
          ((S.withLimits l').explore dfs' node chain st).2.found = false ∧
          ((S.withLimits l').pathLimitHit st = false →
            ((S.withLimits l').explore dfs' node chain st).2 = {}) := by
      intro hno
      have hno' : (S.withLimits l').hasCorridorCaller node = false := hno
      rw [explore, if_neg hhub']
      split_ifs with hbound hlim'
      · exact ⟨by simp [hno'], rfl, fun _ => rfl⟩
      · exact ⟨by simp [hno'], rfl, fun h => by simp [hlim'] at h⟩
      · rw [expand_of_no_corridor (no_corridor_of_hasCorridorCaller hno')]
        exact ⟨rfl, rfl, fun _ => rfl⟩
    by_cases hbound : S.limits.maxDepth ≠ 0 ∧ S.limits.maxDepth ≤ chain.length
    · have hex : S.explore dfs node chain st =
          ({ st with depthLimit := st.depthLimit || S.hasCorridorCaller node }, {}) := by
        rw [explore, if_neg hhub, if_pos hbound]
      rw [hex] at hclear ⊢
      obtain ⟨hst, hno⟩ := Bool.or_eq_false_iff.mp hclear.depthLimit
      obtain ⟨hstate, hfound, hflags⟩ := hidle hno
      refine ⟨⟨hclear.truncated, hst, hclear.workBudget, hclear.hubPruned⟩, ?_, ?_, ?_, ?_⟩
      · rw [hstate, hno, Bool.or_false]
      · rw [hfound]
      · intro hlim
        rw [hflags (pathLimitHit_withLimits hr hlim)]
        exact .refl _
      · exact fun _ => rfl
    · rcases hlim : S.pathLimitHit st
      · have hex : S.explore dfs node chain st =
            S.expand dfs node chain (S.callersOf node) st {} := by
          rw [explore, if_neg hhub, if_neg hbound, if_neg (by simp [hlim])]
        have hex' : (S.withLimits l').explore dfs' node chain st =
            (S.withLimits l').expand dfs' node chain (S.callersOf node) st {} := by
          rw [explore, if_neg hhub', if_neg, if_neg]
          · rfl
          · simp [pathLimitHit_withLimits hr hlim]
          · rw [limits_withLimits]
            omega
        rw [hex] at hclear ⊢
        rw [hex']
        obtain ⟨hst, hstate, hflags, hnot⟩ := follows_expand hr hS hl' (hdfs (by omega))
          (S.callersOf node) st hlim (.refl {}) hclear
        exact ⟨hst, hstate, hflags.1, fun _ => hflags, fun hf => (hnot hf).2⟩
      · have hex : S.explore dfs node chain st =
            ({ st with truncated := st.truncated || S.hasCorridorCaller node },
              { blocked := true }) := by
          rw [explore, if_neg hhub, if_neg hbound, if_pos hlim]
        rw [hex] at hclear ⊢
        obtain ⟨hst, hno⟩ := Bool.or_eq_false_iff.mp hclear.truncated
        obtain ⟨hstate, hfound, -⟩ := hidle hno
        refine ⟨⟨hst, hclear.depthLimit, hclear.workBudget, hclear.hubPruned⟩, ?_, ?_, ?_, ?_⟩
        · rw [hstate, hno, Bool.or_false]
        · rw [hfound]
        · exact fun hcontra => absurd hcontra (by simp)
        · exact fun _ => rfl

include hr hS hl' in
/-- The bodies of two visits. -/
theorem follows_visit
    (hdfs : chain.length < S.limits.maxDepth → ∀ e st,
      Follows st (dfs e.caller (e :: chain) st) (dfs' e.caller (e :: chain) st))
    (st : SearchState) :
    Follows st (S.visit dfs node chain st) ((S.withLimits l').visit dfs' node chain st) := by
  intro hclear
  rcases hlim : S.pathLimitHit st
  · by_cases hwork : S.limits.maxWork ≠ 0 ∧ S.limits.maxWork ≤ st.expansions
    · rw [visit, if_neg (by simp [hlim]), if_pos hwork] at hclear
      exact absurd hclear.workBudget (by simp)
    · have hwork' : ¬ ((S.withLimits l').limits.maxWork ≠ 0 ∧
          (S.withLimits l').limits.maxWork ≤ st.expansions) := by
        have hmax := hr.maxWork
        rw [limits_withLimits]
        omega
      have hlim' := pathLimitHit_withLimits hr hlim
      rw [visit_uncut hlim hwork] at hclear ⊢
      rw [visit_uncut (S := S.withLimits l') hlim' hwork']
      by_cases hdead : (st.deadAt node).any (· ≤ chain.length) = true
      · rw [if_pos hdead] at hclear ⊢
        rw [if_pos hdead]
        exact ⟨⟨hclear.truncated, hclear.depthLimit, hclear.workBudget, hclear.hubPruned⟩, rfl,
          .refl _, fun _ => rfl⟩
      · rw [if_neg hdead] at hclear ⊢
        rw [if_neg hdead]
        have hrec : (S.withLimits l').recordHit node chain st = S.recordHit node chain st := rfl
        have hstart : (S.withLimits l').startSet = S.startSet := rfl
        rw [hrec, hstart]
        have hexplored : Clear (S.explore dfs node chain (S.recordHit node chain st)).1 := by
          dsimp only at hclear
          split_ifs at hclear
          · exact ⟨hclear.truncated, hclear.depthLimit, hclear.workBudget, hclear.hubPruned⟩
          · exact hclear
        obtain ⟨hst, hstate, hfound, halike, hnot⟩ :=
          follows_explore hr hS hl' hdfs hexplored
        have hor : (Flags.or { found := decide (node ∈ S.startSet ∧ 0 < chain.length) }
              (S.explore dfs node chain (S.recordHit node chain st)).2).Alike
            (Flags.or { found := decide (node ∈ S.startSet ∧ 0 < chain.length) }
              ((S.withLimits l').explore dfs' node chain (S.recordHit node chain st)).2) := by
          by_cases hhit : node ∈ S.startSet ∧ 0 < chain.length
          · exact .of_found (by simp [Flags.or, hhit]) (by simp [Flags.or, hhit])
          · refine Flags.Alike.or (.refl _) (halike ?_)
            rw [pathLimitHit, recordHit, if_neg hhit]
            exact hlim
        refine ⟨⟨hst.truncated, hst.depthLimit, hst.workBudget, hst.hubPruned⟩, ?_, hor,
          fun hf => ?_⟩
        · rw [← hor.clean, hstate]
        · obtain ⟨hhit, hexp⟩ := Bool.or_eq_false_iff.mp hf
          have hhit := of_decide_eq_false hhit
          have hsame : (S.recordHit node chain st).found = st.found := by
            rw [recordHit, if_neg hhit]
          dsimp only
          split_ifs
          · exact (hnot hexp).trans hsame
          · exact (hnot hexp).trans hsame
  · rw [visit, if_pos hlim] at hclear
    exact absurd hclear.truncated (by simp)

include hr hS hl' in
/-- Two searches below a node. -/
theorem follows_dfs (left left' : ℕ) (node : SId) (chain : List EdgeRef) (st : SearchState)
    (hleft : S.limits.maxDepth ≤ left + chain.length)
    (hleft' : S.limits.maxDepth ≤ left' + chain.length) :
    Follows st (S.dfs left node chain st) ((S.withLimits l').dfs left' node chain st) := by
  induction left generalizing left' node chain st with
  | zero =>
    -- a visit at the bound walks no caller
    have hend : ¬ chain.length < S.limits.maxDepth := by omega
    cases left' with
    | zero => exact follows_visit hr hS hl' (fun hlt => absurd hlt hend) st
    | succ left' => exact follows_visit hr hS hl' (fun hlt => absurd hlt hend) st
  | succ left ih =>
    cases left' with
    | zero =>
      have hend : ¬ chain.length < S.limits.maxDepth := by omega
      exact follows_visit hr hS hl' (fun hlt => absurd hlt hend) st
    | succ left' =>
      refine follows_visit hr hS hl' (fun _ e st => ih left' e.caller (e :: chain) st ?_ ?_) st
      · rw [List.length_cons]
        omega
      · rw [List.length_cons]
        omega

include hr hS hl' in
/-- The loops over the targets. -/
theorem searchTargets_withLimits (l : List SId) (st : SearchState)
    (hclear : Clear (S.searchTargets l st)) :
    Clear st ∧ (S.withLimits l').searchTargets l st = S.searchTargets l st := by
  induction l generalizing st with
  | nil => exact ⟨hclear, rfl⟩
  | cons t rest ih =>
    have hdepth := hr.maxDepth
    rcases hlim : S.pathLimitHit st
    · have hlim' := pathLimitHit_withLimits hr hlim
      rw [searchTargets, hlim, if_neg (by simp)] at hclear
      rw [searchTargets, hlim', if_neg (by simp), searchTargets, hlim, if_neg (by simp)]
      rcases hm : S.minFromStart t with _ | d
      · have hm' : (S.withLimits l').minFromStart t = none := hm
        rw [hm] at hclear
        rw [hm']
        exact ih st hclear
      · have hm' : (S.withLimits l').minFromStart t = some d := hm
        rw [hm] at hclear
        rw [hm']
        dsimp only at hclear ⊢
        rcases hbud : S.overBudget d
        · have hbud' := overBudget_withLimits hr hS hl' hbud
          rw [hbud, if_neg (by simp)] at hclear
          rw [hbud', if_neg (by simp), if_neg (by simp)]
          obtain ⟨hmid, hrest⟩ := ih _ hclear
          obtain ⟨hst, hstate, -, -⟩ := follows_dfs hr hS hl' S.limits.maxDepth l'.maxDepth t [] st
            (Nat.le_add_right _ _) (by omega) hmid
          exact ⟨hst, by rw [limits_withLimits, hstate, hrest]⟩
        · rw [if_pos hbud] at hclear
          exact absurd (ih { st with depthLimit := true } hclear).1.depthLimit (by simp)
    · rw [searchTargets, if_pos hlim] at hclear
      exact absurd hclear.truncated (by simp)

end Runs

end Search

namespace CallGraph

variable {g : CallGraph} (ll : Llvm) {target : Bytes} {starts : List Bytes}
  {limits limits' : SearchLimits} {cycles : CycleRule} {filter : Option (EdgeRef → Bool)}

/-- **An exhaustive search is stable**: with every limit raised or lifted, up to the depth
cap, it returns the same result. -/
theorem findCallerPaths_raised (hr : limits.Raised limits')
    (hex : (g.findCallerPaths ll target starts limits cycles filter).exhaustive = true) :
    g.findCallerPaths ll target starts limits' cycles filter =
      g.findCallerPaths ll target starts limits cycles filter := by
  unfold findCallerPaths at hex ⊢
  dsimp only at hex ⊢
  split_ifs at hex ⊢ with hunknown
  · rfl
  · set S := g.search ll starts limits cycles filter
    have hclear : (S.searchTargets (g.orderedTargets ll target) {}).Clear := by
      simp only [PathSearchResult.exhaustive, Bool.and_eq_true, decide_eq_true_eq,
        Stops.mk.injEq] at hex
      exact ⟨hex.2.1, hex.2.2.1, hex.2.2.2.1, hex.2.2.2.2⟩
    have hcapped : S.limits.Raised limits'.capped := by
      refine ⟨hr.maxPaths, ?_, hr.maxFanIn, hr.maxWork⟩
      change limits.capped.effectiveDepth ≤ limits'.capped.effectiveDepth
      rw [limits.effectiveDepth_capped, limits'.effectiveDepth_capped]
      exact hr.maxDepth
    have hsame := (Search.searchTargets_withLimits hcapped limits.effectiveDepth_capped.symm
      limits'.effectiveDepth_capped.symm (g.orderedTargets ll target) {} hclear).2
    change (g.search ll starts limits' cycles filter).searchTargets (g.orderedTargets ll target) {} =
      S.searchTargets (g.orderedTargets ll target) {} at hsame
    rw [hsame]

/-- An exhaustive search loses a chain whenever a target shadows another. -/
theorem Inv.exhaustive_loses_shadowed (h : g.Inv) {a b : SId}
    (hsh : g.Shadows ll target starts limits.effectiveDepth cycles a b)
    (hex : (g.findCallerPaths ll target starts limits cycles).exhaustive = true) :
    ∃ w, g.CallChain ll target starts cycles w ∧
      g.toCallPath ll w ∉ (g.findCallerPaths ll target starts limits cycles).paths := by
  by_contra hall
  push Not at hall
  let lifted : SearchLimits := ⟨0, limits.maxDepth, 0, 0⟩
  have heff : lifted.effectiveDepth = limits.effectiveDepth := rfl
  have hsame := findCallerPaths_raised ll
    (⟨.inl rfl, heff.ge, .inl rfl, .inl rfl⟩ : limits.Raised lifted) hex
  refine h.not_searchContract ll lifted ⟨rfl, rfl, rfl⟩ (heff ▸ hsh) ?_
  -- with every chain reported, the contract of the lifted search would hold
  obtain ⟨hnd, hsound⟩ := h.found_sound ll target starts lifted cycles
  obtain ⟨hpaths, -⟩ := findCallerPaths_known ll lifted cycles (List.ne_nil_of_mem hsh.targets.1)
    (List.ne_nil_of_mem hsh.start)
  have hmem : ∀ w, g.CallChain ll target starts cycles w →
      w ∈ ((g.search ll starts lifted cycles none).searchTargets
        (g.orderedTargets ll target) {}).found := by
    intro w hw
    have hpath := hall w hw
    rw [← hsame, hpaths] at hpath
    obtain ⟨w', hw', heq⟩ := List.mem_map.mp hpath
    obtain ⟨-, s, -, t, -, hc, -⟩ := hw
    obtain ⟨-, s', -, t', -, hc', -⟩ := (hsound w' hw').1
    exact h.toCallPath_injOn ll (h.below_of_chain hc') (h.below_of_chain hc) heq ▸ hw'
  rw [← hpaths] at hnd
  exact ⟨_, hpaths, hnd, hsound, fun _ w hw _ => hmem w hw, fun _ w hw => hmem w hw⟩

end CallGraph

end Vycor
