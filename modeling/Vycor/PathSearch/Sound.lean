import Vycor.PathSearch.Walks

/-!
# Soundness of the path search

What every visit does to the state of the walk: stop bits and dead-ends at depth zero
stay, and the recorded paths are extended by distinct chains from a start through the node
under visit, each within the depth bound and obeying the cycle rule. A chain is never
recorded from a start that is dead at depth zero already: the memo answers before the start
is looked at, which is where the enumeration can lose a path.
-/

namespace Vycor

namespace SearchState

/-- Nothing that a visit reports is taken back. -/
structure Grows (st st' : SearchState) : Prop where
  truncated : st.truncated = true → st'.truncated = true
  workBudget : st.workBudget = true → st'.workBudget = true
  hubPruned : st.hubPruned = true → st'.hubPruned = true
  depthLimit : st.depthLimit = true → st'.depthLimit = true
  zero : ∀ {y}, st.deadAt y = some 0 → st'.deadAt y = some 0

theorem Grows.refl (st : SearchState) : st.Grows st := ⟨id, id, id, id, id⟩

theorem Grows.trans {st st' st'' : SearchState} (h : st.Grows st') (h' : st'.Grows st'') :
    st.Grows st'' :=
  ⟨h'.truncated ∘ h.truncated, h'.workBudget ∘ h.workBudget, h'.hubPruned ∘ h.hubPruned,
    h'.depthLimit ∘ h.depthLimit, h'.zero ∘ h.zero⟩

/-- A memo entry keeps the smaller depth, and other entries. -/
theorem deadAt_memoize (st : SearchState) (node y : SId) (depth : ℕ) :
    (st.memoize node depth).deadAt y =
      if y = node then some (min depth ((st.deadAt node).getD depth)) else st.deadAt y := by
  unfold memoize
  by_cases hy : y = node
  · subst hy
    rcases hd : st.deadAt y with _ | d
    · simp
    · simp only [Option.map_some, Option.getD_some, Function.update_self, if_true]
      split_ifs with hlt
      · rw [min_eq_left hlt.le]
      · rw [min_eq_right (Nat.le_of_not_lt hlt)]
  · simp [hy]

theorem grows_memoize (st : SearchState) (node : SId) (depth : ℕ) :
    st.Grows (st.memoize node depth) := by
  refine ⟨id, id, id, id, fun {y} hy => ?_⟩
  rw [deadAt_memoize]
  split_ifs with hyn
  · subst hyn
    simp [hy]
  · exact hy

end SearchState

namespace Search

open SearchState

variable {S : Search} {t node : SId} {chain w : List EdgeRef} {st st' : SearchState}

/-- `w` completes the walk at `node` after `chain`: it comes from a start, which is not
dead at depth zero, obeys the cycle rule and is within the bound. -/
def Completes (S : Search) (st : SearchState) (node : SId) (chain w : List EdgeRef) : Prop :=
  ∃ p s, w = p ++ chain ∧ w ≠ [] ∧ w.length ≤ S.limits.maxDepth ∧ s ∈ S.startSet ∧
    S.Walk node s p ∧ S.cycles.Allows s w ∧ st.deadAt s ≠ some 0

theorem Completes.mono (h : S.Completes st' node chain w) (hg : st.Grows st') :
    S.Completes st node chain w := by
  obtain ⟨p, s, hw, hne, hlen, hs, hp, hr, hz⟩ := h
  exact ⟨p, s, hw, hne, hlen, hs, hp, hr, fun hst => hz (hg.zero hst)⟩

theorem Completes.of_cons {e : EdgeRef} (he : e ∈ S.callersOf node) (hadm : S.admits e = true)
    (hcallee : e.callee = node) (h : S.Completes st e.caller (e :: chain) w) :
    S.Completes st node chain w := by
  obtain ⟨p, s, hw, hne, hlen, hs, hp, hr, hz⟩ := h
  refine ⟨p ++ [e], s, by simp [hw], hne, hlen, hs, ?_, hr, hz⟩
  exact walk_concat.mpr ⟨hp, ⟨he, hadm⟩, hcallee⟩

/-- What a run from `st` to `st'` may have done: new paths that satisfy `P`, each once, and
no dead-end at depth zero except at a node that satisfies `Z`. -/
structure Ran (P : List EdgeRef → Prop) (Z : SId → Prop) (st st' : SearchState) : Prop where
  grows : st.Grows st'
  zero_new : ∀ y, st'.deadAt y = some 0 → st.deadAt y = some 0 ∨ Z y
  found : ∃ new, st'.found = st.found ++ new ∧ new.Nodup ∧ ∀ w ∈ new, P w

/-- A run that only raises stop bits. -/
theorem Ran.of_eq {P : List EdgeRef → Prop} {Z : SId → Prop} (hf : st'.found = st.found)
    (hd : st'.deadAt = st.deadAt) (ht : st.truncated = true → st'.truncated = true)
    (hw : st.workBudget = true → st'.workBudget = true)
    (hh : st.hubPruned = true → st'.hubPruned = true)
    (hl : st.depthLimit = true → st'.depthLimit = true) : Ran P Z st st' := by
  refine ⟨⟨ht, hw, hh, hl, fun hy => by rw [hd, hy]⟩, fun y hy => .inl (by rw [← hd, hy]), [], ?_,
    List.nodup_nil, by simp⟩
  rw [hf, List.append_nil]

theorem Ran.trans {P Q : List EdgeRef → Prop} {Z : SId → Prop} {st₁ st₂ st₃ : SearchState}
    (h : Ran P Z st₁ st₂) (h' : Ran Q Z st₂ st₃) (hdisj : ∀ w, P w → ¬ Q w) :
    Ran (fun w => P w ∨ Q w) Z st₁ st₃ := by
  obtain ⟨new, hnew, hnd, hP⟩ := h.found
  obtain ⟨new', hnew', hnd', hQ⟩ := h'.found
  refine ⟨h.grows.trans h'.grows, fun y hy => ?_, new ++ new', ?_, ?_, fun w hw => ?_⟩
  · exact (h'.zero_new y hy).elim (h.zero_new y) .inr
  · rw [hnew', hnew, List.append_assoc]
  · refine List.nodup_append.mpr ⟨hnd, hnd', ?_⟩
    rintro w hw w' hw' rfl
    exact hdisj w (hP w hw) (hQ w hw')
  · exact (List.mem_append.mp hw).imp (hP w) (hQ w)

theorem Ran.weaken {P Q : List EdgeRef → Prop} {Z Z' : SId → Prop} (h : Ran P Z st st')
    (hPQ : ∀ w, P w → Q w) (hZ : ∀ y, Z y → Z' y) : Ran Q Z' st st' := by
  obtain ⟨new, hnew, hnd, hP⟩ := h.found
  exact ⟨h.grows, fun y hy => (h.zero_new y hy).imp_right (hZ y), new, hnew, hnd,
    fun w hw => hPQ w (hP w hw)⟩

/-! ### What one step can do -/

/-- The loop at one caller edge: the edge is passed over (filtered or outside the corridor,
over the bound, excluded by the cycle rule), or followed, after which the path limit may
end the loop. -/
theorem expand_cons (S : Search) (dfs : SId → List EdgeRef → SearchState → SearchState × Flags)
    (node : SId) (chain : List EdgeRef) (e : EdgeRef) (rest : List EdgeRef) (st : SearchState)
    (fl : Flags) :
    ((S.admits e = false ∨ S.minFromStart e.caller = none) ∧
        S.expand dfs node chain (e :: rest) st fl = S.expand dfs node chain rest st fl) ∨
    (S.admits e = true ∧ ∃ d, S.minFromStart e.caller = some d ∧
      ((S.overBudget (d + chain.length + 1) = true ∧
          S.expand dfs node chain (e :: rest) st fl =
            S.expand dfs node chain rest { st with depthLimit := true } fl) ∨
        (S.overBudget (d + chain.length + 1) = false ∧ S.excluded node chain e = true ∧
          S.expand dfs node chain (e :: rest) st fl =
            S.expand dfs node chain rest st { fl with blocked := true }) ∨
        (S.overBudget (d + chain.length + 1) = false ∧ S.excluded node chain e = false ∧
          ((S.pathLimitHit (dfs e.caller (e :: chain) st).1 = true ∧
              S.expand dfs node chain (e :: rest) st fl =
                ({ (dfs e.caller (e :: chain) st).1 with
                    truncated := (dfs e.caller (e :: chain) st).1.truncated || !rest.isEmpty },
                  { fl.or (dfs e.caller (e :: chain) st).2 with blocked := true })) ∨
            S.expand dfs node chain (e :: rest) st fl =
              S.expand dfs node chain rest (dfs e.caller (e :: chain) st).1
                (fl.or (dfs e.caller (e :: chain) st).2))))) := by
  rw [expand]
  rcases hadm : S.admits e
  · exact .inl ⟨.inl rfl, by simp⟩
  · rcases hm : S.minFromStart e.caller with _ | d
    · exact .inl ⟨.inr rfl, by simp⟩
    · refine .inr ⟨rfl, d, rfl, ?_⟩
      rcases hbud : S.overBudget (d + chain.length + 1)
      · rcases hexc : S.excluded node chain e
        · refine .inr (.inr ⟨rfl, rfl, ?_⟩)
          rcases hlim : S.pathLimitHit (dfs e.caller (e :: chain) st).1
          · exact .inr (by simp [hbud, hlim])
          · exact .inl ⟨rfl, by simp [hbud, hlim]⟩
        · exact .inr (.inl ⟨rfl, rfl, by simp [hbud]⟩)
      · exact .inl ⟨rfl, by simp [hbud]⟩

/-- Where a visited node is a path of its own. -/
def recordHit (S : Search) (node : SId) (chain : List EdgeRef) (st : SearchState) : SearchState :=
  { st with
    expansions := st.expansions + 1
    found := if node ∈ S.startSet ∧ 0 < chain.length then st.found ++ [chain] else st.found }

/-- A visit: cut by the path limit or the work budget, answered by the memo, or explored and
memoized when nothing was found or blocked below. -/
theorem visit_cases (S : Search)
    (dfs : SId → List EdgeRef → SearchState → SearchState × Flags) (node : SId)
    (chain : List EdgeRef) (st : SearchState) :
    (S.pathLimitHit st = true ∧
        S.visit dfs node chain st = ({ st with truncated := true }, { blocked := true })) ∨
    (S.limits.maxWork ≠ 0 ∧
        S.visit dfs node chain st = ({ st with workBudget := true }, { blocked := true })) ∨
    (S.pathLimitHit st = false ∧ (∃ d, st.deadAt node = some d ∧ d ≤ chain.length) ∧
        S.visit dfs node chain st = ({ st with expansions := st.expansions + 1 }, {})) ∨
    (S.pathLimitHit st = false ∧ (∀ d, st.deadAt node = some d → chain.length < d) ∧
      ∃ fl, fl = Flags.or { found := decide (node ∈ S.startSet ∧ 0 < chain.length) }
          (S.explore dfs node chain (S.recordHit node chain st)).2 ∧
        S.visit dfs node chain st =
          (if fl.clean then
              (S.explore dfs node chain (S.recordHit node chain st)).1.memoize node chain.length
            else (S.explore dfs node chain (S.recordHit node chain st)).1, fl)) := by
  unfold visit
  rcases hlim : S.pathLimitHit st
  · by_cases hwork : S.limits.maxWork ≠ 0 ∧ S.limits.maxWork ≤ st.expansions
    · exact .inr (.inl ⟨hwork.1, by simp [hwork]⟩)
    · rw [if_neg (by simp), if_neg hwork]
      dsimp only
      have hst : (if decide (node ∈ S.startSet ∧ 0 < chain.length) = true then
          { st with expansions := st.expansions + 1, found := st.found ++ [chain] }
          else { st with expansions := st.expansions + 1 }) = S.recordHit node chain st := by
        unfold recordHit
        by_cases hc : node ∈ S.startSet ∧ 0 < chain.length
        · simp [hc]
        · simp [hc]
      rcases hd : st.deadAt node with _ | d
      · refine .inr (.inr (.inr ⟨rfl, by simp, _, rfl, ?_⟩))
        rw [if_neg (by simp), hst]
      · by_cases hle : d ≤ chain.length
        · exact .inr (.inr (.inl ⟨rfl, ⟨d, rfl, hle⟩, by simp [hle]⟩))
        · refine .inr (.inr (.inr ⟨rfl, by simpa using hle, _, rfl, ?_⟩))
          rw [if_neg (by simpa using hle), hst]
  · exact .inl ⟨rfl, by simp⟩

/-! ### Runs -/

variable {dfs : SId → List EdgeRef → SearchState → SearchState × Flags}

/-- What the recursive visits do: they record completions of their own walks. -/
def RunsSound (S : Search) (dfs : SId → List EdgeRef → SearchState → SearchState × Flags) :
    Prop :=
  ∀ n c st, c ≠ [] → c.length ≤ S.limits.maxDepth → S.cycles.Allows n c →
    Ran (S.Completes st n c) (fun _ => False) st (dfs n c st).1

/-- The loop over callers records completions through each edge in turn. -/
theorem ran_expand (h : S.WellFormed) (hdfs : S.RunsSound dfs)
    (hrule : S.cycles.Allows node chain) {l : List EdgeRef} (hl : l ⊆ S.callersOf node)
    (hnd : l.Nodup) (st : SearchState) (fl : Flags) :
    Ran (fun w => ∃ e ∈ l, S.admits e = true ∧ S.Completes st e.caller (e :: chain) w)
      (fun _ => False) st (S.expand dfs node chain l st fl).1 := by
  induction l generalizing st fl with
  | nil => exact .of_eq rfl rfl id id id id
  | cons e rest ih =>
    have hcallee : e.callee = node := h.callee (hl (.head _))
    rw [List.nodup_cons] at hnd
    have ih := ih (fun x hx => hl (.tail _ hx)) hnd.2
    -- an edge passed over leaves the paths of the rest
    have hskip : ∀ st fl, Ran (fun w => ∃ e' ∈ e :: rest, S.admits e' = true ∧
        S.Completes st e'.caller (e' :: chain) w) (fun _ => False) st
          (S.expand dfs node chain rest st fl).1 := by
      intro st fl
      refine (ih st fl).weaken ?_ fun _ => id
      rintro w ⟨e', he', hw⟩
      exact ⟨e', .tail _ he', hw⟩
    obtain ⟨-, heq⟩ | ⟨hadm, d, hm, ⟨-, heq⟩ | ⟨-, -, heq⟩ | ⟨hbud, hexc, hfollow⟩⟩ :=
      S.expand_cons dfs node chain e rest st fl
    · rw [heq]
      exact hskip st fl
    · rw [heq]
      have hcut := hskip { st with depthLimit := true } fl
      exact ⟨⟨hcut.grows.truncated, hcut.grows.workBudget, hcut.grows.hubPruned,
        fun _ => hcut.grows.depthLimit rfl, hcut.grows.zero⟩, hcut.zero_new, hcut.found⟩
    · rw [heq]
      exact hskip st _
    · have hlen : (e :: chain).length ≤ S.limits.maxDepth := by
        have := Bool.eq_false_iff.mp hbud
        rw [ne_eq, h.overBudget_iff] at this
        rw [List.length_cons]
        omega
      have hchild := hdfs e.caller (e :: chain) st (List.cons_ne_nil _ _) hlen
        ((allows_cons hcallee).mpr ⟨hrule, hexc⟩)
      obtain ⟨-, heq⟩ | heq := hfollow
      · rw [heq]
        refine ⟨⟨fun ht => ?_, hchild.grows.workBudget, hchild.grows.hubPruned,
          hchild.grows.depthLimit, hchild.grows.zero⟩, hchild.zero_new, ?_⟩
        · simp [hchild.grows.truncated ht]
        · obtain ⟨new, hnew, hnd', hP⟩ := hchild.found
          exact ⟨new, hnew, hnd', fun w hw => ⟨e, .head _, hadm, hP w hw⟩⟩
      · rw [heq]
        refine (hchild.trans (ih _ _) ?_).weaken ?_ fun _ => id
        · -- a path takes one caller edge of the node
          rintro w ⟨p, s, hw, -⟩ ⟨e', he', -, p', s', hw', -⟩
          refine hnd.1 ?_
          have hsplit : p ++ [e] ++ chain = p' ++ [e'] ++ chain := by
            rw [List.append_assoc, List.append_assoc]
            exact hw.symm.trans hw'
          have hlast := List.append_inj_right' (List.append_cancel_right hsplit) rfl
          rw [List.cons.injEq] at hlast
          exact hlast.1 ▸ he'
        · rintro w (hw | ⟨e', he', hadm', hw⟩)
          · exact ⟨e, .head _, hadm, hw⟩
          · exact ⟨e', .tail _ he', hadm', hw.mono hchild.grows⟩

/-- Exploring a node records longer completions of the walk that stands there. -/
theorem ran_explore (h : S.WellFormed) (hdfs : S.RunsSound dfs)
    (hrule : S.cycles.Allows node chain) (st : SearchState) :
    Ran (fun w => S.Completes st node chain w ∧ w ≠ chain) (fun _ => False) st
      (S.explore dfs node chain st).1 := by
  unfold explore
  split_ifs
  · exact .of_eq rfl rfl id id (fun _ => rfl) id
  · exact .of_eq rfl rfl id id id fun hl => by simp [hl]
  · exact .of_eq rfl rfl (fun ht => by simp [ht]) id id id
  · refine (ran_expand h hdfs hrule (fun _ => id) (h.nodup node) st {}).weaken ?_ fun _ => id
    rintro w ⟨e, he, hadm, hw⟩
    refine ⟨hw.of_cons he hadm (h.callee he), ?_⟩
    obtain ⟨p, s, rfl, -⟩ := hw
    intro heq
    have := congrArg List.length heq
    simp at this
    omega

/-- A visit records completions of the walk that stands at the node; only a visit at depth
zero leaves a dead-end at depth zero. -/
theorem ran_visit (h : S.WellFormed) (hdfs : S.RunsSound dfs)
    (hlen : chain.length ≤ S.limits.maxDepth) (hrule : S.cycles.Allows node chain)
    (st : SearchState) :
    Ran (S.Completes st node chain) (fun y => chain = [] ∧ y = node) st
      (S.visit dfs node chain st).1 := by
  obtain ⟨-, heq⟩ | ⟨-, heq⟩ | ⟨-, -, heq⟩ | ⟨-, hmemo, fl, -, heq⟩ :=
    S.visit_cases dfs node chain st
  · rw [heq]
    exact .of_eq rfl rfl (fun _ => rfl) id id id
  · rw [heq]
    exact .of_eq rfl rfl id (fun _ => rfl) id id
  · rw [heq]
    exact .of_eq rfl rfl id id id id
  · rw [heq]
    have hhit : Ran (fun w => S.Completes st node chain w ∧ w = chain) (fun _ => False) st
        (S.recordHit node chain st) := by
      refine ⟨⟨id, id, id, id, id⟩, fun y hy => .inl hy, ?_⟩
      by_cases hc : node ∈ S.startSet ∧ 0 < chain.length
      · refine ⟨[chain], by simp [recordHit, hc], List.nodup_singleton _, ?_⟩
        rintro w hw
        obtain rfl := List.mem_singleton.mp hw
        refine ⟨⟨[], node, rfl, List.length_pos_iff.mp hc.2, hlen, hc.1, rfl, hrule, ?_⟩, rfl⟩
        exact fun hz => absurd (hmemo 0 hz) (Nat.not_lt_zero _)
      · exact ⟨[], by simp [recordHit, hc], List.nodup_nil, by simp⟩
    have hrun : Ran (S.Completes st node chain) (fun y => chain = [] ∧ y = node) st
        (S.explore dfs node chain (S.recordHit node chain st)).1 := by
      refine (hhit.trans (ran_explore h hdfs hrule (S.recordHit node chain st))
        fun w hw hw' => hw'.2 hw.2).weaken ?_ fun _ hy => hy.elim
      exact fun w hw => hw.elim (·.1) fun hw => hw.1.mono hhit.grows
    -- the memo entry is at the depth of the visit
    dsimp only
    split_ifs
    · refine ⟨hrun.grows.trans (grows_memoize _ _ _), fun y hy => ?_, hrun.found⟩
      rw [deadAt_memoize] at hy
      split_ifs at hy with hyn
      · subst hyn
        rcases Nat.min_eq_zero_iff.mp (Option.some_injective _ hy) with hc | hd
        · exact .inr ⟨List.length_eq_zero_iff.mp hc, rfl⟩
        · rcases hold : (S.explore dfs y chain (S.recordHit y chain st)).1.deadAt y with _ | d
          · rw [hold, Option.getD_none] at hd
            exact .inr ⟨List.length_eq_zero_iff.mp hd, rfl⟩
          · rw [hold, Option.getD_some] at hd
            exact hrun.zero_new y (by rw [hold, hd])
      · exact hrun.zero_new y hy
    · exact hrun

/-- **Soundness of a visit**, by induction on the edges the depth bound leaves. -/
theorem ran_dfs (h : S.WellFormed) (left : ℕ) (node : SId) (chain : List EdgeRef)
    (st : SearchState) (hlen : chain.length ≤ S.limits.maxDepth)
    (hrule : S.cycles.Allows node chain) :
    Ran (S.Completes st node chain) (fun y => chain = [] ∧ y = node) st
      (S.dfs left node chain st).1 := by
  induction left generalizing node chain st with
  | zero => exact ran_visit h (fun _ _ _ _ _ _ => .of_eq rfl rfl id id id id) hlen hrule st
  | succ left ih =>
    refine ran_visit h (fun n c st hne hlen hrule => ?_) hlen hrule st
    exact (ih n c st hlen hrule).weaken (fun _ => id) fun _ hy => hne hy.1

theorem runsSound_dfs (h : S.WellFormed) (left : ℕ) : S.RunsSound (S.dfs left) :=
  fun n c st hne hlen hrule =>
    (ran_dfs h left n c st hlen hrule).weaken (fun _ => id) fun _ hy => hne hy.1

end Search

end Vycor
