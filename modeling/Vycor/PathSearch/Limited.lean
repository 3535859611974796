import Vycor.PathSearch.OrderFree
import Vycor.PathSearch.Raised

/-!
# Limited searches record prefixes

Two searches that differ in the path limit and the work budget only walk side by side until
the tighter one is cut. Up to there their states agree; from there on the tighter search
records nothing, and the looser one only appends to the paths both have recorded.
-/

namespace Vycor

/-- `l` and `l'` differ in the path limit and the work budget only, and `l` is the tighter. -/
structure SearchLimits.Tighter (l l' : SearchLimits) : Prop where
  maxPaths : l'.maxPaths = 0 ∨ l.maxPaths ≠ 0 ∧ l.maxPaths ≤ l'.maxPaths
  maxWork : l'.maxWork = 0 ∨ l.maxWork ≠ 0 ∧ l.maxWork ≤ l'.maxWork
  maxDepth : l'.maxDepth = l.maxDepth
  maxFanIn : l'.maxFanIn = l.maxFanIn

theorem SearchLimits.Tighter.raised {l l' : SearchLimits} (h : l.Tighter l') : l.Raised l' := by
  have hdepth : l'.effectiveDepth = l.effectiveDepth := by
    rw [effectiveDepth, effectiveDepth, h.maxDepth]
  exact ⟨h.maxPaths, hdepth.ge, by have := h.maxFanIn; omega, h.maxWork⟩

theorem SearchLimits.Tighter.capped {l l' : SearchLimits} (h : l.Tighter l') :
    l.capped.Tighter l'.capped := by
  refine ⟨h.maxPaths, h.maxWork, ?_, h.maxFanIn⟩
  change l'.effectiveDepth = l.effectiveDepth
  rw [effectiveDepth, effectiveDepth, h.maxDepth]

namespace Search

open SearchState

variable {S : Search} {l' : SearchLimits} {st : SearchState} {node : SId}
  {chain : List EdgeRef} {dfs dfs' : SId → List EdgeRef → SearchState → SearchState × Flags}

/-! ### Recorded paths stay -/

theorem found_prefix_expand (hdfs : ∀ n c st, st.found <+: (dfs n c st).1.found)
    (l : List EdgeRef) (st : SearchState) (fl : Flags) :
    st.found <+: (S.expand dfs node chain l st fl).1.found := by
  induction l generalizing st fl with
  | nil => exact List.prefix_rfl
  | cons e rest ih =>
    obtain ⟨-, heq⟩ | ⟨-, d, -, ⟨-, heq⟩ | ⟨-, -, heq⟩ | ⟨-, -, ⟨-, heq⟩ | heq⟩⟩ :=
      S.expand_cons dfs node chain e rest st fl
    · rw [heq]
      exact ih st fl
    · rw [heq]
      exact ih { st with depthLimit := true } fl
    · rw [heq]
      exact ih st _
    · rw [heq]
      exact hdfs e.caller (e :: chain) st
    · rw [heq]
      exact (hdfs e.caller (e :: chain) st).trans (ih _ _)

theorem found_prefix_explore (hdfs : ∀ n c st, st.found <+: (dfs n c st).1.found)
    (st : SearchState) : st.found <+: (S.explore dfs node chain st).1.found := by
  rw [explore]
  split_ifs
  · exact List.prefix_rfl
  · exact List.prefix_rfl
  · exact List.prefix_rfl
  · exact found_prefix_expand hdfs _ st {}

theorem found_prefix_recordHit : st.found <+: (S.recordHit node chain st).found := by
  rw [recordHit]
  dsimp only
  split_ifs
  · exact List.prefix_append _ _
  · exact List.prefix_rfl

theorem found_prefix_visit (hdfs : ∀ n c st, st.found <+: (dfs n c st).1.found)
    (st : SearchState) : st.found <+: (S.visit dfs node chain st).1.found := by
  obtain ⟨-, heq⟩ | ⟨-, heq⟩ | ⟨-, -, heq⟩ | ⟨-, -, fl, -, heq⟩ :=
    S.visit_cases dfs node chain st
  · rw [heq]
  · rw [heq]
  · rw [heq]
  · rw [heq]
    have hgrown := found_prefix_recordHit.trans (@found_prefix_explore S node chain dfs hdfs (S.recordHit node chain st))
    dsimp only
    split_ifs
    · exact hgrown
    · exact hgrown

theorem found_prefix_dfs (left : ℕ) (node : SId) (chain : List EdgeRef) (st : SearchState) :
    st.found <+: (S.dfs left node chain st).1.found := by
  induction left generalizing node chain st with
  | zero => exact found_prefix_visit (fun _ _ _ => List.prefix_rfl) st
  | succ left ih => exact found_prefix_visit ih st

theorem found_prefix_searchTargets (l : List SId) (st : SearchState) :
    st.found <+: (S.searchTargets l st).found := by
  induction l generalizing st with
  | nil => exact List.prefix_rfl
  | cons t rest ih =>
    rw [searchTargets]
    split_ifs
    · exact List.prefix_rfl
    · rcases S.minFromStart t with _ | d
      · exact ih st
      · dsimp only
        split_ifs
        · exact ih { st with depthLimit := true }
        · exact (found_prefix_dfs _ t [] st).trans (ih _)

/-! ### A search that was cut -/

/-- A limit has cut the search and is still hit: every later visit ends at once. -/
def Cut (S : Search) (st : SearchState) : Prop :=
  (st.truncated = true ∨ st.workBudget = true) ∧
    (S.pathLimitHit st = true ∨ S.limits.maxWork ≠ 0 ∧ S.limits.maxWork ≤ st.expansions)

/-- A cut search records nothing. -/
def Idles (S : Search) (st st' : SearchState) : Prop :=
  S.Cut st → S.Cut st' ∧ st'.found = st.found

theorem idles_visit (dfs : SId → List EdgeRef → SearchState → SearchState × Flags)
    (node : SId) (chain : List EdgeRef) (st : SearchState) :
    S.Idles st (S.visit dfs node chain st).1 := by
  rintro ⟨hbit, hhit⟩
  rw [visit]
  rcases hlim : S.pathLimitHit st
  · have hwork := hhit.resolve_left (by simp [hlim])
    rw [if_neg (by simp), if_pos hwork]
    exact ⟨⟨.inr rfl, .inr hwork⟩, rfl⟩
  · rw [if_pos rfl]
    exact ⟨⟨.inl rfl, .inl hlim⟩, rfl⟩

theorem idles_dfs (left : ℕ) (node : SId) (chain : List EdgeRef) (st : SearchState) :
    S.Idles st (S.dfs left node chain st).1 := by
  cases left with
  | zero => exact idles_visit _ node chain st
  | succ left => exact idles_visit _ node chain st

theorem Cut.truncate {b : Bool} (h : S.Cut st) :
    S.Cut { st with truncated := st.truncated || b } :=
  ⟨h.1.imp_left fun ht => by simp [ht], h.2⟩

theorem idles_expand (hdfs : ∀ n c st, S.Idles st (dfs n c st).1) (l : List EdgeRef)
    (st : SearchState) (fl : Flags) : S.Idles st (S.expand dfs node chain l st fl).1 := by
  intro hcut
  induction l generalizing st fl with
  | nil => exact ⟨hcut, rfl⟩
  | cons e rest ih =>
    obtain ⟨-, heq⟩ | ⟨-, d, -, ⟨-, heq⟩ | ⟨-, -, heq⟩ | ⟨-, -, hfollow⟩⟩ :=
      S.expand_cons dfs node chain e rest st fl
    · rw [heq]
      exact ih st fl hcut
    · rw [heq]
      exact ih { st with depthLimit := true } fl hcut
    · rw [heq]
      exact ih st _ hcut
    · obtain ⟨hchild, hsame⟩ := hdfs e.caller (e :: chain) st hcut
      obtain ⟨-, heq⟩ | heq := hfollow
      · rw [heq]
        exact ⟨hchild.truncate, hsame⟩
      · rw [heq]
        obtain ⟨hrest, hfound⟩ := ih _ (fl.or (dfs e.caller (e :: chain) st).2) hchild
        exact ⟨hrest, hfound.trans hsame⟩

theorem idles_searchTargets (l : List SId) (st : SearchState) :
    S.Idles st (S.searchTargets l st) := by
  intro hcut
  induction l generalizing st with
  | nil => exact ⟨hcut, rfl⟩
  | cons t rest ih =>
    rw [searchTargets]
    split_ifs with hlim
    · exact ⟨⟨.inl rfl, .inl hlim⟩, rfl⟩
    · rcases S.minFromStart t with _ | d
      · exact ih st hcut
      · dsimp only
        split_ifs
        · exact ih { st with depthLimit := true } hcut
        · obtain ⟨hmid, hsame⟩ := idles_dfs S.limits.maxDepth t [] st hcut
          obtain ⟨hrest, hfound⟩ := ih _ hmid
          exact ⟨hrest, hfound.trans hsame⟩

/-! ### Two searches side by side -/

/-- The tighter search was cut with the paths that the other one records first. -/
def CutBefore (S : Search) (st st' : SearchState) : Prop := S.Cut st ∧ st.found <+: st'.found

/-- Both searches ended in one state, alike, and recorded a path only if the return value
says so; or the tighter one was cut. -/
def Leads (S : Search) (st : SearchState) (r r' : SearchState × Flags) : Prop :=
  (r'.1 = r.1 ∧ r.2.Alike r'.2 ∧ (r.2.found = false → r.1.found = st.found)) ∨
    S.CutBefore r.1 r'.1

theorem CutBefore.step {st₁ st₁' st₂ st₂' : SearchState} (h : S.CutBefore st₁ st₁')
    (hidle : S.Idles st₁ st₂) (hgrow : st₁'.found <+: st₂'.found) : S.CutBefore st₂ st₂' := by
  obtain ⟨hcut, hfound⟩ := hidle h.1
  exact ⟨hcut, hfound ▸ h.2.trans hgrow⟩

section Side

variable (ht : S.limits.Tighter l')

include ht in
theorem overBudget_tighter (n : ℕ) : (S.withLimits l').overBudget n = S.overBudget n := by
  rw [overBudget, overBudget, limits_withLimits, ht.maxDepth]

include ht in
theorem leads_expand (hdfs : ∀ e st, S.Leads st (dfs e.caller (e :: chain) st)
      (dfs' e.caller (e :: chain) st))
    (hidle : ∀ n c st, S.Idles st (dfs n c st).1)
    (hgrow : ∀ n c st, st.found <+: (dfs' n c st).1.found)
    (l : List EdgeRef) (st : SearchState) {fl fl' : Flags} (hlim : S.pathLimitHit st = false)
    (hfl : fl.Alike fl') :
    ((((S.withLimits l').expand dfs' node chain l st fl').1 =
          (S.expand dfs node chain l st fl).1 ∧
        (S.expand dfs node chain l st fl).2.Alike
          ((S.withLimits l').expand dfs' node chain l st fl').2 ∧
        ((S.expand dfs node chain l st fl).2.found = false →
          fl.found = false ∧ (S.expand dfs node chain l st fl).1.found = st.found)) ∨
      S.CutBefore (S.expand dfs node chain l st fl).1
        ((S.withLimits l').expand dfs' node chain l st fl').1) := by
  induction l generalizing st fl fl' with
  | nil => exact .inl ⟨rfl, hfl, fun hf => ⟨hf, rfl⟩⟩
  | cons e rest ih =>
    have hgrown := fun st fl => @found_prefix_expand (S.withLimits l') node chain dfs' hgrow rest st fl
    by_cases hskip : S.admits e = true → S.minFromStart e.caller = none
    · rw [expand_skip hskip, expand_skip (S := S.withLimits l') hskip]
      exact ih st hlim hfl
    · obtain ⟨hadm, hm⟩ := Classical.not_imp.mp hskip
      obtain ⟨d, hm⟩ := Option.ne_none_iff_exists'.mp hm
      have hsame := overBudget_tighter ht (d + chain.length + 1)
      rcases hbud : S.overBudget (d + chain.length + 1)
      · have hbud' := hsame.trans hbud
        rcases hexc : S.excluded node chain e
        · have hstep := hdfs e st
          rcases hlim' : S.pathLimitHit (dfs e.caller (e :: chain) st).1
          · rw [expand_next hadm hm hbud hexc hlim']
            obtain ⟨heq, halike, hfound⟩ | hcut := hstep
            · have hlim'' := pathLimitHit_withLimits ht.raised hlim'
              rw [expand_next (S := S.withLimits l') hadm hm hbud' hexc (by rw [heq, hlim'']), heq]
              refine (ih _ hlim' (hfl.or halike)).imp_left ?_
              rintro ⟨hst, hfls, hnot⟩
              refine ⟨hst, hfls, fun hf => ?_⟩
              obtain ⟨hor, hrest⟩ := hnot hf
              obtain ⟨hfl0, hr0⟩ := Bool.or_eq_false_iff.mp hor
              exact ⟨hfl0, hrest.trans (hfound hr0)⟩
            · -- the work budget cut the visit: the rest of the loop idles
              refine .inr (hcut.step (idles_expand hidle rest _ _) ?_)
              rcases hlim'' : (S.withLimits l').pathLimitHit (dfs' e.caller (e :: chain) st).1
              · rw [expand_next (S := S.withLimits l') hadm hm hbud' hexc hlim'']
                exact hgrown _ _
              · rw [expand_last (S := S.withLimits l') hadm hm hbud' hexc hlim'']
          · rw [expand_last hadm hm hbud hexc hlim']
            -- the looser loop goes on, or stops here too
            have hgo : (dfs' e.caller (e :: chain) st).1.found <+:
                ((S.withLimits l').expand dfs' node chain (e :: rest) st fl').1.found := by
              rcases hlim'' : (S.withLimits l').pathLimitHit (dfs' e.caller (e :: chain) st).1
              · rw [expand_next (S := S.withLimits l') hadm hm hbud' hexc hlim'']
                exact hgrown _ _
              · rw [expand_last (S := S.withLimits l') hadm hm hbud' hexc hlim'']
            obtain ⟨heq, halike, hfound⟩ | hcut := hstep
            · have hfoundOr : (dfs e.caller (e :: chain) st).2.found = true := by
                rw [← Bool.not_eq_false]
                intro hr0
                rw [pathLimitHit, hfound hr0, ← pathLimitHit, hlim] at hlim'
                cases hlim'
              have hfoundOr' := halike.1 ▸ hfoundOr
              rcases hrest : rest with _ | ⟨e', rest'⟩
              · -- the limit was filled by the last caller
                refine .inl ?_
                rcases hlim'' : (S.withLimits l').pathLimitHit (dfs' e.caller (e :: chain) st).1
                · rw [expand_next (S := S.withLimits l') hadm hm hbud' hexc hlim'', expand, heq]
                  refine ⟨by simp, .of_found ?_ ?_, fun hf => ?_⟩
                  · simp [Flags.or, hfoundOr]
                  · simp [Flags.or, hfoundOr']
                  · simp [Flags.or, hfoundOr] at hf
                · rw [expand_last (S := S.withLimits l') hadm hm hbud' hexc hlim'', heq]
                  refine ⟨rfl, .of_found ?_ ?_, fun hf => ?_⟩
                  · simp [Flags.or, hfoundOr]
                  · simp [Flags.or, hfoundOr']
                  · simp [Flags.or, hfoundOr] at hf
              · refine .inr ⟨⟨.inl (by simp), .inl hlim'⟩, ?_⟩
                rw [← hrest]
                exact (heq ▸ hgo : _)
            · exact .inr ⟨hcut.1.truncate, hcut.2.trans hgo⟩
        · rw [expand_excluded hadm hm hbud hexc,
            expand_excluded (S := S.withLimits l') hadm hm hbud' hexc]
          exact ih st hlim hfl.blocked
      · rw [expand_cut hadm hm hbud,
          expand_cut (S := S.withLimits l') hadm hm (hsame.trans hbud)]
        exact ih { st with depthLimit := true } hlim hfl

include ht in
/-- The walks below a node whose own path is recorded already. -/
theorem leads_explore (hdfs : ∀ e st, S.Leads st (dfs e.caller (e :: chain) st)
      (dfs' e.caller (e :: chain) st))
    (hidle : ∀ n c st, S.Idles st (dfs n c st).1)
    (hgrow : ∀ n c st, st.found <+: (dfs' n c st).1.found)
    (st : SearchState) {hit : Flags} (hhit : S.pathLimitHit st = true → hit.found = true) :
    (((S.withLimits l').explore dfs' node chain st).1 = (S.explore dfs node chain st).1 ∧
        (hit.or (S.explore dfs node chain st).2).Alike
          (hit.or ((S.withLimits l').explore dfs' node chain st).2) ∧
        ((S.explore dfs node chain st).2.found = false →
          (S.explore dfs node chain st).1.found = st.found)) ∨
      S.CutBefore (S.explore dfs node chain st).1
        ((S.withLimits l').explore dfs' node chain st).1 := by
  have hgrown : st.found <+: ((S.withLimits l').explore dfs' node chain st).1.found :=
    found_prefix_explore hgrow st
  by_cases hhub : S.limits.maxFanIn ≠ 0 ∧ 0 < chain.length ∧
      S.limits.maxFanIn < S.storedInDegree node
  · have hex : S.explore dfs node chain st = (st.skipHub node (S.storedInDegree node), {}) := by
      rw [explore, if_pos hhub]
    have hex' : (S.withLimits l').explore dfs' node chain st =
        (st.skipHub node (S.storedInDegree node), {}) := by
      rw [explore, limits_withLimits, ht.maxFanIn]
      exact if_pos hhub
    rw [hex, hex']
    exact .inl ⟨rfl, .refl _, fun _ => rfl⟩
  · have hhub' : ¬ ((S.withLimits l').limits.maxFanIn ≠ 0 ∧ 0 < chain.length ∧
        (S.withLimits l').limits.maxFanIn < (S.withLimits l').storedInDegree node) := by
      rw [limits_withLimits, ht.maxFanIn]
      exact hhub
    by_cases hbound : S.limits.maxDepth ≠ 0 ∧ S.limits.maxDepth ≤ chain.length
    · have hbound' : (S.withLimits l').limits.maxDepth ≠ 0 ∧
          (S.withLimits l').limits.maxDepth ≤ chain.length := by
        rw [limits_withLimits, ht.maxDepth]
        exact hbound
      have hex : S.explore dfs node chain st =
          ({ st with depthLimit := st.depthLimit || S.hasCorridorCaller node }, {}) := by
        rw [explore, if_neg hhub, if_pos hbound]
      have hex' : (S.withLimits l').explore dfs' node chain st =
          ({ st with depthLimit := st.depthLimit || S.hasCorridorCaller node }, {}) := by
        rw [explore, if_neg hhub', if_pos hbound']
        rfl
      rw [hex, hex']
      exact .inl ⟨rfl, .refl _, fun _ => rfl⟩
    · have hbound' : ¬ ((S.withLimits l').limits.maxDepth ≠ 0 ∧
          (S.withLimits l').limits.maxDepth ≤ chain.length) := by
        rw [limits_withLimits, ht.maxDepth]
        exact hbound
      rcases hlim : S.pathLimitHit st
      · have hex : S.explore dfs node chain st =
            S.expand dfs node chain (S.callersOf node) st {} := by
          rw [explore, if_neg hhub, if_neg hbound, if_neg (by simp [hlim])]
        have hex' : (S.withLimits l').explore dfs' node chain st =
            (S.withLimits l').expand dfs' node chain (S.callersOf node) st {} := by
          rw [explore, if_neg hhub', if_neg hbound', if_neg]
          · rfl
          · simp [pathLimitHit_withLimits ht.raised hlim]
        rw [hex, hex']
        refine (leads_expand ht hdfs hidle hgrow (S.callersOf node) st hlim (.refl {})).imp_left ?_
        rintro ⟨heq, halike, hnot⟩
        exact ⟨heq, (Flags.Alike.refl hit).or halike, fun hf => (hnot hf).2⟩
      · have hex : S.explore dfs node chain st =
            ({ st with truncated := st.truncated || S.hasCorridorCaller node },
              { blocked := true }) := by
          rw [explore, if_neg hhub, if_neg hbound, if_pos hlim]
        rw [hex]
        rcases hno : S.hasCorridorCaller node
        · -- nothing was left to explore
          have hidle' : ((S.withLimits l').explore dfs' node chain st).1 = st := by
            rw [explore, if_neg hhub', if_neg hbound']
            split_ifs
            · have hno' : (S.withLimits l').hasCorridorCaller node = false := hno
              simp [hno']
            · exact congrArg Prod.fst
                (expand_of_no_corridor (S := S.withLimits l') (no_corridor_of_hasCorridorCaller hno))
          have hfound := hhit hlim
          refine .inl ⟨by rw [hidle', Bool.or_false], .of_found ?_ ?_, fun _ => rfl⟩
          · simp [Flags.or, hfound]
          · simp [Flags.or, hfound]
        · exact .inr ⟨⟨.inl (by simp), .inl hlim⟩, hgrown⟩

theorem Cut.memoize {depth : ℕ} (h : S.Cut st) : S.Cut (st.memoize node depth) := h

include ht in
/-- The bodies of two visits. -/
theorem leads_visit (hdfs : ∀ e st, S.Leads st (dfs e.caller (e :: chain) st)
      (dfs' e.caller (e :: chain) st))
    (hidle : ∀ n c st, S.Idles st (dfs n c st).1)
    (hgrow : ∀ n c st, st.found <+: (dfs' n c st).1.found) (st : SearchState) :
    S.Leads st (S.visit dfs node chain st) ((S.withLimits l').visit dfs' node chain st) := by
  have hgrown : st.found <+: ((S.withLimits l').visit dfs' node chain st).1.found :=
    found_prefix_visit hgrow st
  rcases hlim : S.pathLimitHit st
  · by_cases hwork : S.limits.maxWork ≠ 0 ∧ S.limits.maxWork ≤ st.expansions
    · rw [visit, if_neg (by simp [hlim]), if_pos hwork]
      exact .inr ⟨⟨.inr rfl, .inr hwork⟩, hgrown⟩
    · have hwork' : ¬ ((S.withLimits l').limits.maxWork ≠ 0 ∧
          (S.withLimits l').limits.maxWork ≤ st.expansions) := by
        have hmax := ht.maxWork
        rw [limits_withLimits]
        omega
      rw [visit_uncut hlim hwork,
        visit_uncut (S := S.withLimits l') (pathLimitHit_withLimits ht.raised hlim) hwork']
      by_cases hdead : (st.deadAt node).any (· ≤ chain.length) = true
      · rw [if_pos hdead, if_pos hdead]
        exact .inl ⟨rfl, .refl _, fun _ => rfl⟩
      · rw [if_neg hdead, if_neg hdead]
        have hrec : (S.withLimits l').recordHit node chain st = S.recordHit node chain st := rfl
        have hstart : (S.withLimits l').startSet = S.startSet := rfl
        rw [hrec, hstart]
        have hhit : S.pathLimitHit (S.recordHit node chain st) = true →
            ({ found := decide (node ∈ S.startSet ∧ 0 < chain.length) } : Flags).found = true := by
          intro hfull
          by_contra hmiss
          have hsame : S.pathLimitHit (S.recordHit node chain st) = S.pathLimitHit st := by
            rw [pathLimitHit, recordHit, if_neg (by simpa using hmiss)]
            rfl
          rw [hsame, hlim] at hfull
          cases hfull
        obtain ⟨heq, halike, hnot⟩ | ⟨hcut, hfound⟩ :=
          @leads_explore S l' node chain dfs dfs' ht hdfs hidle hgrow (S.recordHit node chain st) _ hhit
        · refine .inl ⟨?_, halike, fun hf => ?_⟩
          · rw [← halike.clean, heq]
          · obtain ⟨hmiss, hexp⟩ := Bool.or_eq_false_iff.mp hf
            have hsame : (S.recordHit node chain st).found = st.found := by
              rw [recordHit, if_neg (of_decide_eq_false hmiss)]
            dsimp only
            split_ifs
            · exact (hnot hexp).trans hsame
            · exact (hnot hexp).trans hsame
        · refine .inr ?_
          dsimp only
          split_ifs
          · exact ⟨hcut.memoize, hfound⟩
          · exact ⟨hcut.memoize, hfound⟩
          · exact ⟨hcut, hfound⟩
          · exact ⟨hcut, hfound⟩
  · rw [visit, if_pos hlim]
    exact .inr ⟨⟨.inl rfl, .inl hlim⟩, hgrown⟩

include ht in
/-- Two searches below a node. -/
theorem leads_dfs (left : ℕ) (node : SId) (chain : List EdgeRef) (st : SearchState) :
    S.Leads st (S.dfs left node chain st) ((S.withLimits l').dfs left node chain st) := by
  induction left generalizing node chain st with
  | zero =>
    exact leads_visit ht (fun _ _ => .inl ⟨rfl, .refl _, fun _ => rfl⟩) (fun _ _ _ h => ⟨h, rfl⟩)
      (fun _ _ _ => List.prefix_rfl) st
  | succ left ih =>
    exact leads_visit ht (fun e st => ih e.caller (e :: chain) st) (idles_dfs left)
      (found_prefix_dfs left) st

include ht in
/-- The loops over the targets. -/
theorem leads_searchTargets (l : List SId) (st : SearchState) :
    (S.withLimits l').searchTargets l st = S.searchTargets l st ∨
      S.CutBefore (S.searchTargets l st) ((S.withLimits l').searchTargets l st) := by
  induction l generalizing st with
  | nil => exact .inl rfl
  | cons t rest ih =>
    have hgrown := found_prefix_searchTargets (S := S.withLimits l') (t :: rest) st
    rcases hlim : S.pathLimitHit st
    · rw [searchTargets, pathLimitHit_withLimits ht.raised hlim, if_neg (by simp),
        searchTargets, hlim, if_neg (by simp)]
      have hm' : (S.withLimits l').minFromStart t = S.minFromStart t := rfl
      rw [hm']
      rcases S.minFromStart t with _ | d
      · exact ih st
      · dsimp only
        rw [overBudget_tighter ht]
        split_ifs
        · exact ih { st with depthLimit := true }
        · rw [limits_withLimits, ht.maxDepth]
          obtain ⟨heq, -, -⟩ | hcut := leads_dfs ht S.limits.maxDepth t [] st
          · rw [heq]
            exact ih _
          · exact .inr (hcut.step (idles_searchTargets rest _) (found_prefix_searchTargets rest _))
    · have hend : S.searchTargets (t :: rest) st = { st with truncated := true } := by
        rw [searchTargets, if_pos hlim]
      rw [hend]
      exact .inr ⟨⟨.inl rfl, .inl hlim⟩, hgrown⟩

end Side

end Search

namespace CallGraph

variable {g : CallGraph} (ll : Llvm) {target : Bytes} {starts : List Bytes}
  {limits limits' : SearchLimits} {cycles : CycleRule} {filter : Option (EdgeRef → Bool)}

/-- **Limited enumerations are prefixes**: a search under a tighter path limit and work
budget returns the first paths of the looser search, and all of its result when it reports
neither limit. -/
theorem findCallerPaths_prefix (ht : limits.Tighter limits') :
    (g.findCallerPaths ll target starts limits cycles filter).paths <+:
        (g.findCallerPaths ll target starts limits' cycles filter).paths ∧
      ((g.findCallerPaths ll target starts limits cycles filter).stops.pathLimit = false →
        (g.findCallerPaths ll target starts limits cycles filter).stops.workBudget = false →
        g.findCallerPaths ll target starts limits cycles filter =
          g.findCallerPaths ll target starts limits' cycles filter) := by
  rw [findCallerPaths, findCallerPaths]
  dsimp only
  split_ifs with hunknown
  · exact ⟨List.prefix_rfl, fun _ _ => rfl⟩
  · have hlead := @Search.leads_searchTargets (g.search ll starts limits cycles filter)
      limits'.capped ht.capped (g.orderedTargets ll target) {}
    have hsearch : (g.search ll starts limits cycles filter).withLimits limits'.capped =
      g.search ll starts limits' cycles filter := rfl
    rw [hsearch] at hlead
    obtain heq | ⟨hcut, hfound⟩ := hlead
    · rw [heq]
      exact ⟨List.prefix_rfl, fun _ _ => rfl⟩
    · refine ⟨hfound.map _, fun hpath hwork => ?_⟩
      rcases hcut.1 with hbit | hbit
      · rw [hbit] at hpath
        cases hpath
      · rw [hbit] at hwork
        cases hwork

/-- Of two calls at different sites, a search limited to one path reports the first. -/
theorem findCallerPaths_prefix_twoCalls :
    let g := ({} : CallGraph).registerAll twoCalls
    (g.findCallerPaths utf8Llvm [98] [[97]] ⟨1, 20, 0, 0⟩).paths.length = 1 ∧
      (g.findCallerPaths utf8Llvm [98] [[97]] ⟨0, 20, 0, 0⟩).paths.length = 2 ∧
      (g.findCallerPaths utf8Llvm [98] [[97]] ⟨1, 20, 0, 0⟩).paths <+:
        (g.findCallerPaths utf8Llvm [98] [[97]] ⟨0, 20, 0, 0⟩).paths := by
  intro g
  have ht : SearchLimits.Tighter ⟨1, 20, 0, 0⟩ ⟨0, 20, 0, 0⟩ := ⟨.inl rfl, .inl rfl, rfl, rfl⟩
  exact ⟨by decide +kernel, by decide +kernel, And.left ( findCallerPaths_prefix utf8Llvm ht)⟩

end CallGraph

end Vycor
