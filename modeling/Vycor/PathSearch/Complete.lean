import Vycor.PathSearch.Sound

/-!
# Completeness of the path search

When no path, work or fan-in limit cut the walk, every chain within the depth bound is
found, and every chain of any length if the depth bound cut nothing either. The invariant
of the memo carries the argument: a node that is dead at depth `d` is not a start (unless
`d` is zero), and every walk from a start to it is too long for a node at that depth, which
the depth bit records. A visit that finds nothing and is blocked by nothing establishes it.

The one gap is a dead-end at depth zero, which says nothing about the node being a start:
`NoShadow` is the hypothesis that closes it.
-/

namespace Vycor

namespace Search

open SearchState

variable {S : Search} {t node : SId} {chain w : List EdgeRef} {st st' : SearchState}

/-! ### The invariant of the memo -/

/-- No limit but the depth bound cut the walk. -/
structure Uncut (st : SearchState) : Prop where
  truncated : st.truncated = false
  workBudget : st.workBudget = false
  hubPruned : st.hubPruned = false

theorem Uncut.of_grows (h : Uncut st') (hg : st.Grows st') : Uncut st := by
  refine ⟨?_, ?_, ?_⟩ <;> rw [Bool.eq_false_iff]
  · exact fun ht => absurd (hg.truncated ht) (by simp [h.truncated])
  · exact fun ht => absurd (hg.workBudget ht) (by simp [h.workBudget])
  · exact fun ht => absurd (hg.hubPruned ht) (by simp [h.hubPruned])

/-- No chain within the bound goes through `x` at depth `k`, and the depth bit says so if a
longer one does. -/
def Dead (S : Search) (depthLimit : Bool) (x : SId) (k : ℕ) : Prop :=
  (0 < k → x ∉ S.startSet) ∧ ∀ s ∈ S.startSet, ∀ p, p ≠ [] → S.Walk x s p →
    S.limits.maxDepth < k + p.length ∧ depthLimit = true

/-- Every memo entry is a dead-end. -/
def MemoSound (S : Search) (st : SearchState) : Prop :=
  ∀ x d, st.deadAt x = some d → S.Dead st.depthLimit x d

theorem Dead.mono {b b' : Bool} {x : SId} {k : ℕ} (h : S.Dead b x k) (hb : b = true → b' = true) :
    S.Dead b' x k :=
  ⟨h.1, fun s hs p hp hw => ⟨(h.2 s hs p hp hw).1, hb (h.2 s hs p hp hw).2⟩⟩

theorem MemoSound.of_eq (h : S.MemoSound st) (hd : st'.deadAt = st.deadAt)
    (hl : st.depthLimit = true → st'.depthLimit = true) : S.MemoSound st' :=
  fun x d hx => (h x d (hd ▸ hx)).mono hl

theorem MemoSound.memoize {depth : ℕ} (h : S.MemoSound st)
    (hdead : S.Dead st.depthLimit node depth) : S.MemoSound (st.memoize node depth) := by
  intro x d hx
  rw [deadAt_memoize] at hx
  split_ifs at hx with hxn
  · subst hxn
    rcases hold : st.deadAt x with _ | d'
    · rw [hold, Option.getD_none, min_self] at hx
      exact Option.some_injective _ hx ▸ hdead
    · rw [hold, Option.getD_some] at hx
      rcases min_choice depth d' with hmin | hmin
      · rw [hmin] at hx
        exact Option.some_injective _ hx ▸ hdead
      · rw [hmin] at hx
        exact Option.some_injective _ hx ▸ h x d' hold
  · exact h x d hx

/-- No start that is dead at depth zero begins a chain to `t` within the bound. -/
def NoShadow (S : Search) (t : SId) (st : SearchState) : Prop :=
  ∀ s ∈ S.startSet, st.deadAt s = some 0 → ∀ w, w ≠ [] → S.Walk t s w → S.cycles.Allows s w →
    S.limits.maxDepth < w.length

theorem NoShadow.of_zero (h : S.NoShadow t st)
    (hz : ∀ y, st'.deadAt y = some 0 → st.deadAt y = some 0) : S.NoShadow t st' :=
  fun s hs hd => h s hs (hz s hd)

/-- A chain the enumeration owes: within the bound, or of any length when the depth bit is
clear. -/
def Owed (S : Search) (st : SearchState) (w : List EdgeRef) : Prop :=
  w.length ≤ S.limits.maxDepth ∨ st.depthLimit = false

theorem Owed.of_grows (h : S.Owed st' w) (hg : st.Grows st') : S.Owed st w := by
  refine h.imp_right fun hl => Bool.eq_false_iff.mpr fun ht => ?_
  rw [hg.depthLimit ht] at hl
  cases hl

theorem not_owed (hlen : S.limits.maxDepth < w.length) (hl : st.depthLimit = true) :
    ¬ S.Owed st w := by
  rintro (h | h)
  · omega
  · rw [hl] at h
    cases h

/-- What is left of a rule-obeying chain after a walk obeys the rule. -/
theorem allows_of_append {s m : SId} {p q : List EdgeRef} (hp : S.Walk m s p)
    (h : S.cycles.Allows s (p ++ q)) : S.cycles.Allows m q := by
  induction p generalizing s with
  | nil => exact hp ▸ h
  | cons e p ih =>
    refine ih hp.2.2 ?_
    rcases hc : S.cycles with _ | _
    · rw [hc] at h
      simp only [CycleRule.Allows, chainNodes, List.cons_append, List.map_cons] at h ⊢
      exact (List.nodup_cons.mp h).2
    · rw [hc] at h
      simp only [CycleRule.Allows, List.cons_append, List.map_cons] at h ⊢
      exact (List.nodup_cons.mp h).2

/-- What a visit of `node` after `chain` establishes when nothing cut it. -/
structure Covered (S : Search) (node : SId) (chain : List EdgeRef)
    (r : SearchState × Flags) : Prop where
  memo : S.MemoSound r.1
  found : ∀ p s, s ∈ S.startSet → S.Walk node s p → S.cycles.Allows s (p ++ chain) →
    p ++ chain ≠ [] → S.Owed r.1 (p ++ chain) → p ++ chain ∈ r.1.found
  dead : r.2.clean = true → S.Dead r.1.depthLimit node chain.length

/-- What the loop over the callers `l` of `node` establishes when nothing cut it. -/
structure CoveredBy (S : Search) (chain : List EdgeRef) (l : List EdgeRef)
    (r : SearchState × Flags) : Prop where
  memo : S.MemoSound r.1
  found : ∀ e ∈ l, S.admits e = true → ∀ p s, s ∈ S.startSet → S.Walk e.caller s p →
    S.cycles.Allows s (p ++ e :: chain) → S.Owed r.1 (p ++ e :: chain) →
      p ++ e :: chain ∈ r.1.found
  dead : r.2.clean = true → ∀ e ∈ l, S.admits e = true → ∀ p s, s ∈ S.startSet →
    S.Walk e.caller s p → S.limits.maxDepth < chain.length + 1 + p.length ∧
      r.1.depthLimit = true

theorem CoveredBy.cons {e : EdgeRef} {rest : List EdgeRef} {r : SearchState × Flags}
    (h : S.CoveredBy chain rest r)
    (hfound : S.admits e = true → ∀ p s, s ∈ S.startSet → S.Walk e.caller s p →
      S.cycles.Allows s (p ++ e :: chain) → S.Owed r.1 (p ++ e :: chain) →
        p ++ e :: chain ∈ r.1.found)
    (hdead : r.2.clean = true → S.admits e = true → ∀ p s, s ∈ S.startSet →
      S.Walk e.caller s p → S.limits.maxDepth < chain.length + 1 + p.length ∧
        r.1.depthLimit = true) :
    S.CoveredBy chain (e :: rest) r := by
  refine ⟨h.memo, fun e' he' => ?_, fun hcl e' he' => ?_⟩
  · rcases List.mem_cons.mp he' with rfl | he'
    exacts [hfound, h.found e' he']
  · rcases List.mem_cons.mp he' with rfl | he'
    exacts [hdead hcl, h.dead hcl e' he']

variable {dfs : SId → List EdgeRef → SearchState → SearchState × Flags}

/-- What the recursive visits of the callers of `node` establish when nothing cut them. -/
def CoversCallers (S : Search) (t : SId)
    (dfs : SId → List EdgeRef → SearchState → SearchState × Flags) (node : SId)
    (chain : List EdgeRef) : Prop :=
  ∀ e st, e ∈ S.callersOf node → S.admits e = true → S.cycles.Allows e.caller (e :: chain) →
    (e :: chain).length ≤ S.limits.maxDepth → Uncut (dfs e.caller (e :: chain) st).1 →
    S.MemoSound st → S.NoShadow t st → S.Covered e.caller (e :: chain) (dfs e.caller (e :: chain) st)

theorem expand_clean (S : Search) (dfs : SId → List EdgeRef → SearchState → SearchState × Flags)
    (node : SId) (chain : List EdgeRef) (l : List EdgeRef) (st : SearchState) (fl : Flags)
    (h : (S.expand dfs node chain l st fl).2.clean = true) : fl.clean = true := by
  induction l generalizing st fl with
  | nil => exact h
  | cons e rest ih =>
    obtain ⟨-, heq⟩ | ⟨-, d, -, ⟨-, heq⟩ | ⟨-, -, heq⟩ | ⟨-, -, ⟨-, heq⟩ | heq⟩⟩ :=
      S.expand_cons dfs node chain e rest st fl
    all_goals rw [heq] at h
    · exact ih _ _ h
    · exact ih _ _ h
    · exact absurd (ih _ _ h) (by simp [Flags.clean])
    · exact absurd h (by simp [Flags.clean])
    · have := ih _ _ h
      simp only [Flags.clean, Flags.or, Bool.not_or, Bool.and_eq_true, Bool.not_eq_true'] at this ⊢
      exact ⟨this.1.1, this.2.1⟩

/-- The loop covers its callers when every recursive visit covers its node. -/
theorem covered_expand (h : S.WellFormed) (hran : S.RunsSound dfs)
    (hcov : S.CoversCallers t dfs node chain)
    (hrule : S.cycles.Allows node chain) {l : List EdgeRef} (hl : l ⊆ S.callersOf node)
    (hnd : l.Nodup) (st : SearchState) (fl : Flags)
    (hcut : Uncut (S.expand (dfs) node chain l st fl).1) (hmemo : S.MemoSound st)
    (hns : S.NoShadow t st) :
    S.CoveredBy chain l (S.expand (dfs) node chain l st fl) := by
  induction l generalizing st fl with
  | nil => exact ⟨hmemo, by simp, by simp⟩
  | cons e rest ih =>
    have hmem : e ∈ S.callersOf node := hl (.head _)
    have hcallee : e.callee = node := h.callee hmem
    have hrest : rest ⊆ S.callersOf node := fun x hx => hl (.tail _ hx)
    rw [List.nodup_cons] at hnd
    have ih := ih hrest hnd.2
    obtain ⟨hout, heq⟩ | ⟨hadm, d, hm, ⟨hbud, heq⟩ | ⟨-, hexc, heq⟩ | ⟨hbud, hexc, hfollow⟩⟩ :=
      S.expand_cons (dfs) node chain e rest st fl
    · rw [heq] at hcut ⊢
      have hcov' := ih st fl hcut hmemo hns
      -- no walk reaches a caller outside the corridor
      have hno : S.admits e = true → ∀ p s, s ∈ S.startSet → ¬ S.Walk e.caller s p := by
        intro hadm p s hs hw
        obtain ⟨d, -, hd⟩ := h.marked hs hw
        rcases hout with hf | hf
        · rw [hf] at hadm
          cases hadm
        · rw [hf] at hd
          cases hd
      exact hcov'.cons (fun hadm p s hs hw => absurd hw (hno hadm p s hs))
        fun _ hadm p s hs hw => absurd hw (hno hadm p s hs)
    · rw [heq] at hcut ⊢
      have hcov' := ih { st with depthLimit := true } fl hcut
        (hmemo.of_eq rfl fun _ => rfl) hns
      have hlimit := (ran_expand h hran hrule hrest hnd.2 { st with depthLimit := true }
        fl).grows.depthLimit rfl
      have hlong : ∀ p s, s ∈ S.startSet → S.Walk e.caller s p →
          S.limits.maxDepth < chain.length + 1 + p.length := by
        intro p s hs hw
        obtain ⟨d', hd', hm'⟩ := h.marked hs hw
        obtain rfl := Option.some_injective _ (hm.symm.trans hm')
        rw [h.overBudget_iff] at hbud
        omega
      refine hcov'.cons (fun _ p s hs hw _ how => absurd how (not_owed ?_ hlimit))
        fun _ _ p s hs hw => ⟨hlong p s hs hw, hlimit⟩
      have := hlong p s hs hw
      simp
      omega
    · rw [heq] at hcut ⊢
      have hcov' := ih st _ hcut hmemo hns
      refine hcov'.cons (fun _ p s hs hw hal => ?_) fun hcl => ?_
      · have := ((allows_cons hcallee).mp (allows_of_append hw hal)).2
        rw [hexc] at this
        cases this
      · exact absurd (S.expand_clean _ _ _ _ _ _ hcl) (by simp [Flags.clean])
    · have hrule' := (allows_cons hcallee).mpr ⟨hrule, hexc⟩
      have hlen : (e :: chain).length ≤ S.limits.maxDepth := by
        have := Bool.eq_false_iff.mp hbud
        rw [ne_eq, h.overBudget_iff] at this
        rw [List.length_cons]
        omega
      have hchild := hran e.caller (e :: chain) st (List.cons_ne_nil _ _) hlen hrule'
      have hcovE := fun hcut' => hcov e st hmem hadm hrule' hlen hcut' hmemo hns
      obtain ⟨-, heq⟩ | heq := hfollow
      · -- the path limit ended the loop: nothing was left of it, or the walk was cut
        rw [heq] at hcut ⊢
        have hnil : rest = [] := by
          have := hcut.truncated
          simp at this
          exact this.2
        subst hnil
        have hcovE := hcovE ⟨by simpa using hcut.truncated, hcut.workBudget, hcut.hubPruned⟩
        refine ⟨hcovE.memo.of_eq rfl id, fun e' he' hadm p s hs hw hal how => ?_, fun hcl => ?_⟩
        · obtain rfl := List.mem_singleton.mp he'
          exact hcovE.found p s hs hw hal (by simp) how
        · simp [Flags.clean] at hcl
      · rw [heq] at hcut ⊢
        have hlater := ran_expand h hran hrule hrest hnd.2
          (dfs e.caller (e :: chain) st).1 (fl.or (dfs e.caller (e :: chain) st).2)
        have hcovE := hcovE (hcut.of_grows hlater.grows)
        have hcov' := ih _ _ hcut hcovE.memo
          (hns.of_zero fun y hy => (hchild.zero_new y hy).resolve_right id)
        refine hcov'.cons (fun _ p s hs hw hal how => ?_) fun hcl _ p s hs hw => ?_
        · have hmem := hcovE.found p s hs hw hal (by simp) (how.of_grows hlater.grows)
          obtain ⟨new, hnew, -⟩ := hlater.found
          rw [hnew]
          exact List.mem_append_left _ hmem
        · have hclE : (dfs e.caller (e :: chain) st).2.clean = true := by
            have := S.expand_clean _ _ _ _ _ _ hcl
            simp only [Flags.clean, Flags.or, Bool.not_or, Bool.and_eq_true,
              Bool.not_eq_true'] at this ⊢
            exact ⟨this.1.2, this.2.2⟩
          have hdead := hcovE.dead hclE
          by_cases hp : p = []
          · -- an empty walk would make the caller a start, which a dead-end below is not
            subst hp
            exact absurd (hw ▸ hs) (hdead.1 (by simp))
          · obtain ⟨hlong, hlim⟩ := hdead.2 s hs p hp hw
            exact ⟨hlong, hlater.grows.depthLimit hlim⟩

/-- What exploring a node establishes when nothing cut it. -/
theorem covered_explore (h : S.WellFormed) (hran : S.RunsSound dfs)
    (hcov : chain.length < S.limits.maxDepth → S.CoversCallers t dfs node chain)
    (hrule : S.cycles.Allows node chain) (st : SearchState)
    (hcut : Uncut (S.explore (dfs) node chain st).1) (hmemo : S.MemoSound st)
    (hns : S.NoShadow t st) :
    S.MemoSound (S.explore (dfs) node chain st).1 ∧
      (∀ p s, s ∈ S.startSet → S.Walk node s p → S.cycles.Allows s (p ++ chain) → p ≠ [] →
        S.Owed (S.explore (dfs) node chain st).1 (p ++ chain) →
          p ++ chain ∈ (S.explore (dfs) node chain st).1.found) ∧
      ((S.explore (dfs) node chain st).2.clean = true → ∀ s ∈ S.startSet, ∀ p, p ≠ [] →
        S.Walk node s p → S.limits.maxDepth < chain.length + p.length ∧
          (S.explore (dfs) node chain st).1.depthLimit = true) := by
  unfold explore at hcut ⊢
  split_ifs at hcut ⊢ with hhub hdepth hlim
  · exact absurd hcut.hubPruned (by simp [skipHub])
  · -- at the bound every caller would make the path too long
    have hlong : ∀ p : List EdgeRef, p ≠ [] → S.limits.maxDepth < chain.length + p.length := by
      intro p hp
      have := List.length_pos_iff.mpr hp
      omega
    refine ⟨hmemo.of_eq rfl fun hl => by simp [hl], fun p s hs hw _ hp how => ?_,
      fun _ s hs p hp hw => ⟨hlong p hp, by simp [h.hasCorridorCaller_of_walk hs hw hp]⟩⟩
    refine absurd how (not_owed ?_ (by simp [h.hasCorridorCaller_of_walk hs hw hp]))
    have := hlong p hp
    simp
    omega
  · refine ⟨hmemo.of_eq rfl id, fun p s hs hw _ hp _ => ?_, fun hcl => ?_⟩
    · have := hcut.truncated
      simp [h.hasCorridorCaller_of_walk hs hw hp] at this
    · simp [Flags.clean] at hcl
  · have hlt : chain.length < S.limits.maxDepth := by
      have := h.depth
      omega
    have hloop := covered_expand h hran (hcov hlt) hrule (fun _ => id) (h.nodup node) st {}
      hcut hmemo hns
    refine ⟨hloop.memo, fun p s hs hw hal hp how => ?_, fun hcl s hs p hp hw => ?_⟩
    · obtain ⟨p', e, rfl⟩ := (List.eq_nil_or_concat' p).resolve_left hp
      obtain ⟨hw', ⟨he, hadm⟩, -⟩ := walk_concat.mp hw
      rw [List.append_assoc, List.singleton_append] at hal how ⊢
      exact hloop.found e he hadm p' s hs hw' hal how
    · obtain ⟨p', e, rfl⟩ := (List.eq_nil_or_concat' p).resolve_left hp
      obtain ⟨hw', ⟨he, hadm⟩, -⟩ := walk_concat.mp hw
      obtain ⟨hlong, hl⟩ := hloop.dead hcl e he hadm p' s hs hw'
      refine ⟨?_, hl⟩
      rw [List.length_append, List.length_singleton]
      omega

/-- A visit covers its node when the recursive visits cover theirs. -/
theorem covered_visit (h : S.WellFormed) (hran : S.RunsSound dfs)
    (hcov : chain.length < S.limits.maxDepth → S.CoversCallers t dfs node chain)
    (hlen : chain.length ≤ S.limits.maxDepth) (hrule : S.cycles.Allows node chain)
    (hwalk : S.Walk t node chain) (st : SearchState)
    (hcut : Uncut (S.visit (dfs) node chain st).1) (hmemo : S.MemoSound st)
    (hns : S.NoShadow t st) :
    S.Covered node chain (S.visit (dfs) node chain st) := by
  obtain ⟨-, heq⟩ | ⟨-, heq⟩ | ⟨-, ⟨d, hd, hle⟩, heq⟩ | ⟨-, hmemo', fl, hfl, heq⟩ :=
    S.visit_cases (dfs) node chain st
  · rw [heq] at hcut
    exact absurd hcut.truncated (by simp)
  · rw [heq] at hcut
    exact absurd hcut.workBudget (by simp)
  · rw [heq]
    have hdead := hmemo node d hd
    -- a start that the memo answers for is dead at depth zero, and begins no chain
    have hstart : 0 < chain.length → node ∉ S.startSet := by
      intro hpos hs
      rcases Nat.eq_zero_or_pos d with rfl | hdpos
      · have := hns node hs hd chain (List.length_pos_iff.mp hpos) hwalk hrule
        omega
      · exact hdead.1 hdpos hs
    have hlong : ∀ s ∈ S.startSet, ∀ p, p ≠ [] → S.Walk node s p →
        S.limits.maxDepth < chain.length + p.length ∧ st.depthLimit = true := by
      intro s hs p hp hw
      obtain ⟨hlt, hl⟩ := hdead.2 s hs p hp hw
      exact ⟨by omega, hl⟩
    refine ⟨hmemo.of_eq rfl id, fun p s hs hw hal hne how => ?_, fun _ => ⟨hstart, hlong⟩⟩
    by_cases hp : p = []
    · subst hp
      exact absurd (hw ▸ hs) (hstart (List.length_pos_iff.mpr hne))
    · obtain ⟨hlt, hl⟩ := hlong s hs p hp hw
      refine absurd how (not_owed ?_ hl)
      simp
      omega
  · rw [heq] at hcut ⊢
    set r := S.explore (dfs) node chain (S.recordHit node chain st) with hr
    have hcut' : Uncut r.1 := by
      dsimp only at hcut
      split_ifs at hcut
      · exact hcut.of_grows (grows_memoize _ _ _)
      · exact hcut
    obtain ⟨hmemoR, hfound, hdead⟩ := covered_explore h hran hcov hrule
      (S.recordHit node chain st) hcut' (hmemo.of_eq rfl id) hns
    rw [← hr] at hmemoR hfound hdead
    have hclean : fl.clean = true → S.Dead r.1.depthLimit node chain.length := by
      intro hcl
      rw [hfl] at hcl
      simp only [Flags.clean, Flags.or, Bool.not_or, Bool.and_eq_true, Bool.not_eq_true',
        decide_eq_false_iff_not] at hcl
      refine ⟨fun hpos hs => hcl.1.1 ⟨hs, hpos⟩, hdead ?_⟩
      simp [Flags.clean, hcl.1.2, hcl.2.2]
    have hsame : ∀ {b : Bool}, (if b then r.1.memoize node chain.length else r.1).found =
        r.1.found ∧ (if b then r.1.memoize node chain.length else r.1).depthLimit =
          r.1.depthLimit := by
      intro b
      cases b <;> exact ⟨rfl, rfl⟩
    refine ⟨?_, fun p s hs hw hal hne how => ?_, fun hcl => ?_⟩
    · dsimp only
      split_ifs with hcl
      · exact hmemoR.memoize (hclean hcl)
      · exact hmemoR
    · rw [hsame.1]
      by_cases hp : p = []
      · -- the walk stands at a start: recorded on entry
        subst hp
        have hhit : chain ∈ (S.recordHit node chain st).found := by
          have : node ∈ S.startSet ∧ 0 < chain.length := ⟨hw ▸ hs, List.length_pos_iff.mpr hne⟩
          simp [recordHit, this]
        obtain ⟨new, hnew, -⟩ := (ran_explore h hran hrule (S.recordHit node chain st)).found
        rw [← hr] at hnew
        rw [hnew]
        exact List.mem_append_left _ hhit
      · refine hfound p s hs hw hal hp ?_
        exact how.imp_right fun hl => hsame.2 ▸ hl
    · rw [hsame.2]
      exact hclean hcl

/-- **Completeness of a visit**, by induction on the edges the depth bound leaves. -/
theorem covered_dfs (h : S.WellFormed) (left : ℕ) (node : SId) (chain : List EdgeRef)
    (st : SearchState) (hleft : S.limits.maxDepth ≤ left + chain.length)
    (hlen : chain.length ≤ S.limits.maxDepth) (hrule : S.cycles.Allows node chain)
    (hwalk : S.Walk t node chain) (hcut : Uncut (S.dfs left node chain st).1)
    (hmemo : S.MemoSound st) (hns : S.NoShadow t st) :
    S.Covered node chain (S.dfs left node chain st) := by
  induction left generalizing node chain st with
  | zero =>
    -- at the bound no caller is visited
    refine covered_visit h (fun _ _ _ _ _ _ => .of_eq rfl rfl id id id id) (fun hlt => ?_) hlen
      hrule hwalk st hcut hmemo hns
    omega
  | succ left ih =>
    refine covered_visit h (runsSound_dfs h left)
      (fun _ e st he hadm hrule hlen hcut hmemo hns => ?_) hlen hrule hwalk st hcut hmemo hns
    refine ih e.caller (e :: chain) st ?_ hlen hrule ⟨rfl, ?_, ?_⟩ hcut hmemo hns
    · rw [List.length_cons]
      omega
    · rw [h.callee he]
      exact ⟨he, hadm⟩
    · rw [h.callee he]
      exact hwalk

end Search

end Vycor
