import Vycor.PathSearch.Complete

/-!
# The contract of the path search

`findCallerPaths` reports chains of caller edges from a start to the target, each once,
within the depth bound and obeying the cycle rule; a complete result holds every such
chain, an exhaustive one every chain of any length. The contract fails in one situation
only, when several ids answer to the target name and one of them is a start that no start
reaches: its search leaves a dead-end at depth zero, and the searches of the later targets
take the memo's word for it and lose the chains that begin there (`Shadows`).
-/

namespace Vycor

namespace Search

open SearchState

variable {S : Search} {t : SId} {w : List EdgeRef} {st : SearchState} {l : List SId}

/-! ### The loop over the targets -/

theorem walk_end_unique {s s' t t' : SId} (hne : w ≠ []) (h : S.Walk t s w)
    (h' : S.Walk t' s' w) : t = t' := by
  cases w with
  | nil => exact absurd rfl hne
  | cons e w => exact h.2.2.end_eq h'.2.2

/-- The searches of the targets record chains to each of them in turn. -/
theorem ran_searchTargets (h : S.WellFormed) (hnd : l.Nodup) (st : SearchState) :
    Ran (fun w => ∃ t ∈ l, S.Completes st t [] w) (· ∈ l) st (S.searchTargets l st) := by
  induction l generalizing st with
  | nil => exact .of_eq rfl rfl id id id id
  | cons t rest ih =>
    rw [List.nodup_cons] at hnd
    have ih := ih hnd.2
    have hskip : ∀ st, Ran (fun w => ∃ t' ∈ t :: rest, S.Completes st t' [] w) (· ∈ t :: rest) st
        (S.searchTargets rest st) := fun st =>
      (ih st).weaken (fun w ⟨t', ht', hw⟩ => ⟨t', .tail _ ht', hw⟩) fun y => .tail _
    unfold searchTargets
    split_ifs with hlim
    · exact .of_eq rfl rfl (fun _ => rfl) id id id
    · rcases hm : S.minFromStart t with _ | d
      · exact hskip st
      · dsimp only
        split_ifs
        · have hcut := hskip { st with depthLimit := true }
          exact ⟨⟨hcut.grows.truncated, hcut.grows.workBudget, hcut.grows.hubPruned,
            fun _ => hcut.grows.depthLimit rfl, hcut.grows.zero⟩, hcut.zero_new, hcut.found⟩
        · have hdfs : Ran (S.Completes st t []) (· ∈ t :: rest) st
              (S.dfs S.limits.maxDepth t [] st).1 :=
            (ran_dfs h S.limits.maxDepth t [] st (Nat.zero_le _)
              (S.cycles.allows_nil t)).weaken (fun _ => id) fun y hy => hy.2 ▸ .head _
          have hrest : Ran (fun w => ∃ t' ∈ rest, S.Completes
              (S.dfs S.limits.maxDepth t [] st).1 t' [] w) (· ∈ t :: rest)
              (S.dfs S.limits.maxDepth t [] st).1
              (S.searchTargets rest (S.dfs S.limits.maxDepth t [] st).1) :=
            (ih _).weaken (fun _ => id) fun y => .tail _
          refine (hdfs.trans hrest ?_).weaken ?_ fun _ => id
          · -- chains to different targets are different
            rintro w ⟨p, s, hp, hne, -, -, hw, -⟩ ⟨t', ht', p', s', hp', -, -, -, hw', -⟩
            rw [List.append_nil] at hp hp'
            subst hp hp'
            exact hnd.1 (walk_end_unique hne hw hw' ▸ ht')
          · rintro w (hw | ⟨t', ht', hw⟩)
            · exact ⟨t, .head _, hw⟩
            · exact ⟨t', .tail _ ht', hw.mono hdfs.grows⟩

/-- A target `a` hides chains to a target `b` searched after it: `a` is a start that no
start reaches within the bound, and begins a chain to `b` within the bound. -/
structure Hides (S : Search) (a b : SId) : Prop where
  start : a ∈ S.startSet
  unreached : ∀ s ∈ S.startSet, ∀ w, w ≠ [] → S.Walk a s w → S.limits.maxDepth < w.length
  chain : ∃ w, w ≠ [] ∧ S.Walk b a w ∧ S.cycles.Allows a w ∧ w.length ≤ S.limits.maxDepth

/-- Nothing is missed when no target hides chains to a later one. -/
theorem covered_searchTargets (h : S.WellFormed) (hnd : l.Nodup)
    (hpair : l.Pairwise fun a b => ¬ S.Hides a b) (hcut : Uncut (S.searchTargets l st))
    (hmemo : S.MemoSound st) (hns : ∀ t ∈ l, S.NoShadow t st) :
    ∀ t ∈ l, ∀ s ∈ S.startSet, ∀ w, w ≠ [] → S.Walk t s w → S.cycles.Allows s w →
      S.Owed (S.searchTargets l st) w → w ∈ (S.searchTargets l st).found := by
  induction l generalizing st with
  | nil => simp
  | cons t rest ih =>
    rw [List.nodup_cons] at hnd
    rw [List.pairwise_cons] at hpair
    have ih := fun st => @ih st hnd.2 hpair.2
    unfold searchTargets at hcut ⊢
    rcases hlim : S.pathLimitHit st
    · rw [if_neg (by simp [hlim])] at hcut ⊢
      rcases hm : S.minFromStart t with _ | d
      · rw [hm] at hcut
        intro t' ht' s hs w hne hw hal how
        rcases List.mem_cons.mp ht' with rfl | ht'
        · obtain ⟨d, -, hd⟩ := h.marked hs hw
          rw [hm] at hd
          cases hd
        · exact ih st hcut hmemo (fun b hb => hns b (.tail _ hb)) t' ht' s hs w hne hw hal how
      · rw [hm] at hcut
        dsimp only at hcut ⊢
        rcases hbud : S.overBudget d
        · rw [if_neg (by simp [hbud])] at hcut ⊢
          set st' := (S.dfs S.limits.maxDepth t [] st).1 with hst'
          have hrest := ran_searchTargets h hnd.2 st'
          have hrun := ran_dfs h S.limits.maxDepth t [] st (Nat.zero_le _) (S.cycles.allows_nil t)
          have hcov := covered_dfs h S.limits.maxDepth t [] st (le_refl _) (Nat.zero_le _)
            (S.cycles.allows_nil t) (t := t) rfl (hcut.of_grows hrest.grows) hmemo
            (hns t (.head _))
          intro t' ht' s hs w hne hw hal how
          rcases List.mem_cons.mp ht' with rfl | ht'
          · have := hcov.found w s hs hw (by simpa using hal) (by simpa using hne)
              (by simpa using how.of_grows hrest.grows)
            rw [List.append_nil] at this
            obtain ⟨new, hnew, -⟩ := hrest.found
            rw [hnew]
            exact List.mem_append_left _ this
          · refine ih st' hcut hcov.memo (fun b hb s hs hz w hne hw hal => ?_) t' ht' s hs w hne hw
              hal how
            -- a dead-end at depth zero that the search of `t` left is `t` itself
            rcases hrun.zero_new s hz with hold | ⟨-, rfl⟩
            · exact hns b (.tail _ hb) s hs hold w hne hw hal
            · by_contra hshort
              refine hpair.1 b hb ⟨hs, fun s' hs' w' hne' hw' => ?_, w, hne, hw, hal,
                Nat.le_of_not_lt hshort⟩
              have := ((hcov.memo s 0 hz).2 s' hs' w' hne' hw').1
              omega
        · rw [if_pos (by simp [hbud])] at hcut ⊢
          have hrest := ran_searchTargets h hnd.2 { st with depthLimit := true }
          intro t' ht' s hs w hne hw hal how
          rcases List.mem_cons.mp ht' with rfl | ht'
          · obtain ⟨d', hd', hm'⟩ := h.marked hs hw
            obtain rfl := Option.some_injective _ (hm.symm.trans hm')
            rw [h.overBudget_iff] at hbud
            exact absurd how (not_owed (by omega) (hrest.grows.depthLimit rfl))
          · exact ih _ hcut (hmemo.of_eq rfl fun _ => rfl) (fun b hb => hns b (.tail _ hb)) t' ht' s
              hs w hne hw hal how
    · rw [if_pos (by simp [hlim])] at hcut
      exact absurd hcut.truncated (by simp)

/-! ### A search without limits -/

/-- No path, work or fan-in limit is set. -/
structure Unlimited (S : Search) : Prop where
  maxPaths : S.limits.maxPaths = 0
  maxWork : S.limits.maxWork = 0
  maxFanIn : S.limits.maxFanIn = 0

theorem Unlimited.pathLimitHit (hu : S.Unlimited) (st : SearchState) :
    S.pathLimitHit st = false := by
  simp [Search.pathLimitHit, hu.maxPaths]

theorem Unlimited.uncut_expand (hu : S.Unlimited) {node : SId} {chain : List EdgeRef}
    {dfs : SId → List EdgeRef → SearchState → SearchState × Flags}
    (hdfs : ∀ n c st, Uncut st → Uncut (dfs n c st).1) (l : List EdgeRef) (st : SearchState)
    (fl : Flags) (h : Uncut st) : Uncut (S.expand dfs node chain l st fl).1 := by
  induction l generalizing st fl with
  | nil => exact h
  | cons e rest ih =>
    obtain ⟨-, heq⟩ | ⟨-, d, -, ⟨-, heq⟩ | ⟨-, -, heq⟩ | ⟨-, -, ⟨hlim, -⟩ | heq⟩⟩ :=
      S.expand_cons dfs node chain e rest st fl
    · exact heq ▸ ih st fl h
    · exact heq ▸ ih _ fl ⟨h.truncated, h.workBudget, h.hubPruned⟩
    · exact heq ▸ ih st _ h
    · rw [hu.pathLimitHit] at hlim
      cases hlim
    · exact heq ▸ ih _ _ (hdfs _ _ st h)

theorem Unlimited.uncut_visit (hu : S.Unlimited)
    {dfs : SId → List EdgeRef → SearchState → SearchState × Flags}
    (hdfs : ∀ n c st, Uncut st → Uncut (dfs n c st).1) (node : SId) (chain : List EdgeRef)
    (st : SearchState) (h : Uncut st) : Uncut (S.visit dfs node chain st).1 := by
  obtain ⟨hlim, -⟩ | ⟨hwork, -⟩ | ⟨-, -, heq⟩ | ⟨-, -, fl, -, heq⟩ :=
    S.visit_cases dfs node chain st
  · rw [hu.pathLimitHit] at hlim
    cases hlim
  · exact absurd hu.maxWork hwork
  · rw [heq]
    exact ⟨h.truncated, h.workBudget, h.hubPruned⟩
  · have hexp : Uncut (S.explore dfs node chain (S.recordHit node chain st)).1 := by
      have hrec : Uncut (S.recordHit node chain st) := ⟨h.truncated, h.workBudget, h.hubPruned⟩
      unfold explore
      split_ifs with hhub _ hlim
      · exact absurd hu.maxFanIn hhub.1
      · exact ⟨hrec.truncated, hrec.workBudget, hrec.hubPruned⟩
      · rw [hu.pathLimitHit] at hlim
        cases hlim
      · exact hu.uncut_expand hdfs _ _ _ hrec
    rw [heq]
    dsimp only
    split_ifs
    · exact ⟨hexp.truncated, hexp.workBudget, hexp.hubPruned⟩
    · exact hexp

theorem Unlimited.uncut_dfs (hu : S.Unlimited) (left : ℕ) (node : SId) (chain : List EdgeRef)
    (st : SearchState) (h : Uncut st) : Uncut (S.dfs left node chain st).1 := by
  induction left generalizing node chain st with
  | zero => exact hu.uncut_visit (fun _ _ _ h => h) node chain st h
  | succ left ih => exact hu.uncut_visit ih node chain st h

theorem Unlimited.searchTargets_append (hu : S.Unlimited) (l l' : List SId) (st : SearchState) :
    S.searchTargets (l ++ l') st = S.searchTargets l' (S.searchTargets l st) := by
  induction l generalizing st with
  | nil => rfl
  | cons t rest ih =>
    simp only [List.cons_append, searchTargets, hu.pathLimitHit, Bool.false_eq_true, if_false]
    rcases S.minFromStart t with _ | d
    · exact ih st
    · dsimp only
      split_ifs <;> exact ih _

theorem Unlimited.uncut_searchTargets (hu : S.Unlimited) (l : List SId) (st : SearchState)
    (h : Uncut st) : Uncut (S.searchTargets l st) := by
  induction l generalizing st with
  | nil => exact h
  | cons t rest ih =>
    unfold searchTargets
    rw [if_neg (by simp [hu.pathLimitHit])]
    rcases S.minFromStart t with _ | d
    · exact ih st h
    · dsimp only
      split_ifs
      · exact ih _ ⟨h.truncated, h.workBudget, h.hubPruned⟩
      · exact ih _ (hu.uncut_dfs _ _ _ _ h)

/-- A loop over callers out of reach of the bound changes no flag. -/
theorem expand_idle {dfs : SId → List EdgeRef → SearchState → SearchState × Flags} {node : SId}
    {chain l : List EdgeRef} (hidle : ∀ e ∈ l, S.admits e = true → ∀ d,
      S.minFromStart e.caller = some d → S.overBudget (d + chain.length + 1) = true)
    (st : SearchState) (fl : Flags) : (S.expand dfs node chain l st fl).2 = fl := by
  induction l generalizing st with
  | nil => rfl
  | cons e rest ih =>
    have ih := ih fun e' he' => hidle e' (.tail _ he')
    obtain ⟨-, heq⟩ | ⟨hadm, d, hm, ⟨-, heq⟩ | ⟨hbud, -⟩ | ⟨hbud, -⟩⟩ :=
      S.expand_cons dfs node chain e rest st fl
    · rw [heq, ih]
    · rw [heq, ih]
    · rw [hidle e (.head _) hadm d hm] at hbud
      cases hbud
    · rw [hidle e (.head _) hadm d hm] at hbud
      cases hbud

/-- The search of a target that no start reaches within the bound leaves a dead-end at
depth zero. -/
theorem Unlimited.deadAt_of_unreached (hu : S.Unlimited) (h : S.WellFormed) {left : ℕ}
    (hun : ∀ s ∈ S.startSet, ∀ w, w ≠ [] → S.Walk t s w → S.limits.maxDepth < w.length)
    (st : SearchState) : (S.dfs left t [] st).1.deadAt t = some 0 := by
  have hvisit : ∀ dfs, (S.visit dfs t [] st).1.deadAt t = some 0 := by
    intro dfs
    obtain ⟨hlim, -⟩ | ⟨hwork, -⟩ | ⟨-, ⟨d, hd, hle⟩, heq⟩ | ⟨-, -, fl, hfl, heq⟩ :=
      S.visit_cases dfs t [] st
    · rw [hu.pathLimitHit] at hlim
      cases hlim
    · exact absurd hu.maxWork hwork
    · rw [heq]
      simpa [Nat.le_zero.mp hle] using hd
    · have hclean : fl.clean = true := by
        rw [hfl, explore, if_neg (by simp), if_neg (by simp),
          if_neg (by simp [hu.pathLimitHit]), expand_idle]
        · simp [Flags.clean, Flags.or]
        · -- a caller within the bound would give a walk within the bound
          intro e he hadm d hd
          obtain ⟨s, hs, w, hw, hlen⟩ := h.reached hd
          have := hun s hs (w ++ [e]) (by simp) (walk_concat.mpr ⟨hw, ⟨he, hadm⟩, h.callee he⟩)
          rw [List.length_append, List.length_singleton, hlen] at this
          rw [h.overBudget_iff]
          simpa using this
      rw [heq]
      dsimp only
      rw [if_pos hclean, deadAt_memoize]
      simp
  cases left with
  | zero => exact hvisit _
  | succ left => exact hvisit _

/-- A start that no start reaches within the bound is dead at depth zero once it has been
searched as a target. -/
theorem Unlimited.deadAt_searchTargets (hu : S.Unlimited) (h : S.WellFormed) (hnd : l.Nodup)
    {a : SId} (ha : a ∈ l) (hs : a ∈ S.startSet)
    (hun : ∀ s ∈ S.startSet, ∀ w, w ≠ [] → S.Walk a s w → S.limits.maxDepth < w.length)
    (st : SearchState) : (S.searchTargets l st).deadAt a = some 0 := by
  obtain ⟨l₁, l₂, rfl⟩ := List.append_of_mem ha
  rw [hu.searchTargets_append]
  unfold searchTargets
  rw [if_neg (by simp [hu.pathLimitHit]), h.start a hs]
  dsimp only
  rw [if_neg (by simp [h.overBudget_iff])]
  have hnd₂ : l₂.Nodup := (List.nodup_cons.mp (List.nodup_append.mp hnd).2.1).2
  exact (ran_searchTargets h hnd₂ _).grows.zero (hu.deadAt_of_unreached h hun _)

/-- **A hidden chain is missed** by a search without limits. -/
theorem Unlimited.hidden_not_found (hu : S.Unlimited) (h : S.WellFormed) (hnd : l.Nodup)
    {l₁ l₂ : List SId} (hl : l = l₁ ++ l₂) {a b : SId} (ha : a ∈ l₁) (hb : b ∈ l₂)
    (hhide : S.Hides a b) {w : List EdgeRef} (hne : w ≠ []) (hw : S.Walk b a w) :
    w ∉ (S.searchTargets l {}).found := by
  subst hl
  rw [List.nodup_append] at hnd
  rw [hu.searchTargets_append]
  have hfirst := ran_searchTargets h hnd.1 {}
  have hsecond := ran_searchTargets h hnd.2.1 (S.searchTargets l₁ {})
  obtain ⟨new, hnew, -, hP⟩ := hfirst.found
  obtain ⟨new', hnew', -, hP'⟩ := hsecond.found
  rw [hnew', hnew]
  intro hmem
  simp only [List.nil_append, List.mem_append] at hmem
  rcases hmem with hmem | hmem
  · obtain ⟨t, ht, p, s, hp, -, -, -, hw', -⟩ := hP w hmem
    rw [List.append_nil] at hp
    subst hp
    exact hnd.2.2 t ht b hb (walk_end_unique hne hw' hw)
  · obtain ⟨t, ht, p, s, hp, -, -, hs, hw', -, hz⟩ := hP' w hmem
    rw [List.append_nil] at hp
    subst hp
    obtain rfl := walk_end_unique hne hw' hw
    obtain rfl := hw'.start_eq hw
    exact hz (hu.deadAt_searchTargets h hnd.1 ha hhide.start hhide.unreached {})

end Search

/-! ### The contract -/

namespace CallGraph

variable {g : CallGraph} (ll : Llvm)

/-- `w` is a chain of edges of the caller view from `s` to `t`, in the direction of the
call. -/
def Chain (g : CallGraph) (t : SId) : SId → List EdgeRef → Prop
  | s, [] => s = t
  | s, e :: w => e.caller = s ∧ e ∈ g.callerRefsOf e.callee ∧ g.Chain t e.callee w

/-- What a search enumerates: non-empty chains from an id of a start to an id of the target
that obey the cycle rule. -/
def CallChain (g : CallGraph) (target : Bytes) (starts : List Bytes) (cycles : CycleRule)
    (w : List EdgeRef) : Prop :=
  w ≠ [] ∧ ∃ s ∈ g.startIds ll starts, ∃ t ∈ g.resolveKnownIds ll target,
    g.Chain t s w ∧ cycles.Allows s w

/-- The contract of a result: it reports call chains within the depth bound, each once; all
of them if it is complete, and all of any length if it is exhaustive. -/
def SearchContract (g : CallGraph) (target : Bytes) (starts : List Bytes)
    (limits : SearchLimits) (cycles : CycleRule) (r : PathSearchResult) : Prop :=
  ∃ chains : List (List EdgeRef), r.paths = chains.map (g.toCallPath ll) ∧ r.paths.Nodup ∧
    (∀ w ∈ chains, g.CallChain ll target starts cycles w ∧ w.length ≤ limits.effectiveDepth) ∧
    (r.complete = true → ∀ w, g.CallChain ll target starts cycles w →
      w.length ≤ limits.effectiveDepth → w ∈ chains) ∧
    (r.exhaustive = true → ∀ w, g.CallChain ll target starts cycles w → w ∈ chains)

/-- A resolved target `a` hides chains to a resolved target `b` after it in usr order: `a`
is a start, every chain from a start to `a` is longer than the bound, and `a` begins a
chain to `b` within the bound. -/
structure Shadows (g : CallGraph) (target : Bytes) (starts : List Bytes) (depth : ℕ)
    (cycles : CycleRule) (a b : SId) : Prop where
  targets : a ∈ g.resolveKnownIds ll target ∧ b ∈ g.resolveKnownIds ll target
  before : g.interner.resolve a < g.interner.resolve b
  start : a ∈ g.startIds ll starts
  unreached : ∀ s ∈ g.startIds ll starts, ∀ w, w ≠ [] → g.Chain a s w → depth < w.length
  chain : ∃ w, w ≠ [] ∧ g.Chain b a w ∧ cycles.Allows a w ∧ w.length ≤ depth

section Request

variable {target : Bytes} {starts : List Bytes} {limits : SearchLimits} {cycles : CycleRule}

theorem walk_search_iff {s t : SId} {w : List EdgeRef} :
    (g.search ll starts limits cycles none).Walk t s w ↔ g.Chain t s w := by
  induction w generalizing s with
  | nil => rfl
  | cons e w ih =>
    have hmem : (e ∈ (g.search ll starts limits cycles none).callersOf e.callee ∧
        (g.search ll starts limits cycles none).admits e = true) ↔
          e ∈ g.callerRefsOf e.callee :=
      (and_iff_left rfl).trans mem_sortCallerRefsCanonically
    simp only [Search.Walk, Chain, ih, hmem]

theorem mem_orderedTargets {id : SId} :
    id ∈ g.orderedTargets ll target ↔ id ∈ g.resolveKnownIds ll target :=
  (List.perm_insertionSort _ _).mem_iff

theorem nodup_orderedTargets : (g.orderedTargets ll target).Nodup :=
  (List.perm_insertionSort _ _).nodup_iff.mpr (List.nodup_dedup _)

/-- The targets are searched in strictly increasing order of their usrs. -/
theorem Inv.pairwise_orderedTargets (h : g.Inv) : (g.orderedTargets ll target).Pairwise
    fun a b => g.interner.resolve a < g.interner.resolve b := by
  let le : SId → SId → Prop := fun a b => ¬ g.interner.resolve b < g.interner.resolve a
  have htotal : Std.Total le := ⟨fun a b => by
    simp only [le, not_lt]
    exact le_total _ _⟩
  have htrans : IsTrans SId le := ⟨fun a b c => by
    simp only [le, not_lt]
    exact le_trans⟩
  have hsorted : (g.orderedTargets ll target).Pairwise le :=
    List.pairwise_insertionSort (r := le) (g.resolveKnownIds ll target)
  have hlt : ∀ {x}, x ∈ g.orderedTargets ll target → x < g.interner.size := fun hx =>
    lt_of_mem_resolveKnownIds ll ((mem_orderedTargets ll).mp hx)
  refine (hsorted.and (nodup_orderedTargets ll)).imp_of_mem ?_
  rintro a b ha hb ⟨hle, hne⟩
  refine lt_of_le_of_ne (not_lt.mp hle) fun heq => hne ?_
  exact (StringInterner.resolve_inj h.strings_nodup (hlt ha) (hlt hb)).mp heq

/-- A reported path names its chain: interned strings determine their ids. -/
theorem Inv.toCallPath_injOn (h : g.Inv) {w w' : List EdgeRef}
    (hw : ∀ e ∈ w, e.Below g.interner.size) (hw' : ∀ e ∈ w', e.Below g.interner.size)
    (heq : g.toCallPath ll w = g.toCallPath ll w') : w = w' := by
  have hhops : w.map (g.toHop ll) = w'.map (g.toHop ll) := congrArg CallPath.hops heq
  induction w generalizing w' with
  | nil => simpa using hhops.symm
  | cons e w ih =>
    cases w' with
    | nil => simp at hhops
    | cons e' w' =>
      rw [List.map_cons, List.map_cons, List.cons.injEq] at hhops
      have hfact : e.map g.interner.resolve = e'.map g.interner.resolve := by
        have := hhops.1
        simp only [toHop, PathHop.mk.injEq] at this
        simp only [Edge.map, Edge.mk.injEq]
        tauto
      have he := (Edge.map_resolve_inj h.strings_nodup (hw e (.head _))
        (hw' e' (.head _))).mp hfact
      have htail := ih (fun x hx => hw x (.tail _ hx)) (fun x hx => hw' x (.tail _ hx))
        (congrArg CallPath.mk hhops.2) hhops.2
      rw [he, htail]

theorem Inv.below_of_chain (h : g.Inv) {s t : SId} {w : List EdgeRef} (hw : g.Chain t s w) :
    ∀ e ∈ w, e.Below g.interner.size := by
  induction w generalizing s with
  | nil => simp
  | cons e w ih =>
    intro e' he'
    rcases List.mem_cons.mp he' with rfl | he'
    · exact h.below_of_mem_callerRefsOf hw.2.1
    · exact ih hw.2.2 e' he'

/-- What the searches of the targets find are call chains within the bound, each once. -/
theorem Inv.found_sound (h : g.Inv) (target : Bytes) (starts : List Bytes)
    (limits : SearchLimits) (cycles : CycleRule) :
    (((g.search ll starts limits cycles none).searchTargets
        (g.orderedTargets ll target) {}).found.map (g.toCallPath ll)).Nodup ∧
      ∀ w ∈ ((g.search ll starts limits cycles none).searchTargets
        (g.orderedTargets ll target) {}).found,
        g.CallChain ll target starts cycles w ∧ w.length ≤ limits.effectiveDepth := by
  obtain ⟨new, hnew, hnd, hP⟩ := (Search.ran_searchTargets
    (h.search_wellFormed ll starts limits cycles) (nodup_orderedTargets ll) {}).found
  rw [hnew, List.nil_append]
  have hchain : ∀ w ∈ new, ∃ s ∈ g.startIds ll starts, ∃ t ∈ g.resolveKnownIds ll target,
      w ≠ [] ∧ g.Chain t s w ∧ cycles.Allows s w ∧ w.length ≤ limits.effectiveDepth := by
    intro w hw
    obtain ⟨t, ht, p, s, hp, hne, hlen, hs, hwalk, hal, -⟩ := hP w hw
    rw [List.append_nil] at hp
    subst hp
    exact ⟨s, hs, t, (mem_orderedTargets ll).mp ht, hne, (walk_search_iff ll).mp hwalk, hal, hlen⟩
  refine ⟨hnd.map_on fun w hw w' hw' heq => ?_, fun w hw => ?_⟩
  · obtain ⟨s, -, t, -, -, hc, -⟩ := hchain w hw
    obtain ⟨s', -, t', -, -, hc', -⟩ := hchain w' hw'
    exact h.toCallPath_injOn ll (h.below_of_chain hc) (h.below_of_chain hc') heq
  · obtain ⟨s, hs, t, ht, hne, hc, hal, hlen⟩ := hchain w hw
    exact ⟨⟨hne, s, hs, t, ht, hc, hal⟩, hlen⟩

/-- Without a shadowed target the contract holds under every limit. -/
theorem Inv.searchContract (h : g.Inv)
    (hno : ¬ ∃ a b, g.Shadows ll target starts limits.effectiveDepth cycles a b) :
    g.SearchContract ll target starts limits cycles
      (g.findCallerPaths ll target starts limits cycles) := by
  unfold findCallerPaths
  dsimp only
  split_ifs with hunknown
  · -- nothing was searched
    have hfalse : ∀ a b : Bool, (!a || !b) = true →
        ({ targetKnown := a, startKnown := b } : PathSearchResult).complete = false := by decide
    have hinc := hfalse _ _ hunknown
    refine ⟨[], rfl, List.nodup_nil, by simp, fun hc => ?_, fun hc => ?_⟩
    · rw [hinc] at hc
      cases hc
    · rw [PathSearchResult.exhaustive, hinc] at hc
      cases hc
  · obtain ⟨hnd, hsound⟩ := h.found_sound ll target starts limits cycles
    set S := g.search ll starts limits cycles none
    set st := S.searchTargets (g.orderedTargets ll target) {}
    -- every chain that the result owes was found
    have hall : st.truncated = false → st.workBudget = false → st.hubPruned = false →
        ∀ w, g.CallChain ll target starts cycles w → S.Owed st w → w ∈ st.found := by
      rintro ht hwb hhp w ⟨hne, s, hs, t, htar, hchain, hal⟩ how
      refine Search.covered_searchTargets (h.search_wellFormed ll starts limits cycles)
        (nodup_orderedTargets ll) ?_ ⟨ht, hwb, hhp⟩ (fun x d hx => ?_) (fun t _ s _ hz => ?_) t
        ((mem_orderedTargets ll).mpr htar) s hs w hne ((walk_search_iff ll).mpr hchain) hal how
      · refine (h.pairwise_orderedTargets ll).imp_of_mem fun {a b} ha hb hab hhide => hno ⟨a, b, ?_⟩
        refine ⟨⟨(mem_orderedTargets ll).mp ha, (mem_orderedTargets ll).mp hb⟩, hab, hhide.start,
          fun s hs w hne hw => hhide.unreached s hs w hne ((walk_search_iff ll).mpr hw), ?_⟩
        obtain ⟨w, hne, hw, hal, hlen⟩ := hhide.chain
        exact ⟨w, hne, (walk_search_iff ll).mp hw, hal, hlen⟩
      · cases hx
      · cases hz
    refine ⟨st.found, rfl, hnd, hsound, fun hc w hw hlen => ?_, fun hx w hw => ?_⟩
    · simp only [PathSearchResult.complete, Bool.and_eq_true, Bool.not_eq_true'] at hc
      exact hall hc.1.1.2 hc.1.2 hc.2 w hw (.inl hlen)
    · simp only [PathSearchResult.exhaustive, PathSearchResult.complete, Bool.and_eq_true,
        Bool.not_eq_true', decide_eq_true_eq, Stops.mk.injEq] at hx
      exact hall hx.1.1.1.2 hx.1.1.2 hx.1.2 w hw (.inr hx.2.2.1)

/-- A search of known names reports the chains found, and is complete when nothing cut it. -/
theorem findCallerPaths_known (limits : SearchLimits) (cycles : CycleRule)
    (ht : g.resolveKnownIds ll target ≠ [])
    (hs : g.startIds ll starts ≠ []) :
    (g.findCallerPaths ll target starts limits cycles).paths =
        ((g.search ll starts limits cycles none).searchTargets
          (g.orderedTargets ll target) {}).found.map (g.toCallPath ll) ∧
      (Search.Uncut ((g.search ll starts limits cycles none).searchTargets
          (g.orderedTargets ll target) {}) →
        (g.findCallerPaths ll target starts limits cycles).complete = true) := by
  unfold findCallerPaths
  dsimp only
  rw [if_neg (by simp [ht, hs])]
  refine ⟨rfl, fun hcut => ?_⟩
  simp [PathSearchResult.complete, ht, hs, hcut.truncated, hcut.workBudget, hcut.hubPruned]

/-- A shadowed target makes a search without limits complete and incomplete at once. -/
theorem Inv.not_searchContract (h : g.Inv) (limits : SearchLimits) {a b : SId} (hlim : limits.maxPaths = 0 ∧
      limits.maxWork = 0 ∧ limits.maxFanIn = 0)
    (hsh : g.Shadows ll target starts limits.effectiveDepth cycles a b) :
    ¬ g.SearchContract ll target starts limits cycles
      (g.findCallerPaths ll target starts limits cycles) := by
  rintro ⟨chains, hpaths, -, hsound, hcomplete, -⟩
  obtain ⟨w, hne, hw, hal, hlen⟩ := hsh.chain
  have hu : (g.search ll starts limits cycles none).Unlimited := ⟨hlim.1, hlim.2.1, hlim.2.2⟩
  have hcut := hu.uncut_searchTargets (g.orderedTargets ll target) {} ⟨rfl, rfl, rfl⟩
  obtain ⟨hfound, hcompl⟩ := findCallerPaths_known ll limits cycles
    (List.ne_nil_of_mem hsh.targets.1) (List.ne_nil_of_mem hsh.start)
  -- the chain is owed, so a chain with its path was found, which is the chain itself
  have hmem : w ∈ chains :=
    hcomplete (hcompl hcut) w ⟨hne, a, hsh.start, b, hsh.targets.2, hw, hal⟩ hlen
  have hpath := List.mem_map_of_mem (f := g.toCallPath ll) hmem
  rw [← hpaths, hfound] at hpath
  obtain ⟨w', hw', heq⟩ := List.mem_map.mp hpath
  obtain ⟨⟨-, s', -, t', -, hc', -⟩, -⟩ :=
    (h.found_sound ll target starts limits cycles).2 w' hw'
  obtain rfl := h.toCallPath_injOn ll (h.below_of_chain hc') (h.below_of_chain hw) heq
  -- but the search of `a` came first
  obtain ⟨l₁, l₂, hl⟩ := List.append_of_mem ((mem_orderedTargets ll).mpr hsh.targets.2)
  have ha : a ∈ l₁ := by
    have hmem := (mem_orderedTargets ll).mpr hsh.targets.1
    have hsorted : (g.orderedTargets ll target).Pairwise _ := h.pairwise_orderedTargets ll
    rw [hl] at hmem hsorted
    rcases List.mem_append.mp hmem with hmem | hmem
    · exact hmem
    · rcases List.mem_cons.mp hmem with rfl | hmem
      · exact absurd hsh.before (lt_irrefl _)
      · have hlater := (List.pairwise_cons.mp (List.pairwise_append.mp hsorted).2.1).1 a hmem
        exact absurd hsh.before (lt_asymm hlater)
  refine hu.hidden_not_found (h.search_wellFormed ll starts limits cycles)
    (nodup_orderedTargets ll) hl ha (.head _) ?_ hne ((walk_search_iff ll).mpr hw) hw'
  refine ⟨hsh.start, fun s hs w hne hw => ?_, w', hne, (walk_search_iff ll).mpr hw, hal, hlen⟩
  exact hsh.unreached s hs w hne ((walk_search_iff ll).mp hw)

end Request

/-- **The contract of the path search, and exactly when it holds**: for every reachable
graph, target, starts, depth bound and cycle rule, the results under every path, fan-in and
work limit meet the contract if and only if no target shadows another. -/
theorem findCallerPaths_contract_iff {log : List Registration} (hg : Reachable g log)
    (target : Bytes) (starts : List Bytes) (depth : SearchLimits) (cycles : CycleRule) :
    (∀ limits : SearchLimits, limits.maxDepth = depth.maxDepth →
        g.SearchContract ll target starts limits cycles
          (g.findCallerPaths ll target starts limits cycles)) ↔
      ¬ ∃ a b, g.Shadows ll target starts depth.effectiveDepth cycles a b := by
  have heff : ∀ limits : SearchLimits, limits.maxDepth = depth.maxDepth →
      limits.effectiveDepth = depth.effectiveDepth := by
    intro limits hd
    simp only [SearchLimits.effectiveDepth, hd]
  constructor
  · rintro hall ⟨a, b, hsh⟩
    rw [← heff ⟨0, depth.maxDepth, 0, 0⟩ rfl] at hsh
    exact hg.inv.1.not_searchContract ll _ ⟨rfl, rfl, rfl⟩ hsh (hall _ rfl)
  · intro hno limits hd
    refine hg.inv.1.searchContract ll ?_
    rw [heff limits hd]
    exact hno

/-- Two overloads `a` and `b` of one display name `f`, and a call from `a` to `b` at `s`.
Ids in order: `a`, `f`, `b`, `s`. -/
def overloads : List Registration :=
  [.node { qualifiedName := [102], usr := [97] } [], .node { qualifiedName := [102], usr := [98] } [],
    .edge ⟨[97], [98], .directCall, .Proven, [115], 0, .synchronous, [], []⟩ []]

/-- `isUTF8` on ASCII text. -/
def asciiLlvm : Llvm := ⟨fun s => s.all (· < 128), fun _ => 0⟩

theorem reachable_overloads : Reachable (({} : CallGraph).registerAll overloads) ([] ++ overloads) :=
  BuiltFrom.empty.registerAll fun _ _ => trivial

/-- A target given by its usr resolves to one id, so nothing is shadowed. -/
theorem findCallerPaths_contract_usr :
    Reachable (({} : CallGraph).registerAll overloads) ([] ++ overloads) ∧
      ∀ limits : SearchLimits, limits.maxDepth = 20 →
        (({} : CallGraph).registerAll overloads).SearchContract asciiLlvm [98] [[97]] limits
          .simpleNodes ((({} : CallGraph).registerAll overloads).findCallerPaths asciiLlvm [98]
            [[97]] limits .simpleNodes) := by
  refine ⟨reachable_overloads, (findCallerPaths_contract_iff asciiLlvm reachable_overloads [98]
    [[97]] { maxDepth := 20 } .simpleNodes).mpr ?_⟩
  rintro ⟨a, b, hsh⟩
  have hids : (({} : CallGraph).registerAll overloads).resolveKnownIds asciiLlvm [98] = [2] := by
    decide +kernel
  have htar := hsh.targets
  rw [hids, List.mem_singleton, List.mem_singleton] at htar
  have hlt := hsh.before
  rw [htar.1, htar.2] at hlt
  exact lt_irrefl _ hlt

/-- Searched by the display name, with `a` as the start, the call is lost: the result has no
path, and is complete. -/
theorem findCallerPaths_loses_overload :
    ¬ ∀ (ll : Llvm) (g : CallGraph) (log : List Registration), Reachable g log →
      ∀ (target : Bytes) (starts : List Bytes) (limits : SearchLimits) (cycles : CycleRule),
        g.SearchContract ll target starts limits cycles
          (g.findCallerPaths ll target starts limits cycles) := by
  intro hall
  obtain ⟨chains, hpaths, -, -, hcomplete, -⟩ :=
    hall asciiLlvm _ _ reachable_overloads [102] [[97]] {} .simpleNodes
  have hres : ((({} : CallGraph).registerAll overloads).findCallerPaths asciiLlvm [102] [[97]] {}
      .simpleNodes).paths = [] ∧ ((({} : CallGraph).registerAll overloads).findCallerPaths
        asciiLlvm [102] [[97]] {} .simpleNodes).complete = true := by decide +kernel
  let call : EdgeRef := ⟨0, 2, 3, .directCall, .Proven, .synchronous, 0⟩
  have hcall : call ∈ (({} : CallGraph).registerAll overloads).callerRefsOf 2 := by decide +kernel
  have hstart : 0 ∈ (({} : CallGraph).registerAll overloads).startIds asciiLlvm [[97]] := by
    decide +kernel
  have htarget : 2 ∈ (({} : CallGraph).registerAll overloads).resolveKnownIds asciiLlvm [102] := by
    decide +kernel
  have hmem := hcomplete hres.2 [call] ⟨List.cons_ne_nil _ _, 0, hstart, 2, htarget,
    ⟨rfl, hcall, rfl⟩, by simp [CycleRule.Allows, chainNodes, call]⟩ (by decide)
  rw [hres.1] at hpaths
  rw [List.map_eq_nil_iff.mp hpaths.symm] at hmem
  simp at hmem

end CallGraph

end Vycor
