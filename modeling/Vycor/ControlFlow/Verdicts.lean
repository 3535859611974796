import Vycor.ControlFlow.Oracle
import Vycor.ControlFlow.Runs
import Vycor.PathSearch.Raised

/-!
# What the verdicts of the oracle promise

A universal verdict speaks of every call chain from the entry points to the function, not
only of the paths that were examined. It is as good as the path search beneath it: where no
target shadows another, an exhaustive search holds every chain and the verdict is right.
Whatever the search found, an exhaustive result is the same under raised limits, and so is
the verdict.
-/

namespace Vycor

/-! ### Reading a verdict back -/

/-- The verdicts that speak of every path. -/
def Protection.Universal (p : Protection) : Prop :=
  p = .alwaysCaught ∨ p = .neverCaught ∨ p = .noexceptBarrier

namespace CallGraph

section Verdict

variable {n caught uncaught terminates : ℕ} {exhaustive : Bool}

theorem exhaustive_of_universal
    (h : (verdict n caught uncaught terminates exhaustive).Universal) : exhaustive = true := by
  unfold verdict at h
  split_ifs at h with _ _ _ hex _ hex _ hex
  all_goals first | exact hex | simp [Protection.Universal] at h

theorem verdict_eq_alwaysCaught
    (h : verdict n caught uncaught terminates exhaustive = .alwaysCaught) :
    0 < caught ∧ uncaught = 0 ∧ terminates = 0 := by
  unfold verdict at h
  split_ifs at h
  omega

theorem verdict_eq_neverCaught
    (h : verdict n caught uncaught terminates exhaustive = .neverCaught) :
    0 < uncaught ∧ caught = 0 := by
  unfold verdict at h
  split_ifs at h
  omega

theorem verdict_eq_noexceptBarrier
    (h : verdict n caught uncaught terminates exhaustive = .noexceptBarrier) :
    0 < terminates ∧ caught = 0 ∧ uncaught = 0 := by
  unfold verdict at h
  split_ifs at h
  omega

end Verdict

variable (ll : Llvm) (g : CallGraph) (cf : ControlFlowIndex) (functionName exceptionType : Bytes)
  (entryPoints : List Bytes)

/-- How an exception of the last callee of a chain ends. -/
def endsIn (w : List EdgeRef) : Option PathOutcome :=
  (g.examine ll cf exceptionType (g.toCallPath ll w)).map (·.outcome)

/-- What a verdict says of the call chains, of any length. -/
structure SoundVerdict (p : Protection) : Prop where
  alwaysCaught : p = .alwaysCaught →
    (∃ w, g.CallChain ll functionName entryPoints .simpleNodes w) ∧
      ∀ w, g.CallChain ll functionName entryPoints .simpleNodes w →
        g.endsIn ll cf exceptionType w = some .caught
  neverCaught : p = .neverCaught →
    (∃ w, g.CallChain ll functionName entryPoints .simpleNodes w ∧
        g.endsIn ll cf exceptionType w = some .uncaught) ∧
      ∀ w, g.CallChain ll functionName entryPoints .simpleNodes w →
        ∃ o, g.endsIn ll cf exceptionType w = some o ∧ o ≠ .caught
  noexceptBarrier : p = .noexceptBarrier →
    (∃ w, g.CallChain ll functionName entryPoints .simpleNodes w) ∧
      ∀ w, g.CallChain ll functionName entryPoints .simpleNodes w →
        g.endsIn ll cf exceptionType w = some .terminates

/-- The contract of an answer: its verdict is sound, and a universal one comes with the same
paths under every raised or lifted limit. -/
structure VerdictContract (limits : SearchLimits) (indexComplete : Bool)
    (r : ExceptionPathResult) : Prop where
  sound : g.SoundVerdict ll cf functionName exceptionType entryPoints r.protection
  stable : r.protection.Universal → ∀ limits', limits.Raised limits' →
    ∃ r', g.queryExceptionProtection ll cf functionName exceptionType entryPoints limits'
        indexComplete = some r' ∧ r'.paths = r.paths ∧ r'.protection = r.protection

section Answer

variable {ll g cf functionName exceptionType entryPoints} {limits : SearchLimits}
  {indexComplete : Bool} {r : ExceptionPathResult}

/-- An answer examines the paths found, and judges by the counts of their outcomes. -/
theorem queryExceptionProtection_cases
    (h : g.queryExceptionProtection ll cf functionName exceptionType entryPoints limits
      indexComplete = some r) :
    (g.findCallerPaths ll functionName entryPoints limits).paths.mapM
        (g.examine ll cf exceptionType) = some r.paths ∧
      r.protection = verdict r.paths.length (r.paths.countP fun p => p.outcome = .caught)
        (r.paths.countP fun p => p.outcome = .uncaught)
        (r.paths.countP fun p => p.outcome = .terminates)
        ((g.findCallerPaths ll functionName entryPoints limits).exhaustive &&
          (r.paths.countP fun p => p.outcome = .unknown) = 0 && indexComplete) := by
  obtain ⟨paths, hpaths, hr⟩ := Option.bind_eq_some_iff.mp h
  obtain rfl := Option.some_injective _ hr
  exact ⟨hpaths, rfl⟩

/-- The outcomes of the chains are those of the examined paths. -/
theorem endsIn_of_examined {chains : List (List EdgeRef)} {paths : List PathInfo}
    (h : (chains.map (g.toCallPath ll)).mapM (g.examine ll cf exceptionType) = some paths) :
    (∀ w ∈ chains, ∃ p ∈ paths, g.endsIn ll cf exceptionType w = some p.outcome) ∧
      ∀ p ∈ paths, ∃ w ∈ chains, g.endsIn ll cf exceptionType w = some p.outcome := by
  rw [mapM_eq_some_iff_forall₂, List.forall₂_map_left_iff] at h
  have hends : ∀ {w p}, g.examine ll cf exceptionType (g.toCallPath ll w) = some p →
      g.endsIn ll cf exceptionType w = some p.outcome := fun he => by rw [endsIn, he]; rfl
  induction h with
  | nil => exact ⟨by simp, by simp⟩
  | cons hhead _ ih =>
    constructor
    · intro w hw
      rcases List.mem_cons.mp hw with rfl | hw
      · exact ⟨_, .head _, hends hhead⟩
      · obtain ⟨p, hp, he⟩ := ih.1 w hw
        exact ⟨p, .tail _ hp, he⟩
    · intro p hp
      rcases List.mem_cons.mp hp with rfl | hp
      · exact ⟨_, .head _, hends hhead⟩
      · obtain ⟨w, hw, he⟩ := ih.2 p hp
        exact ⟨w, .tail _ hw, he⟩

/-- A verdict over paths that stand for every call chain is sound. -/
theorem soundVerdict_of_covered {chains : List (List EdgeRef)} {paths : List PathInfo}
    {exhaustive : Bool} (hchain : ∀ w ∈ chains,
      g.CallChain ll functionName entryPoints .simpleNodes w)
    (hpaths : (chains.map (g.toCallPath ll)).mapM (g.examine ll cf exceptionType) = some paths)
    (hall : exhaustive = true →
      (∀ w, g.CallChain ll functionName entryPoints .simpleNodes w → w ∈ chains) ∧
        (paths.countP fun p => p.outcome = .unknown) = 0) :
    g.SoundVerdict ll cf functionName exceptionType entryPoints
      (verdict paths.length (paths.countP fun p => p.outcome = .caught)
        (paths.countP fun p => p.outcome = .uncaught)
        (paths.countP fun p => p.outcome = .terminates) exhaustive) := by
  obtain ⟨hto, hfrom⟩ := endsIn_of_examined hpaths
  have hnone : ∀ {o}, (paths.countP fun p => p.outcome = o) = 0 → ∀ p ∈ paths, p.outcome ≠ o := by
    intro o ho p hp
    simpa using List.countP_eq_zero.mp ho p hp
  have hsome : ∀ {o}, 0 < (paths.countP fun p => p.outcome = o) → ∃ w,
      g.CallChain ll functionName entryPoints .simpleNodes w ∧
        g.endsIn ll cf exceptionType w = some o := by
    intro o ho
    obtain ⟨p, hp, hpo⟩ := List.countP_pos_iff.mp ho
    obtain ⟨w, hw, he⟩ := hfrom p hp
    exact ⟨w, hchain w hw, by simpa [of_decide_eq_true hpo] using he⟩
  have hevery : exhaustive = true → ∀ w,
      g.CallChain ll functionName entryPoints .simpleNodes w → ∃ p ∈ paths,
        g.endsIn ll cf exceptionType w = some p.outcome ∧ p.outcome ≠ .unknown := by
    intro hex w hw
    obtain ⟨p, hp, he⟩ := hto w ((hall hex).1 w hw)
    exact ⟨p, hp, he, hnone (hall hex).2 p hp⟩
  constructor
  · intro hv
    have hex := exhaustive_of_universal (.inl hv)
    obtain ⟨hc, hu, ht⟩ := verdict_eq_alwaysCaught hv
    obtain ⟨w, hw, -⟩ := hsome hc
    refine ⟨⟨w, hw⟩, fun w hw => ?_⟩
    obtain ⟨p, hp, he, hk⟩ := hevery hex w hw
    have hpu := hnone hu p hp
    have hpt := hnone ht p hp
    rw [he]
    rcases ho : p.outcome
    all_goals first | rfl | contradiction
  · intro hv
    have hex := exhaustive_of_universal (.inr (.inl hv))
    obtain ⟨hu, hc⟩ := verdict_eq_neverCaught hv
    refine ⟨hsome hu, fun w hw => ?_⟩
    obtain ⟨p, hp, he, -⟩ := hevery hex w hw
    exact ⟨p.outcome, he, hnone hc p hp⟩
  · intro hv
    have hex := exhaustive_of_universal (.inr (.inr hv))
    obtain ⟨ht, hc, hu⟩ := verdict_eq_noexceptBarrier hv
    obtain ⟨w, hw, -⟩ := hsome ht
    refine ⟨⟨w, hw⟩, fun w hw => ?_⟩
    obtain ⟨p, hp, he, hk⟩ := hevery hex w hw
    have hpc := hnone hc p hp
    have hpu := hnone hu p hp
    rw [he]
    rcases ho : p.outcome
    all_goals first | rfl | contradiction

/-- A universal verdict stands under every raised limit, whatever the search found. -/
theorem stable_of_universal
    (h : g.queryExceptionProtection ll cf functionName exceptionType entryPoints limits
      indexComplete = some r) (hu : r.protection.Universal) {limits' : SearchLimits}
    (hraised : limits.Raised limits') :
    ∃ r', g.queryExceptionProtection ll cf functionName exceptionType entryPoints limits'
        indexComplete = some r' ∧ r'.paths = r.paths ∧ r'.protection = r.protection := by
  obtain ⟨hpaths, hprot⟩ := queryExceptionProtection_cases h
  have hex := exhaustive_of_universal (hprot ▸ hu)
  rw [Bool.and_eq_true, Bool.and_eq_true] at hex
  have hsame := findCallerPaths_raised ll hraised hex.1.1
  unfold queryExceptionProtection
  rw [hsame]
  dsimp only
  rw [hpaths]
  exact ⟨_, rfl, rfl, hprot.symm⟩

/-- The walk outward ends on an index in memory. -/
theorem exists_unwindHops {seen : ControlFlowIndex.Seen} (h : cf.Inv seen) (hops : List PathHop)
    (info : PathInfo) : ∃ info', g.unwindHops ll cf exceptionType hops info = some info' := by
  induction hops generalizing info with
  | nil => exact ⟨_, rfl⟩
  | cons hop outer ih =>
    have hctx : contextForHop ll cf hop = some _ :=
      h.contextForEdge hop.callSite hop.callerUsr hop.calleeUsr
    unfold unwindHops
    rw [hctx]
    split
    · exact ⟨_, rfl⟩
    · exact ⟨_, rfl⟩
    · exact ⟨_, rfl⟩
    · simp only [Option.bind_eq_bind, Option.bind_some]
      split
      · exact ⟨_, rfl⟩
      · split_ifs
        · exact ⟨_, rfl⟩
        · split
          all_goals first | exact ⟨_, rfl⟩ | exact ih _

/-- On an index in memory every query is answered. -/
theorem Inv.exists_queryExceptionProtection (hg : g.Inv) {seen : ControlFlowIndex.Seen}
    (h : cf.Inv seen) (limits : SearchLimits) (indexComplete : Bool) :
    ∃ r, g.queryExceptionProtection ll cf functionName exceptionType entryPoints limits
      indexComplete = some r := by
  have hexamine : ∀ path ∈ (g.findCallerPaths ll functionName entryPoints limits).paths,
      ∃ info, g.examine ll cf exceptionType path = some info := by
    intro path hpath
    obtain ⟨contexts, hcontexts⟩ : ∃ l, path.hops.mapM (contextForHop ll cf) = some l :=
      exists_mapM_eq_some fun hop _ => ⟨_, h.contextForEdge hop.callSite hop.callerUsr hop.calleeUsr⟩
    -- a path that was found has a hop into the target
    have hne : path.hops ≠ [] := by
      unfold findCallerPaths at hpath
      dsimp only at hpath
      split_ifs at hpath
      · cases hpath
      · obtain ⟨w, hw, rfl⟩ := List.mem_map.mp hpath
        have hw := ((hg.found_sound ll functionName entryPoints limits .simpleNodes).2 w hw).1.1
        simpa [toCallPath] using hw
    have hinto : path.hops.getLast? = some _ := List.getLast?_eq_some_getLast hne
    unfold examine annotatePath
    rw [hcontexts]
    simp only [Option.bind_eq_bind, Option.bind_some, propagate, hinto, h.callerNoexceptOf]
    split_ifs
    · exact ⟨_, rfl⟩
    · exact exists_unwindHops h _ _
  obtain ⟨paths, hpaths⟩ := exists_mapM_eq_some hexamine
  unfold queryExceptionProtection
  dsimp only
  rw [hpaths]
  exact ⟨_, rfl⟩

end Answer

/-- **Universal verdicts are sound where no target shadows another**: for every reachable
graph, every index, function, exception type, entry points and limits. -/
theorem queryExceptionProtection_contract {log : List Registration} (hg : Reachable g log)
    (limits : SearchLimits) (indexComplete : Bool)
    (hno : ¬ ∃ a b, g.Shadows ll functionName entryPoints limits.effectiveDepth .simpleNodes a b)
    {r : ExceptionPathResult} (hr : g.queryExceptionProtection ll cf functionName exceptionType
      entryPoints limits indexComplete = some r) :
    g.VerdictContract ll cf functionName exceptionType entryPoints limits indexComplete r := by
  refine ⟨?_, fun hu limits' hraised => stable_of_universal hr hu hraised⟩
  obtain ⟨hpaths, hprot⟩ := queryExceptionProtection_cases hr
  obtain ⟨chains, heq, -, hsound, -, hall⟩ := hg.inv.1.searchContract ll hno
  rw [heq] at hpaths
  rw [hprot]
  refine soundVerdict_of_covered (fun w hw => (hsound w hw).1) hpaths fun hex => ?_
  rw [Bool.and_eq_true, Bool.and_eq_true] at hex
  exact ⟨hall hex.1.1, of_decide_eq_true hex.1.2⟩

/-- The overloads `a` and `b` of `f`, the call of `b` by `a` at `s`, and a function `m` that
calls `b` at `t`. -/
def overloadsAndMain : List Registration :=
  overloads ++ [.node { qualifiedName := [109], usr := [109] } [],
    .edge ⟨[109], [98], .directCall, .Proven, [116], 0, .synchronous, [], []⟩ []]

/-- The call at `s` stands in no try block, the call at `t` in one with a catch-all. -/
def caughtInMain : ControlFlowIndex :=
  ({} : ControlFlowIndex).addAll
    [{ callerName := [102], calleeName := [102], callSite := [115], callerUsr := [97],
       calleeUsr := [98], tuPath := [120] },
     { callerName := [109], calleeName := [102], callSite := [116], callerUsr := [109],
       calleeUsr := [98], tuPath := [120],
       enclosingTryCatches := [{ tryLocation := [121],
                                 handlers := [{ caughtType := [], isCatchAll := true }] }] }]

theorem reachable_overloadsAndMain :
    Reachable (({} : CallGraph).registerAll overloadsAndMain) ([] ++ overloadsAndMain) :=
  BuiltFrom.empty.registerAll fun _ _ => trivial

/-- Asked by its usr, with `m` as the entry point, `b` is always caught, and rightly. -/
theorem queryExceptionProtection_contract_usr :
    ∃ r, (({} : CallGraph).registerAll overloadsAndMain).queryExceptionProtection asciiLlvm
        caughtInMain [98] [] [[109]] {} = some r ∧ r.protection = .alwaysCaught ∧
      (({} : CallGraph).registerAll overloadsAndMain).VerdictContract asciiLlvm caughtInMain [98] []
        [[109]] {} true r := by
  have hprot : ((({} : CallGraph).registerAll overloadsAndMain).queryExceptionProtection asciiLlvm
      caughtInMain [98] [] [[109]] {}).map (·.protection) = some .alwaysCaught := by
    decide +kernel
  obtain ⟨r, hr, hp⟩ := Option.map_eq_some_iff.mp hprot
  refine ⟨r, hr, hp, queryExceptionProtection_contract asciiLlvm _ caughtInMain [98] [] [[109]]
    reachable_overloadsAndMain {} true ?_ hr⟩
  rintro ⟨a, b, hsh⟩
  have hids : (({} : CallGraph).registerAll overloadsAndMain).resolveKnownIds asciiLlvm [98] =
      [2] := by
    decide +kernel
  have htar := hsh.targets
  rw [hids, List.mem_singleton, List.mem_singleton] at htar
  have hlt := hsh.before
  rw [htar.1, htar.2] at hlt
  exact lt_irrefl _ hlt

/-- Asked by its display name, with both `a` and `m` as entry points, `f` is said to be always
caught, though an exception of `b` escapes `a`. -/
theorem queryExceptionProtection_misses_overload :
    ¬ ∀ (ll : Llvm) (g : CallGraph) (log : List Registration), Reachable g log →
      ∀ (cf : ControlFlowIndex) (functionName exceptionType : Bytes) (entryPoints : List Bytes)
        (limits : SearchLimits) (indexComplete : Bool) (r : ExceptionPathResult),
        g.queryExceptionProtection ll cf functionName exceptionType entryPoints limits
            indexComplete = some r →
          g.VerdictContract ll cf functionName exceptionType entryPoints limits indexComplete r := by
  intro hall
  have hprot : ((({} : CallGraph).registerAll overloadsAndMain).queryExceptionProtection asciiLlvm
      caughtInMain [102] [] [[97], [109]] {}).map (·.protection) = some .alwaysCaught := by
    decide +kernel
  obtain ⟨r, hr, hp⟩ := Option.map_eq_some_iff.mp hprot
  have hcontract := hall asciiLlvm _ _ reachable_overloadsAndMain caughtInMain [102] []
    [[97], [109]] {} true r hr
  let call : EdgeRef := ⟨0, 2, 3, .directCall, .Proven, .synchronous, 0⟩
  have hcall : call ∈ (({} : CallGraph).registerAll overloadsAndMain).callerRefsOf 2 := by
    decide +kernel
  have hstart : 0 ∈ (({} : CallGraph).registerAll overloadsAndMain).startIds asciiLlvm
      [[97], [109]] := by
    decide +kernel
  have htarget : 2 ∈ (({} : CallGraph).registerAll overloadsAndMain).resolveKnownIds asciiLlvm
      [102] := by
    decide +kernel
  have hcaught := (hcontract.sound.alwaysCaught hp).2 [call] ⟨List.cons_ne_nil _ _, 0, hstart, 2,
    htarget, ⟨rfl, hcall, rfl⟩, by simp [CycleRule.Allows, chainNodes, call]⟩
  have hescapes : (({} : CallGraph).registerAll overloadsAndMain).endsIn asciiLlvm caughtInMain []
      [call] = some .uncaught := by
    decide +kernel
  rw [hescapes] at hcaught
  cases hcaught

end CallGraph

end Vycor
