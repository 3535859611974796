import Vycor.Check.NameWalk

/-!
# Exceptions that escape noexcept functions

`analyzeExceptionEscape` walks from every noexcept function along unguarded calls to the
nearest function with an uncaught throw. A noexcept callee is meant to be a boundary, but it
is looked at for a throw of its own first: `exceptionEscapes_contract_iff` says exactly when
the findings respect noexcept boundaries all the same.
-/

namespace Vycor

open NameWalk

/-- The comparison of the roots. -/
def FunctionSummaryEntry.before (a b : FunctionSummaryEntry) : Bool :=
  siteBefore a.filePath b.filePath a.line.toNat b.line.toNat a.qualifiedName b.qualifiedName

/-- The stable sort of the roots. -/
def summarySorter : Sorter FunctionSummaryEntry.before :=
  .byKey (fun e => toLex (e.filePath, toLex (e.line.toNat, e.qualifiedName))) fun a b => by
    rw [Bool.eq_iff_iff, decide_eq_true_iff]
    exact siteBefore_iff

/-- What a root is reported with. -/
structure EscapeFinding where
  root : FunctionSummaryEntry
  hit : Bytes
  throwSite : Bytes := []
  hops : List Bytes := []
  deriving DecidableEq, Repr

namespace GlobalIndex

variable (g : GlobalIndex)

/-- The loop over the queue: the first name with an uncaught throw. -/
def escapeLoop : ℕ → NameWalk → Option (Bytes × FunctionSummaryEntry × NameWalk)
  | 0, _ => none
  | rounds + 1, st =>
    match st.queue with
    | [] => none
    | (name, depth) :: rest =>
      let st : NameWalk := { st with queue := rest }
      match g.findFunctionSummary name with
      | none => escapeLoop rounds st
      | some summary =>
        if summary.hasUncaughtThrow then some (name, summary, st)
        else if kMaxDepth ≤ depth + 1 then escapeLoop rounds st
        -- Propagate only through UNGUARDED calls. A noexcept callee is a hard boundary.
        else if summary.isNoexcept then escapeLoop rounds st
        else escapeLoop rounds (NameWalk.follow st name depth summary.unguardedCalls)

/-- The rounds a walk may take: every name is queued once. -/
def escapeRounds (root : FunctionSummaryEntry) : ℕ :=
  (root.unguardedCalls ++ g.functionSummaries.entries.flatMap (·.unguardedCalls)).length

/-- The body of the loop over the roots. A hit without a name is no hit. -/
def escapeOf (includeCallSiteLocations : Bool) (root : FunctionSummaryEntry) :
    Option EscapeFinding :=
  let found : Option EscapeFinding :=
    if root.hasUncaughtThrow then some { root, hit := root.qualifiedName }
    else
      match g.escapeLoop (g.escapeRounds root) (NameWalk.seeded root.unguardedCalls) with
      | none => none
      | some (name, summary, st) =>
        some { root, hit := name,
               throwSite := if includeCallSiteLocations then summary.uncaughtThrowSite else [],
               hops := (NameWalk.hopsBack st kMaxDepth name).reverse }
  found.filter fun f => f.hit ≠ []

/-- `callSiteLoc`: the first location of a call that is known. -/
def callSiteLoc (caller : Option FunctionSummaryEntry) (callee : Bytes) : Bytes :=
  match caller with
  | none => []
  | some caller =>
    ((caller.unguardedCallSites.find? fun kv => kv.1 = callee ∧ kv.2 ≠ []).map (·.2)).getD []

/-- The hops as they are shown, each with the site of the call that leads to it. -/
def hopTexts (includeCallSiteLocations : Bool) :
    Option FunctionSummaryEntry → List Bytes → List Bytes
  | _, [] => []
  | caller, hop :: rest =>
    let loc := if includeCallSiteLocations then callSiteLoc caller hop else []
    (hop ++ if loc = [] then [] else text " (" ++ loc ++ text ")") ::
      hopTexts includeCallSiteLocations (g.findFunctionSummary hop) rest

/-- The chain of a finding. -/
def escapeChain (includeCallSiteLocations : Bool) (f : EscapeFinding) : Bytes :=
  if f.root.hasUncaughtThrow then
    if includeCallSiteLocations ∧ f.root.uncaughtThrowSite ≠ [] then
      f.root.qualifiedName ++ text " (throw in its own body at " ++ f.root.uncaughtThrowSite ++
        text ")"
    else f.root.qualifiedName ++ text " (throw in its own body)"
  else (text " -> ").intercalate (g.hopTexts includeCallSiteLocations (some f.root) f.hops)

/-- The diagnostic of a finding. -/
def escapeDiagnostic (includeCallSiteLocations : Bool) (f : EscapeFinding) : Diagnostic :=
  let site := f.root.filePath ++ text ":" ++ decimal f.root.line.toNat
  { kind := .Exception_Escape
    callLocation := site
    entities := [f.root.qualifiedName, f.hit]
    message := text "Exception escape: noexcept function '" ++ f.root.qualifiedName ++
      text "' (" ++ site ++ text ") can reach a throw in '" ++ f.hit ++ text "'" ++
      (if f.throwSite = [] then [] else text " (" ++ f.throwSite ++ text ")") ++ text " (" ++
      g.escapeChain includeCallSiteLocations f ++
      text ") with no intervening handler — an escaping exception calls " ++
      text "std::terminate. Catch it inside, or drop the noexcept." }

/-- The findings of `analyzeExceptionEscape`, in its order. -/
def exceptionEscapes (includeCallSiteLocations : Bool) (sort : Sorter FunctionSummaryEntry.before) :
    List EscapeFinding :=
  (sort.run (g.functionSummaries.entries.filter (·.isNoexcept))).filterMap
    (g.escapeOf includeCallSiteLocations)

/-- `analyzeExceptionEscape`. -/
def analyzeExceptionEscape (includeCallSiteLocations : Bool)
    (sort : Sorter FunctionSummaryEntry.before) (diagnostics : List Diagnostic) : List Diagnostic :=
  diagnostics ++ (g.exceptionEscapes includeCallSiteLocations sort).map
    (g.escapeDiagnostic includeCallSiteLocations)

/-! ### What the findings should be -/

/-- A chain of unguarded calls, the first one of `calls`, through summarized functions that are
not noexcept, to one that throws. -/
inductive EscapeChain : List Bytes → List Bytes → Prop where
  | throws {calls : List Bytes} {name : Bytes} {summary : FunctionSummaryEntry}
      (hcall : name ∈ calls) (hsummary : g.findFunctionSummary name = some summary)
      (hboundary : summary.isNoexcept = false) (hthrow : summary.hasUncaughtThrow = true) :
      EscapeChain calls [name]
  | calls {calls : List Bytes} {name : Bytes} {summary : FunctionSummaryEntry} {chain : List Bytes}
      (hcall : name ∈ calls) (hsummary : g.findFunctionSummary name = some summary)
      (hboundary : summary.isNoexcept = false) (hchain : EscapeChain summary.unguardedCalls chain) :
      EscapeChain calls (name :: chain)

/-- An exception can reach a function through at most `kMaxDepth` calls. -/
def Escapes (r : FunctionSummaryEntry) : Prop :=
  ∃ chain, g.EscapeChain r.unguardedCalls chain ∧ chain.length ≤ kMaxDepth

/-- **Findings respect noexcept boundaries**: a noexcept function is reported exactly when it
throws itself or an exception can reach it, with a shortest chain. -/
structure EscapeContract (found : List EscapeFinding) : Prop where
  roots : ∀ f ∈ found, f.root ∈ g.functionSummaries.entries ∧ f.root.isNoexcept = true
  reported : ∀ r ∈ g.functionSummaries.entries, r.isNoexcept = true →
    ((∃ f ∈ found, f.root = r) ↔ r.hasUncaughtThrow = true ∨ g.Escapes r)
  chain : ∀ f ∈ found, f.root.hasUncaughtThrow = false →
    g.EscapeChain f.root.unguardedCalls f.hops ∧ f.hops.length ≤ kMaxDepth ∧
      ∀ chain, g.EscapeChain f.root.unguardedCalls chain → f.hops.length ≤ chain.length

/-- The calls that the walk follows from a name. -/
def openCalls (name : Bytes) : List Bytes :=
  match g.findFunctionSummary name with
  | none => []
  | some summary =>
    if summary.hasUncaughtThrow ∨ summary.isNoexcept then [] else summary.unguardedCalls

/-- A name is summarized with an uncaught throw. -/
def Throws (name : Bytes) : Prop :=
  ∃ summary, g.findFunctionSummary name = some summary ∧ summary.hasUncaughtThrow = true

/-- The throwing function that is met first from a noexcept function, by a shortest route and
the calls listed first, stands behind no boundary: it is not noexcept, and no name on the way
is empty. (An empty name is never reported.) -/
def BoundaryClear (r : FunctionSummaryEntry) : Prop :=
  (r.hasUncaughtThrow = true → r.qualifiedName ≠ []) ∧
    (r.hasUncaughtThrow = false → ∀ p hit callers,
      FirstCall g.openCalls r.unguardedCalls g.Throws p hit callers → p.length ≤ kMaxDepth →
        ([] ∉ hit :: callers ∧
            ∀ summary, g.findFunctionSummary hit = some summary → summary.isNoexcept = false) ∨
          hit = [] ∧ ¬ g.Escapes r)

variable {g} {seeds : List Bytes} {p : List ℕ} {name hit : Bytes} {callers : List Bytes}

/-! ### Chains and routes -/

theorem openCalls_of_summary {summary : FunctionSummaryEntry}
    (hs : g.findFunctionSummary name = some summary) (hthrow : summary.hasUncaughtThrow = false)
    (hboundary : summary.isNoexcept = false) : g.openCalls name = summary.unguardedCalls := by
  simp [openCalls, hs, hthrow, hboundary]

theorem exists_of_mem_openCalls {callee : Bytes} (h : callee ∈ g.openCalls name) :
    ∃ summary, g.findFunctionSummary name = some summary ∧ summary.hasUncaughtThrow = false ∧
      summary.isNoexcept = false ∧ callee ∈ summary.unguardedCalls := by
  rw [openCalls] at h
  rcases hs : g.findFunctionSummary name with _ | summary
  · rw [hs] at h
    cases h
  · rw [hs] at h
    dsimp only at h
    split_ifs at h with hstop
    · cases h
    · rw [not_or, Bool.not_eq_true, Bool.not_eq_true] at hstop
      exact ⟨summary, rfl, hstop.1, hstop.2, h⟩

/-- A route goes on as a chain. -/
theorem escapeChain_of_route {l tail : List Bytes}
    (hr : Route (callEdges g.openCalls) Prod.snd seeds p l) (hl : l = name :: callers)
    (htail : ∀ calls, name ∈ calls → g.EscapeChain calls (name :: tail)) :
    g.EscapeChain seeds (callers.reverse ++ name :: tail) := by
  induction hr generalizing name callers tail with
  | start ha =>
    obtain ⟨rfl, rfl⟩ := List.cons.inj hl
    exact htail seeds (List.mem_of_getElem? ha)
  | step hr he ih =>
    obtain ⟨rfl, rfl⟩ := List.cons.inj hl
    obtain ⟨callee, hcallee, rfl⟩ := List.mem_map.mp (List.mem_of_getElem? he)
    obtain ⟨summary, hs, -, hboundary, hcall⟩ := exists_of_mem_openCalls hcallee
    rw [List.reverse_cons, List.append_assoc]
    exact ih rfl fun calls hcalls => .calls hcalls hs hboundary (htail _ hcall)

/-- A chain holds a route to a function that throws. -/
theorem exists_route_of_escapeChain {calls chain : List Bytes} (h : g.EscapeChain calls chain)
    {k : ℕ} (hcalls : ∀ name ∈ calls, ∃ p callers,
      Route (callEdges g.openCalls) Prod.snd seeds p (name :: callers) ∧ p.length ≤ k + 1) :
    ∃ p hit callers, Route (callEdges g.openCalls) Prod.snd seeds p (hit :: callers) ∧
      g.Throws hit ∧ p.length ≤ k + chain.length := by
  induction h generalizing k with
  | throws hcall hs _ hthrow =>
    obtain ⟨p, callers, hr, hlen⟩ := hcalls _ hcall
    exact ⟨p, _, callers, hr, ⟨_, hs, hthrow⟩, hlen⟩
  | @calls calls name summary chain hcall hs hboundary _ ih =>
    obtain ⟨p, callers, hr, hlen⟩ := hcalls _ hcall
    rcases hthrow : summary.hasUncaughtThrow
    · have hopen := openCalls_of_summary hs hthrow hboundary
      obtain ⟨q, hit, l, hq, hhit, hle⟩ := ih (k := k + 1) fun callee hcallee => by
        obtain ⟨j, hj⟩ := List.mem_iff_getElem?.mp (hopen.symm ▸ hcallee)
        refine ⟨p ++ [j], name :: callers, .step (e := (name, callee)) hr ?_, by simpa using hlen⟩
        rw [callEdges, List.getElem?_map, hj]
        rfl
      refine ⟨q, hit, l, hq, hhit, ?_⟩
      rw [List.length_cons]
      omega
    · refine ⟨p, name, callers, hr, ⟨_, hs, hthrow⟩, ?_⟩
      rw [List.length_cons]
      omega

/-- No chain is shorter than the first route to a function that throws. -/
theorem length_le_of_escapeChain {chain : List Bytes}
    (hfirst : FirstCall g.openCalls seeds g.Throws p hit callers)
    (h : g.EscapeChain seeds chain) : p.length ≤ chain.length := by
  obtain ⟨q, hit', l, hq, hthrow, hlen⟩ := exists_route_of_escapeChain (k := 0) h
    fun name hname => by
      obtain ⟨i, hi⟩ := List.mem_iff_getElem?.mp hname
      exact ⟨[i], [], .start hi, le_rfl⟩
  have := length_le_of_routeKey_le (hfirst.first q hit' l hq hthrow)
  omega

/-! ### The walk -/

/-- A result of the loop: the end of the first route to a function that throws, `none` where no
such route stays within the bound. -/
def FindsFirst (g : GlobalIndex) (seeds : List Bytes)
    (r : Option (Bytes × FunctionSummaryEntry × NameWalk)) : Prop :=
  (r = none ∧ ∀ p name callers,
      Route (callEdges g.openCalls) Prod.snd seeds p (name :: callers) →
        p.length ≤ kMaxDepth → ¬ g.Throws name) ∨
    ∃ p hit callers summary st, r = some (hit, summary, st) ∧
      g.findFunctionSummary hit = some summary ∧
      FirstCall g.openCalls seeds g.Throws p hit callers ∧ p.length ≤ kMaxDepth ∧
      FoundBy st.parent Prod.fst (hit :: callers)

theorem escapeLoop_spec {rounds : ℕ} {done : List (Bytes × ℕ)} {st : NameWalk}
    (h : Walked g.openCalls seeds done st) (hdone : ∀ x ∈ done, ¬ g.Throws x.1)
    (hrounds : (seeds ++ g.functionSummaries.entries.flatMap (·.unguardedCalls)).length ≤
      rounds + done.length) :
    g.FindsFirst seeds (g.escapeLoop rounds st) := by
  have hnames : ∀ b, g.openCalls b ⊆ g.functionSummaries.entries.flatMap (·.unguardedCalls) := by
    intro b callee hcallee
    obtain ⟨summary, hs, -, -, hcall⟩ := exists_of_mem_openCalls hcallee
    exact List.mem_flatMap.mpr ⟨summary, mem_of_findFunctionSummary hs, hcall⟩
  have hempty : ∀ {done st}, Walked g.openCalls seeds done st → st.queue = [] →
      (∀ x ∈ done, ¬ g.Throws x.1) → ∀ p name callers,
        Route (callEdges g.openCalls) Prod.snd seeds p (name :: callers) →
          p.length ≤ kMaxDepth → ¬ g.Throws name := by
    intro done st h hq hdone p name callers hr hlen
    obtain ⟨d, hd⟩ := h.mem_done hq hr hlen
    exact hdone _ hd
  induction rounds generalizing done st with
  | zero =>
    -- as many names were taken off as there are
    have hlen := h.length_le hnames
    rw [List.length_append] at hlen
    have hq : st.queue = [] := List.length_eq_zero_iff.mp (by omega)
    exact .inl ⟨rfl, hempty h hq hdone⟩
  | succ rounds ih =>
    rw [escapeLoop]
    rcases hq : st.queue with _ | ⟨⟨name, depth⟩, rest⟩
    · exact .inl ⟨rfl, hempty h hq hdone⟩
    · have hnext : ∀ {st'}, Walked g.openCalls seeds (done ++ [(name, depth)]) st' →
          ¬ g.Throws name → g.FindsFirst seeds (g.escapeLoop rounds st') := by
        intro st' h' hname
        refine ih h' (fun x hx => ?_) ?_
        · rcases List.mem_append.mp hx with hx | hx
          · exact hdone x hx
          · rw [List.mem_singleton.mp hx]
            exact hname
        · rw [@List.length_append _ done, List.length_singleton]
          omega
      dsimp only
      rcases hs : g.findFunctionSummary name with _ | summary
      · have hno : g.openCalls name = [] := by simp [openCalls, hs]
        exact hnext (h.skip hq (.inr hno)) (by simp [Throws, hs])
      · dsimp only
        rcases hthrow : summary.hasUncaughtThrow
        · have hname : ¬ g.Throws name := by simp [Throws, hs, hthrow]
          rw [if_neg (by simp)]
          split_ifs with hdepth hboundary
          · exact hnext (h.skip hq (.inl hdepth)) hname
          · have hno : g.openCalls name = [] := by simp [openCalls, hs, hboundary]
            exact hnext (h.skip hq (.inr hno)) hname
          · have hstep := h.next hq
            rw [if_neg hdepth, openCalls_of_summary hs hthrow (by simpa using hboundary)] at hstep
            exact hnext hstep hname
        · rw [if_pos rfl]
          obtain ⟨p, callers, hfirst, hlen, hfound⟩ := h.head_first hq hdone ⟨summary, hs, hthrow⟩
          exact .inr ⟨p, name, callers, summary, _, rfl, hs, hfirst, hlen, hfound⟩

/-! ### One root -/

/-- The contract for one root. -/
structure RootContract (g : GlobalIndex) (r : FunctionSummaryEntry) (o : Option EscapeFinding) :
    Prop where
  reported : o.isSome ↔ r.hasUncaughtThrow = true ∨ g.Escapes r
  chain : ∀ f, o = some f → r.hasUncaughtThrow = false →
    g.EscapeChain r.unguardedCalls f.hops ∧ f.hops.length ≤ kMaxDepth ∧
      ∀ chain, g.EscapeChain r.unguardedCalls chain → f.hops.length ≤ chain.length

variable {inc : Bool} {r : FunctionSummaryEntry}

theorem root_of_escapeOf {f : EscapeFinding} (h : g.escapeOf inc r = some f) : f.root = r := by
  rw [escapeOf, Option.filter_eq_some_iff] at h
  obtain ⟨hfound, -⟩ := h
  rcases hthrow : r.hasUncaughtThrow
  · rw [hthrow, if_neg (by simp)] at hfound
    rcases hloop : g.escapeLoop (g.escapeRounds r) (seeded r.unguardedCalls) with _ | ⟨n, s, st⟩
    · rw [hloop] at hfound
      cases hfound
    · rw [hloop] at hfound
      rw [← Option.some.inj hfound]
  · rw [hthrow, if_pos rfl] at hfound
    rw [← Option.some.inj hfound]

/-- A root without a throw of its own: nothing is met, or the first function that throws. -/
theorem escapeOf_silent (inc : Bool) (hthrow : r.hasUncaughtThrow = false) :
    (g.escapeOf inc r = none ∧ ∀ p name callers,
        Route (callEdges g.openCalls) Prod.snd r.unguardedCalls p (name :: callers) →
          p.length ≤ kMaxDepth → ¬ g.Throws name) ∨
      ∃ p hit callers summary site, g.findFunctionSummary hit = some summary ∧
        FirstCall g.openCalls r.unguardedCalls g.Throws p hit callers ∧ p.length ≤ kMaxDepth ∧
        g.escapeOf inc r = if hit = [] then none else
          some { root := r, hit, throwSite := site,
                 hops := ((hit :: callers).takeWhile (· ≠ [])).reverse } := by
  have hfinds : g.FindsFirst r.unguardedCalls
      (g.escapeLoop (g.escapeRounds r) (seeded r.unguardedCalls)) :=
    escapeLoop_spec (walked_seeded _ _) (by simp) (by simp [escapeRounds])
  rcases hfinds with ⟨hloop, hno⟩ | ⟨p, hit, callers, summary, st, hloop, hs, hfirst, hlen, hfound⟩
  · refine .inl ⟨?_, hno⟩
    rw [escapeOf, hloop]
    simp [hthrow]
  · have hshort : callers.length < kMaxDepth := by
      have := hfirst.route.length_eq
      rw [List.length_cons] at this
      omega
    refine .inr ⟨p, hit, callers, summary, if inc then summary.uncaughtThrowSite else [], hs,
      hfirst, hlen, ?_⟩
    rw [escapeOf, hloop, hthrow]
    dsimp only
    rw [hopsBack_of_foundBy hfound hshort]
    by_cases hhit : hit = []
    · simp [hhit]
    · simp [hhit, Option.filter]

theorem escapes_of_route {summary : FunctionSummaryEntry}
    (hs : g.findFunctionSummary hit = some summary) (hboundary : summary.isNoexcept = false)
    (hfirst : FirstCall g.openCalls seeds g.Throws p hit callers) :
    g.EscapeChain seeds (hit :: callers).reverse := by
  obtain ⟨summary', hs', hthrow⟩ := hfirst.ends
  obtain rfl := Option.some.inj (hs.symm.trans hs')
  rw [List.reverse_cons]
  exact escapeChain_of_route hfirst.route rfl fun calls hcalls => .throws hcalls hs hboundary hthrow

/-- The last function of a chain is no boundary. -/
theorem not_noexcept_of_escapeChain {calls chain : List Bytes} (h : g.EscapeChain calls chain)
    (hlast : chain.getLast? = some name) {summary : FunctionSummaryEntry}
    (hs : g.findFunctionSummary name = some summary) : summary.isNoexcept = false := by
  induction h with
  | throws _ hs' hboundary _ =>
    obtain rfl := Option.some.inj hlast
    rwa [← Option.some.inj (hs'.symm.trans hs)]
  | calls _ _ _ hchain ih =>
    refine ih ?_
    cases hchain <;> exact hlast

/-- A root is reported as it should be exactly when no boundary stands before the first throw. -/
theorem rootContract_iff (inc : Bool) (r : FunctionSummaryEntry) :
    g.RootContract r (g.escapeOf inc r) ↔ g.BoundaryClear r := by
  rcases hthrow : r.hasUncaughtThrow
  · rcases escapeOf_silent (g := g) inc hthrow with
      ⟨hnone, hno⟩ | ⟨p, hit, callers, summary, site, hs, hfirst, hlen, hof⟩
    · -- nothing throws within the bound
      refine iff_of_true ⟨?_, ?_⟩ ⟨by simp [hthrow], fun _ p hit callers hfirst hlen => ?_⟩
      · have hnot : ¬ g.Escapes r := by
          rintro ⟨chain, hchain, hlen⟩
          obtain ⟨p, hit, callers, hr, hhit, hle⟩ := @exists_route_of_escapeChain
            _ r.unguardedCalls _ _ hchain 0 fun name hname => by
              obtain ⟨i, hi⟩ := List.mem_iff_getElem?.mp hname
              exact ⟨[i], [], .start hi, le_rfl⟩
          exact hno p hit callers hr (by omega) hhit
        simp [hnone, hthrow, hnot]
      · simp [hnone]
      · exact absurd hfirst.ends (hno p hit callers hfirst.route hlen)
    · have hclear : g.BoundaryClear r ↔
          (([] ∉ hit :: callers ∧ summary.isNoexcept = false) ∨ hit = [] ∧ ¬ g.Escapes r) := by
        constructor
        · rintro ⟨-, h⟩
          exact (h hthrow p hit callers hfirst hlen).imp_left fun h => ⟨h.1, h.2 _ hs⟩
        · refine fun h => ⟨by simp [hthrow], fun _ q hit' callers' hfirst' _ => ?_⟩
          obtain ⟨rfl, rfl, rfl⟩ := hfirst.unique hfirst'
          exact h.imp_left fun h => ⟨h.1, fun s hs' => Option.some.inj (hs.symm.trans hs') ▸ h.2⟩
      rw [hclear, hof]
      by_cases hhit : hit = []
      · -- a hit without a name is not reported
        subst hhit
        have hempty : ¬ ([] : Bytes) ∉ ([] : Bytes) :: callers := by simp
        constructor
        · intro h
          refine .inr ⟨rfl, fun hesc => ?_⟩
          simpa using h.reported.mpr (.inr hesc)
        · rintro (⟨h, -⟩ | ⟨-, hno⟩)
          · exact absurd h hempty
          · exact ⟨by simp [hthrow, hno], by simp⟩
      · rw [if_neg hhit]
        have hsize := hfirst.route.length_eq
        constructor
        · intro h
          obtain ⟨hchain, -, -⟩ := h.chain _ rfl hthrow
          dsimp only at hchain
          have hle := length_le_of_escapeChain hfirst hchain
          rw [List.length_reverse, hsize] at hle
          -- no name was cut off, so the chain is the route
          have hall : (hit :: callers).takeWhile (· ≠ []) = hit :: callers :=
            (List.takeWhile_prefix _).eq_of_length_le hle
          rw [hall] at hchain
          exact .inl ⟨takeWhile_eq_self_iff.mp hall,
            not_noexcept_of_escapeChain hchain (by simp) hs⟩
        · rintro (⟨hnames, hboundary⟩ | ⟨hempty, -⟩)
          · have hchain := escapes_of_route hs hboundary hfirst
            have hall := takeWhile_eq_self_iff.mpr hnames
            have hlen' : (hit :: callers).reverse.length ≤ kMaxDepth := by
              rw [List.length_reverse, ← hsize]
              exact hlen
            refine ⟨iff_of_true rfl (.inr ⟨_, hchain, hlen'⟩), ?_⟩
            rintro f hf -
            obtain rfl := Option.some.inj hf
            dsimp only
            rw [hall]
            refine ⟨hchain, hlen', fun chain h => ?_⟩
            rw [List.length_reverse, ← hsize]
            exact length_le_of_escapeChain hfirst h
          · exact absurd hempty hhit
  · have hof : g.escapeOf inc r =
        if r.qualifiedName = [] then none else some { root := r, hit := r.qualifiedName } := by
      rw [escapeOf, hthrow]
      by_cases hname : r.qualifiedName = [] <;> simp [hname, Option.filter]
    rw [hof]
    constructor
    · intro h
      refine ⟨fun _ hname => ?_, by simp [hthrow]⟩
      rw [if_pos hname] at h
      simpa using h.reported.mpr (.inl hthrow)
    · intro h
      rw [if_neg (h.1 hthrow)]
      exact ⟨by simp [hthrow], by simp [hthrow]⟩

/-! ### All roots -/

theorem mem_exceptionEscapes {inc : Bool} {sort : Sorter FunctionSummaryEntry.before}
    {f : EscapeFinding} : f ∈ g.exceptionEscapes inc sort ↔
      f.root ∈ g.functionSummaries.entries ∧ f.root.isNoexcept = true ∧
        g.escapeOf inc f.root = some f := by
  rw [exceptionEscapes, List.mem_filterMap]
  constructor
  · rintro ⟨r, hr, hof⟩
    obtain rfl := root_of_escapeOf hof
    rw [(sort.perm _).mem_iff, List.mem_filter] at hr
    exact ⟨hr.1, hr.2, hof⟩
  · rintro ⟨hr, hno, hof⟩
    exact ⟨f.root, (sort.perm _).mem_iff.mpr (List.mem_filter.mpr ⟨hr, hno⟩), hof⟩

/-- **When findings respect noexcept boundaries**: exactly when no noexcept function meets a
boundary that throws before every function that is none. -/
theorem exceptionEscapes_contract_iff (g : GlobalIndex) (inc : Bool)
    (sort : Sorter FunctionSummaryEntry.before) :
    g.EscapeContract (g.exceptionEscapes inc sort) ↔
      ∀ r ∈ g.functionSummaries.entries, r.isNoexcept = true → g.BoundaryClear r := by
  have hsome : ∀ r ∈ g.functionSummaries.entries, r.isNoexcept = true →
      ((∃ f ∈ g.exceptionEscapes inc sort, f.root = r) ↔ (g.escapeOf inc r).isSome = true) := by
    intro r hr hno
    rw [Option.isSome_iff_exists]
    constructor
    · rintro ⟨f, hf, rfl⟩
      exact ⟨f, (mem_exceptionEscapes.mp hf).2.2⟩
    · rintro ⟨f, hof⟩
      obtain rfl := root_of_escapeOf hof
      exact ⟨f, mem_exceptionEscapes.mpr ⟨hr, hno, hof⟩, rfl⟩
  constructor
  · intro h r hr hno
    refine (rootContract_iff inc r).mp ⟨?_, fun f hof hthrow => ?_⟩
    · rw [← hsome r hr hno]
      exact h.reported r hr hno
    · obtain rfl := root_of_escapeOf hof
      exact h.chain f (mem_exceptionEscapes.mpr ⟨hr, hno, hof⟩) hthrow
  · intro h
    refine ⟨fun f hf => ?_, fun r hr hno => ?_, fun f hf hthrow => ?_⟩
    · exact ⟨(mem_exceptionEscapes.mp hf).1, (mem_exceptionEscapes.mp hf).2.1⟩
    · rw [hsome r hr hno]
      exact ((rootContract_iff inc r).mpr (h r hr hno)).reported
    · obtain ⟨hr, hno, hof⟩ := mem_exceptionEscapes.mp hf
      exact ((rootContract_iff inc f.root).mpr (h f.root hr hno)).chain f hof hthrow

/-- `r` is noexcept and calls `f`, which is noexcept too and throws. -/
def throwingBoundary : GlobalIndex :=
  (({} : GlobalIndex).addFunctionSummary
    { qualifiedName := text "r", isNoexcept := true, unguardedCalls := [text "f"] }).addFunctionSummary
      { qualifiedName := text "f", isNoexcept := true, hasUncaughtThrow := true }

/-- `r` is reported although every call of it ends at a boundary. -/
theorem exceptionEscapes_crosses_boundary :
    ¬ ∀ (g : GlobalIndex) (inc : Bool) (sort : Sorter FunctionSummaryEntry.before),
      g.EscapeContract (g.exceptionEscapes inc sort) := by
  intro h
  have hreported := (h throwingBoundary false summarySorter).reported
    { qualifiedName := text "r", isNoexcept := true, unguardedCalls := [text "f"] }
    (by decide +kernel) rfl
  have hfound : ∃ f ∈ throwingBoundary.exceptionEscapes false summarySorter, f.root =
      { qualifiedName := text "r", isNoexcept := true, unguardedCalls := [text "f"] } := by
    decide +kernel
  obtain ⟨chain, hchain, -⟩ := (hreported.mp hfound).resolve_left (by simp)
  have hf : throwingBoundary.findFunctionSummary (text "f") =
      some { qualifiedName := text "f", isNoexcept := true, hasUncaughtThrow := true } := by
    decide +kernel
  cases hchain with
  | throws hcall hs hboundary _ =>
    rw [List.mem_singleton.mp hcall, hf] at hs
    rw [← Option.some.inj hs] at hboundary
    cases hboundary
  | calls hcall hs hboundary _ =>
    rw [List.mem_singleton.mp hcall, hf] at hs
    rw [← Option.some.inj hs] at hboundary
    cases hboundary

end GlobalIndex

end Vycor
