import Vycor.Check.NameWalk
import Vycor.Check.Replay

/-!
# Static initialization order

`analyzeStaticInitOrder` reports, for each dynamically initialized variable, the globals that
its initializer reads, directly or through calls, and that another file initializes
dynamically. A global is looked up by its name, and the lookup knows one entry for a name:
`initOrders_contract_iff` says exactly when the findings are those of the whole index.
-/

namespace Vycor

open NameWalk

/-- A variable whose initializer runs at load time. -/
def StaticInitEntry.isDynamicVariable (e : StaticInitEntry) : Bool :=
  e.dynamicInit && !e.isConstructorFn

/-- The comparison of the entries. -/
def StaticInitEntry.before (a b : StaticInitEntry) : Bool :=
  siteBefore a.filePath b.filePath a.line.toNat b.line.toNat a.qualifiedName b.qualifiedName

/-- The stable sort of the entries. -/
def staticInitSorter : Sorter StaticInitEntry.before :=
  .byKey (fun e => toLex (e.filePath, toLex (e.line.toNat, e.qualifiedName))) fun a b => by
    rw [Bool.eq_iff_iff, decide_eq_true_iff]
    exact siteBefore_iff

/-- What a variable and a target are reported with. -/
structure InitOrderFinding where
  entry : StaticInitEntry
  target : StaticInitEntry
  hops : List Bytes
  deriving DecidableEq, Repr

/-- The name of the target. -/
def InitOrderFinding.targetName (f : InitOrderFinding) : Bytes := f.target.qualifiedName

/-- `report`: one finding for a variable and the name of a target. -/
def reportTarget (found : List InitOrderFinding) (f : InitOrderFinding) : List InitOrderFinding :=
  if f.targetName ∈ found.map InitOrderFinding.targetName then found else found ++ [f]

namespace GlobalIndex

variable (g : GlobalIndex) (entry : StaticInitEntry)

/-- `resolveTarget`. -/
def resolveTarget (ref : Bytes) : Option StaticInitEntry :=
  (g.findStaticInit ref).filter fun target =>
    -- unknown, or initialized before all dynamic init: safe
    target.isDynamicVariable &&
      -- same TU: top-to-bottom order is guaranteed
      decide (target.filePath ≠ entry.filePath)

/-- The loop over referenced globals. -/
def reportRefs (hops : List Bytes) (found : List InitOrderFinding) (refs : List Bytes) :
    List InitOrderFinding :=
  refs.foldl (fun found ref =>
    match g.resolveTarget entry ref with
    | none => found
    | some target => reportTarget found ⟨entry, target, hops⟩) found

/-- The names from a seed to `name`. -/
def hopsTo (st : NameWalk) (name : Bytes) : List Bytes :=
  (name :: NameWalk.hopsBack st kMaxDepth (NameWalk.parentOf st name)).reverse

/-- The loop over the queue. -/
def initOrderLoop : ℕ → NameWalk → List InitOrderFinding → List InitOrderFinding
  | 0, _, found => found
  | rounds + 1, st, found =>
    match st.queue with
    | [] => found
    | (name, depth) :: rest =>
      let st : NameWalk := { st with queue := rest }
      match g.findFunctionSummary name with
      | none => initOrderLoop rounds st found
      | some summary =>
        let found := g.reportRefs entry (hopsTo st name) found summary.referencedGlobals
        if kMaxDepth ≤ depth + 1 then initOrderLoop rounds st found
        else initOrderLoop rounds (NameWalk.follow st name depth summary.calledFunctions) found

/-- The rounds a walk may take: every name is queued once. -/
def initOrderRounds : ℕ :=
  (entry.calledFunctions ++ g.functionSummaries.entries.flatMap (·.calledFunctions)).length

/-- The body of the loop over the entries. -/
def initOrdersOf : List InitOrderFinding :=
  g.initOrderLoop entry (g.initOrderRounds entry) (NameWalk.seeded entry.calledFunctions)
    (g.reportRefs entry [] [] entry.referencedGlobals)

/-- The diagnostic of a finding. -/
def initOrderDiagnostic (f : InitOrderFinding) : Diagnostic :=
  let site := f.entry.filePath ++ text ":" ++ decimal f.entry.line.toNat
  let chain := (text " -> ").intercalate f.hops
  { kind := .StaticInit_OrderDependency
    callLocation := site
    entities := [f.entry.qualifiedName, f.target.qualifiedName]
    message := text "Static initialization order fiasco: '" ++ f.entry.qualifiedName ++
      text "' (" ++ site ++ text ") is dynamically initialized from '" ++
      f.target.qualifiedName ++ text "' (" ++ f.target.filePath ++ text ":" ++
      decimal f.target.line.toNat ++ text ")" ++
      (if chain = [] then [] else text " via " ++ chain) ++
      text ", which is itself dynamically initialized in a different TU. " ++
      text "Cross-TU initialization order is unspecified — the reader may " ++
      text "observe its zero/constant-initialized state. Use a " ++
      text "construct-on-first-use function-local static, or make the " ++
      text "dependency constinit/constexpr." }

/-- The findings of `analyzeStaticInitOrder`, in its order. -/
def initOrders (sort : Sorter StaticInitEntry.before) : List InitOrderFinding :=
  (sort.run (g.staticInits.entries.filter fun e => e.isDynamicVariable &&
    (!e.referencedGlobals.isEmpty || !e.calledFunctions.isEmpty))).flatMap g.initOrdersOf

/-- `analyzeStaticInitOrder`. -/
def analyzeStaticInitOrder (sort : Sorter StaticInitEntry.before) (diagnostics : List Diagnostic) :
    List Diagnostic :=
  diagnostics ++ (g.initOrders sort).map initOrderDiagnostic

end GlobalIndex

/-! ### What the findings should be -/

namespace GlobalIndex

variable (g : GlobalIndex) (v : StaticInitEntry) (t : Bytes)

/-- The calls of a function, none where it is not summarized. -/
def summaryCalls (name : Bytes) : List Bytes :=
  ((g.findFunctionSummary name).map (·.calledFunctions)).getD []

/-- The body of a summarized function references a global. -/
def References (name : Bytes) : Prop :=
  ∃ summary, g.findFunctionSummary name = some summary ∧ t ∈ summary.referencedGlobals

/-- A chain of calls out of an initializer to a function that references a global. -/
def ReadChain (chain : List Bytes) : Prop :=
  CallsTo g.summaryCalls (g.References t) v.calledFunctions chain

/-- The initializer of `v` references `t`, or calls a chain that ends with a reference. -/
def Reads : Prop :=
  t ∈ v.referencedGlobals ∨ ∃ chain, g.ReadChain v t chain ∧ chain.length ≤ kMaxDepth

/-- Some variable of this name is dynamically initialized in another file. -/
def DynamicElsewhere : Prop :=
  ∃ e ∈ g.staticInits.entries, e.qualifiedName = t ∧ e.isDynamicVariable = true ∧
    e.filePath ≠ v.filePath

/-- **Static-initialization-order findings are exact**: a dynamically initialized variable is
reported with every name it reads that is dynamic elsewhere, once, with a shortest chain. -/
structure InitOrderContract (found : List InitOrderFinding) : Prop where
  entries : ∀ f ∈ found, f.entry ∈ g.staticInits.entries ∧ f.entry.isDynamicVariable = true
  reported : ∀ v ∈ g.staticInits.entries, v.isDynamicVariable = true → ∀ t,
    (∃ f ∈ found, f.entry = v ∧ f.targetName = t) ↔ g.Reads v t ∧ g.DynamicElsewhere v t
  once : found.Pairwise fun f f' => ¬ (f.entry = f'.entry ∧ f.targetName = f'.targetName)
  chain : ∀ f ∈ found,
    (f.targetName ∈ f.entry.referencedGlobals → f.hops = []) ∧
      (f.targetName ∉ f.entry.referencedGlobals →
        g.ReadChain f.entry f.targetName f.hops ∧ f.hops.length ≤ kMaxDepth ∧
          ∀ chain, g.ReadChain f.entry f.targetName chain → f.hops.length ≤ chain.length)

/-- The entry that stands for a name is dynamic elsewhere. -/
def FirstElsewhere : Prop :=
  ∃ e, g.findStaticInit t = some e ∧ e.isDynamicVariable = true ∧ e.filePath ≠ v.filePath

/-- What `v` reads and is dynamic elsewhere, the lookup by name finds so; and no caller on the
route that a walk takes to it has an empty name. -/
def LookupDecides : Prop :=
  ∀ t, g.Reads v t → g.DynamicElsewhere v t →
    g.FirstElsewhere v t ∧ (t ∉ v.referencedGlobals → ∀ p name callers,
      FirstCall g.summaryCalls v.calledFunctions (g.References t) p name callers →
        [] ∉ callers)

variable {g v t}

/-! ### Lookups -/

/-- The entry that stands for a name is the first of that name. -/
theorem Built.findStaticInit (h : Built g) (name : Bytes) :
    g.findStaticInit name = g.staticInits.entries.find? fun e => e.qualifiedName == name := by
  rw [GlobalIndex.findStaticInit, h.inv.staticInitByName, List.find?_eq_bind_findIdx?_getElem?]

theorem Built.of_findStaticInit (h : Built g) {name : Bytes} {e : StaticInitEntry}
    (he : g.findStaticInit name = some e) :
    e ∈ g.staticInits.entries ∧ e.qualifiedName = name := by
  rw [h.findStaticInit] at he
  exact ⟨List.mem_of_find?_eq_some he, by simpa using List.find?_some he⟩

theorem resolveTarget_eq_some {ref : Bytes} {target : StaticInitEntry} :
    g.resolveTarget v ref = some target ↔ g.findStaticInit ref = some target ∧
      target.isDynamicVariable = true ∧ target.filePath ≠ v.filePath := by
  rw [resolveTarget, Option.filter_eq_some_iff, Bool.and_eq_true, decide_eq_true_iff]

theorem exists_resolveTarget : (∃ target, g.resolveTarget v t = some target) ↔
    g.FirstElsewhere v t := by
  simp only [resolveTarget_eq_some, FirstElsewhere]

theorem Built.dynamicElsewhere (h : Built g) (hf : g.FirstElsewhere v t) :
    g.DynamicElsewhere v t := by
  obtain ⟨e, he, hdyn, hfile⟩ := hf
  obtain ⟨hmem, hname⟩ := h.of_findStaticInit he
  exact ⟨e, hmem, hname, hdyn, hfile⟩

theorem Built.targetName (h : Built g) {ref : Bytes} {target : StaticInitEntry}
    (ht : g.resolveTarget v ref = some target) : target.qualifiedName = ref :=
  (h.of_findStaticInit (resolveTarget_eq_some.mp ht).1).2

/-! ### Reporting -/

/-- What the loop over references does: it adds, once each, the names that resolve. -/
theorem reportRefs_spec (h : Built g) (hops : List Bytes) (refs : List Bytes)
    (found : List InitOrderFinding) (hnd : (found.map InitOrderFinding.targetName).Nodup) :
    ((g.reportRefs v hops found refs).map InitOrderFinding.targetName).Nodup ∧
      found ⊆ g.reportRefs v hops found refs ∧
      (∀ ref ∈ refs, g.FirstElsewhere v ref →
        ref ∈ (g.reportRefs v hops found refs).map InitOrderFinding.targetName) ∧
      ∀ f ∈ g.reportRefs v hops found refs, f ∈ found ∨
        f.targetName ∈ refs ∧ f.targetName ∉ found.map InitOrderFinding.targetName ∧
          f.entry = v ∧ f.hops = hops ∧ g.FirstElsewhere v f.targetName := by
  induction refs generalizing found with
  | nil => exact ⟨hnd, fun _ hf => hf, by simp, fun f hf => .inl hf⟩
  | cons ref refs ih =>
    rw [reportRefs, List.foldl_cons]
    rcases ht : g.resolveTarget v ref with _ | target
    · -- the name does not resolve
      obtain ⟨hnd', hsub, hall, hnew⟩ := ih found hnd
      refine ⟨hnd', hsub, fun r hr hf => ?_, fun f hf => ?_⟩
      · rcases List.mem_cons.mp hr with rfl | hr
        · obtain ⟨target, hsome⟩ := exists_resolveTarget.mpr hf
          rw [ht] at hsome
          cases hsome
        · exact hall r hr hf
      · exact (hnew f hf).imp_right fun ⟨hmem, hrest⟩ => ⟨List.mem_cons_of_mem _ hmem, hrest⟩
    · have hname := h.targetName ht
      have hfirst := exists_resolveTarget.mp ⟨target, ht⟩
      dsimp only
      rw [reportTarget]
      have hdef : (⟨v, target, hops⟩ : InitOrderFinding).targetName = ref := hname
      rw [hdef]
      split_ifs with hold
      · -- the name was reported before
        obtain ⟨hnd', hsub, hall, hnew⟩ := ih found hnd
        refine ⟨hnd', hsub, fun r hr hf => ?_, fun f hf => ?_⟩
        · rcases List.mem_cons.mp hr with rfl | hr
          · exact List.map_subset _ hsub hold
          · exact hall r hr hf
        · exact (hnew f hf).imp_right fun ⟨hmem, hrest⟩ => ⟨List.mem_cons_of_mem _ hmem, hrest⟩
      · have hmap : (found ++ [(⟨v, target, hops⟩ : InitOrderFinding)]).map
            InitOrderFinding.targetName = found.map InitOrderFinding.targetName ++ [ref] := by
          rw [List.map_append, List.map_singleton, hdef]
        obtain ⟨hnd', hsub, hall, hnew⟩ := ih (found ++ [⟨v, target, hops⟩]) (by
          rw [hmap]
          exact List.nodup_append.mpr ⟨hnd, List.nodup_singleton _, fun a ha b hb =>
            fun heq => hold (List.mem_singleton.mp hb ▸ heq ▸ ha)⟩)
        refine ⟨hnd', fun f hf => hsub (List.mem_append_left _ hf), fun r hr hf => ?_,
          fun f hf => ?_⟩
        · rcases List.mem_cons.mp hr with rfl | hr
          · refine List.map_subset _ hsub ?_
            rw [hmap]
            simp
          · exact hall r hr hf
        · rcases hnew f hf with hf | ⟨hmem, hno, hrest⟩
          · rcases List.mem_append.mp hf with hf | hf
            · exact .inl hf
            · rw [List.mem_singleton.mp hf, hdef]
              exact .inr ⟨List.mem_cons_self, hold, rfl, rfl, hfirst⟩
          · refine .inr ⟨List.mem_cons_of_mem _ hmem, fun hin => hno ?_, hrest⟩
            rw [hmap]
            exact List.mem_append_left _ hin

/-! ### The walk of one variable -/

/-- A finding of `v`: a name it references, or the end of the first route to a reference. -/
structure Reported (g : GlobalIndex) (v : StaticInitEntry) (f : InitOrderFinding) : Prop where
  entry : f.entry = v
  elsewhere : g.FirstElsewhere v f.targetName
  hops : (f.targetName ∈ v.referencedGlobals ∧ f.hops = []) ∨
    f.targetName ∉ v.referencedGlobals ∧ ∃ p name callers,
      FirstCall g.summaryCalls v.calledFunctions (g.References f.targetName) p name callers ∧
        p.length ≤ kMaxDepth ∧ f.hops = (name :: callers.takeWhile (· ≠ [])).reverse

/-- What is reported once the names of `done` were taken off the queue. -/
structure ReportInv (g : GlobalIndex) (v : StaticInitEntry) (done : List (Bytes × ℕ))
    (found : List InitOrderFinding) : Prop where
  nodup : (found.map InitOrderFinding.targetName).Nodup
  direct : ∀ t ∈ v.referencedGlobals, g.FirstElsewhere v t →
    t ∈ found.map InitOrderFinding.targetName
  met : ∀ x ∈ done, ∀ t, g.References t x.1 → g.FirstElsewhere v t →
    t ∈ found.map InitOrderFinding.targetName
  reported : ∀ f ∈ found, g.Reported v f

theorem reportInv_start (h : Built g) :
    g.ReportInv v [] (g.reportRefs v [] [] v.referencedGlobals) := by
  obtain ⟨hnd, -, hall, hnew⟩ := reportRefs_spec (v := v) h [] v.referencedGlobals [] List.nodup_nil
  refine ⟨hnd, hall, by simp, fun f hf => ?_⟩
  obtain ⟨hmem, -, hentry, hhops, hfirst⟩ := (hnew f hf).resolve_left (by simp)
  exact ⟨hentry, hfirst, .inl ⟨hmem, hhops⟩⟩

/-- A name without a summary references nothing. -/
theorem ReportInv.skip {done : List (Bytes × ℕ)} {found : List InitOrderFinding} {name : Bytes}
    {depth : ℕ} (hi : g.ReportInv v done found) (hs : g.findFunctionSummary name = none) :
    g.ReportInv v (done ++ [(name, depth)]) found := by
  refine ⟨hi.nodup, hi.direct, fun x hx t href => ?_, hi.reported⟩
  rcases List.mem_append.mp hx with hx | hx
  · exact hi.met x hx t href
  · rw [List.mem_singleton.mp hx] at href
    obtain ⟨summary, hs', -⟩ := href
    rw [hs] at hs'
    cases hs'

/-- The references of the name at the head of the queue. -/
theorem ReportInv.refs (h : Built g) {done rest : List (Bytes × ℕ)}
    {found : List InitOrderFinding} {st : NameWalk} {name : Bytes} {depth : ℕ}
    (hi : g.ReportInv v done found) (hw : Walked g.summaryCalls v.calledFunctions done st)
    (hq : st.queue = (name, depth) :: rest) {summary : FunctionSummaryEntry}
    (hs : g.findFunctionSummary name = some summary) :
    g.ReportInv v (done ++ [(name, depth)])
      (g.reportRefs v (hopsTo { st with queue := rest } name) found summary.referencedGlobals) := by
  obtain ⟨hnd, hsub, hall, hnew⟩ := reportRefs_spec (v := v) h
    (hopsTo { st with queue := rest } name) summary.referencedGlobals found hi.nodup
  refine ⟨hnd, fun t ht hf => List.map_subset _ hsub (hi.direct t ht hf), fun x hx t href hf => ?_,
    fun f hf => ?_⟩
  · rcases List.mem_append.mp hx with hx | hx
    · exact List.map_subset _ hsub (hi.met x hx t href hf)
    · rw [List.mem_singleton.mp hx] at href
      obtain ⟨summary', hs', ht⟩ := href
      obtain rfl := Option.some.inj (hs.symm.trans hs')
      exact hall t ht hf
  · rcases hnew f hf with hf | ⟨hmem, hno, hentry, hhops, hfirst⟩
    · exact hi.reported f hf
    · -- nothing before referenced the name, or it would be reported
      obtain ⟨p, callers, hcall, hlen, hfound⟩ := hw.head_first hq
        (P := g.References f.targetName) (fun x hx href => hno (hi.met x hx _ href hfirst))
        ⟨summary, hs, hmem⟩
      have hshort : callers.length ≤ kMaxDepth := by
        have := hcall.route.length_eq
        rw [List.length_cons] at this
        omega
      refine ⟨hentry, hfirst, .inr ⟨fun hin => hno (hi.direct _ hin hfirst), p, name, callers, hcall,
        hlen, ?_⟩⟩
      have hback := @hopsBack_parentOf _ _ { st with queue := rest } hfound _ hshort
      rw [hhops, hopsTo, hback]

/-- Every reference within the bound is reported. -/
structure ReportsAll (g : GlobalIndex) (v : StaticInitEntry) (found : List InitOrderFinding) :
    Prop where
  nodup : (found.map InitOrderFinding.targetName).Nodup
  direct : ∀ t ∈ v.referencedGlobals, g.FirstElsewhere v t →
    t ∈ found.map InitOrderFinding.targetName
  met : ∀ t p name callers, Route (callEdges g.summaryCalls) Prod.snd v.calledFunctions p
    (name :: callers) → p.length ≤ kMaxDepth → g.References t name → g.FirstElsewhere v t →
      t ∈ found.map InitOrderFinding.targetName
  reported : ∀ f ∈ found, g.Reported v f

theorem summaryCalls_subset (name : Bytes) :
    g.summaryCalls name ⊆ g.functionSummaries.entries.flatMap (·.calledFunctions) := by
  intro callee hcallee
  rw [summaryCalls] at hcallee
  rcases hs : g.findFunctionSummary name with _ | summary
  · rw [hs] at hcallee
    cases hcallee
  · rw [hs] at hcallee
    exact List.mem_flatMap.mpr ⟨summary, mem_of_findFunctionSummary hs, hcallee⟩

theorem initOrderLoop_spec (h : Built g) {rounds : ℕ} {done : List (Bytes × ℕ)} {st : NameWalk}
    {found : List InitOrderFinding} (hw : Walked g.summaryCalls v.calledFunctions done st)
    (hi : g.ReportInv v done found) (hrounds : (v.calledFunctions ++
      g.functionSummaries.entries.flatMap (·.calledFunctions)).length ≤ rounds + done.length) :
    g.ReportsAll v (g.initOrderLoop v rounds st found) := by
  have hend : ∀ {done st found}, Walked g.summaryCalls v.calledFunctions done st →
      g.ReportInv v done found → st.queue = [] → g.ReportsAll v found := by
    intro done st found hw hi hq
    refine ⟨hi.nodup, hi.direct, fun t p name callers hr hlen href hf => ?_, hi.reported⟩
    obtain ⟨d, hd⟩ := hw.mem_done hq hr hlen
    exact hi.met _ hd t href hf
  induction rounds generalizing done st found with
  | zero =>
    -- as many names were taken off as there are
    have hlen := hw.length_le summaryCalls_subset
    rw [List.length_append] at hlen
    exact hend hw hi (List.length_eq_zero_iff.mp (by omega))
  | succ rounds ih =>
    rw [initOrderLoop]
    rcases hq : st.queue with _ | ⟨⟨name, depth⟩, rest⟩
    · exact hend hw hi hq
    · have hrounds' : (v.calledFunctions ++
          g.functionSummaries.entries.flatMap (·.calledFunctions)).length ≤
            rounds + (done ++ [(name, depth)]).length := by
        rw [@List.length_append _ done, List.length_singleton]
        omega
      dsimp only
      rcases hs : g.findFunctionSummary name with _ | summary
      · have hno : g.summaryCalls name = [] := by simp [summaryCalls, hs]
        exact ih (hw.skip hq (.inr hno)) (hi.skip hs) hrounds'
      · have hcalls : g.summaryCalls name = summary.calledFunctions := by simp [summaryCalls, hs]
        have hrefs := hi.refs h hw hq hs
        dsimp only
        split_ifs with hdepth
        · exact ih (hw.skip hq (.inl hdepth)) hrefs hrounds'
        · have hstep := hw.next hq
          rw [if_neg hdepth, hcalls] at hstep
          exact ih hstep hrefs hrounds'

theorem initOrdersOf_spec (h : Built g) (v : StaticInitEntry) :
    g.ReportsAll v (g.initOrdersOf v) :=
  initOrderLoop_spec h (walked_seeded _ _) (reportInv_start h) (by simp [initOrderRounds])

/-! ### All variables -/

theorem Reported.reads {f : InitOrderFinding} (hf : g.Reported v f) : g.Reads v f.targetName := by
  rcases hf.hops with ⟨hin, -⟩ | ⟨-, p, name, callers, hcall, hlen, -⟩
  · exact .inl hin
  · refine .inr ⟨_, hcall.callsTo, ?_⟩
    rw [List.length_reverse, ← hcall.route.length_eq]
    exact hlen

/-- A variable is reported with what it reads and the lookup finds elsewhere. -/
theorem mem_names_initOrdersOf (h : Built g) :
    t ∈ (g.initOrdersOf v).map InitOrderFinding.targetName ↔ g.Reads v t ∧ g.FirstElsewhere v t := by
  have hall := initOrdersOf_spec h v
  constructor
  · intro ht
    obtain ⟨f, hf, rfl⟩ := List.mem_map.mp ht
    exact ⟨(hall.reported f hf).reads, (hall.reported f hf).elsewhere⟩
  · rintro ⟨hin | ⟨chain, hchain, hlen⟩, hfirst⟩
    · exact hall.direct t hin hfirst
    · obtain ⟨p, name, callers, hr, href, hp⟩ := exists_route_of_callsTo hchain
      exact hall.met t p name callers hr (hp ▸ hlen) href hfirst

/-- A variable that reads something is looked at. -/
theorem Reads.nonempty (h : g.Reads v t) :
    (!v.referencedGlobals.isEmpty || !v.calledFunctions.isEmpty) = true := by
  rcases h with hin | ⟨chain, hchain, -⟩
  · have hne := List.ne_nil_of_mem hin
    simp [hne]
  · have hne : v.calledFunctions ≠ [] := by
      cases hchain with
      | last hcall _ => exact List.ne_nil_of_mem hcall
      | call hcall _ => exact List.ne_nil_of_mem hcall
    simp [hne]

theorem mem_initOrders (h : Built g) {sort : Sorter StaticInitEntry.before}
    {f : InitOrderFinding} : f ∈ g.initOrders sort ↔ f.entry ∈ g.staticInits.entries ∧
      f.entry.isDynamicVariable = true ∧ f ∈ g.initOrdersOf f.entry := by
  rw [initOrders, List.mem_flatMap]
  constructor
  · rintro ⟨v, hv, hf⟩
    obtain rfl := ((initOrdersOf_spec h v).reported f hf).entry
    rw [(sort.perm _).mem_iff, List.mem_filter, Bool.and_eq_true] at hv
    exact ⟨hv.1, hv.2.1, hf⟩
  · rintro ⟨hmem, hdyn, hf⟩
    refine ⟨f.entry, (sort.perm _).mem_iff.mpr (List.mem_filter.mpr ⟨hmem, ?_⟩), hf⟩
    rw [Bool.and_eq_true]
    exact ⟨hdyn, ((initOrdersOf_spec h f.entry).reported f hf).reads.nonempty⟩

/-- A variable and a name are reported once. -/
theorem initOrders_once (h : Built g) (sort : Sorter StaticInitEntry.before) :
    (g.initOrders sort).Pairwise
      fun f f' => ¬ (f.entry = f'.entry ∧ f.targetName = f'.targetName) := by
  have hentry : ∀ v, ∀ f ∈ g.initOrdersOf v, f.entry = v := fun v f hf =>
    ((initOrdersOf_spec h v).reported f hf).entry
  have hnodup : g.staticInits.entries.Nodup := .of_map _ h.inv.staticInits.nodup
  rw [initOrders, List.pairwise_flatMap]
  constructor
  · intro v _
    have hnames := (initOrdersOf_spec h v).nodup
    rw [List.Nodup, List.pairwise_map] at hnames
    exact hnames.imp fun hne heq => hne heq.2
  · have hsorted := (sort.perm (g.staticInits.entries.filter fun e => e.isDynamicVariable &&
      (!e.referencedGlobals.isEmpty || !e.calledFunctions.isEmpty))).nodup_iff.mpr (hnodup.filter _)
    refine hsorted.imp fun {v v'} hne f hf f' hf' heq => hne ?_
    rw [← hentry v f hf, ← hentry v' f' hf', heq.1]

/-- The hops of a finding are a shortest chain when no caller on the route is empty. -/
theorem Reported.hops_iff {f : InitOrderFinding} (hf : g.Reported v f) {p : List ℕ} {name : Bytes}
    {callers : List Bytes} (hno : f.targetName ∉ v.referencedGlobals)
    (hcall : FirstCall g.summaryCalls v.calledFunctions (g.References f.targetName) p name callers) :
    (g.ReadChain v f.targetName f.hops ∧ f.hops.length ≤ kMaxDepth ∧
        ∀ chain, g.ReadChain v f.targetName chain → f.hops.length ≤ chain.length) ↔
      [] ∉ callers := by
  obtain ⟨-, q, name', callers', hcall', hlen, hhops⟩ := hf.hops.resolve_left fun hin => hno hin.1
  obtain ⟨rfl, rfl, rfl⟩ := hcall.unique hcall'
  have hsize := hcall.route.length_eq
  constructor
  · rintro ⟨hchain, -, -⟩
    have hle := hcall.length_le hchain
    rw [hhops, hsize, List.length_reverse, List.length_cons, List.length_cons] at hle
    exact takeWhile_eq_self_iff.mp
      ((List.takeWhile_prefix _).eq_of_length_le (Nat.le_of_succ_le_succ hle))
  · intro hempty
    rw [takeWhile_eq_self_iff.mpr hempty] at hhops
    rw [hhops, List.length_reverse, ← hsize]
    exact ⟨hcall.callsTo, hlen, fun chain hchain => hcall.length_le hchain⟩

/-- **When the findings are exact**: exactly when the entry that stands for a name decides for
every variable of that name, and no route to a reference passes an empty name. -/
theorem initOrders_contract_iff (h : Built g) (sort : Sorter StaticInitEntry.before) :
    g.InitOrderContract (g.initOrders sort) ↔
      ∀ v ∈ g.staticInits.entries, v.isDynamicVariable = true → g.LookupDecides v := by
  have hnames : ∀ v ∈ g.staticInits.entries, v.isDynamicVariable = true → ∀ t,
      (∃ f ∈ g.initOrders sort, f.entry = v ∧ f.targetName = t) ↔
        g.Reads v t ∧ g.FirstElsewhere v t := by
    intro v hv hdyn t
    rw [← mem_names_initOrdersOf h, List.mem_map]
    constructor
    · rintro ⟨f, hf, rfl, rfl⟩
      exact ⟨f, ((mem_initOrders h).mp hf).2.2, rfl⟩
    · rintro ⟨f, hf, rfl⟩
      obtain rfl := ((initOrdersOf_spec h v).reported f hf).entry
      exact ⟨f, (mem_initOrders h).mpr ⟨hv, hdyn, hf⟩, rfl, rfl⟩
  constructor
  · intro hc v hv hdyn t hreads helse
    obtain ⟨f, hf, rfl, rfl⟩ := (hc.reported v hv hdyn t).mpr ⟨hreads, helse⟩
    have hfound := (initOrdersOf_spec h f.entry).reported f ((mem_initOrders h).mp hf).2.2
    refine ⟨hfound.elsewhere, fun hno p name callers hcall => ?_⟩
    exact (hfound.hops_iff hno hcall).mp ((hc.chain f hf).2 hno)
  · intro hd
    refine ⟨fun f hf => ?_, fun v hv hdyn t => ?_, initOrders_once h sort, fun f hf => ?_⟩
    · exact ⟨((mem_initOrders h).mp hf).1, ((mem_initOrders h).mp hf).2.1⟩
    · rw [hnames v hv hdyn t]
      exact and_congr_right fun hreads =>
        ⟨h.dynamicElsewhere, fun helse => (hd v hv hdyn t hreads helse).1⟩
    · obtain ⟨hv, hdyn, hmem⟩ := (mem_initOrders h).mp hf
      have hfound := (initOrdersOf_spec h f.entry).reported f hmem
      refine ⟨fun hin => ?_, fun hno => ?_⟩
      · exact (hfound.hops.resolve_right fun hno => hno.1 hin).2
      · obtain ⟨-, p, name, callers, hcall, -⟩ := hfound.hops.resolve_left fun hin => hno hin.1
        exact (hfound.hops_iff hno hcall).mpr ((hd f.entry hv hdyn f.targetName hfound.reads
          (h.dynamicElsewhere hfound.elsewhere)).2 hno p name callers hcall)

/-- `gb` of `b.cpp` calls `f`, which reads `ga` of `a.cpp`. -/
def crossFile : GlobalIndex :=
  ((({} : GlobalIndex).addStaticInit
    { qualifiedName := text "ga", filePath := text "a.cpp", line := 1, dynamicInit := true }).addStaticInit
    { qualifiedName := text "gb", filePath := text "b.cpp", line := 1, dynamicInit := true,
      calledFunctions := [text "f"] }).addFunctionSummary
    { qualifiedName := text "f", referencedGlobals := [text "ga"] }

/-- One name, one entry: `gb` is reported with `ga`, by the chain `f`. -/
theorem initOrders_contract_crossFile :
    (crossFile.initOrders staticInitSorter).map (fun f => (f.targetName, f.hops)) =
        [(text "ga", [text "f"])] ∧
      (crossFile.InitOrderContract (crossFile.initOrders staticInitSorter) ↔
        ∀ v ∈ crossFile.staticInits.entries, v.isDynamicVariable = true →
          crossFile.LookupDecides v) :=
  ⟨by decide +kernel, initOrders_contract_iff
    (.addFunctionSummary (.addStaticInit (.addStaticInit .empty _) _) _) staticInitSorter⟩

/-- `cfg` of `c.cpp` is constant, `cfg` of `a.cpp` is not; `b.cpp` reads `cfg`. -/
def hiddenTarget : GlobalIndex :=
  ((({} : GlobalIndex).addStaticInit
    { qualifiedName := text "cfg", filePath := text "c.cpp", line := 1 }).addStaticInit
    { qualifiedName := text "cfg", filePath := text "a.cpp", line := 1, dynamicInit := true }).addStaticInit
    { qualifiedName := text "gb", filePath := text "b.cpp", line := 1, dynamicInit := true,
      referencedGlobals := [text "cfg"] }

/-- The constant entry stands for the name and hides the dynamic one. -/
theorem initOrders_hides_target : ¬ ∀ (g : GlobalIndex), Built g →
    ∀ sort : Sorter StaticInitEntry.before, g.InitOrderContract (g.initOrders sort) := by
  intro hall
  have hbuilt : Built hiddenTarget := .addStaticInit (.addStaticInit (.addStaticInit .empty _) _) _
  have hc := hall hiddenTarget hbuilt staticInitSorter
  have hnone : hiddenTarget.initOrders staticInitSorter = [] := by decide +kernel
  have hreported := (hc.reported
    { qualifiedName := text "gb", filePath := text "b.cpp", line := 1, dynamicInit := true,
      referencedGlobals := [text "cfg"] } (by decide +kernel) rfl (text "cfg")).mpr
  rw [hnone] at hreported
  obtain ⟨f, hf, -⟩ := hreported ⟨.inl (by simp),
    { qualifiedName := text "cfg", filePath := text "a.cpp", line := 1, dynamicInit := true },
    by decide +kernel, rfl, rfl, by decide +kernel⟩
  cases hf

end GlobalIndex

end Vycor
