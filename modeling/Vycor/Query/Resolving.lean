import Vycor.Query.Identity
import Vycor.Query.Messages
import Vycor.ControlFlow.CatchWalk

/-!
# What an identity resolves to

A handler is promised a function of the graph, and one alone: a node's usr or an end of an
edge, the only one that the given parameters leave (`ResolutionContract`). A name and a filter
keep the promise. A usr is looked up as a display name too, and what is called at a site is
not looked up in the graph at all, so the promise holds exactly under `NamesKnown`.
-/

namespace Vycor

/-! ### The promise -/

/-- A function of the graph: a node, or an end of an edge, stored or synthesized. -/
def CallGraph.Known (g : CallGraph) (u : Bytes) : Prop :=
  (∃ i n, g.nodes i = some n ∧ n.usr = u) ∨
  (∃ se ∈ g.edges, se.refs ≠ 0 ∧
    (g.interner.resolve se.caller = u ∨ g.interner.resolve se.callee = u)) ∨
  ∃ i r, (r ∈ g.callerRefsOf i ∨ r ∈ g.calleeRefsOf i) ∧
    (g.interner.resolve r.caller = u ∨ g.interner.resolve r.callee = u)

/-- The identity a context records for its callee. -/
def CallSiteContext.calleeIdentity (c : CallSiteContext) : Bytes :=
  if c.calleeUsr = [] then c.calleeName else c.calleeUsr

variable (ll : Llvm)

/-- A call site is recorded to call `u`, and a name given alongside agrees. -/
def SiteLeaves (ctx : ToolContext) (site : Bytes) (name : Option Bytes) (u : Bytes) : Prop :=
  (∃ contexts, ctx.cfIndex.contextsAtSite ll site = some contexts ∧
    ∃ c ∈ contexts, c.calleeIdentity = u) ∧
  ∀ n, name = some n → u = n ∨ u ∈ ctx.graph.usrsForName ll n

/-- A name stands for `u`, and where it stands for several functions a filter keeps `u`. -/
def NameLeaves (g : CallGraph) (name : Bytes) (filter : Option Bytes) (u : Bytes) : Prop :=
  (u ∈ g.usrsForName ll name ∨ g.usrsForName ll name = [] ∧ u = name) ∧
  ∀ f, filter = some f → 2 ≤ (g.usrsForName ll name).length →
    f <:+: u ∨ ∃ n, g.findNode ll u = some n ∧ (f <:+: n.qualifiedName ∨ f <:+: n.file)

/-- What the given parameters leave: the usr itself, else what the site calls, else what the
name stands for. -/
def Leaves (args : JsonObject) (ctx : ToolContext) (nameParam usrParam u : Bytes) : Prop :=
  match args.getString usrParam, args.getString (companionParam usrParam (text "site")),
    identityName args nameParam with
  | some usr, _, _ => u = usr
  | none, some site, name => SiteLeaves ll ctx site name u
  | none, none, some name =>
    NameLeaves ll ctx.graph name (args.getString (companionParam usrParam (text "filter"))) u
  | none, none, none => False

/-- A payload that says that there is no such function, or that there are several. -/
def Unresolved (payload : Json) : Prop :=
  ∃ o : JsonObject, payload = .object o ∧
    (JsonObject.getString o (text "status") = some (text "not_found") ∨
      JsonObject.getBoolean o (text "ambiguous") = some true)

/-- No identity parameter is present. -/
def NoIdentity (args : JsonObject) (nameParam usrParam : Bytes) : Prop :=
  args.getString usrParam = none ∧
  args.getString (companionParam usrParam (text "site")) = none ∧ identityName args nameParam = none

/-- What is promised of a resolution. -/
def ResolutionContract (args : JsonObject) (ctx : ToolContext) (nameParam usrParam : Bytes) :
    Resolution → Prop
  | .found u => ctx.graph.Known u ∧ ∀ v, Leaves ll args ctx nameParam usrParam v ↔ v = u
  | .answered payload => Unresolved payload ∧ ¬ NoIdentity args nameParam usrParam
  | .absent => NoIdentity args nameParam usrParam

/-- A usr under which a node is found is a function of the graph, and so is what alone is left
at a site. -/
def NamesKnown (args : JsonObject) (ctx : ToolContext) (nameParam usrParam : Bytes) : Prop :=
  (∀ usr, args.getString usrParam = some usr → (ctx.graph.findNode ll usr).isSome →
    ctx.graph.Known usr) ∧
  ∀ site, args.getString usrParam = none →
    args.getString (companionParam usrParam (text "site")) = some site →
    ∀ u, (∀ v, SiteLeaves ll ctx site (identityName args nameParam) v ↔ v = u) →
      ctx.graph.Known u

/-! ### Payloads -/

theorem unresolved_notFoundError (message : Bytes) : Unresolved (notFoundError ll message) := by
  refine ⟨_, rfl, .inl ?_⟩
  simp [JsonObject.getString, JsonObject.get, errorResult, Json.getAsString, resultStatusName]

theorem unresolved_unknownFunctionResult (g : CallGraph) (paramName name : Bytes) :
    Unresolved (unknownFunctionResult ll g paramName name) := by
  refine ⟨_, rfl, .inl ?_⟩
  simp [JsonObject.getString, JsonObject.get, errorResult, Json.getAsString, resultStatusName]

theorem unresolved_makeAmbiguousNameResult (g : CallGraph) (paramName name : Bytes)
    (usrs : List Bytes) (note : Bytes) :
    Unresolved (makeAmbiguousNameResult ll g paramName name usrs note) := by
  refine ⟨_, rfl, .inr ?_⟩
  simp [JsonObject.getBoolean, JsonObject.get]

/-! ### What the graph knows -/

section Known

variable {ll} {g : CallGraph} (h : g.Inv) (hll : ll.AcceptsUtf8)

/-- The test of the code on the text of a settled id. -/
theorem known_of_isKnownIdentity (h : g.Inv) (hll : ll.AcceptsUtf8) {c : SId} (hc : g.Settled c)
    (hknown : isKnownIdentity ll g (g.interner.resolve c) = true) :
    g.Known (g.interner.resolve c) := by
  rw [isKnownIdentity, Bool.or_eq_true] at hknown
  rcases hknown with hnode | hedge
  · rw [CallGraph.findNode, h.resolveUsrIds_resolve hll hc] at hnode
    rcases hn : g.nodes c with _ | n
    · simp [hn] at hnode
    · exact .inl ⟨c, n, hn, (StringInterner.resolve_of_find (h.node.node_key hn).1).symm⟩
  · rw [h.find_resolve hc.1, Bool.or_eq_true] at hedge
    rcases hedge with hedge | hedge
    · obtain ⟨r, hr⟩ := List.exists_mem_of_ne_nil (g.callerRefsOf c) (by simpa using hedge)
      exact .inr (.inr ⟨c, r, .inl hr, .inr (by rw [h.callee_of_mem_callerRefsOf hr])⟩)
    · obtain ⟨r, hr⟩ := List.exists_mem_of_ne_nil (g.calleeRefsOf c) (by simpa using hedge)
      exact .inr (.inr ⟨c, r, .inr hr, .inl (by rw [(h.below_of_mem_calleeRefsOf hr).1])⟩)

/-- The test of the code, where no node is found. -/
theorem known_of_isKnownIdentity_of_findNode (h : g.Inv) {u : Bytes}
    (hnone : (g.findNode ll u).isSome → g.Known u) (hknown : isKnownIdentity ll g u = true) :
    g.Known u := by
  rw [isKnownIdentity, Bool.or_eq_true] at hknown
  rcases hknown with hnode | hedge
  · exact hnone hnode
  · rcases hfind : g.interner.find u with _ | c
    · rw [hfind] at hedge
      cases hedge
    · rw [hfind, Bool.or_eq_true] at hedge
      have hu := StringInterner.resolve_of_find hfind
      rcases hedge with hedge | hedge
      · obtain ⟨r, hr⟩ := List.exists_mem_of_ne_nil (g.callerRefsOf c) (by simpa using hedge)
        exact .inr (.inr ⟨c, r, .inl hr, .inr (by rw [h.callee_of_mem_callerRefsOf hr, hu])⟩)
      · obtain ⟨r, hr⟩ := List.exists_mem_of_ne_nil (g.calleeRefsOf c) (by simpa using hedge)
        exact .inr (.inr ⟨c, r, .inr hr, .inl (by rw [(h.below_of_mem_calleeRefsOf hr).1, hu])⟩)

/-- Several functions of one name are nodes. -/
theorem known_of_two_usrs (h : g.Inv) {name u : Bytes}
    (htwo : 2 ≤ (g.usrsForName ll name).length) (hu : u ∈ g.usrsForName ll name) :
    g.Known u := by
  obtain ⟨c, hc, rfl⟩ := List.mem_map.mp hu
  rw [CallGraph.usrsForName, List.length_map] at htwo
  rw [CallGraph.resolveUsrIds] at htwo hc
  rcases hfind : g.findText ll name with _ | id
  · rw [hfind] at hc
    cases hc
  · rw [hfind] at htwo hc
    dsimp only at htwo hc
    split_ifs at htwo hc with hnode hname
    · exact absurd htwo (by rw [List.length_singleton]; omega)
    · obtain ⟨n, hn, -⟩ := h.node.byName_iff.mp hc
      exact .inl ⟨c, n, hn, (StringInterner.resolve_of_find (h.node.node_key hn).1).symm⟩
    · exact absurd htwo (by rw [List.length_singleton]; omega)

/-- A name that was never interned is not known. -/
theorem not_isKnownIdentity_of_nil (h : g.Inv) (hll : ll.AcceptsUtf8) {name : Bytes}
    (hnil : g.usrsForName ll name = []) : isKnownIdentity ll g name = false := by
  rw [CallGraph.usrsForName, List.map_eq_nil_iff] at hnil
  have hfindNode : g.findNode ll name = none := by
    rw [CallGraph.findNode, hnil]
    rfl
  rw [isKnownIdentity, hfindNode, Option.isSome_none, Bool.false_or]
  rcases hfind : g.interner.find name with _ | id
  · rfl
  · -- an interned text is looked up as it is
    have htext : lookupText ll name = name :=
      CallGraph.lookupText_eq ll hll (h.utf8_of_find hfind)
    rw [CallGraph.resolveUsrIds, CallGraph.findText, htext, hfind] at hnil
    dsimp only at hnil
    split_ifs at hnil with hnode hname
    exact absurd hnil hname

end Known

/-! ### The branches -/

section Branches

variable {ll} {g : CallGraph}

theorem mem_siteCallees {contexts : List CallSiteContext} {u : Bytes} :
    u ∈ siteCallees contexts ↔ ∃ c ∈ contexts, c.calleeIdentity = u := by
  rw [siteCallees, List.mem_insertionSort, List.mem_dedup, List.mem_map]
  exact Iff.rfl

theorem nodup_siteCallees (contexts : List CallSiteContext) : (siteCallees contexts).Nodup :=
  (List.perm_insertionSort _ _).nodup_iff.mpr (List.nodup_dedup _)

theorem mem_agreeingCallees {name : Option Bytes} {callees : List Bytes} {u : Bytes} :
    u ∈ agreeingCallees ll g name callees ↔
      u ∈ callees ∧ ∀ n, name = some n → u = n ∨ u ∈ g.usrsForName ll n := by
  cases name with
  | none => simp [agreeingCallees]
  | some n => simp [agreeingCallees]

theorem agreeingCallees_sublist (name : Option Bytes) (callees : List Bytes) :
    (agreeingCallees ll g name callees).Sublist callees := by
  cases name with
  | none => exact List.Sublist.refl _
  | some n => exact List.filter_sublist

/-- A list without repetitions that lists one thing. -/
theorem eq_singleton_of_forall_mem {l : List Bytes} (hl : l.Nodup) {u : Bytes}
    (hu : ∀ v, v ∈ l ↔ v = u) : l = [u] :=
  List.perm_singleton.mp ((List.perm_ext_iff_of_nodup hl (List.nodup_singleton u)).mpr fun v => by
    rw [hu, List.mem_singleton])

/-- The branch for a call site: the callee that alone is left, or a payload. -/
theorem resolveSite_cases (ll : Llvm) (g : CallGraph) (usrParam site : Bytes) (name : Option Bytes) (callees : List Bytes) :
    (∃ u, agreeingCallees ll g name callees = [u] ∧
      resolveSite ll g usrParam site name callees = .found u) ∨
    (∀ u, agreeingCallees ll g name callees ≠ [u]) ∧
      ∃ payload, resolveSite ll g usrParam site name callees = .answered payload ∧
        Unresolved payload := by
  rw [resolveSite]
  by_cases hnone : callees = []
  · rw [if_pos hnone]
    refine .inr ⟨fun u hu => ?_, _, rfl, unresolved_notFoundError ll _⟩
    have hmem := mem_agreeingCallees.mp (hu ▸ List.mem_singleton_self u)
    rw [hnone] at hmem
    exact absurd hmem.1 List.not_mem_nil
  · rw [if_neg hnone]
    dsimp only
    rcases hagreeing : agreeingCallees ll g name callees with _ | ⟨u, _ | ⟨v, rest⟩⟩
    · exact .inr ⟨fun u hu => (by cases hu), _, if_pos rfl, unresolved_notFoundError ll _⟩
    · exact .inl ⟨u, rfl, if_neg (List.cons_ne_nil _ _)⟩
    · exact .inr ⟨fun w hw => (by cases hw), _, if_neg (List.cons_ne_nil _ _),
        unresolved_makeAmbiguousNameResult ll g _ _ _ _⟩

theorem nameLeaves_iff_of_length_lt {name u : Bytes} {filter : Option Bytes} {l : List Bytes}
    (hl : g.usrsForName ll name = l) (hfew : l.length < 2) :
    NameLeaves ll g name filter u ↔ u ∈ l ∨ l = [] ∧ u = name := by
  rw [NameLeaves, hl]
  exact and_iff_left fun f _ htwo => absurd htwo (by omega)

theorem mem_filterCandidates {filter u : Bytes} {usrs : List Bytes} :
    u ∈ filterCandidates ll g filter usrs ↔ u ∈ usrs ∧ (filter <:+: u ∨
      ∃ n, g.findNode ll u = some n ∧ (filter <:+: n.qualifiedName ∨ filter <:+: n.file)) := by
  rw [filterCandidates, List.mem_filter]
  simp [Option.any_eq_true]

/-- The branch for a name: a function of the graph that alone is left, or a payload. -/
theorem resolveName_cases (h : g.Inv) (hll : ll.AcceptsUtf8) (nameKey name : Bytes)
    (filter : Option Bytes) :
    (∃ u, resolveName ll g nameKey name filter = .found u ∧ g.Known u ∧
      ∀ v, NameLeaves ll g name filter v ↔ v = u) ∨
    ∃ payload, resolveName ll g nameKey name filter = .answered payload ∧ Unresolved payload := by
  rw [resolveName]
  rcases husrs : g.usrsForName ll name with _ | ⟨u, _ | ⟨w, rest⟩⟩
  · -- the name was never interned
    dsimp only
    rw [not_isKnownIdentity_of_nil h hll husrs, if_neg Bool.false_ne_true]
    exact .inr ⟨_, rfl, unresolved_unknownFunctionResult ll g _ _⟩
  · dsimp only
    split_ifs with hknown
    · obtain ⟨c, hc, rfl⟩ := List.mem_map.mp (husrs ▸ List.mem_singleton_self u)
      refine .inl ⟨_, rfl, known_of_isKnownIdentity h hll (h.settled_of_target hc) hknown, fun v => ?_⟩
      rw [nameLeaves_iff_of_length_lt husrs (by simp), List.mem_singleton]
      simp
    · exact .inr ⟨_, rfl, unresolved_unknownFunctionResult ll g _ _⟩
  · have htwo : 2 ≤ (g.usrsForName ll name).length := by
      rw [husrs, List.length_cons, List.length_cons]
      omega
    rcases filter with _ | f
    · exact .inr ⟨_, rfl, unresolved_makeAmbiguousNameResult ll g _ _ _ _⟩
    · dsimp only
      rcases hkept : filterCandidates ll g f (u :: w :: rest) with _ | ⟨k, _ | ⟨k', kept⟩⟩
      · exact .inr ⟨_, rfl, unresolved_makeAmbiguousNameResult ll g _ _ _ _⟩
      · -- the filter keeps one function
        have hmem := (mem_filterCandidates.mp (hkept ▸ List.mem_singleton_self k)).1
        refine .inl ⟨k, rfl, known_of_two_usrs h htwo (husrs ▸ hmem), fun v => ?_⟩
        have hv := @mem_filterCandidates ll g f v (u :: w :: rest)
        rw [hkept, List.mem_singleton] at hv
        rw [hv, NameLeaves, husrs]
        constructor
        · rintro ⟨hin | ⟨hnil, -⟩, hmatch⟩
          · exact ⟨hin, hmatch f rfl (by simp)⟩
          · cases hnil
        · rintro ⟨hin, hmatch⟩
          exact ⟨.inl hin, fun f' hf' _ => Option.some_inj.mp hf' ▸ hmatch⟩
      · exact .inr ⟨_, rfl, unresolved_makeAmbiguousNameResult ll g _ _ _ _⟩

end Branches

/-! ### The resolution -/

/-- **An identity resolves as promised** exactly when a usr under which a node is found, and
what alone is left at a site, are functions of the graph. -/
theorem resolveIdentity_contract_iff {ctx : ToolContext} {log : List Registration}
    (hg : CallGraph.Reachable ctx.graph log) (hll : ll.AcceptsUtf8) (hcf : ctx.cfIndex.Held)
    (args : JsonObject) (nameParam usrParam : Bytes) :
    (∃ res, resolveIdentity ll args ctx nameParam usrParam = some res ∧
      ResolutionContract ll args ctx nameParam usrParam res) ↔
      NamesKnown ll args ctx nameParam usrParam := by
  have h := hg.inv.1
  rw [resolveIdentity, NamesKnown]
  rcases husr : args.getString usrParam with _ | usr
  · rcases hsite : args.getString (companionParam usrParam (text "site")) with _ | site
    · -- by name
      refine iff_of_true ?_ ⟨fun usr husr' => (by cases husr'), fun site _ hsite' => by cases hsite'⟩
      rcases hname : namedArg args nameParam with _ | ⟨key, name⟩
      · exact ⟨_, rfl, husr, hsite, by rw [identityName, hname]; rfl⟩
      · have hidentity : identityName args nameParam = some name := by rw [identityName, hname]; rfl
        have hnamed : ¬ NoIdentity args nameParam usrParam := fun hno => by
          rw [NoIdentity, hidentity] at hno
          cases hno.2.2
        refine ⟨_, rfl, ?_⟩
        rcases resolveName_cases h hll key name
          (args.getString (companionParam usrParam (text "filter"))) with
          ⟨u, hu, hknown, halone⟩ | ⟨payload, hpayload, hunresolved⟩
        · rw [hu]
          refine ⟨hknown, fun v => ?_⟩
          rw [Leaves, husr, hsite, hidentity]
          exact halone v
        · rw [hpayload]
          exact ⟨hunresolved, hnamed⟩
    · -- by site
      obtain ⟨contexts, hcontexts⟩ := hcf.exists_contextsAtSite ll site
      have hleaves : ∀ v, SiteLeaves ll ctx site (identityName args nameParam) v ↔
          v ∈ agreeingCallees ll ctx.graph (identityName args nameParam) (siteCallees contexts) := by
        intro v
        rw [SiteLeaves, mem_agreeingCallees, mem_siteCallees, hcontexts]
        simp
      have hgiven : ¬ NoIdentity args nameParam usrParam := fun hno => by
        rw [NoIdentity, hsite] at hno
        cases hno.2.1
      have hcontract : ∀ {u}, ResolutionContract ll args ctx nameParam usrParam (.found u) ↔
          ctx.graph.Known u ∧ ∀ v, SiteLeaves ll ctx site (identityName args nameParam) v ↔ v = u := by
        intro u
        rw [ResolutionContract]
        simp only [Leaves, husr, hsite]
      simp only [hcontexts, Option.bind_eq_bind, Option.bind_some, Option.some.injEq, exists_eq_left']
      rcases resolveSite_cases ll ctx.graph usrParam site (identityName args nameParam)
        (siteCallees contexts) with ⟨u, hone, hu⟩ | ⟨hmany, payload, hpayload, hunresolved⟩
      · have halone : ∀ v, SiteLeaves ll ctx site (identityName args nameParam) v ↔ v = u := by
          intro v
          rw [hleaves, hone, List.mem_singleton]
        rw [hu, hcontract]
        constructor
        · rintro ⟨hknown, -⟩
          refine ⟨fun usr husr' => (by cases husr'), fun site' _ hsite' u' halone' => ?_⟩
          cases hsite'
          rw [(halone' u).mp ((halone u).mpr rfl)] at hknown
          exact hknown
        · rintro ⟨-, hknown⟩
          exact ⟨hknown site trivial rfl u halone, halone⟩
      · rw [hpayload]
        refine iff_of_true ⟨hunresolved, hgiven⟩
          ⟨fun usr husr' => (by cases husr'), fun site' _ hsite' u halone => ?_⟩
        -- what is left at the site is not one function
        cases hsite'
        exact absurd (eq_singleton_of_forall_mem ((nodup_siteCallees contexts).sublist
          (agreeingCallees_sublist _ _)) fun v => (hleaves v).symm.trans (halone v)) (hmany u)
  · -- by usr
    have hgiven : ¬ NoIdentity args nameParam usrParam := fun hno => by
      rw [NoIdentity, husr] at hno
      cases hno.1
    have hcontract : ∀ {u}, ResolutionContract ll args ctx nameParam usrParam (.found u) ↔
        ctx.graph.Known u ∧ ∀ v, v = usr ↔ v = u := by
      intro u
      rw [ResolutionContract]
      simp only [Leaves, husr]
    simp only [Option.some.injEq, exists_eq_left', forall_eq', reduceCtorEq, false_implies,
      implies_true, and_true]
    split_ifs with hknown
    · rw [hcontract]
      exact ⟨fun hfound _ => hfound.1, fun hnode =>
        ⟨known_of_isKnownIdentity_of_findNode h hnode hknown, fun v => Iff.rfl⟩⟩
    · refine iff_of_true ⟨unresolved_unknownFunctionResult ll _ _ _, hgiven⟩ fun hnode => ?_
      rw [isKnownIdentity, hnode, Bool.true_or] at hknown
      exact absurd rfl hknown

/-- The usr of a resolution. -/
def Resolution.ident : Resolution → Option Bytes
  | .found u => some u
  | _ => none

theorem Resolution.eq_found {res : Resolution} {u : Bytes} (h : res.ident = some u) :
    res = .found u := by
  cases res with
  | found v => rw [Resolution.ident, Option.some_inj] at h; rw [h]
  | answered payload => cases h
  | absent => cases h

/-- A function of the graph is named in it. -/
theorem CallGraph.Known.mem_strings {g : CallGraph} (h : g.Inv) {u : Bytes} (hu : g.Known u) :
    u ∈ g.interner.strings := by
  have hedge : ∀ {e : EdgeRef}, e.Below g.interner.size →
      g.interner.resolve e.caller = u ∨ g.interner.resolve e.callee = u →
        u ∈ g.interner.strings := by
    rintro e ⟨hcaller, hcallee, -⟩ (rfl | rfl)
    exacts [StringInterner.resolve_mem hcaller, StringInterner.resolve_mem hcallee]
  rcases hu with ⟨i, n, hn, rfl⟩ | ⟨se, hse, -, hends⟩ | ⟨i, r, hr | hr, hends⟩
  · obtain ⟨hi, heq⟩ := StringInterner.find_eq_some (h.node.node_key hn).1
    exact heq ▸ List.getElem_mem hi
  · obtain ⟨idx, hidx⟩ := List.getElem?_of_mem hse
    exact hedge (h.edge.edge_ids hidx) hends
  · exact hedge (h.below_of_mem_callerRefsOf hr) hends
  · exact hedge (h.below_of_mem_calleeRefsOf hr).2 hends

/-- `m` calls `f`. -/
def callContext (callSites : List CallSiteContext) : ToolContext :=
  { graph := ({} : CallGraph).registerAll CallGraph.callFromMain
    cfIndex := ({} : ControlFlowIndex).addAll callSites
    entryPoints := [] }

theorem callContext_fits (callSites : List CallSiteContext) :
    CallGraph.Reachable (callContext callSites).graph ([] ++ CallGraph.callFromMain) ∧
      (callContext callSites).cfIndex.Held := by
  have hrun : ControlFlowIndex.BuiltFrom (fun _ => True)
      (({} : ControlFlowIndex).addAll callSites) ([] ++ callSites) _ :=
    ControlFlowIndex.BuiltFrom.empty.addAll fun _ _ => trivial
  exact ⟨CallGraph.BuiltFrom.empty.registerAll fun _ _ => trivial, .inl ⟨_, hrun.inv.1⟩⟩

/-- A name resolves to the node it stands for. -/
theorem resolveIdentity_contract_iff_name :
    ∃ res, resolveIdentity utf8Llvm [(text "name", .string [102])] (callContext [])
        (text "name") (text "usr") = some res ∧
      ResolutionContract utf8Llvm [(text "name", .string [102])] (callContext [])
        (text "name") (text "usr") res ∧ res.ident = some [102] := by
  obtain ⟨hg, hcf⟩ := callContext_fits []
  have husr : JsonObject.getString [(text "name", .string [102])] (text "usr") = none := by
    decide +kernel
  have hsite : JsonObject.getString [(text "name", .string [102])]
      (companionParam (text "usr") (text "site")) = none := by decide +kernel
  obtain ⟨res, hres, hcontract⟩ := (resolveIdentity_contract_iff utf8Llvm hg
    acceptsUtf8_utf8Llvm hcf [(text "name", .string [102])] (text "name") (text "usr")).mpr
    ⟨fun usr h => (by rw [husr] at h; cases h), fun site _ h => (by rw [hsite] at h; cases h)⟩
  have hfound : ((resolveIdentity utf8Llvm [(text "name", .string [102])] (callContext [])
      (text "name") (text "usr")).bind Resolution.ident) = some [102] := by decide +kernel
  rw [hres] at hfound
  exact ⟨res, hres, hcontract, hfound⟩

/-- A call of `x` is recorded at a site, of which the graph has no edge. -/
def unknownCallee : CallSiteContext :=
  { callerName := [109], calleeName := [120], callSite := [115], tuPath := [116] }

/-- The site resolves to what is called there, though the graph does not have it. -/
theorem resolveIdentity_invents_callee :
    ¬ ∀ (ll : Llvm), ll.AcceptsUtf8 → ∀ (ctx : ToolContext) (log : List Registration),
      CallGraph.Reachable ctx.graph log → ctx.cfIndex.Held →
      ∀ (args : JsonObject) (nameParam usrParam : Bytes),
        ∃ res, resolveIdentity ll args ctx nameParam usrParam = some res ∧
          ResolutionContract ll args ctx nameParam usrParam res := by
  intro hall
  obtain ⟨hg, hcf⟩ := callContext_fits [unknownCallee]
  obtain ⟨res, hres, hcontract⟩ := hall utf8Llvm acceptsUtf8_utf8Llvm _ _ hg hcf
    [(text "site", .string [115])] (text "name") (text "usr")
  have hfound : ((resolveIdentity utf8Llvm [(text "site", .string [115])]
      (callContext [unknownCallee]) (text "name") (text "usr")).bind Resolution.ident) =
        some [120] := by
    decide +kernel
  rw [hres] at hfound
  obtain rfl := Resolution.eq_found hfound
  have habsent : [120] ∉ (callContext [unknownCallee]).graph.interner.strings := by decide +kernel
  exact habsent (hcontract.1.mem_strings hg.inv.1)

end Vycor
