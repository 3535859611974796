import Vycor.ControlFlow.Nearest
import Vycor.Query.Messages
import Vycor.Query.Registry

/-!
# One-shot and batch answers

A one-shot query loads the sections its tool declares, a batch loads all of them. The tools
that declare the graph alone read nothing else, but for one path: an identity that is given as
a call site is looked up in the control-flow index (`siteArg`). Four tools take an identity
and declare the graph alone. Over an index without contexts every site is unknown, so the
one-shot answer of these tools differs from the batch answer exactly where a site is looked up
at which the index holds a context (`runTool_needs_eq_all_iff`).
-/

namespace Vycor

/-! ### Argument errors -/

/-- An argument that is refused is called invalid. -/
def CallsInvalid {α : Type} (arg : Except Bytes α) : Prop :=
  ∀ message, arg = .error message → message.head? = some 73

namespace CallsInvalid

variable {α β : Type}

theorem ok (a : α) : CallsInvalid (.ok a : Except Bytes α) := by
  intro message h
  cases h

theorem error {message : Bytes} (h : message.head? = some 73) :
    CallsInvalid (.error message : Except Bytes α) := by
  rintro _ ⟨⟩
  exact h

theorem bind {x : Except Bytes α} {f : α → Except Bytes β} (hx : CallsInvalid x)
    (hf : ∀ a, CallsInvalid (f a)) : CallsInvalid (x >>= f) := by
  cases x with
  | error message => exact error (hx message rfl)
  | ok a => exact hf a

theorem mapM {f : α → Except Bytes β} (hf : ∀ a, CallsInvalid (f a)) (l : List α) :
    CallsInvalid (l.mapM f) := by
  induction l with
  | nil => exact ok []
  | cons a rest ih =>
    rw [List.mapM_cons]
    exact (hf a).bind fun b => ih.bind fun bs => ok (b :: bs)

end CallsInvalid

variable (args : JsonObject)

theorem callsInvalid_readLimit (key : Bytes) (min max : ℕ) (below : BelowMin) (value : ℕ) :
    CallsInvalid (readLimit args key min max below value) := by
  rw [readLimit.eq_def]
  cases args.getInteger key with
  | none => exact .ok _
  | some v =>
    cases below with
    | clamp =>
      dsimp only
      split_ifs
      exacts [.ok _, .ok _]
    | reject =>
      dsimp only
      split_ifs
      exacts [.error rfl, .error rfl, .ok _]

theorem callsInvalid_parsePageArg (key : Bytes) (min : ℕ) (below : Bytes) (value : ℕ) :
    CallsInvalid (parsePageArg args key min below value) := by
  rw [parsePageArg]
  cases args.getInteger key with
  | some v =>
    dsimp only
    split_ifs
    exacts [.error rfl, .ok _]
  | none =>
    dsimp only
    split_ifs
    exacts [.error rfl, .ok _]

theorem callsInvalid_parsePage (defaultLimit : ℕ) : CallsInvalid (parsePage args defaultLimit) :=
  (callsInvalid_parsePageArg args _ _ _ _).bind fun _ =>
    (callsInvalid_parsePageArg args _ _ _ _).bind fun _ => .ok _

theorem callsInvalid_parseEdgeFilter : CallsInvalid (parseEdgeFilter args) := by
  refine CallsInvalid.bind ?_ fun f => CallsInvalid.bind ?_ fun _ => .ok _
  · rw [parseConfidenceArgs]
    split_ifs
    · dsimp only
      split
      exacts [.error rfl, .ok _]
    · exact .ok _
  · refine CallsInvalid.mapM (fun s => ?_) _
    cases parseExecutionContext s with
    | some c => exact .ok c
    | none => exact .error rfl

theorem callsInvalid_parseChainArgs : CallsInvalid (parseChainArgs args) :=
  (callsInvalid_readLimit args _ _ _ _ _).bind fun _ =>
    (callsInvalid_readLimit args _ _ _ _ _).bind fun _ =>
      (callsInvalid_readLimit args _ _ _ _ _).bind fun _ =>
        (callsInvalid_parseEdgeFilter args).bind fun _ => .ok _

/-! ### The call site of an identity -/

/-- The call site at which an identity is looked up. -/
def siteArg (usrParam : Bytes) : Option Bytes :=
  if (args.getString usrParam).isSome then none
  else args.getString (companionParam usrParam (text "site"))

variable {args} (ll : Llvm)

/-- Without a call site only the graph is read. -/
theorem resolveIdentity_of_siteArg_none {usrParam : Bytes} (h : siteArg args usrParam = none)
    {ctx ctx' : ToolContext} (hgraph : ctx.graph = ctx'.graph) (nameParam : Bytes) :
    resolveIdentity ll args ctx nameParam usrParam =
      resolveIdentity ll args ctx' nameParam usrParam := by
  rw [resolveIdentity, resolveIdentity, hgraph]
  rw [siteArg] at h
  cases husr : args.getString usrParam with
  | some usr => rfl
  | none =>
    rw [husr, if_neg (by simp)] at h
    rw [h]

theorem resolveIdentity_of_siteArg {usrParam site : Bytes} (h : siteArg args usrParam = some site)
    (ctx : ToolContext) (nameParam : Bytes) :
    resolveIdentity ll args ctx nameParam usrParam =
      (ctx.cfIndex.contextsAtSite ll site).map fun contexts =>
        resolveSite ll ctx.graph usrParam site (identityName args nameParam)
          (siteCallees contexts) := by
  rw [siteArg] at h
  cases husr : args.getString usrParam with
  | some usr => simp [husr] at h
  | none =>
    rw [husr, if_neg (by simp)] at h
    rw [resolveIdentity, husr, h]
    dsimp only
    cases ctx.cfIndex.contextsAtSite ll site <;> rfl

theorem siteCallees_eq_nil {contexts : List CallSiteContext} :
    siteCallees contexts = [] ↔ contexts = [] := by
  rw [siteCallees, ← List.length_eq_zero_iff, List.length_insertionSort, List.length_eq_zero_iff,
    List.dedup_eq_nil, List.map_eq_nil_iff]

/-- A site at which nothing is called is answered with that. -/
theorem resolveSite_nil (g : CallGraph) (usrParam site : Bytes) (name : Option Bytes) :
    resolveSite ll g usrParam site name [] =
      .answered (notFoundError ll (noSiteMessage site)) := rfl

theorem silent_ambiguous (g : CallGraph) (paramName name : Bytes) (usrs : List Bytes)
    (note : Bytes) : errorHead (makeAmbiguousNameResult ll g paramName name usrs note) = none := by
  rw [errorHead, makeAmbiguousNameResult, errorMessage_of_silent, Option.bind_none]
  simp

/-- Where something is called, the answer is about it. -/
theorem errorHead_of_resolveSite {g : CallGraph} {usrParam site : Bytes} {name : Option Bytes}
    {callees : List Bytes} (hcallees : callees ≠ []) {payload : Json}
    (h : resolveSite ll g usrParam site name callees = .answered payload) :
    errorHead payload ≠ some 78 := by
  rw [resolveSite.eq_def, if_neg hcallees] at h
  dsimp only at h
  generalize agreeingCallees ll g name callees = agreeing at h
  cases agreeing with
  | nil =>
    rw [if_pos rfl, Resolution.answered.injEq] at h
    rw [← h, errorHead_notFoundError (c := 67) rfl (by decide)]
    decide
  | cons usr rest =>
    rw [if_neg (by simp)] at h
    cases rest with
    | nil => cases h
    | cons usr' rest =>
      rw [Resolution.answered.injEq] at h
      rw [← h, silent_ambiguous]
      decide

/-- A call site always says something. -/
theorem resolveSite_ne_absent (g : CallGraph) (usrParam site : Bytes) (name : Option Bytes)
    (callees : List Bytes) : resolveSite ll g usrParam site name callees ≠ .absent := by
  rw [resolveSite.eq_def]
  by_cases hcallees : callees = []
  · simp [hcallees]
  · rw [if_neg hcallees]
    dsimp only
    rcases agreeingCallees ll g name callees with _ | ⟨usr, _ | ⟨usr', rest⟩⟩
    · simp
    · simp
    · simp

theorem errorHead_unknownFunctionResult (g : CallGraph) (paramName name : Bytes) :
    errorHead (unknownFunctionResult ll g paramName name) = some 70 := by
  rw [unknownFunctionResult]
  exact errorHead_errorResult rfl (by decide)

theorem errorHead_of_resolveName {g : CallGraph} {nameKey name : Bytes} {filter : Option Bytes}
    {payload : Json} (h : resolveName ll g nameKey name filter = .answered payload) :
    errorHead payload ≠ some 78 := by
  -- an ambiguous name is answered without a message
  have hambiguous : ∀ {usrs note p}, Resolution.answered
      (makeAmbiguousNameResult ll g nameKey name usrs note) = .answered p →
        errorHead p ≠ some 78 := by
    rintro usrs note _ ⟨⟩
    rw [silent_ambiguous]
    decide
  have hunknown : ∀ {p}, Resolution.answered (unknownFunctionResult ll g nameKey name) =
      .answered p → errorHead p ≠ some 78 := by
    rintro _ ⟨⟩
    rw [errorHead_unknownFunctionResult]
    decide
  rw [resolveName.eq_def] at h
  split at h
  · split_ifs at h
    exact hunknown h
  · split_ifs at h
    exact hunknown h
  · split at h
    · exact hambiguous h
    · split at h
      · cases h
      · exact hambiguous h
      · exact hambiguous h

/-- Only a site at which the index holds nothing is answered so. -/
theorem eq_of_errorHead {ctx : ToolContext} {nameParam usrParam : Bytes} {payload : Json}
    (h : resolveIdentity ll args ctx nameParam usrParam = some (.answered payload))
    (hhead : errorHead payload = some 78) :
    ∃ site, siteArg args usrParam = some site ∧ ctx.cfIndex.contextsAtSite ll site = some [] ∧
      payload = notFoundError ll (noSiteMessage site) := by
  cases hsite : siteArg args usrParam with
  | some site =>
    rw [resolveIdentity_of_siteArg ll hsite, Option.map_eq_some_iff] at h
    obtain ⟨contexts, hcontexts, hanswer⟩ := h
    by_cases hnil : contexts = []
    · subst hnil
      exact ⟨site, rfl, hcontexts, (Resolution.answered.inj hanswer).symm⟩
    · exact absurd hhead
        (errorHead_of_resolveSite ll (fun hc => hnil (siteCallees_eq_nil.mp hc)) hanswer)
  | none =>
    rw [siteArg] at hsite
    rw [resolveIdentity] at h
    cases husr : args.getString usrParam with
    | some usr =>
      rw [husr] at h
      dsimp only at h
      split_ifs at h
      · cases h
      · rw [Option.some.injEq, Resolution.answered.injEq] at h
        rw [← h, errorHead_unknownFunctionResult] at hhead
        exact absurd hhead (by decide)
    | none =>
      rw [husr, if_neg (by simp)] at hsite
      rw [husr, hsite] at h
      dsimp only at h
      cases hname : namedArg args nameParam with
      | none => simp [hname] at h
      | some p =>
        rw [hname, Option.some.injEq] at h
        exact absurd hhead (errorHead_of_resolveName ll h)

/-- A site at which the index holds a context, or cannot be read, is not answered so. -/
theorem resolveIdentity_of_held (ctx : ToolContext) {usrParam site : Bytes}
    (hsite : siteArg args usrParam = some site) (hheld : ctx.cfIndex.contextsAtSite ll site ≠ some [])
    (nameParam : Bytes) :
    resolveIdentity ll args ctx nameParam usrParam = none ∨
      (∃ payload, resolveIdentity ll args ctx nameParam usrParam = some (.answered payload) ∧
        errorHead payload ≠ some 78) ∨
      ∃ ident, resolveIdentity ll args ctx nameParam usrParam = some (.found ident) := by
  cases hres : resolveIdentity ll args ctx nameParam usrParam with
  | none => exact .inl rfl
  | some r =>
    right
    cases r with
    | found ident => exact .inr ⟨ident, rfl⟩
    | answered payload =>
      refine .inl ⟨payload, rfl, fun hhead => ?_⟩
      obtain ⟨site', hsite', hnone, -⟩ := eq_of_errorHead ll hres hhead
      rw [hsite, Option.some.injEq] at hsite'
      exact hheld (hsite' ▸ hnone)
    | absent =>
      rw [resolveIdentity_of_siteArg ll hsite, Option.map_eq_some_iff] at hres
      obtain ⟨contexts, -, habsent⟩ := hres
      exact absurd habsent (resolveSite_ne_absent ll _ _ _ _ _)

/-! ### With and without the contexts -/

/-- Where an identity is given as a call site, the index holds nothing there. -/
def SiteFree (cf : ControlFlowIndex) (args : JsonObject) (usrParam : Bytes) : Prop :=
  ∀ site, siteArg args usrParam = some site → cf.contextsAtSite ll site = some []

section Load

variable (s : SavedIndex)

/-- Without the contexts every call site is unknown. -/
theorem resolveIdentity_graphOnly {usrParam site : Bytes} (hsite : siteArg args usrParam = some site)
    (nameParam : Bytes) :
    resolveIdentity ll args (s.load {}) nameParam usrParam =
      some (.answered (notFoundError ll (noSiteMessage site))) := by
  rw [resolveIdentity_of_siteArg ll hsite]
  rfl

theorem resolveIdentity_eq_of_siteFree {usrParam : Bytes} (h : SiteFree ll s.cfIndex args usrParam)
    (nameParam : Bytes) :
    resolveIdentity ll args (s.load {}) nameParam usrParam =
      resolveIdentity ll args (s.load .all) nameParam usrParam := by
  cases hsite : siteArg args usrParam with
  | none =>
    have hgraph : (s.load {}).graph = (s.load .all).graph := rfl
    exact resolveIdentity_of_siteArg_none ll hsite hgraph nameParam
  | some site =>
    have hnone : (s.load .all).cfIndex.contextsAtSite ll site = some [] := h site hsite
    rw [resolveIdentity_graphOnly ll s hsite, resolveIdentity_of_siteArg ll hsite, hnone]
    rfl

/-- Equal answers carry equal messages. -/
theorem bind_errorMessage_of_eq {a b : Option Json} {ctx ctx' : ToolContext}
    (h : (a.map fun p => completeResult p ctx) = b.map fun p => completeResult p ctx') :
    a.bind errorMessage = b.bind errorMessage := by
  have hmessages := congrArg (fun o => o.bind errorMessage) h
  simpa only [Option.bind_map, Function.comp_def, errorMessage_completeResult] using hmessages

theorem bind_errorHead_of_eq {a b : Option Json} {ctx ctx' : ToolContext}
    (h : (a.map fun p => completeResult p ctx) = b.map fun p => completeResult p ctx') :
    a.bind errorHead = b.bind errorHead := by
  have hheads := congrArg (fun o => o.bind List.head?) (bind_errorMessage_of_eq h)
  simp only [Option.bind_assoc] at hheads
  exact hheads

theorem errorHead_noSite (site : Bytes) :
    errorHead (notFoundError ll (noSiteMessage site)) = some 78 :=
  errorHead_notFoundError rfl (by decide)

/-- A handler that goes on with one identity, and never says that a site is unknown, answers
the same over the graph alone exactly where it looks up no site that the index holds. -/
theorem withResolution_eq_iff {usrParam : Bytes} (nameParam : Bytes) (absent : Option Json)
    {rest : Bytes → Option Json} (hrest : ∀ ident p, rest ident = some p → errorHead p ≠ some 78) :
    ((withResolution (resolveIdentity ll args (s.load {}) nameParam usrParam) absent rest).map
        fun p => completeResult p (s.load {})) =
      (withResolution (resolveIdentity ll args (s.load .all) nameParam usrParam) absent rest).map
        (fun p => completeResult p (s.load .all)) ↔
      SiteFree ll s.cfIndex args usrParam := by
  constructor
  · intro heq site hsite
    by_contra hheld
    have hhead := bind_errorHead_of_eq heq
    rw [resolveIdentity_graphOnly ll s hsite, withResolution, Option.bind_some,
      errorHead_noSite] at hhead
    obtain hnone | ⟨p, hp, hne⟩ | ⟨ident, hfound⟩ :=
      resolveIdentity_of_held ll (s.load .all) hsite hheld nameParam
    · rw [hnone] at hhead
      cases hhead
    · rw [hp, withResolution, Option.bind_some] at hhead
      exact hne hhead.symm
    · rw [hfound, withResolution] at hhead
      obtain ⟨p, hp, hphead⟩ := Option.bind_eq_some_iff.mp hhead.symm
      exact hrest ident p hp hphead
  · intro hfree
    rw [resolveIdentity_eq_of_siteFree ll s hfree]
    rfl

/-- Over an argument, a usage error says that it is invalid. -/
theorem errorHead_of_orUsage {α : Type} {arg : Except Bytes α} (harg : CallsInvalid arg)
    {rest : α → Option Json} (hrest : ∀ a p, rest a = some p → errorHead p ≠ some 78) {p : Json}
    (h : orUsage ll arg rest = some p) : errorHead p ≠ some 78 := by
  cases arg with
  | error message =>
    rw [orUsage, Option.some.injEq] at h
    rw [← h, errorHead_usageError (harg message rfl) (by decide)]
    decide
  | ok a => exact hrest a p h

theorem handleLookupFunction_eq_iff :
    ((handleLookupFunction ll args (s.load {})).map fun p => completeResult p (s.load {})) =
      (handleLookupFunction ll args (s.load .all)).map (fun p => completeResult p (s.load .all)) ↔
      SiteFree ll s.cfIndex args (text "usr") := by
  refine withResolution_eq_iff ll s (text "name") _ fun ident p hp => ?_
  dsimp only [SavedIndex.load] at hp
  cases hnode : s.graph.findNode ll ident with
  | none =>
    rw [hnode, Option.some.injEq] at hp
    rw [← hp, errorHead_notFoundError (c := 70) rfl (by decide)]
    decide
  | some n =>
    rw [hnode, Option.some.injEq] at hp
    rw [← hp, errorHead, errorMessage_of_silent (by simp [silent_classMember])]
    simp

theorem handleEdgeList_eq_iff (callees : Bool) :
    ((handleEdgeList ll callees args (s.load {})).map fun p => completeResult p (s.load {})) =
      (handleEdgeList ll callees args (s.load .all)).map (fun p => completeResult p (s.load .all)) ↔
      SiteFree ll s.cfIndex args (text "usr") := by
  refine withResolution_eq_iff ll s (text "name") _ fun ident p hp => ?_
  refine errorHead_of_orUsage ll (callsInvalid_parseEdgeFilter args) (fun filter p hp => ?_) hp
  refine errorHead_of_orUsage ll (callsInvalid_parsePage args _) (fun page p hp => ?_) hp
  rw [Option.some.injEq] at hp
  rw [← hp, errorHead, errorMessage_of_silent]
  · simp
  · cases callees <;> simp [silent_usrMember, silent_pageMembers]

/-- A payload of chains carries no message. -/
theorem errorMessage_chainPayload (ctx : ToolContext) (target : Bytes) (starts : List Bytes)
    (chain : ChainArgs) : errorMessage (chainPayload ll args ctx target starts chain) = none := by
  refine errorMessage_of_silent ?_
  simp [silent_usrMember, silent_searchFacts]

theorem chainAnswer_eq_iff (target : Bytes) (chain : ChainArgs) :
    ((chainAnswer ll args (s.load {}) target chain).map fun p => completeResult p (s.load {})) =
      (chainAnswer ll args (s.load .all) target chain).map
        (fun p => completeResult p (s.load .all)) ↔
      SiteFree ll s.cfIndex args (text "from_usr") := by
  refine withResolution_eq_iff ll s (text "from") _ fun ident p hp => ?_
  rw [Option.some.injEq] at hp
  rw [← hp, errorHead, errorMessage_chainPayload]
  simp

/-- The strings of the arguments are Unicode. -/
def JsonObject.Utf8Strings (args : JsonObject) : Prop :=
  ∀ key s, args.getString key = some s → Utf8Text s

theorem utf8Text_of_siteArg (hargs : args.Utf8Strings) {usrParam site : Bytes}
    (h : siteArg args usrParam = some site) : Utf8Text site := by
  rw [siteArg] at h
  split_ifs at h
  exact hargs _ _ h

/-- The message names the site. -/
theorem noSiteMessage_inj {ll : Llvm} (hll : ll.AcceptsUtf8) {site site' : Bytes}
    (hsite : Utf8Text site) (hsite' : Utf8Text site')
    (h : lookupText ll (noSiteMessage site) = lookupText ll (noSiteMessage site')) :
    site = site' := by
  have hutf8 : ∀ {t}, Utf8Text t → Utf8Text (noSiteMessage t) := fun ht =>
    (((utf8Text_of_ascii (by decide)).append ht).append (utf8Text_of_ascii (by decide))).append
      (utf8Text_of_ascii (by decide))
  rw [CallGraph.lookupText_eq ll hll (hutf8 hsite), CallGraph.lookupText_eq ll hll (hutf8 hsite'), noSiteMessage,
    noSiteMessage, List.append_cancel_right_eq, List.append_cancel_right_eq,
    List.append_cancel_left_eq] at h
  exact h

/-- The chain tool resolves its target first; the start is looked at once the target is known
and the limits are in order. -/
theorem handleFindCallChain_eq_iff {ll : Llvm} (hll : ll.AcceptsUtf8) (hargs : args.Utf8Strings) :
    ((handleFindCallChain ll args (s.load {})).map fun p => completeResult p (s.load {})) =
      (handleFindCallChain ll args (s.load .all)).map (fun p => completeResult p (s.load .all)) ↔
      SiteFree ll s.cfIndex args (text "to_usr") ∧
        ∀ target chain, resolveIdentity ll args (s.load {}) (text "to") (text "to_usr") =
          some (.found target) → parseChainArgs args = .ok chain →
            SiteFree ll s.cfIndex args (text "from_usr") := by
  constructor
  · intro heq
    have hto : SiteFree ll s.cfIndex args (text "to_usr") := by
      intro site hsite
      by_contra hheld
      have hmessage := bind_errorMessage_of_eq heq
      rw [handleFindCallChain, resolveIdentity_graphOnly ll s hsite, withIdentity, withResolution,
        Option.bind_some, errorMessage_notFoundError, handleFindCallChain, withIdentity] at hmessage
      have hhead : (some (lookupText ll (noSiteMessage site))).bind List.head? = some 78 :=
        errorHead_noSite ll site
      obtain hnone | ⟨p, hp, hne⟩ | ⟨target, hfound⟩ :=
        resolveIdentity_of_held ll (s.load .all) hsite hheld (text "to")
      · rw [hnone] at hmessage
        cases hmessage
      · rw [hp, withResolution, Option.bind_some] at hmessage
        exact hne (by rw [errorHead, ← hmessage, hhead])
      · rw [hfound, withResolution] at hmessage
        cases hparse : parseChainArgs args with
        | error message =>
          rw [hparse, orUsage, Option.bind_some] at hmessage
          rw [hmessage] at hhead
          have hinvalid : errorHead (usageError ll message) = some _ :=
            errorHead_usageError (callsInvalid_parseChainArgs args message hparse) (by decide)
          rw [errorHead, hhead] at hinvalid
          exact absurd hinvalid (by decide)
        | ok chain =>
          rw [hparse, orUsage, chainAnswer] at hmessage
          cases hfrom : resolveIdentity ll args (s.load .all) (text "from") (text "from_usr") with
          | none =>
            rw [hfrom] at hmessage
            cases hmessage
          | some r =>
            rw [hfrom] at hmessage
            cases r with
            | found start =>
              rw [withResolution, Option.bind_some, errorMessage_chainPayload] at hmessage
              cases hmessage
            | absent =>
              rw [withResolution, Option.bind_some, errorMessage_chainPayload] at hmessage
              cases hmessage
            | answered p =>
              rw [withResolution, Option.bind_some] at hmessage
              -- the start is a site that is unknown: it is the site of the target
              obtain ⟨site', hsite', hnone, rfl⟩ := eq_of_errorHead ll hfrom
                (by rw [errorHead, ← hmessage, hhead])
              rw [errorMessage_notFoundError, Option.some.injEq] at hmessage
              have hsame := noSiteMessage_inj hll (utf8Text_of_siteArg hargs hsite)
                (utf8Text_of_siteArg hargs hsite') hmessage
              exact hheld (hsame ▸ hnone)
    refine ⟨hto, fun target chain hfound hparse => ?_⟩
    have hfound' := (resolveIdentity_eq_of_siteFree ll s hto (text "to")) ▸ hfound
    rw [handleFindCallChain, handleFindCallChain, withIdentity, withIdentity, hfound, hfound',
      withResolution, withResolution, hparse] at heq
    exact (chainAnswer_eq_iff ll s target chain).mp heq
  · rintro ⟨hto, hfrom⟩
    rw [handleFindCallChain, handleFindCallChain, withIdentity, withIdentity,
      ← resolveIdentity_eq_of_siteFree ll s hto]
    cases hres : resolveIdentity ll args (s.load {}) (text "to") (text "to_usr") with
    | none => rfl
    | some r =>
      cases r with
      | answered p => rfl
      | absent => rfl
      | found target =>
        cases hparse : parseChainArgs args with
        | error message => rfl
        | ok chain =>
          exact (chainAnswer_eq_iff ll s target chain).mpr (hfrom target chain hres hparse)

end Load

/-! ### All tools -/

/-- The condition of a tool: where it takes an identity and declares the graph alone, it looks
up no call site at which the index holds a context. -/
def LooksUpNoHeldSite (s : SavedIndex) (name : Bytes) (args : JsonObject) : Prop :=
  if name ∈ [text "lookup_function", text "get_callees", text "get_callers"] then
    SiteFree ll s.cfIndex args (text "usr")
  else if name = text "find_call_chain" then
    SiteFree ll s.cfIndex args (text "to_usr") ∧
      ∀ target chain, resolveIdentity ll args (s.load {}) (text "to") (text "to_usr") =
        some (.found target) → parseChainArgs args = .ok chain →
          SiteFree ll s.cfIndex args (text "from_usr")
  else True

@[simp] theorem needs_toolEntry (name : Bytes) (handler : ToolHandler) :
    (toolEntry name handler).needs = toolNeeds name := rfl

@[simp] theorem name_toolEntry (name : Bytes) (handler : ToolHandler) :
    (toolEntry name handler).name = name := rfl

section Tools

variable {env : ToolEnv} (s : SavedIndex) {tool : ToolEntry}

/-- The graph tools that take an identity differ where a held site is looked up, the others
never. -/
theorem runTool_graphTools_iff (hll : env.ll.AcceptsUtf8) (hargs : args.Utf8Strings)
    (htool : tool ∈ env.registerGraphTools) :
    runTool tool args (s.load tool.needs) = runTool tool args (s.load .all) ↔
      LooksUpNoHeldSite env.ll s tool.name args := by
  simp only [ToolEnv.registerGraphTools, List.mem_cons, List.not_mem_nil, or_false] at htool
  have hneeds : tool.needs = {} := by
    obtain rfl | rfl | rfl | rfl | rfl | rfl | rfl | rfl | rfl | rfl := htool <;>
      rw [needs_toolEntry] <;> decide +kernel
  rw [hneeds, LooksUpNoHeldSite]
  obtain rfl | rfl | rfl | rfl | htool := htool
  · rw [if_pos (by simp)]
    exact handleLookupFunction_eq_iff env.ll s
  · rw [if_pos (by simp)]
    exact handleEdgeList_eq_iff env.ll s true
  · rw [if_pos (by simp)]
    exact handleEdgeList_eq_iff env.ll s false
  · rw [if_neg (by simp), if_pos (by simp)]
    exact handleFindCallChain_eq_iff s hll hargs
  · -- the others read the graph, the entry points and the header
    obtain rfl | rfl | rfl | rfl | rfl | rfl := htool
    all_goals
      rw [if_neg (by simp), if_neg (by simp)]
      exact iff_of_true rfl trivial

/-- The exception and lock tools read the contexts and no channel. -/
theorem runTool_controlFlowTools
    (htool : tool ∈ env.registerExceptionTools ++ env.registerLockTools) :
    runTool tool args (s.load tool.needs) = runTool tool args (s.load .all) ∧
      LooksUpNoHeldSite env.ll s tool.name args := by
  simp only [ToolEnv.registerExceptionTools, ToolEnv.registerLockTools, List.mem_append,
    List.mem_cons, List.not_mem_nil, or_false] at htool
  have hneeds : tool.needs = { controlFlow := true } := by
    obtain (rfl | rfl | rfl | rfl | rfl | rfl) | rfl | rfl := htool <;>
      rw [needs_toolEntry] <;> decide +kernel
  rw [hneeds, LooksUpNoHeldSite]
  obtain (rfl | rfl | rfl | rfl | rfl | rfl) | rfl | rfl := htool
  all_goals
    rw [if_neg (by simp), if_neg (by simp)]
    exact ⟨rfl, trivial⟩

/-- The channel tools read the channels and no context. -/
theorem runTool_channelTools (htool : tool ∈ env.registerChannelTools) :
    runTool tool args (s.load tool.needs) = runTool tool args (s.load .all) ∧
      LooksUpNoHeldSite env.ll s tool.name args := by
  simp only [ToolEnv.registerChannelTools, List.mem_cons, List.not_mem_nil, or_false] at htool
  have hneeds : tool.needs = { channels := true } := by
    obtain rfl | rfl | rfl | rfl := htool <;> rw [needs_toolEntry] <;> decide +kernel
  rw [hneeds, LooksUpNoHeldSite]
  obtain rfl | rfl | rfl | rfl := htool
  all_goals
    rw [if_neg (by simp), if_neg (by simp)]
    exact ⟨rfl, trivial⟩

/-- The dead-code and impact tools read the graph and the entry points. -/
theorem runTool_wholeGraphTools
    (htool : tool ∈ env.registerDeadCodeTools ++ env.registerImpactTools) :
    runTool tool args (s.load tool.needs) = runTool tool args (s.load .all) ∧
      LooksUpNoHeldSite env.ll s tool.name args := by
  simp only [ToolEnv.registerDeadCodeTools, ToolEnv.registerImpactTools, List.mem_append,
    List.mem_cons, List.not_mem_nil, or_false] at htool
  have hneeds : tool.needs = {} := by
    obtain rfl | rfl := htool <;> rw [needs_toolEntry] <;> decide +kernel
  rw [hneeds, LooksUpNoHeldSite]
  obtain rfl | rfl := htool
  all_goals
    rw [if_neg (by simp), if_neg (by simp)]
    exact ⟨rfl, trivial⟩

/-- **One-shot and batch.** A tool answers the same over the sections it declares as over all
of them exactly where it looks up no held call site behind the back of its declaration. -/
theorem runTool_needs_eq_all_iff (hll : env.ll.AcceptsUtf8)
    (htool : tool ∈ env.getRegisteredTools) (hargs : args.Utf8Strings) :
    runTool tool args (s.load tool.needs) = runTool tool args (s.load .all) ↔
      LooksUpNoHeldSite env.ll s tool.name args := by
  have hboth : ∀ {p q : Prop}, p ∧ q → (p ↔ q) := fun h => iff_of_true h.1 h.2
  simp only [ToolEnv.getRegisteredTools, List.mem_append] at htool
  obtain ((((hgraph | hexception) | hlock) | hdead) | hchannel) | himpact := htool
  · exact runTool_graphTools_iff s hll hargs hgraph
  · exact hboth (runTool_controlFlowTools s (List.mem_append_left _ hexception))
  · exact hboth (runTool_controlFlowTools s (List.mem_append_right _ hlock))
  · exact hboth (runTool_wholeGraphTools s (List.mem_append_left _ hdead))
  · exact hboth (runTool_channelTools s hchannel)
  · exact hboth (runTool_wholeGraphTools s (List.mem_append_right _ himpact))

end Tools

/-! ### An index with one call -/

theorem channelSiteBefore_eq (a b : ChannelSite) : channelSiteBefore a b =
    decide (toLex (a.callSite, toLex (a.channelId, a.siteFunctionUsr)) <
      toLex (b.callSite, toLex (b.channelId, b.siteFunctionUsr))) := by
  rw [Bool.eq_iff_iff, decide_eq_true_eq]
  exact lexBefore_iff (lexBefore_iff decide_eq_true_iff)

theorem deadCodeEntryBefore_eq (a b : DeadCodeEntry) : a.before b =
    decide (toLex (a.file, toLex (a.line, a.key)) < toLex (b.file, toLex (b.line, b.key))) := by
  rw [Bool.eq_iff_iff, decide_eq_true_eq]
  exact lexBefore_iff (lexBefore_iff decide_eq_true_iff)

theorem unmappedBefore_eq (a b : UnmappedRange) : unmappedBefore a b =
    decide (toLex (a.range.file, a.range.firstLine) < toLex (b.range.file, b.range.firstLine)) := by
  rw [Bool.eq_iff_iff, decide_eq_true_eq]
  exact lexBefore_iff decide_eq_true_iff

/-- An environment whose sorts are stable. -/
def stableEnv : ToolEnv where
  ll := utf8Llvm
  classifyGuard := fun _ => none
  callerSort := CallGraph.stableCallerSort
  catchSort := CallGraph.stableCatchSort
  candidateSort := .byKey (·.callerUsr) fun _ _ =>
    decide_eq_decide.mpr Iff.rfl
  siteSort := .byKey _ channelSiteBefore_eq
  deadSort := .byKey _ deadCodeEntryBefore_eq
  unmappedSort := .byKey _ unmappedBefore_eq
  lockOrder := id

/-- The index of a call of `g` in `f` at `a:1:1`. -/
def oneCallIndex : SavedIndex where
  graph := ((({} : CallGraph).addNode { qualifiedName := text "f", usr := text "f" }).addNode
    { qualifiedName := text "g", usr := text "g" }).addEdge
      { callerName := text "f", calleeName := text "g", callSite := text "a:1:1",
        callerUsr := text "f", calleeUsr := text "g", kind := .directCall, confidence := .Proven,
        execContext := .synchronous }
  cfIndex := ({} : ControlFlowIndex).addCallSiteContext
    { callerName := text "f", calleeName := text "g", callSite := text "a:1:1" }
  channels := {}
  entryPoints := [text "main"]
  callSites := 1
  facts := {}

/-- `get_callers`. -/
def getCallersTool : ToolEntry := toolEntry (text "get_callers") (handleGetCallers utf8Llvm)

theorem getCallersTool_mem : getCallersTool ∈ stableEnv.getRegisteredTools := by
  simp [ToolEnv.getRegisteredTools, ToolEnv.registerGraphTools, getCallersTool, stableEnv]

theorem utf8Strings_singleton {key s : Bytes} (hs : Utf8Text s) :
    JsonObject.Utf8Strings [(key, .string s)] := by
  intro key' s' h
  rw [JsonObject.getString, JsonObject.get] at h
  by_cases hkey : key = key'
  · rw [List.find?_cons_of_pos (by simpa using hkey)] at h
    obtain rfl : s = s' := by simpa [Json.getAsString] using h
    exact hs
  · rw [List.find?_cons_of_neg (by simpa using hkey)] at h
    simp at h

/-- By name both say who calls `g`. -/
theorem runTool_needs_eq_all_byName :
    runTool getCallersTool [(text "name", .string (text "g"))]
        (oneCallIndex.load getCallersTool.needs) =
      runTool getCallersTool [(text "name", .string (text "g"))] (oneCallIndex.load .all) := by
  refine (runTool_needs_eq_all_iff oneCallIndex acceptsUtf8_utf8Llvm getCallersTool_mem
    (utf8Strings_singleton (utf8Text_of_ascii (by decide +kernel)))).mpr ?_
  rw [LooksUpNoHeldSite, if_pos (by simp [getCallersTool])]
  intro site hsite
  have hnone : siteArg [(text "name", .string (text "g"))] (text "usr") = none := by
    decide +kernel
  rw [hnone] at hsite
  cases hsite

/-- By its call site a batch finds `g`, the one-shot query does not. -/
theorem runTool_needs_ne_all_bySite :
    ¬ ∀ (env : ToolEnv) (s : SavedIndex) (tool : ToolEntry) (args : JsonObject),
      env.ll.AcceptsUtf8 → tool ∈ env.getRegisteredTools → args.Utf8Strings →
        runTool tool args (s.load tool.needs) = runTool tool args (s.load .all) := by
  intro hall
  have heq := hall stableEnv oneCallIndex getCallersTool [(text "site", .string (text "a:1:1"))]
    acceptsUtf8_utf8Llvm getCallersTool_mem
    (utf8Strings_singleton (utf8Text_of_ascii (by decide +kernel)))
  have hmessages := bind_errorMessage_of_eq heq
  revert hmessages
  decide +kernel

end Vycor
