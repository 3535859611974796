import Vycor.ControlFlow.Tables

/-!
# The contexts an index holds

`entries` is what a control-flow index is about: its live contexts, in stored order. Adding
a context appends it, absorbing a shard appends the shard's entries, removing TUs filters
them, compacting changes nothing. The lookup maps list the positions of the live contexts
by caller, callee and call site; `Inv` says so, and keeps besides the set of usrs that have
an entry in the usr maps at all (`seen`). A usr stays seen when its contexts are removed,
until the next compaction: the source leaves an empty entry behind.
-/

namespace Vycor

namespace ControlFlowIndex

/-! ### Sides -/

/-- The usr of a record. -/
def Side.usr : Side → StoredContext → SId
  | .caller, se => se.caller
  | .callee, se => se.callee

/-- The display name of a record. -/
def Side.display : Side → StoredContext → SId
  | .caller, se => se.callerDisplay
  | .callee, se => se.calleeDisplay

/-- The usr of a context. -/
def Side.usrOf : Side → CallSiteContext → Bytes
  | .caller, c => c.callerUsr
  | .callee, c => c.calleeUsr

/-- The display name of a context. -/
def Side.displayOf : Side → CallSiteContext → Bytes
  | .caller, c => c.callerName
  | .callee, c => c.calleeName

variable {cf cf' shard : ControlFlowIndex} {se : StoredContext}

theorem InRange.usr (h : cf.InRange se) (side : Side) : side.usr se < cf.interner.size := by
  cases side
  exacts [h.caller, h.callee]

theorem InRange.display (h : cf.InRange se) (side : Side) :
    side.display se < cf.interner.size := by
  cases side
  exacts [h.callerDisplay, h.calleeDisplay]

theorem usrOf_view (side : Side) : side.usrOf (cf.view se) = cf.interner.resolve (side.usr se) := by
  cases side <;> rfl

theorem displayOf_view (side : Side) :
    side.displayOf (cf.view se) = cf.interner.resolve (side.display se) := by
  cases side <;> rfl

/-- The usrs with an entry in the maps of a side. -/
abbrev Seen := Side → Bytes → Prop

/-- The usrs of some contexts are seen too. -/
def Seen.add (seen : Seen) (cs : List CallSiteContext) : Seen :=
  fun side n => seen side n ∨ ∃ c ∈ cs, side.usrOf c = n

theorem Seen.add_nil (seen : Seen) : seen.add [] = seen := by
  funext side n
  simp [Seen.add]

theorem Seen.add_append (seen : Seen) (cs ds : List CallSiteContext) :
    seen.add (cs ++ ds) = (seen.add cs).add ds := by
  funext side n
  simp only [Seen.add, List.mem_append, or_assoc, eq_iff_iff]
  refine or_congr_right ?_
  constructor
  · rintro ⟨c, hc | hc, hn⟩
    exacts [.inl ⟨c, hc, hn⟩, .inr ⟨c, hc, hn⟩]
  · rintro (⟨c, hc, hn⟩ | ⟨c, hc, hn⟩)
    exacts [⟨c, .inl hc, hn⟩, ⟨c, .inr hc, hn⟩]

/-! ### The invariant -/

/-- The live records with a property, as the lookup maps list them. -/
def livePos (cf : ControlFlowIndex) (p : StoredContext → Bool) : List ℕ :=
  positions (fun se => se.live && p se) cf.contexts

/-- The lookup maps list the live records. -/
structure MapsInv (cf : ControlFlowIndex) (seen : Seen) : Prop where
  inRange : ∀ se ∈ cf.contexts, cf.InRange se
  seen_known : ∀ (side : Side) n, seen side n → ∃ id, cf.interner.find n = some id
  usr_isSome : ∀ (side : Side) id, (side.usrMap cf id).isSome ↔
    ∃ n, seen side n ∧ cf.interner.find n = some id
  usr_pos : ∀ (side : Side) id, (side.usrMap cf id).getD [] = cf.livePos fun se => side.usr se = id
  display_pos : ∀ (side : Side) id, (side.displayMap cf id).getD [] =
    cf.livePos fun se => side.display se = id ∧ side.display se ≠ side.usr se
  site_pos : ∀ id, (cf.bySite id).getD [] = cf.livePos fun se => se.site = id
  tu_pos : ∀ id, cf.byTu id = cf.livePos fun se => se.tuPath = some id
  noProvenance_pos : cf.noProvenance = cf.livePos fun se => se.tuPath = none
  liveCount : cf.liveCount = cf.contexts.countP (·.live)

/-- The invariant of a resident index. -/
structure Inv (cf : ControlFlowIndex) (seen : Seen) : Prop extends
    TablesInv cf, MapsInv cf seen where
  resident : cf.mapped = none

/-- The live contexts in stored order. -/
def entries (cf : ControlFlowIndex) : List CallSiteContext :=
  (cf.contexts.filter (·.live)).map cf.view

/-- No usr is seen. -/
def Seen.none : Seen := fun _ _ => False

theorem Inv.empty : Inv {} Seen.none where
  toTablesInv := .empty
  inRange := by simp
  seen_known _ _ h := h.elim
  usr_isSome side id := by
    constructor
    · intro h
      cases side <;> cases h
    · rintro ⟨n, h, -⟩
      exact h.elim
  usr_pos side id := by cases side <;> rfl
  display_pos side id := by cases side <;> rfl
  site_pos id := rfl
  tu_pos id := rfl
  noProvenance_pos := rfl
  liveCount := rfl
  resident := rfl

/-! ### Growing tables -/

/-- The fields a growth of the tables leaves alone. -/
theorem Grows.fields (hg : Grows cf cf') :
    cf'.contexts = cf.contexts ∧ (∀ side : Side, side.usrMap cf' = side.usrMap cf) ∧
      (∀ side : Side, side.displayMap cf' = side.displayMap cf) ∧ cf'.bySite = cf.bySite ∧
        cf'.byTu = cf.byTu ∧ cf'.noProvenance = cf.noProvenance ∧
          cf'.liveCount = cf.liveCount ∧ cf'.mapped = cf.mapped := by
  have hrest := hg.rest
  refine ⟨(congrArg contexts hrest :), fun side => ?_, fun side => ?_, (congrArg bySite hrest :),
    (congrArg byTu hrest :), (congrArg noProvenance hrest :),
    (congrArg ControlFlowIndex.liveCount hrest :), (congrArg mapped hrest :)⟩
  · cases side
    exacts [(congrArg byCaller hrest :), (congrArg byCallee hrest :)]
  · cases side
    exacts [(congrArg byCallerDisplay hrest :), (congrArg byCalleeDisplay hrest :)]

/-- Growing tables keep the invariant and the entries. -/
theorem Inv.grows {seen : Seen} (h : cf.Inv seen) (ht : cf'.TablesInv) (hg : Grows cf cf') :
    cf'.Inv seen ∧ cf'.entries = cf.entries := by
  obtain ⟨hctx, husr, hdisp, hsite, htu, hno, hcount, hmap⟩ := hg.fields
  have hpos : ∀ p, cf'.livePos p = cf.livePos p := fun p => by rw [livePos, livePos, hctx]
  refine ⟨{ toTablesInv := ht, inRange := ?_, seen_known := ?_, usr_isSome := ?_, usr_pos := ?_,
            display_pos := ?_, site_pos := ?_, tu_pos := ?_, noProvenance_pos := ?_,
            liveCount := ?_, resident := hmap.trans h.resident }, ?_⟩
  · rw [hctx]
    exact fun se hse => hg.inRange (h.inRange se hse)
  · intro side n hn
    obtain ⟨id, hid⟩ := h.seen_known side n hn
    exact ⟨id, hg.interner.find_eq hid⟩
  · intro side id
    rw [husr, h.usr_isSome]
    constructor
    · rintro ⟨n, hn, hid⟩
      exact ⟨n, hn, hg.interner.find_eq hid⟩
    · rintro ⟨n, hn, hid⟩
      obtain ⟨id', hid'⟩ := h.seen_known side n hn
      have heq := hg.interner.find_eq hid'
      rw [hid, Option.some_inj] at heq
      exact ⟨n, hn, heq ▸ hid'⟩
  · intro side id
    rw [husr, hpos, h.usr_pos]
  · intro side id
    rw [hdisp, hpos, h.display_pos]
  · intro id
    rw [hsite, hpos, h.site_pos]
  · intro id
    rw [htu, hpos, h.tu_pos]
  · rw [hno, hpos, h.noProvenance_pos]
  · rw [hcount, hctx, h.liveCount]
  · rw [entries, entries, hctx]
    refine List.map_congr_left fun se hse => ?_
    exact hg.view_eq h.toTablesInv (h.inRange se (List.mem_of_mem_filter hse))

/-! ### Inserting a record -/

theorem getD_pushEntry (m : SId → Option (List ℕ)) (k id : SId) (i : ℕ) :
    (pushEntry m k i id).getD [] = (m id).getD [] ++ if k = id then [i] else [] := by
  by_cases hk : k = id
  · subst hk
    simp [pushEntry]
  · simp [pushEntry, hk, Function.update_of_ne (Ne.symm hk)]

theorem isSome_pushEntry (m : SId → Option (List ℕ)) (k id : SId) (i : ℕ) :
    (pushEntry m k i id).isSome ↔ (m id).isSome ∨ k = id := by
  by_cases hk : k = id
  · subst hk
    simp [pushEntry]
  · simp [pushEntry, hk, Function.update_of_ne (Ne.symm hk)]

/-- The positions after a record is appended. -/
theorem livePos_insertStored (cf : ControlFlowIndex) (se : StoredContext) (tracked : Bool)
    (p : StoredContext → Bool) (hp : p { se with live := true } = p se) :
    (cf.insertStored se tracked).livePos p =
      cf.livePos p ++ if p se then [cf.contexts.length] else [] := by
  simp only [livePos, insertStored, positions_concat, Bool.true_and, hp]

theorem usrMap_insertStored (cf : ControlFlowIndex) (se : StoredContext) (side : Side) :
    side.usrMap (cf.insertStored se) =
      pushEntry (side.usrMap cf) (side.usr se) cf.contexts.length := by
  cases side <;> rfl

theorem displayMap_insertStored (cf : ControlFlowIndex) (se : StoredContext) (side : Side) :
    side.displayMap (cf.insertStored se) =
      if side.display se ≠ side.usr se then
        pushEntry (side.displayMap cf) (side.display se) cf.contexts.length
      else side.displayMap cf := by
  cases side <;> rfl

/-- A record in range is inserted at the end. -/
theorem Inv.insertStored {seen : Seen} (h : cf.Inv seen) (hse : cf.InRange se) :
    (cf.insertStored se).Inv (seen.add [cf.view se]) ∧
      (cf.insertStored se).entries = cf.entries ++ [cf.view se] := by
  have hfind : ∀ side : Side, cf.interner.find (cf.interner.resolve (side.usr se)) =
      some (side.usr se) := fun side => StringInterner.find_resolve h.nodup (hse.usr side)
  refine ⟨{ toTablesInv := { h.toTablesInv with }, inRange := ?_, seen_known := ?_,
            usr_isSome := ?_, usr_pos := ?_, display_pos := ?_, site_pos := ?_, tu_pos := ?_,
            noProvenance_pos := ?_, liveCount := ?_, resident := h.resident }, ?_⟩
  · intro se' hse'
    rcases List.mem_append.mp hse' with hse' | hse'
    · exact { h.inRange se' hse' with }
    · obtain rfl := List.mem_singleton.mp hse'
      exact { hse with }
  · rintro side n (hn | ⟨c, hc, rfl⟩)
    · exact h.seen_known side n hn
    · obtain rfl := List.mem_singleton.mp hc
      rw [usrOf_view]
      exact ⟨_, hfind side⟩
  · intro side id
    rw [usrMap_insertStored, isSome_pushEntry, h.usr_isSome]
    constructor
    · rintro (⟨n, hn, hid⟩ | rfl)
      · exact ⟨n, .inl hn, hid⟩
      · exact ⟨_, .inr ⟨_, .head _, usrOf_view side⟩, hfind side⟩
    · rintro ⟨n, hn | ⟨c, hc, rfl⟩, hid⟩
      · exact .inl ⟨n, hn, hid⟩
      · obtain rfl := List.mem_singleton.mp hc
        rw [usrOf_view] at hid
        exact .inr (Option.some_injective _ ((hfind side).symm.trans hid))
  · intro side id
    rw [usrMap_insertStored, getD_pushEntry, h.usr_pos,
      livePos_insertStored _ _ _ _ (by cases side <;> rfl)]
    simp only [decide_eq_true_eq]
  · intro side id
    rw [displayMap_insertStored, livePos_insertStored _ _ _ _ (by cases side <;> rfl),
      ← h.display_pos]
    by_cases hd : side.display se = side.usr se
    · simp [hd]
    · simp [hd, getD_pushEntry]
  · intro id
    change (pushEntry cf.bySite se.site cf.contexts.length id).getD [] = _
    rw [getD_pushEntry, h.site_pos, livePos_insertStored _ _ _ _ rfl]
    simp only [decide_eq_true_eq]
  · intro id
    rw [livePos_insertStored _ _ _ _ rfl, ← h.tu_pos]
    rcases htu : se.tuPath with _ | tu
    · simp [ControlFlowIndex.insertStored, htu]
    · by_cases hid : tu = id
      · subst hid
        simp [ControlFlowIndex.insertStored, htu]
      · simp [ControlFlowIndex.insertStored, htu, hid, pushAt_of_ne _ _ (Ne.symm hid)]
  · rw [livePos_insertStored _ _ _ _ rfl, ← h.noProvenance_pos]
    rcases htu : se.tuPath with _ | tu
    · simp [ControlFlowIndex.insertStored, htu]
    · simp [ControlFlowIndex.insertStored, htu]
  · simp [ControlFlowIndex.insertStored, h.liveCount, List.countP_append]
  · have hview : (cf.insertStored se).view = cf.view := rfl
    rw [entries, entries, hview]
    simp only [ControlFlowIndex.insertStored, List.filter_append, List.map_append]
    rfl

/-! ### Adding a context -/

/-- A resident index is not stopped by the guard of a mutator. -/
theorem Inv.not_mapped {seen : Seen} (h : cf.Inv seen) : ¬ cf.mapped.isSome = true := by
  rw [h.resident]
  exact Bool.false_ne_true

/-- The optional usr of `addCallSiteContext`: the display id without one. -/
theorem TablesInv.internOr (h : cf.TablesInv) {display : SId} {name usr : Bytes}
    (hlt : display < cf.interner.size) (hres : cf.interner.resolve display = toIndexText name) :
    let r := if toIndexText usr = [] then (cf, display) else cf.intern (toIndexText usr)
    r.1.TablesInv ∧ Grows cf r.1 ∧ r.2 < r.1.interner.size ∧
      r.1.interner.resolve r.2 = toIndexText (if usr = [] then name else usr) := by
  intro r
  by_cases hu : usr = []
  · have hr : r = (cf, display) := if_pos (toIndexText_eq_nil.mpr hu)
    rw [hr, if_pos hu]
    exact ⟨h, .refl _, hlt, hres⟩
  · have hr : r = cf.intern (toIndexText usr) := if_neg fun hn => hu (toIndexText_eq_nil.mp hn)
    rw [hr, if_neg hu]
    exact h.intern (utf8Text_toIndexText usr)

/-- The optional TU of `addCallSiteContext`. -/
theorem TablesInv.internTu (h : cf.TablesInv) (tuPath : Bytes) :
    let r : ControlFlowIndex × Option SId := if toIndexText tuPath = [] then (cf, none)
      else ((cf.intern (toIndexText tuPath)).1, some (cf.intern (toIndexText tuPath)).2)
    r.1.TablesInv ∧ Grows cf r.1 ∧
      (∀ tu, r.2 = some tu → tu < r.1.interner.size ∧ r.1.interner.resolve tu ≠ []) ∧
        (r.2.map r.1.interner.resolve).getD [] = toIndexText tuPath := by
  intro r
  by_cases hu : toIndexText tuPath = []
  · have hr : r = (cf, none) := if_pos hu
    rw [hr]
    refine ⟨h, .refl _, fun tu htu => ?_, hu.symm⟩
    cases htu
  · have hr : r = ((cf.intern (toIndexText tuPath)).1,
        some (cf.intern (toIndexText tuPath)).2) := if_neg hu
    obtain ⟨ht, hg, hlt, hres⟩ := h.intern (utf8Text_toIndexText tuPath)
    rw [hr]
    refine ⟨ht, hg, fun tu htu => ?_, by simp [hres]⟩
    obtain rfl := Option.some_injective _ htu
    exact ⟨hlt, by rwa [hres]⟩

theorem scopesUtf8_stored (scopes : List TryCatchScope) :
    ScopesUtf8 (scopes.map TryCatchScope.stored) := by
  intro s hs
  obtain ⟨s, -, rfl⟩ := List.mem_map.mp hs
  refine ⟨utf8Text_toIndexText _, utf8Text_toIndexText _, fun h hh => ?_⟩
  obtain ⟨h, -, rfl⟩ := List.mem_map.mp hh
  exact ⟨utf8Text_toIndexText _, utf8Text_toIndexText _, utf8Text_toIndexText _⟩

theorem guardsUtf8_stored (guards : List ConditionalGuard) :
    GuardsUtf8 (guards.map ConditionalGuard.stored) := by
  intro g hg
  obtain ⟨g, -, rfl⟩ := List.mem_map.mp hg
  exact ⟨utf8Text_toIndexText _, utf8Text_toIndexText _⟩

/-- **Adding a context appends it**, as index text. -/
theorem Inv.addCallSiteContext {seen : Seen} (h : cf.Inv seen) (ctx : CallSiteContext) :
    (cf.addCallSiteContext ctx).Inv (seen.add [ctx.stored]) ∧
      (cf.addCallSiteContext ctx).entries = cf.entries ++ [ctx.stored] := by
  rw [ControlFlowIndex.addCallSiteContext, if_neg h.not_mapped]
  extract_lets calleeDisplay callerDisplay callee caller site tu locals scopeSet guardSet raiiSet
  obtain ⟨ht1, hg1, hlt1, hres1⟩ : calleeDisplay.1.TablesInv ∧ Grows cf calleeDisplay.1 ∧
      calleeDisplay.2 < calleeDisplay.1.interner.size ∧
        calleeDisplay.1.interner.resolve calleeDisplay.2 = toIndexText ctx.calleeName :=
    h.toTablesInv.intern (utf8Text_toIndexText ctx.calleeName)
  clear_value calleeDisplay
  obtain ⟨ht2, hg2, hlt2, hres2⟩ : callerDisplay.1.TablesInv ∧
      Grows calleeDisplay.1 callerDisplay.1 ∧
        callerDisplay.2 < callerDisplay.1.interner.size ∧
          callerDisplay.1.interner.resolve callerDisplay.2 = toIndexText ctx.callerName :=
    ht1.intern (utf8Text_toIndexText ctx.callerName)
  clear_value callerDisplay
  obtain ⟨ht3, hg3, hlt3, hres3⟩ : callee.1.TablesInv ∧ Grows callerDisplay.1 callee.1 ∧
      callee.2 < callee.1.interner.size ∧ callee.1.interner.resolve callee.2 =
        toIndexText (if ctx.calleeUsr = [] then ctx.calleeName else ctx.calleeUsr) :=
    ht2.internOr (hlt1.trans_le hg2.interner.size_le)
      (by rw [hg2.interner.resolve_eq hlt1, hres1])
  clear_value callee
  obtain ⟨ht4, hg4, hlt4, hres4⟩ : caller.1.TablesInv ∧ Grows callee.1 caller.1 ∧
      caller.2 < caller.1.interner.size ∧ caller.1.interner.resolve caller.2 =
        toIndexText (if ctx.callerUsr = [] then ctx.callerName else ctx.callerUsr) :=
    ht3.internOr (hlt2.trans_le hg3.interner.size_le)
      (by rw [hg3.interner.resolve_eq hlt2, hres2])
  clear_value caller
  obtain ⟨ht5, hg5, hlt5, hres5⟩ : site.1.TablesInv ∧ Grows caller.1 site.1 ∧
      site.2 < site.1.interner.size ∧
        site.1.interner.resolve site.2 = toIndexText ctx.callSite :=
    ht4.intern (utf8Text_toIndexText ctx.callSite)
  clear_value site
  obtain ⟨ht6, hg6, htu6, hres6⟩ : tu.1.TablesInv ∧ Grows site.1 tu.1 ∧
      (∀ t, tu.2 = some t → t < tu.1.interner.size ∧ tu.1.interner.resolve t ≠ []) ∧
        (tu.2.map tu.1.interner.resolve).getD [] = toIndexText ctx.tuPath :=
    ht5.internTu ctx.tuPath
  clear_value tu
  obtain ⟨ht7, hg7, hrange7, hmap7⟩ : locals.1.TablesInv ∧ Grows tu.1 locals.1 ∧
      (∀ l ∈ locals.2, locals.1.LocalInRange l) ∧
        locals.2.map (RaiiLocal.map locals.1.interner.resolve) =
          ctx.liveRaiiLocals.map (RaiiLocal.map toIndexText) :=
    ht6.internLocals fun l hl => by
      obtain ⟨l, -, rfl⟩ := List.mem_map.mp hl
      exact ⟨utf8Text_toIndexText _, utf8Text_toIndexText _, utf8Text_toIndexText _⟩
  clear_value locals
  obtain ⟨ht8, hg8, hget8⟩ : scopeSet.1.TablesInv ∧ Grows locals.1 scopeSet.1 ∧
      scopeSet.1.scopeSets[scopeSet.2]? =
        some (ctx.enclosingTryCatches.map TryCatchScope.stored) :=
    ht7.internScopeSet (scopesUtf8_stored ctx.enclosingTryCatches)
  clear_value scopeSet
  obtain ⟨ht9, hg9, hget9⟩ : guardSet.1.TablesInv ∧ Grows scopeSet.1 guardSet.1 ∧
      guardSet.1.guardSets[guardSet.2]? =
        some (ctx.enclosingGuards.map ConditionalGuard.stored) :=
    ht8.internGuardSet (guardsUtf8_stored ctx.enclosingGuards)
  clear_value guardSet
  have to9 := hg8.trans hg9
  obtain ⟨ht10, hg10, hget10⟩ : raiiSet.1.TablesInv ∧ Grows guardSet.1 raiiSet.1 ∧
      raiiSet.1.raiiSets[raiiSet.2]? = some locals.2 :=
    ht9.internRaiiSet fun l hl => to9.localInRange (hrange7 l hl)
  clear_value raiiSet
  -- what each stage interned stays valid until the record is inserted
  have to8 := hg9.trans hg10
  have to7 := hg8.trans to8
  have to6 := hg7.trans to7
  have to5 := hg6.trans to6
  have to4 := hg5.trans to5
  have to3 := hg4.trans to4
  have to2 := hg3.trans to3
  have to1 := hg2.trans to2
  obtain ⟨hinv, hent⟩ := h.grows ht10 (hg1.trans to1)
  have hscope := List.getElem?_eq_some_iff.mp hget8
  have hguard := List.getElem?_eq_some_iff.mp hget9
  have hraii := List.getElem?_eq_some_iff.mp hget10
  have hrange : raiiSet.1.InRange
      { caller := caller.2, callee := callee.2, callerDisplay := callerDisplay.2,
        calleeDisplay := calleeDisplay.2, site := site.2, tuPath := tu.2,
        scopeSet := scopeSet.2, guardSet := guardSet.2, raiiSet := raiiSet.2,
        callerNoexcept := ctx.callerNoexcept, insideCatchBlock := ctx.insideCatchBlock } :=
    { caller := hlt4.trans_le to4.interner.size_le
      callee := hlt3.trans_le to3.interner.size_le
      callerDisplay := hlt2.trans_le to2.interner.size_le
      calleeDisplay := hlt1.trans_le to1.interner.size_le
      site := hlt5.trans_le to5.interner.size_le
      tuPath := fun t ht => by
        obtain ⟨hlt, hne⟩ := htu6 t ht
        exact ⟨hlt.trans_le to6.interner.size_le, by rwa [to6.interner.resolve_eq hlt]⟩
      scopeSet := hscope.1.trans_le to8.scopeSets.length_le
      guardSet := hguard.1.trans_le hg10.guardSets.length_le
      raiiSet := hraii.1 }
  have hview : raiiSet.1.view
      { caller := caller.2, callee := callee.2, callerDisplay := callerDisplay.2,
        calleeDisplay := calleeDisplay.2, site := site.2, tuPath := tu.2,
        scopeSet := scopeSet.2, guardSet := guardSet.2, raiiSet := raiiSet.2,
        callerNoexcept := ctx.callerNoexcept, insideCatchBlock := ctx.insideCatchBlock } =
      ctx.stored := by
    have htu : (tu.2.map raiiSet.1.interner.resolve).getD [] = toIndexText ctx.tuPath :=
      (to6.resolve_tu fun t ht => (htu6 t ht).1).trans hres6
    have hlocals : (raiiSet.1.raiiSets.getD raiiSet.2 []).map
        (RaiiLocal.map raiiSet.1.interner.resolve) =
          ctx.liveRaiiLocals.map (RaiiLocal.map toIndexText) := by
      have hkeep : ∀ l ∈ locals.2, RaiiLocal.map raiiSet.1.interner.resolve l =
          RaiiLocal.map locals.1.interner.resolve l := fun l hl => to7.resolve_local (hrange7 l hl)
      calc _ = locals.2.map (RaiiLocal.map raiiSet.1.interner.resolve) := by
            rw [List.getD_eq_getElem?_getD, hget10, Option.getD_some]
        _ = locals.2.map (RaiiLocal.map locals.1.interner.resolve) := List.map_congr_left hkeep
        _ = _ := hmap7
    have hscopes : raiiSet.1.scopeSets.getD scopeSet.2 [] =
        ctx.enclosingTryCatches.map TryCatchScope.stored := by
      rw [ getD_of_prefix to8.scopeSets hscope.1, List.getD_eq_getElem?_getD, hget8,
        Option.getD_some]
    have hguards : raiiSet.1.guardSets.getD guardSet.2 [] =
        ctx.enclosingGuards.map ConditionalGuard.stored := by
      rw [ getD_of_prefix hg10.guardSets hguard.1, List.getD_eq_getElem?_getD, hget9,
        Option.getD_some]
    simp only [view, tuText, htu, hlocals, hscopes, hguards, CallSiteContext.stored,
      to4.interner.resolve_eq hlt4, hres4, to3.interner.resolve_eq hlt3, hres3,
      to2.interner.resolve_eq hlt2, hres2, to1.interner.resolve_eq hlt1, hres1,
      to5.interner.resolve_eq hlt5, hres5]
  rw [← hview, ← hent]
  exact hinv.insertStored hrange

/-! ### Absorbing a shard -/

section AbsorbSets

variable {α : Type*} {internOne : ControlFlowIndex → α → ControlFlowIndex × ℕ}
  {Holds : ControlFlowIndex → ℕ → α → Prop} {Fits : ControlFlowIndex → α → Prop}

/-- The loop over a shard's set table, for what one interning does. `pre` is the part of the
table already interned. -/
theorem absorbSets_loop
    (hstep : ∀ cf set, TablesInv cf → Fits cf set → (internOne cf set).1.TablesInv ∧
      Grows cf (internOne cf set).1 ∧ Holds (internOne cf set).1 (internOne cf set).2 set)
    (hholds : ∀ {cf cf' i set}, Grows cf cf' → Holds cf i set → Holds cf' i set)
    (hfits : ∀ {cf cf' set}, Grows cf cf' → Fits cf set → Fits cf' set)
    (pre rest : List α) (acc : ControlFlowIndex × List ℕ) (ht : acc.1.TablesInv)
    (hlen : acc.2.length = pre.length)
    (hpre : ∀ i set, pre[i]? = some set → Holds acc.1 (acc.2.getD i 0) set)
    (hrest : ∀ set ∈ rest, Fits acc.1 set) :
    let r := rest.foldl (fun acc set =>
      ((internOne acc.1 set).1, acc.2 ++ [(internOne acc.1 set).2])) acc
    r.1.TablesInv ∧ Grows acc.1 r.1 ∧
      ∀ i set, (pre ++ rest)[i]? = some set → Holds r.1 (r.2.getD i 0) set := by
  induction rest generalizing pre acc with
  | nil => exact ⟨ht, .refl _, by simpa using hpre⟩
  | cons set rest ih =>
    obtain ⟨ht', hg', hh'⟩ := hstep acc.1 set ht (hrest set (.head _))
    obtain ⟨ht'', hg'', hh''⟩ := ih (pre ++ [set])
      ((internOne acc.1 set).1, acc.2 ++ [(internOne acc.1 set).2]) ht' (by simp [hlen])
      (fun i s hs => by
        rcases lt_or_ge i pre.length with hi | hi
        · rw [List.getElem?_append_left hi] at hs
          rw [List.getD_append _ _ _ _ (by omega)]
          exact hholds hg' (hpre i s hs)
        · have hi' := (List.getElem?_eq_some_iff.mp hs).1
          simp only [List.length_append, List.length_singleton] at hi'
          obtain rfl : i = pre.length := by omega
          rw [List.getElem?_append_right le_rfl, Nat.sub_self] at hs
          obtain rfl : set = s := by simpa using hs
          rw [← hlen, List.getD_append_right _ _ _ _ le_rfl, Nat.sub_self]
          exact hh')
      (fun s hs => hfits hg' (hrest s (.tail _ hs)))
    refine ⟨ht'', hg'.trans hg'', fun i s hs => hh'' i s ?_⟩
    rw [List.append_assoc]
    exact hs

variable (Holds Fits) in
/-- The set table of a shard is interned entry by entry; entry 0 stays entry 0. -/
theorem absorbSets_spec
    (hstep : ∀ cf set, TablesInv cf → Fits cf set → (internOne cf set).1.TablesInv ∧
      Grows cf (internOne cf set).1 ∧ Holds (internOne cf set).1 (internOne cf set).2 set)
    (hholds : ∀ {cf cf' i set}, Grows cf cf' → Holds cf i set → Holds cf' i set)
    (hfits : ∀ {cf cf' set}, Grows cf cf' → Fits cf set → Fits cf' set)
    (ht : cf.TablesInv) {table : List α} {first : α} (hfirst : table[0]? = some first)
    (hhead : Holds cf 0 first) (hall : ∀ set ∈ table, Fits cf set) :
    (absorbSets internOne cf table).1.TablesInv ∧ Grows cf (absorbSets internOne cf table).1 ∧
      ∀ i set, table[i]? = some set →
        Holds (absorbSets internOne cf table).1 ((absorbSets internOne cf table).2.getD i 0)
          set := by
  cases table with
  | nil => cases hfirst
  | cons a rest =>
    obtain rfl : a = first := by simpa using hfirst
    refine absorbSets_loop hstep hholds hfits [a] rest (cf, [0]) ht rfl (fun i s hs => ?_)
      fun s hs => hall s (.tail _ hs)
    have hi := (List.getElem?_eq_some_iff.mp hs).1
    obtain rfl : i = 0 := by simpa using hi
    obtain rfl : a = s := by simpa using hs
    exact hhead

end AbsorbSets

/-- A set in a table stays there. -/
theorem getElem?_of_prefix {α : Type*} {l l' : List α} (h : l <+: l') {i : ℕ} {a : α}
    (hi : l[i]? = some a) : l'[i]? = some a := by
  obtain ⟨r, rfl⟩ := h
  rw [List.getElem?_append_left (List.getElem?_eq_some_iff.mp hi).1, hi]

/-- The loop over the shard's contexts: the live ones are appended as they are meant. -/
theorem Inv.absorbContexts {seen : Seen} {remap : SId → SId}
    {scopeRemap guardRemap raiiRemap : List ℕ} (meaning : StoredContext → CallSiteContext)
    (h : cf.Inv seen) (l : List StoredContext)
    (hl : ∀ se ∈ l, ∃ rec : StoredContext,
      (∀ cf : ControlFlowIndex, cf.absorbContext remap scopeRemap guardRemap raiiRemap se =
        if !se.live then cf else cf.insertStored rec) ∧
      cf.InRange rec ∧ cf.view rec = meaning se) :
    (l.foldl (absorbContext remap scopeRemap guardRemap raiiRemap) cf).Inv
        (seen.add ((l.filter (·.live)).map meaning)) ∧
      (l.foldl (absorbContext remap scopeRemap guardRemap raiiRemap) cf).entries =
        cf.entries ++ (l.filter (·.live)).map meaning := by
  induction l generalizing cf seen with
  | nil => simpa [Seen.add_nil] using h
  | cons se l ih =>
    obtain ⟨rec, hstep, hrange, hview⟩ := hl se (.head _)
    rw [List.foldl_cons, hstep]
    by_cases hlive : se.live = true
    · obtain ⟨hinv, hent⟩ := h.insertStored hrange
      -- inserting changes no table, so the other records mean what they did
      obtain ⟨hinv', hent'⟩ := ih hinv fun se' hse' => by
        obtain ⟨rec', h1, h2, h3⟩ := hl se' (.tail _ hse')
        exact ⟨rec', h1, { h2 with }, h3⟩
      rw [hview] at hent hinv'
      simp only [hlive, Bool.not_true, Bool.false_eq_true, if_false, List.filter_cons, if_true,
        List.map_cons]
      refine ⟨?_, by rw [hent', hent, List.append_assoc, List.singleton_append]⟩
      rw [← List.singleton_append, Seen.add_append]
      exact hinv'
    · have hdead : se.live = false := by simpa using hlive
      simp only [hdead, Bool.not_false, if_true, List.filter_cons, Bool.false_eq_true, if_false]
      exact ih h fun se' hse' => hl se' (.tail _ hse')

/-- **Absorbing a shard appends its entries.** -/
theorem Inv.absorb {seen seen' : Seen} (h : cf.Inv seen) (hs : shard.Inv seen') :
    (cf.absorb shard).Inv (seen.add shard.entries) ∧
      (cf.absorb shard).entries = cf.entries ++ shard.entries := by
  have hguard : ¬ (cf.mapped.isSome || shard.mapped.isSome) = true := by
    simp [h.resident, hs.resident]
  rw [ControlFlowIndex.absorb, if_neg hguard]
  extract_lets table remap cf0 scopes guards raiis
  -- the shard's strings
  have hext : cf.interner.Extends table.1 := StringInterner.extends_internAll _ _
  have hg0 : Grows cf cf0 := ⟨hext, List.prefix_rfl, List.prefix_rfl, List.prefix_rfl, rfl⟩
  have ht0 : cf0.TablesInv :=
    { h.toTablesInv with
      nodup := StringInterner.nodup_internAll h.nodup _
      utf8 := fun s hs' => (StringInterner.mem_internAll.mp hs').elim (h.utf8 s) (hs.utf8 s)
      raiis_range := fun set hset l hl => hg0.localInRange (h.raiis_range set hset l hl) }
  have hremap : ∀ id, id < shard.interner.size → remap id < cf0.interner.size ∧
      cf0.interner.resolve (remap id) = shard.interner.resolve id := by
    intro id hid
    have hfind := StringInterner.find_internAll cf.interner shard.interner.strings id hid
    have hres : shard.interner.strings[id] = shard.interner.resolve id :=
      (List.getD_eq_getElem _ _ hid).symm
    rw [hres] at hfind
    exact ⟨StringInterner.lt_of_find hfind, StringInterner.resolve_of_find hfind⟩
  clear_value cf0 remap
  -- the shard's set tables
  obtain ⟨ht1, hg1, hget1⟩ : scopes.1.TablesInv ∧ Grows cf0 scopes.1 ∧ ∀ i set,
      shard.scopeSets[i]? = some set → scopes.1.scopeSets[scopes.2.getD i 0]? = some set :=
    absorbSets_spec (fun cf i set => cf.scopeSets[i]? = some set)
      (fun _ set => ScopesUtf8 set) (fun cf set ht hfit => ht.internScopeSet hfit)
      (fun hg hset => getElem?_of_prefix hg.scopeSets hset) (fun _ hfit => hfit) ht0
      hs.scopes.head ht0.scopes.head hs.scopes_utf8
  clear_value scopes
  obtain ⟨ht2, hg2, hget2⟩ : guards.1.TablesInv ∧ Grows scopes.1 guards.1 ∧ ∀ i set,
      shard.guardSets[i]? = some set → guards.1.guardSets[guards.2.getD i 0]? = some set :=
    absorbSets_spec (fun cf i set => cf.guardSets[i]? = some set)
      (fun _ set => GuardsUtf8 set) (fun cf set ht hfit => ht.internGuardSet hfit)
      (fun hg hset => getElem?_of_prefix hg.guardSets hset) (fun _ hfit => hfit) ht1
      hs.guards.head ht1.guards.head hs.guards_utf8
  clear_value guards
  have hlocal : ∀ set ∈ shard.raiiSets, ∀ l ∈ set.map (RaiiLocal.map remap),
      guards.1.LocalInRange l := by
    intro set hset l hl
    obtain ⟨l, hl', rfl⟩ := List.mem_map.mp hl
    obtain ⟨h1, h2, h3⟩ := hs.raiis_range set hset l hl'
    exact (hg1.trans hg2).localInRange ⟨(hremap _ h1).1, (hremap _ h2).1, (hremap _ h3).1⟩
  have hkept : ∀ {cf cf' : ControlFlowIndex} {i : ℕ} {set : List (RaiiLocal SId)}, Grows cf cf' →
      cf.raiiSets[i]? = some (set.map (RaiiLocal.map remap)) →
        cf'.raiiSets[i]? = some (set.map (RaiiLocal.map remap)) :=
    fun hg hset => getElem?_of_prefix hg.raiiSets hset
  obtain ⟨ht3, hg3, hget3⟩ : raiis.1.TablesInv ∧ Grows guards.1 raiis.1 ∧ ∀ i set,
      shard.raiiSets[i]? = some set →
        raiis.1.raiiSets[raiis.2.getD i 0]? = some (set.map (RaiiLocal.map remap)) :=
    absorbSets_spec
      (fun cf i set => cf.raiiSets[i]? = some (set.map (RaiiLocal.map remap)))
      (fun cf set => ∀ l ∈ set.map (RaiiLocal.map remap), cf.LocalInRange l)
      (fun cf set ht hfit => ht.internRaiiSet hfit)
      hkept
      (fun hg hfit l hl => hg.localInRange (hfit l hl)) ht2 hs.raiis.head ht2.raiis.head hlocal
  clear_value raiis
  have to2 := hg2.trans hg3
  have to1 := hg1.trans to2
  obtain ⟨hinv, hent⟩ := h.grows ht3 (hg0.trans to1)
  have hres : ∀ {id}, id < shard.interner.size → remap id < raiis.1.interner.size ∧
      raiis.1.interner.resolve (remap id) = shard.interner.resolve id := by
    intro id hid
    obtain ⟨hlt, hr⟩ := hremap id hid
    exact ⟨hlt.trans_le to1.interner.size_le, (to1.interner.resolve_eq hlt).trans hr⟩
  have key : ∀ se ∈ shard.contexts, ∃ rec : StoredContext,
      (∀ cf : ControlFlowIndex, cf.absorbContext remap scopes.2 guards.2 raiis.2 se =
        if !se.live then cf else cf.insertStored rec) ∧
      raiis.1.InRange rec ∧ raiis.1.view rec = shard.view se := by
    intro se hse
    have hr := hs.inRange se hse
    have hscope := getElem?_of_prefix to2.scopeSets
      (hget1 _ _ (List.getElem?_eq_getElem hr.scopeSet))
    have hguards := getElem?_of_prefix hg3.guardSets
      (hget2 _ _ (List.getElem?_eq_getElem hr.guardSet))
    have hraii := hget3 _ _ (List.getElem?_eq_getElem hr.raiiSet)
    refine ⟨_, fun cf => rfl, ?_, ?_⟩
    · exact
        { caller := (hres hr.caller).1, callee := (hres hr.callee).1
          callerDisplay := (hres hr.callerDisplay).1
          calleeDisplay := (hres hr.calleeDisplay).1, site := (hres hr.site).1
          tuPath := fun tu htu => by
            obtain ⟨t, ht, rfl⟩ := Option.map_eq_some_iff.mp htu
            obtain ⟨hlt, hne⟩ := hr.tuPath t ht
            exact ⟨(hres hlt).1, by rwa [(hres hlt).2]⟩
          scopeSet := (List.getElem?_eq_some_iff.mp hscope).1
          guardSet := (List.getElem?_eq_some_iff.mp hguards).1
          raiiSet := (List.getElem?_eq_some_iff.mp hraii).1 }
    · have htu : ((se.tuPath.map remap).map raiis.1.interner.resolve).getD [] =
          (se.tuPath.map shard.interner.resolve).getD [] := by
        rcases htu : se.tuPath with _ | tu
        · rfl
        · exact (hres (hr.tuPath tu htu).1).2
      have hlocals : (raiis.1.raiiSets.getD (raiis.2.getD se.raiiSet 0) []).map
          (RaiiLocal.map raiis.1.interner.resolve) =
            (shard.raiiSets.getD se.raiiSet []).map (RaiiLocal.map shard.interner.resolve) := by
        rw [List.getD_eq_getElem?_getD, hraii, Option.getD_some,
          List.getD_eq_getElem _ _ hr.raiiSet, List.map_map]
        refine List.map_congr_left fun l hl => ?_
        obtain ⟨h1, h2, h3⟩ := hs.raiis_range _ (List.getElem_mem _) l hl
        simp [RaiiLocal.map, (hres h1).2, (hres h2).2, (hres h3).2]
      have hscopes : raiis.1.scopeSets.getD (scopes.2.getD se.scopeSet 0) [] =
          shard.scopeSets.getD se.scopeSet [] := by
        rw [List.getD_eq_getElem?_getD, hscope, Option.getD_some,
          List.getD_eq_getElem _ _ hr.scopeSet]
      have hguards' : raiis.1.guardSets.getD (guards.2.getD se.guardSet 0) [] =
          shard.guardSets.getD se.guardSet [] := by
        rw [List.getD_eq_getElem?_getD, hguards, Option.getD_some,
          List.getD_eq_getElem _ _ hr.guardSet]
      simp only [view, tuText, htu, (hres hr.caller).2, (hres hr.callee).2,
        (hres hr.callerDisplay).2, (hres hr.calleeDisplay).2, (hres hr.site).2, hlocals, hscopes,
        hguards']
  obtain ⟨hinv', hent'⟩ := hinv.absorbContexts shard.view shard.contexts key
  exact ⟨hinv', by rw [hent', hent]; rfl⟩

end ControlFlowIndex

end Vycor
