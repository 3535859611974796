import Vycor.ControlFlow.Remove

/-!
# What the queries answer

On a resident index every query is a filter of the entries. The queries by name look for a
usr first and fall back to the display names; they ask whether the usr map has an entry,
not whether the entry lists anything, so a usr whose contexts were removed hides the
contexts with that display name until the index is compacted. `removed_leave_no_trace_iff`
says exactly when a run of mutators leaves an index that answers like a fresh one.
-/

namespace Vycor

namespace ControlFlowIndex

variable {cf cf' : ControlFlowIndex} {seen seen' : Seen} (ll : Llvm)

/-! ### The queries on the entries -/

open Classical in
/-- The entries a name stands for on a side. -/
noncomputable def named (seen : Seen) (side : Side) (name : Bytes)
    (entries : List CallSiteContext) : List CallSiteContext :=
  if seen side name then entries.filter fun c => side.usrOf c = name
  else entries.filter fun c => side.displayOf c = name ∧ side.displayOf c ≠ side.usrOf c

/-- The records with a property stand for the entries with it. -/
theorem map_view_filter {p : StoredContext → Bool} {q : CallSiteContext → Bool}
    (hpq : ∀ se ∈ cf.contexts, p se = q (cf.view se)) :
    (cf.contexts.filter fun se => se.live && p se).map cf.view = cf.entries.filter q := by
  rw [entries, List.filter_map, List.filter_filter]
  congr 1
  refine List.filter_congr fun se hse => ?_
  rw [Function.comp_apply, hpq se hse, Bool.and_comm]

theorem collect_eq (h : cf.Inv seen) (keep : StoredContext → Bool) (ps : List ℕ)
    (hps : ∀ i ∈ ps, i < cf.contexts.length) :
    cf.collect ll keep ps = some (((ps.filterMap (cf.contexts[·]?)).filter
      fun se => se.live && keep se).map cf.view) := by
  induction ps with
  | nil => rfl
  | cons i ps ih =>
    have hi := hps i (.head _)
    have hget := List.getElem?_eq_getElem hi
    have hstored : cf.storedAt i = some cf.contexts[i] := by
      rw [storedAt, h.resident]
      exact hget
    have hmat := materialize_resident ll h.resident (h.inRange _ (List.getElem_mem hi))
    rw [collect, hstored, Option.bind_eq_bind, Option.bind_some,
      ih fun j hj => hps j (.tail _ hj), List.filterMap_cons, hget]
    split_ifs with hkeep
    · simp [hmat, hkeep]
    · simp [hkeep]

theorem lt_of_mem_livePos {p : StoredContext → Bool} :
    ∀ i ∈ cf.livePos p, i < cf.contexts.length := by
  intro i hi
  obtain ⟨se, hse, -⟩ := mem_positions.mp hi
  exact (List.getElem?_eq_some_iff.mp hse).1

/-- The records at the listed positions that pass a test stand for the entries that do. -/
theorem map_view_livePos (keep p : StoredContext → Bool) (q keep' : CallSiteContext → Bool)
    (hpq : ∀ se ∈ cf.contexts, p se = q (cf.view se))
    (hkeep : ∀ se ∈ cf.contexts, keep se = keep' (cf.view se)) :
    (((cf.livePos p).filterMap (cf.contexts[·]?)).filter fun se => se.live && keep se).map cf.view =
      (cf.entries.filter q).filter keep' := by
  rw [livePos, filterMap_positions, List.filter_filter, List.filter_filter]
  have hand : (cf.contexts.filter fun se => (se.live && keep se) && (se.live && p se)) =
      cf.contexts.filter fun se => se.live && (keep se && p se) := by
    refine List.filter_congr fun se _ => ?_
    cases se.live <;> simp
  rw [hand]
  exact map_view_filter fun se hse => by rw [hkeep se hse, hpq se hse]

/-- Collecting at the listed positions of the live records with a property. -/
theorem collect_livePos (h : cf.Inv seen) (keep p : StoredContext → Bool)
    (q keep' : CallSiteContext → Bool) (hpq : ∀ se ∈ cf.contexts, p se = q (cf.view se))
    (hkeep : ∀ se ∈ cf.contexts, keep se = keep' (cf.view se)) :
    cf.collect ll keep (cf.livePos p) = some ((cf.entries.filter q).filter keep') := by
  rw [collect_eq ll h keep _ lt_of_mem_livePos, map_view_livePos keep p q keep' hpq hkeep]

theorem firstStored_eq (h : cf.Inv seen) (keep : StoredContext → Bool) (ps : List ℕ)
    (hps : ∀ i ∈ ps, i < cf.contexts.length) :
    cf.firstStored keep ps = some ((ps.filterMap (cf.contexts[·]?)).find?
      fun se => se.live && keep se) := by
  induction ps with
  | nil => rfl
  | cons i ps ih =>
    have hi := hps i (.head _)
    have hget := List.getElem?_eq_getElem hi
    have hstored : cf.storedAt i = some cf.contexts[i] := by
      rw [storedAt, h.resident]
      exact hget
    rw [firstStored, hstored, Option.bind_eq_bind, Option.bind_some,
      ih fun j hj => hps j (.tail _ hj), List.filterMap_cons, hget]
    split_ifs with hkeep
    · simp [hkeep]
    · simp [hkeep]

/-- The first record at the listed positions stands for the first entry. -/
theorem firstStored_livePos (h : cf.Inv seen) (keep p : StoredContext → Bool)
    (q keep' : CallSiteContext → Bool) (hpq : ∀ se ∈ cf.contexts, p se = q (cf.view se))
    (hkeep : ∀ se ∈ cf.contexts, keep se = keep' (cf.view se)) :
    ∃ found, cf.firstStored keep (cf.livePos p) = some found ∧
      (∀ se, found = some se → se ∈ cf.contexts) ∧
        found.map cf.view = ((cf.entries.filter q).filter keep').head? := by
  refine ⟨_, firstStored_eq h keep _ lt_of_mem_livePos, fun se hse => ?_, ?_⟩
  · obtain ⟨i, -, hi⟩ := List.mem_filterMap.mp (List.mem_of_find?_eq_some hse)
    exact List.mem_of_getElem? hi
  · rw [← map_view_livePos keep p q keep' hpq hkeep, List.head?_map, List.head?_filter]

theorem materializeFound_eq (h : cf.Inv seen) {found : Option StoredContext}
    (hfound : ∀ se, found = some se → se ∈ cf.contexts) :
    cf.materializeFound ll found = some (found.map cf.view) := by
  cases found with
  | none => rfl
  | some se =>
    rw [materializeFound, materialize_resident ll h.resident (h.inRange se (hfound se rfl))]
    rfl

/-! ### Names and ids -/

theorem findId_resident (h : cf.Inv seen) (raw : Bytes) :
    cf.findId ll raw = some (cf.interner.find (lookupText ll raw)) := by
  rw [findId, h.resident]

/-- An id in range is the id of a text exactly when it resolves to it. -/
theorem Inv.id_iff (h : cf.Inv seen) {text : Bytes} {id i : SId}
    (hid : cf.interner.find text = some id) (hi : i < cf.interner.size) :
    i = id ↔ cf.interner.resolve i = text := by
  constructor
  · rintro rfl
    exact StringInterner.resolve_of_find hid
  · intro hres
    have hfind := StringInterner.find_resolve h.nodup hi
    rw [hres, hid, Option.some_inj] at hfind
    exact hfind.symm

/-- A text the index does not know is the name of no entry. -/
theorem Inv.resolve_ne (h : cf.Inv seen) {text : Bytes} (hid : cf.interner.find text = none)
    {i : SId} (hi : i < cf.interner.size) : cf.interner.resolve i ≠ text := by
  rintro rfl
  rw [StringInterner.find_resolve h.nodup hi] at hid
  cases hid

/-- The positions of a call site list its entries. -/
theorem Inv.sitePositions (h : cf.Inv seen) (callSite : Bytes) :
    ∃ p, cf.sitePositions ll callSite = some (cf.livePos p) ∧
      ∀ se ∈ cf.contexts, p se = decide ((cf.view se).callSite = lookupText ll callSite) := by
  rw [ControlFlowIndex.sitePositions, findId_resident ll h]
  rcases hid : cf.interner.find (lookupText ll callSite) with _ | id
  · refine ⟨fun _ => false, ?_, fun se hse => ?_⟩
    · simp [livePos, positions]
    · exact (decide_eq_false (h.resolve_ne hid (h.inRange se hse).site)).symm
  · refine ⟨fun se => se.site = id, ?_, fun se hse => ?_⟩
    · simp only [Option.bind_eq_bind, Option.bind_some, h.resident, h.site_pos]
    · exact decide_eq_decide.mpr (h.id_iff hid (h.inRange se hse).site)

open Classical in
/-- The positions of a name list the entries it stands for. -/
theorem Inv.namePositions (h : cf.Inv seen) (side : Side) (name : Bytes) :
    ∃ p, cf.namePositions ll side name = some (cf.livePos p) ∧ ∀ se ∈ cf.contexts, p se =
      if seen side (lookupText ll name) then decide (side.usrOf (cf.view se) = lookupText ll name)
      else decide (side.displayOf (cf.view se) = lookupText ll name ∧
        side.displayOf (cf.view se) ≠ side.usrOf (cf.view se)) := by
  rw [ControlFlowIndex.namePositions, findId_resident ll h]
  rcases hid : cf.interner.find (lookupText ll name) with _ | id
  · refine ⟨fun _ => false, ?_, fun se hse => ?_⟩
    · simp [livePos, positions]
    · have hr := h.inRange se hse
      have hunseen : ¬ seen side (lookupText ll name) := by
        intro hs
        obtain ⟨id, hid'⟩ := h.seen_known side _ hs
        rw [hid] at hid'
        cases hid'
      rw [if_neg hunseen, eq_comm, decide_eq_false_iff_not, displayOf_view]
      exact fun hd => h.resolve_ne hid (hr.display side) hd.1
  · have hsome : (side.usrMap cf id).isSome ↔ seen side (lookupText ll name) := by
      rw [h.usr_isSome]
      constructor
      · rintro ⟨n, hn, hfind⟩
        rwa [StringInterner.find_inj hid hfind]
      · exact fun hs => ⟨_, hs, hid⟩
    simp only [Option.bind_eq_bind, Option.bind_some, h.resident]
    by_cases hs : seen side (lookupText ll name)
    · obtain ⟨v, hv⟩ := Option.isSome_iff_exists.mp (hsome.mpr hs)
      have hpos := h.usr_pos side id
      rw [hv, Option.getD_some] at hpos
      refine ⟨fun se => side.usr se = id, by rw [hv, hpos], fun se hse => ?_⟩
      rw [if_pos hs, usrOf_view]
      exact decide_eq_decide.mpr (h.id_iff hid ((h.inRange se hse).usr side))
    · have hnone : side.usrMap cf id = none := by
        rcases hm : side.usrMap cf id with _ | v
        · rfl
        · exact absurd (hsome.mp (by rw [hm]; rfl)) hs
      refine ⟨fun se => side.display se = id ∧ side.display se ≠ side.usr se, ?_,
        fun se hse => ?_⟩
      · rw [hnone, h.display_pos]
      · have hr := h.inRange se hse
        rw [if_neg hs, usrOf_view, displayOf_view, decide_eq_decide, h.id_iff hid (hr.display side),
          Ne, Ne, StringInterner.resolve_inj h.nodup (hr.display side) (hr.usr side)]

/-! ### The answers -/

section Answers

variable {ll}

theorem Inv.contextsAtSite (h : cf.Inv seen) (callSite : Bytes) :
    cf.contextsAtSite ll callSite =
      some (cf.entries.filter fun c => c.callSite = lookupText ll callSite) := by
  obtain ⟨p, hp, hq⟩ := h.sitePositions ll callSite
  rw [ControlFlowIndex.contextsAtSite, hp, Option.bind_eq_bind, Option.bind_some,
    collect_livePos ll h _ p (fun c => c.callSite = lookupText ll callSite) (fun _ => true) hq
      fun _ _ => rfl, List.filter_true]

theorem Inv.contextAtSite (h : cf.Inv seen) (callSite : Bytes) :
    cf.contextAtSite ll callSite =
      some (cf.entries.filter fun c => c.callSite = lookupText ll callSite).head? := by
  obtain ⟨p, hp, hq⟩ := h.sitePositions ll callSite
  obtain ⟨found, hfirst, hmem, hhead⟩ := firstStored_livePos h (fun _ => true) p
    (fun c => c.callSite = lookupText ll callSite) (fun _ => true) hq fun _ _ => rfl
  rw [ControlFlowIndex.contextAtSite, hp]
  simp only [Option.bind_eq_bind, Option.bind_some, hfirst]
  rw [materializeFound_eq ll h hmem, hhead, List.filter_true]

theorem Inv.contextAtSiteOf (h : cf.Inv seen) (callSite caller : Bytes) :
    cf.contextAtSiteOf ll callSite caller =
      some ((cf.entries.filter fun c => c.callSite = lookupText ll callSite).filter fun c =>
        c.callerUsr = lookupText ll caller || c.callerName = lookupText ll caller).head? := by
  rw [ControlFlowIndex.contextAtSiteOf, findId_resident ll h]
  rcases hid : cf.interner.find (lookupText ll caller) with _ | id
  · simp only [Option.bind_eq_bind, Option.bind_some]
    have hnil : ((cf.entries.filter fun c => c.callSite = lookupText ll callSite).filter fun c =>
        c.callerUsr = lookupText ll caller || c.callerName = lookupText ll caller) = [] := by
      rw [List.filter_eq_nil_iff]
      intro c hc
      obtain ⟨se, hse, rfl⟩ := List.mem_map.mp (List.mem_of_mem_filter hc)
      have hr := h.inRange se (List.mem_of_mem_filter hse)
      have h1 := h.resolve_ne hid hr.caller
      have h2 := h.resolve_ne hid hr.callerDisplay
      simp [view, h1, h2]
    rw [hnil]
    rfl
  · obtain ⟨p, hp, hq⟩ := h.sitePositions ll callSite
    obtain ⟨found, hfirst, hmem, hhead⟩ := firstStored_livePos h
      (fun se => se.caller = id || se.callerDisplay = id) p
      (fun c => c.callSite = lookupText ll callSite)
      (fun c => c.callerUsr = lookupText ll caller || c.callerName = lookupText ll caller) hq
      fun se hse => by
        have hr := h.inRange se hse
        rw [decide_eq_decide.mpr (h.id_iff hid hr.caller),
          decide_eq_decide.mpr (h.id_iff hid hr.callerDisplay)]
        rfl
    simp only [Option.bind_eq_bind, Option.bind_some, hp, hfirst]
    rw [materializeFound_eq ll h hmem, hhead]

theorem Inv.contextForEdge (h : cf.Inv seen) (callSite callerUsr calleeUsr : Bytes) :
    cf.contextForEdge ll callSite callerUsr calleeUsr =
      some (pickForEdge callerUsr calleeUsr
        (cf.entries.filter fun c => c.callSite = lookupText ll callSite)) := by
  rw [ControlFlowIndex.contextForEdge, h.contextsAtSite]
  rfl

theorem Inv.forEachContext (h : cf.Inv seen) : cf.forEachContext ll = some cf.entries := by
  rw [ControlFlowIndex.forEachContext, h.resident]
  dsimp only
  rw [collect_eq ll h _ _ fun i hi => List.mem_range.mp hi]
  have hall : (List.range cf.contexts.length).filterMap (cf.contexts[·]?) = cf.contexts := by
    have hpos := filterMap_positions (fun _ => true) cf.contexts
    have hrange : positions (fun _ => true) cf.contexts = List.range cf.contexts.length := by
      rw [positions, List.filter_eq_self]
      intro i hi
      simp [List.mem_range.mp hi]
    rwa [List.filter_true, hrange] at hpos
  rw [hall]
  simp only [Bool.and_true]
  rfl

/-- Which side and which scopes a query by name asks for. -/
theorem Inv.collect_named (h : cf.Inv seen) (side : Side) (name : Bytes)
    (keep : StoredContext → Bool) (keep' : CallSiteContext → Bool)
    (hkeep : ∀ se ∈ cf.contexts, keep se = keep' (cf.view se)) :
    (do let positions ← cf.namePositions ll side name
        cf.collect ll keep positions) =
      some ((named seen side (lookupText ll name) cf.entries).filter keep') := by
  classical
  obtain ⟨p, hp, hq⟩ := h.namePositions ll side name
  rw [hp, Option.bind_eq_bind, Option.bind_some, named]
  split_ifs with hs
  · exact collect_livePos ll h keep p _ keep' (fun se hse => by rw [hq se hse, if_pos hs]) hkeep
  · exact collect_livePos ll h keep p _ keep' (fun se hse => by rw [hq se hse, if_neg hs]) hkeep

theorem Inv.contextsForCallee (h : cf.Inv seen) (name : Bytes) :
    cf.contextsForCallee ll name =
      some (named seen .callee (lookupText ll name) cf.entries) := by
  rw [ControlFlowIndex.contextsForCallee,
    h.collect_named .callee name _ (fun _ => true) fun _ _ => rfl, List.filter_true]

theorem Inv.contextsForCaller (h : cf.Inv seen) (name : Bytes) :
    cf.contextsForCaller ll name =
      some (named seen .caller (lookupText ll name) cf.entries) := by
  rw [ControlFlowIndex.contextsForCaller,
    h.collect_named .caller name _ (fun _ => true) fun _ _ => rfl, List.filter_true]

/-- Scope set 0 is the empty set, and no other set is empty. -/
theorem Inv.scopeSet_eq_zero (h : cf.Inv seen) {se : StoredContext} (hse : se ∈ cf.contexts) :
    se.scopeSet = 0 ↔ (cf.view se).enclosingTryCatches = [] := by
  have hlt := (h.inRange se hse).scopeSet
  have hget := List.getElem?_eq_getElem hlt
  have hview : (cf.view se).enclosingTryCatches = cf.scopeSets[se.scopeSet] :=
    List.getD_eq_getElem _ _ hlt
  rw [hview]
  constructor
  · intro h0
    have hhead := h.scopes.head
    rw [← h0, hget, Option.some_inj] at hhead
    exact hhead
  · intro hnil
    by_contra hne
    exact h.scopes.nonempty _ _ (Nat.pos_of_ne_zero hne) hget hnil

theorem Inv.protectedCallsTo (h : cf.Inv seen) (name : Bytes) :
    cf.protectedCallsTo ll name = some ((named seen .callee (lookupText ll name) cf.entries).filter
      fun c => c.enclosingTryCatches ≠ []) := by
  rw [ControlFlowIndex.protectedCallsTo]
  exact h.collect_named .callee name _ _ fun se hse =>
    decide_eq_decide.mpr (not_congr (h.scopeSet_eq_zero hse))

theorem Inv.unprotectedCallsTo (h : cf.Inv seen) (name : Bytes) :
    cf.unprotectedCallsTo ll name =
      some ((named seen .callee (lookupText ll name) cf.entries).filter
        fun c => c.enclosingTryCatches = []) := by
  rw [ControlFlowIndex.unprotectedCallsTo]
  exact h.collect_named .callee name _ _ fun se hse =>
    decide_eq_decide.mpr (h.scopeSet_eq_zero hse)

theorem Inv.callerNoexceptOf (h : cf.Inv seen) (name : Bytes) :
    cf.callerNoexceptOf ll name =
      some ((named seen .caller (lookupText ll name) cf.entries).head?.map
        (·.callerNoexcept)) := by
  classical
  obtain ⟨p, hp, hq⟩ := h.namePositions ll .caller name
  have key : ∀ q : CallSiteContext → Bool, (∀ se ∈ cf.contexts, p se = q (cf.view se)) →
      cf.callerNoexceptOf ll name = some ((cf.entries.filter q).head?.map (·.callerNoexcept)) := by
    intro q hpq
    obtain ⟨found, hfirst, -, hhead⟩ := firstStored_livePos h (fun _ => true) p q
      (fun _ => true) hpq fun _ _ => rfl
    rw [List.filter_true] at hhead
    rw [ControlFlowIndex.callerNoexceptOf, hp]
    simp only [Option.bind_eq_bind, Option.bind_some, hfirst]
    rw [← hhead, Option.map_map]
    rfl
  rw [named]
  split_ifs with hs
  · exact key _ fun se hse => by rw [hq se hse, if_pos hs]
  · exact key _ fun se hse => by rw [hq se hse, if_neg hs]

end Answers

/-! ### Indexes that answer alike -/

/-- Two indexes answer every query alike. -/
structure SameAnswers (cf cf' : ControlFlowIndex) : Prop where
  contextAtSite : ∀ site, cf.contextAtSite ll site = cf'.contextAtSite ll site
  contextAtSiteOf : ∀ site caller,
    cf.contextAtSiteOf ll site caller = cf'.contextAtSiteOf ll site caller
  contextsAtSite : ∀ site, cf.contextsAtSite ll site = cf'.contextsAtSite ll site
  contextForEdge : ∀ site caller callee,
    cf.contextForEdge ll site caller callee = cf'.contextForEdge ll site caller callee
  contextsForCaller : ∀ name, cf.contextsForCaller ll name = cf'.contextsForCaller ll name
  contextsForCallee : ∀ name, cf.contextsForCallee ll name = cf'.contextsForCallee ll name
  callerNoexceptOf : ∀ name, cf.callerNoexceptOf ll name = cf'.callerNoexceptOf ll name
  protectedCallsTo : ∀ name, cf.protectedCallsTo ll name = cf'.protectedCallsTo ll name
  unprotectedCallsTo : ∀ name, cf.unprotectedCallsTo ll name = cf'.unprotectedCallsTo ll name
  forEachContext : cf.forEachContext ll = cf'.forEachContext ll

/-- Indexes with the same entries answer alike when their names stand for the same ones. -/
theorem sameAnswers_of_named (h : cf.Inv seen) (h' : cf'.Inv seen')
    (hent : cf.entries = cf'.entries)
    (hnamed : ∀ side n, named seen side n cf.entries = named seen' side n cf.entries) :
    SameAnswers ll cf cf' where
  contextAtSite site := by rw [h.contextAtSite, h'.contextAtSite, hent]
  contextAtSiteOf site caller := by rw [h.contextAtSiteOf, h'.contextAtSiteOf, hent]
  contextsAtSite site := by rw [h.contextsAtSite, h'.contextsAtSite, hent]
  contextForEdge site caller callee := by rw [h.contextForEdge, h'.contextForEdge, hent]
  contextsForCaller name := by
    rw [h.contextsForCaller, h'.contextsForCaller, hnamed, hent]
  contextsForCallee name := by
    rw [h.contextsForCallee, h'.contextsForCallee, hnamed, hent]
  callerNoexceptOf name := by rw [h.callerNoexceptOf, h'.callerNoexceptOf, hnamed, hent]
  protectedCallsTo name := by rw [h.protectedCallsTo, h'.protectedCallsTo, hnamed, hent]
  unprotectedCallsTo name := by rw [h.unprotectedCallsTo, h'.unprotectedCallsTo, hnamed, hent]
  forEachContext := by rw [h.forEachContext, h'.forEachContext, hent]

end ControlFlowIndex

end Vycor
