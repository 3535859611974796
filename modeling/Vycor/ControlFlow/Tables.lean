import Vycor.ControlFlow.Index
import Vycor.Lib.Positions

/-!
# The tables of the control-flow index

The interner and the three set tables only grow. `TablesInv` is what keeps them usable: no
string twice, every string index text, every set table with the empty set in front and its
key map exact. `Grows` is the frame of the interning operations: the tables are extended
and nothing else changes, so a context that was in range still means the same
(`Grows.view_eq`).
-/

namespace Vycor

namespace ControlFlowIndex

/-! ### Set tables -/

/-- A set table and its key map: entry 0 is the empty set, the map knows exactly the other
entries. -/
structure SetTable {α : Type*} (key : List α → List ℕ) (table : List (List α))
    (ids : List ℕ → Option ℕ) : Prop where
  head : table[0]? = some []
  nonempty : ∀ i s, 0 < i → table[i]? = some s → s ≠ []
  ids_iff : ∀ k i, ids k = some i ↔ 0 < i ∧ ∃ s, table[i]? = some s ∧ key s = k

section SetTable

variable {α : Type*} {key : List α → List ℕ} {table : List (List α)} {ids : List ℕ → Option ℕ}

theorem SetTable.empty (key : List α → List ℕ) : SetTable key [[]] fun _ => none := by
  have hnone : ∀ i, 0 < i → ([[]] : List (List α))[i]? = none := by
    intro i hi
    rw [List.getElem?_eq_none_iff, List.length_singleton]
    omega
  refine ⟨rfl, fun i s hi hs => ?_, fun k i => ⟨fun h => (by cases h), ?_⟩⟩
  · rw [hnone i hi] at hs
    cases hs
  · rintro ⟨hi, s, hs, -⟩
    rw [hnone i hi] at hs
    cases hs

theorem SetTable.length_pos (h : SetTable key table ids) : 0 < table.length :=
  (List.getElem?_eq_some_iff.mp h.head).1

/-- Interning a set extends the table, keeps it exact and returns an entry that holds the
set. -/
theorem SetTable.intern (h : SetTable key table ids) (hkey : Function.Injective key)
    (set : List α) :
    SetTable key (internSet table ids (key set) set).1 (internSet table ids (key set) set).2.1 ∧
      table <+: (internSet table ids (key set) set).1 ∧
        (internSet table ids (key set) set).1[(internSet table ids (key set) set).2.2]? =
          some set := by
  rw [internSet]
  split_ifs with hset
  · exact ⟨h, List.prefix_rfl, hset ▸ h.head⟩
  · rcases hid : ids (key set) with _ | id
    · dsimp only
      refine ⟨⟨?_, fun i s hi hs => ?_, fun k i => ?_⟩, List.prefix_append _ _, by simp⟩
      · rw [List.getElem?_append_left h.length_pos]
        exact h.head
      · rcases lt_or_ge i table.length with hlt | hge
        · rw [List.getElem?_append_left hlt] at hs
          exact h.nonempty i s hi hs
        · rw [List.getElem?_append_right hge] at hs
          have hset' := List.mem_of_getElem? hs
          rwa [List.mem_singleton.mp hset']
      · by_cases hk : k = key set
        · -- the new key names the new entry, and no old one
          subst hk
          rw [Function.update_self, Option.some_inj]
          constructor
          · rintro rfl
            exact ⟨h.length_pos, set, by simp, rfl⟩
          · rintro ⟨hi, s, hs, hks⟩
            by_contra hne
            have hlt : i < table.length := by
              have := (List.getElem?_eq_some_iff.mp hs).1
              simp only [List.length_append, List.length_singleton] at this
              omega
            rw [List.getElem?_append_left hlt] at hs
            have := (h.ids_iff (key set) i).mpr ⟨hi, s, hs, hks⟩
            rw [hid] at this
            cases this
        · rw [Function.update_of_ne hk, h.ids_iff]
          constructor
          · rintro ⟨hi, s, hs, hks⟩
            exact ⟨hi, s, by
              rw [List.getElem?_append_left (List.getElem?_eq_some_iff.mp hs).1]; exact hs, hks⟩
          · rintro ⟨hi, s, hs, hks⟩
            rcases lt_or_ge i table.length with hlt | hge
            · rw [List.getElem?_append_left hlt] at hs
              exact ⟨hi, s, hs, hks⟩
            · exfalso
              have hlt := (List.getElem?_eq_some_iff.mp hs).1
              simp only [List.length_append, List.length_singleton] at hlt
              obtain rfl : i = table.length := by omega
              rw [List.getElem?_append_right le_rfl, Nat.sub_self] at hs
              obtain rfl : set = s := by simpa using hs
              exact hk hks.symm
    · obtain ⟨-, s, hs, hks⟩ := (h.ids_iff _ _).mp hid
      exact ⟨h, List.prefix_rfl, hkey hks ▸ hs⟩

/-- The entries after interning a set. -/
theorem mem_internSet {k : List ℕ} {set s : List α} (h : s ∈ (internSet table ids k set).1) :
    s ∈ table ∨ s = set := by
  simp only [internSet] at h
  split_ifs at h
  · exact .inl h
  · cases hid : ids k with
    | some id =>
      rw [hid] at h
      exact .inl h
    | none =>
      rw [hid] at h
      simpa using h

end SetTable

/-! ### The invariant of the tables -/

/-- The ids of an interned local are known. -/
def LocalInRange (cf : ControlFlowIndex) (l : RaiiLocal SId) : Prop :=
  l.typeName < cf.interner.size ∧ l.varName < cf.interner.size ∧
    l.declLocation < cf.interner.size

/-- The strings of a scope set are index text. -/
def ScopesUtf8 (set : List TryCatchScope) : Prop :=
  ∀ s ∈ set, Utf8Text s.tryLocation ∧ Utf8Text s.enclosingFunction ∧
    ∀ h ∈ s.handlers, Utf8Text h.caughtType ∧ Utf8Text h.location ∧ Utf8Text h.bodySummary

/-- The strings of a guard set are index text. -/
def GuardsUtf8 (set : List ConditionalGuard) : Prop :=
  ∀ g ∈ set, Utf8Text g.conditionText ∧ Utf8Text g.location

/-- The invariant of the tables. -/
structure TablesInv (cf : ControlFlowIndex) : Prop where
  nodup : cf.interner.strings.Nodup
  utf8 : ∀ s ∈ cf.interner.strings, Utf8Text s
  scopes : SetTable scopeSetKey cf.scopeSets cf.scopeSetIds
  guards : SetTable guardSetKey cf.guardSets cf.guardSetIds
  raiis : SetTable raiiSetKey cf.raiiSets cf.raiiSetIds
  scopes_utf8 : ∀ set ∈ cf.scopeSets, ScopesUtf8 set
  guards_utf8 : ∀ set ∈ cf.guardSets, GuardsUtf8 set
  raiis_range : ∀ set ∈ cf.raiiSets, ∀ l ∈ set, cf.LocalInRange l

theorem TablesInv.empty : TablesInv {} where
  nodup := List.nodup_nil
  utf8 := by simp
  scopes := .empty _
  guards := .empty _
  raiis := .empty _
  scopes_utf8 := by simp [ScopesUtf8]
  guards_utf8 := by simp [GuardsUtf8]
  raiis_range := by simp

/-- The tables are extended, everything else is unchanged. -/
structure Grows (cf cf' : ControlFlowIndex) : Prop where
  interner : cf.interner.Extends cf'.interner
  scopeSets : cf.scopeSets <+: cf'.scopeSets
  guardSets : cf.guardSets <+: cf'.guardSets
  raiiSets : cf.raiiSets <+: cf'.raiiSets
  rest : { cf' with interner := cf.interner, scopeSets := cf.scopeSets,
                    guardSets := cf.guardSets, raiiSets := cf.raiiSets,
                    scopeSetIds := cf.scopeSetIds, guardSetIds := cf.guardSetIds,
                    raiiSetIds := cf.raiiSetIds } = cf

theorem Grows.refl (cf : ControlFlowIndex) : Grows cf cf :=
  ⟨.refl _, List.prefix_rfl, List.prefix_rfl, List.prefix_rfl, rfl⟩

theorem Grows.trans {cf cf' cf'' : ControlFlowIndex} (h : Grows cf cf') (h' : Grows cf' cf'') :
    Grows cf cf'' := by
  refine ⟨h.interner.trans h'.interner, h.scopeSets.trans h'.scopeSets,
    h.guardSets.trans h'.guardSets, h.raiiSets.trans h'.raiiSets, ?_⟩
  have hrest := h.rest
  rw [← h'.rest] at hrest
  exact hrest

/-! ### What a record means -/

/-- The ids and set indices of a record are known. -/
structure InRange (cf : ControlFlowIndex) (se : StoredContext) : Prop where
  caller : se.caller < cf.interner.size
  callee : se.callee < cf.interner.size
  callerDisplay : se.callerDisplay < cf.interner.size
  calleeDisplay : se.calleeDisplay < cf.interner.size
  site : se.site < cf.interner.size
  tuPath : ∀ tu, se.tuPath = some tu → tu < cf.interner.size ∧ cf.interner.resolve tu ≠ []
  scopeSet : se.scopeSet < cf.scopeSets.length
  guardSet : se.guardSet < cf.guardSets.length
  raiiSet : se.raiiSet < cf.raiiSets.length

/-- The TU of a record, empty without provenance. -/
def tuText (cf : ControlFlowIndex) (se : StoredContext) : Bytes :=
  (se.tuPath.map cf.interner.resolve).getD []

/-- The context a record of a resident index stands for. -/
def view (cf : ControlFlowIndex) (se : StoredContext) : CallSiteContext :=
  { callerName := cf.interner.resolve se.callerDisplay
    calleeName := cf.interner.resolve se.calleeDisplay
    callSite := cf.interner.resolve se.site
    callerUsr := cf.interner.resolve se.caller
    calleeUsr := cf.interner.resolve se.callee
    tuPath := cf.tuText se
    enclosingTryCatches := cf.scopeSets.getD se.scopeSet []
    enclosingGuards := cf.guardSets.getD se.guardSet []
    callerNoexcept := se.callerNoexcept
    insideCatchBlock := se.insideCatchBlock
    liveRaiiLocals := (cf.raiiSets.getD se.raiiSet []).map (RaiiLocal.map cf.interner.resolve) }

variable {cf cf' : ControlFlowIndex}

theorem localsOf_resident (ll : Llvm) (hm : cf.mapped = none) (set : List (RaiiLocal SId)) :
    cf.localsOf ll set = some (set.map (RaiiLocal.map cf.interner.resolve)) := by
  induction set with
  | nil => rfl
  | cons l rest ih => simp [localsOf, stringOf, hm, ih, RaiiLocal.map]

/-- On a resident index a record in range materializes to its meaning. -/
theorem materialize_resident (ll : Llvm) (hm : cf.mapped = none) {se : StoredContext}
    (h : cf.InRange se) : cf.materialize ll se = some (cf.view se) := by
  have htu : cf.tuOf ll se = some (cf.tuText se) := by
    cases ht : se.tuPath with
    | none => simp [tuOf, tuText, ht]
    | some tu => simp [tuOf, tuText, ht, stringOf, hm]
  simp [materialize, htu, stringOf, hm, view, localsOf_resident ll hm, h.scopeSet, h.guardSet, h.raiiSet]

/-- A table that grew keeps its entries. -/
theorem getD_of_prefix {α : Type*} {l l' : List α} (h : l <+: l') {i : ℕ} (hi : i < l.length)
    (d : α) : l'.getD i d = l.getD i d := by
  obtain ⟨r, rfl⟩ := h
  exact List.getD_append _ _ _ _ hi

theorem Grows.inRange (hg : Grows cf cf') {se : StoredContext} (h : cf.InRange se) :
    cf'.InRange se where
  caller := h.caller.trans_le hg.interner.size_le
  callee := h.callee.trans_le hg.interner.size_le
  callerDisplay := h.callerDisplay.trans_le hg.interner.size_le
  calleeDisplay := h.calleeDisplay.trans_le hg.interner.size_le
  site := h.site.trans_le hg.interner.size_le
  tuPath tu htu := by
    obtain ⟨hlt, hne⟩ := h.tuPath tu htu
    exact ⟨hlt.trans_le hg.interner.size_le, by rwa [hg.interner.resolve_eq hlt]⟩
  scopeSet := h.scopeSet.trans_le hg.scopeSets.length_le
  guardSet := h.guardSet.trans_le hg.guardSets.length_le
  raiiSet := h.raiiSet.trans_le hg.raiiSets.length_le

theorem Grows.localInRange (hg : Grows cf cf') {l : RaiiLocal SId} (h : cf.LocalInRange l) :
    cf'.LocalInRange l :=
  ⟨h.1.trans_le hg.interner.size_le, h.2.1.trans_le hg.interner.size_le,
    h.2.2.trans_le hg.interner.size_le⟩

/-- Growing tables keep the strings of a known local. -/
theorem Grows.resolve_local (hg : Grows cf cf') {l : RaiiLocal SId} (h : cf.LocalInRange l) :
    l.map cf'.interner.resolve = l.map cf.interner.resolve := by
  obtain ⟨h1, h2, h3⟩ := h
  simp only [RaiiLocal.map, hg.interner.resolve_eq h1, hg.interner.resolve_eq h2,
    hg.interner.resolve_eq h3]

/-- Growing tables keep the text of a known TU. -/
theorem Grows.resolve_tu (hg : Grows cf cf') {tu : Option SId}
    (htu : ∀ t, tu = some t → t < cf.interner.size) :
    (tu.map cf'.interner.resolve).getD [] = (tu.map cf.interner.resolve).getD [] := by
  cases tu with
  | none => rfl
  | some t => exact hg.interner.resolve_eq (htu t rfl)

/-- Growing tables do not change what a record in range means. -/
theorem Grows.view_eq (ht : cf.TablesInv) (hg : Grows cf cf') {se : StoredContext}
    (h : cf.InRange se) : cf'.view se = cf.view se := by
  have hres : ∀ {i}, i < cf.interner.size → cf'.interner.resolve i = cf.interner.resolve i :=
    fun hi => hg.interner.resolve_eq hi
  have hset : cf.raiiSets.getD se.raiiSet [] ∈ cf.raiiSets := by
    rw [List.getD_eq_getElem _ _ h.raiiSet]
    exact List.getElem_mem _
  have htu : cf'.tuText se = cf.tuText se := hg.resolve_tu fun t ht => (h.tuPath t ht).1
  have hlocals : (cf.raiiSets.getD se.raiiSet []).map (RaiiLocal.map cf'.interner.resolve) =
      (cf.raiiSets.getD se.raiiSet []).map (RaiiLocal.map cf.interner.resolve) :=
    List.map_congr_left fun l hl => hg.resolve_local (ht.raiis_range _ hset l hl)
  simp only [view, getD_of_prefix hg.scopeSets h.scopeSet, getD_of_prefix hg.guardSets h.guardSet,
    getD_of_prefix hg.raiiSets h.raiiSet, hres h.caller, hres h.callee, hres h.callerDisplay,
    hres h.calleeDisplay, hres h.site, htu, hlocals]

/-! ### Interning strings -/

/-- The tables after a string is interned. -/
theorem TablesInv.intern (h : cf.TablesInv) {s : Bytes} (hs : Utf8Text s) :
    (cf.intern s).1.TablesInv ∧ Grows cf (cf.intern s).1 ∧
      (cf.intern s).2 < (cf.intern s).1.interner.size ∧
        (cf.intern s).1.interner.resolve (cf.intern s).2 = s := by
  have hext := cf.interner.extends_intern s
  have hfind := cf.interner.find_intern s
  have hgrows : Grows cf (cf.intern s).1 :=
    ⟨hext, List.prefix_rfl, List.prefix_rfl, List.prefix_rfl, rfl⟩
  refine ⟨?_, hgrows, StringInterner.lt_of_find hfind, StringInterner.resolve_of_find hfind⟩
  refine { h with
    nodup := StringInterner.nodup_intern h.nodup s
    utf8 := fun t ht => ?_
    raiis_range := fun set hset l hl => ?_ }
  · rcases StringInterner.mem_intern.mp ht with ht | rfl
    exacts [h.utf8 t ht, hs]
  · exact hgrows.localInRange (h.raiis_range set hset l hl)

theorem TablesInv.internLocal (h : cf.TablesInv) {l : RaiiLocal Bytes}
    (hl : Utf8Text l.typeName ∧ Utf8Text l.varName ∧ Utf8Text l.declLocation) :
    (cf.internLocal l).1.TablesInv ∧ Grows cf (cf.internLocal l).1 ∧
      (cf.internLocal l).1.LocalInRange (cf.internLocal l).2 ∧
        (cf.internLocal l).2.map (cf.internLocal l).1.interner.resolve = l := by
  obtain ⟨ht, hg, hlt, hres⟩ := h.intern hl.1
  obtain ⟨ht', hg', hlt', hres'⟩ := ht.intern hl.2.1
  obtain ⟨ht'', hg'', hlt'', hres''⟩ := ht'.intern hl.2.2
  have hle := hg'.interner.trans hg''.interner
  refine ⟨ht'', (hg.trans hg').trans hg'',
    ⟨hlt.trans_le hle.size_le, hlt'.trans_le hg''.interner.size_le, hlt''⟩, ?_⟩
  simp only [ControlFlowIndex.internLocal, RaiiLocal.map]
  rw [hle.resolve_eq hlt, hres, hg''.interner.resolve_eq hlt', hres', hres'']

theorem TablesInv.internLocals (h : cf.TablesInv) {ls : List (RaiiLocal Bytes)}
    (hls : ∀ l ∈ ls, Utf8Text l.typeName ∧ Utf8Text l.varName ∧ Utf8Text l.declLocation) :
    (cf.internLocals ls).1.TablesInv ∧ Grows cf (cf.internLocals ls).1 ∧
      (∀ l ∈ (cf.internLocals ls).2, (cf.internLocals ls).1.LocalInRange l) ∧
        (cf.internLocals ls).2.map (RaiiLocal.map (cf.internLocals ls).1.interner.resolve) =
          ls := by
  induction ls generalizing cf with
  | nil => exact ⟨h, .refl cf, by simp [ControlFlowIndex.internLocals], rfl⟩
  | cons l rest ih =>
    obtain ⟨ht, hg, hrange, hmap⟩ := h.internLocal (hls l (.head _))
    obtain ⟨ht', hg', hrange', hmap'⟩ := ih ht fun l' hl' => hls l' (.tail _ hl')
    refine ⟨ht', hg.trans hg', ?_, ?_⟩
    · intro l' hl'
      rcases List.mem_cons.mp hl' with rfl | hl'
      exacts [hg'.localInRange hrange, hrange' l' hl']
    · simp only [ControlFlowIndex.internLocals, List.map_cons]
      exact congrArg₂ List.cons ((hg'.resolve_local hrange).trans hmap) hmap'

/-! ### Interning sets -/

theorem TablesInv.internScopeSet (h : cf.TablesInv) {set : List TryCatchScope}
    (hset : ScopesUtf8 set) :
    (cf.internScopeSet set).1.TablesInv ∧ Grows cf (cf.internScopeSet set).1 ∧
      (cf.internScopeSet set).1.scopeSets[(cf.internScopeSet set).2]? = some set := by
  obtain ⟨htab, hpre, hget⟩ := h.scopes.intern scopeSetKey_injective set
  refine ⟨{ h with scopes := htab, scopes_utf8 := fun s hs => ?_ },
    ⟨.refl _, hpre, List.prefix_rfl, List.prefix_rfl, rfl⟩, hget⟩
  rcases mem_internSet hs with hs | rfl
  exacts [h.scopes_utf8 s hs, hset]

theorem TablesInv.internGuardSet (h : cf.TablesInv) {set : List ConditionalGuard}
    (hset : GuardsUtf8 set) :
    (cf.internGuardSet set).1.TablesInv ∧ Grows cf (cf.internGuardSet set).1 ∧
      (cf.internGuardSet set).1.guardSets[(cf.internGuardSet set).2]? = some set := by
  obtain ⟨htab, hpre, hget⟩ := h.guards.intern guardSetKey_injective set
  refine ⟨{ h with guards := htab, guards_utf8 := fun s hs => ?_ },
    ⟨.refl _, List.prefix_rfl, hpre, List.prefix_rfl, rfl⟩, hget⟩
  rcases mem_internSet hs with hs | rfl
  exacts [h.guards_utf8 s hs, hset]

theorem TablesInv.internRaiiSet (h : cf.TablesInv) {set : List (RaiiLocal SId)}
    (hset : ∀ l ∈ set, cf.LocalInRange l) :
    (cf.internRaiiSet set).1.TablesInv ∧ Grows cf (cf.internRaiiSet set).1 ∧
      (cf.internRaiiSet set).1.raiiSets[(cf.internRaiiSet set).2]? = some set := by
  obtain ⟨htab, hpre, hget⟩ := h.raiis.intern raiiSetKey_injective set
  refine ⟨{ h with raiis := htab, raiis_range := fun s hs => ?_ },
    ⟨.refl _, List.prefix_rfl, List.prefix_rfl, hpre, rfl⟩, hget⟩
  rcases mem_internSet hs with hs | rfl
  exacts [h.raiis_range s hs, hset]

end ControlFlowIndex

end Vycor
