import Vycor.ControlFlow.Answers
import Vycor.Snapshot.ControlFlowSection

/-!
# Loading the control-flow section

A load for changes installs the tables as they are and inserts the contexts in the order of the
section, by call site. The index it builds has the contexts of the saved one, those at one call
site in their order (`ControlFlowIndex.Inv.install_records`).
-/

namespace Vycor

/-! ### Installing records -/

/-- The key map of a set table; entry 0 is never keyed. -/
def keyIds {α : Type*} (key : List α → List ℕ) (table : List (List α)) : List ℕ → Option ℕ :=
  table.zipIdx.tail.foldl (fun ids p => emplaceAt ids (key p.1) p.2) fun _ => none

/-- The index with the tables of the section. -/
def ControlFlowRecords.tables (r : ControlFlowRecords) : ControlFlowIndex where
  interner := ⟨r.strings⟩
  scopeSets := r.scopeSets
  guardSets := r.guardSets
  raiiSets := r.raiiSets
  scopeSetIds := keyIds scopeSetKey r.scopeSets
  guardSetIds := keyIds guardSetKey r.guardSets
  raiiSetIds := keyIds raiiSetKey r.raiiSets

/-- The index that `SnapshotIO::load` builds in mutable mode. -/
def ControlFlowRecords.install (r : ControlFlowRecords) : ControlFlowIndex :=
  r.contexts.foldl (fun cf se => cf.insertStored se) r.tables

/-- The control-flow section in `SnapshotIO::load`, for a load in mutable mode. -/
def loadControlFlow (ll : Llvm) (bytes : Bytes) : Option ControlFlowIndex :=
  (decodeSection (readControlFlow ll) bytes).map ControlFlowRecords.install

/-- A sort of the ids. -/
def ControlFlowRecords.idSorter (r : ControlFlowRecords) : Sorter r.idBefore :=
  .byKey r.stringAt fun _ _ => decide_eq_decide.mpr Iff.rfl

/-- The contexts are inserted into the tables of the section. -/
theorem ControlFlowRecords.install_tables (r : ControlFlowRecords) :
    r.install.interner = ⟨r.strings⟩ ∧ r.install.scopeSets = r.scopeSets ∧
      r.install.guardSets = r.guardSets ∧ r.install.raiiSets = r.raiiSets := by
  have hfold (l : List StoredContext) (cf : ControlFlowIndex) :
      (l.foldl (fun cf se => cf.insertStored se) cf).interner = cf.interner ∧
        (l.foldl (fun cf se => cf.insertStored se) cf).scopeSets = cf.scopeSets ∧
          (l.foldl (fun cf se => cf.insertStored se) cf).guardSets = cf.guardSets ∧
            (l.foldl (fun cf se => cf.insertStored se) cf).raiiSets = cf.raiiSets := by
    induction l generalizing cf with
    | nil => exact ⟨rfl, rfl, rfl, rfl⟩
    | cons se rest ih => exact ih _
  exact hfold _ _

/-! ### Key maps -/

section Keys

variable {κ α : Type*} [DecidableEq κ]

theorem foldl_emplaceAt {l : List (κ × α)} (hl : (l.map Prod.fst).Nodup) {m : κ → Option α}
    (hm : ∀ p ∈ l, m p.1 = none) {k : κ} {a : α} :
    l.foldl (fun m p => emplaceAt m p.1 p.2) m k = some a ↔ m k = some a ∨ (k, a) ∈ l := by
  induction l generalizing m with
  | nil => simp
  | cons p rest ih =>
    obtain ⟨hp, hrest⟩ := List.nodup_cons.mp hl
    have hnew : m p.1 = none := hm p (.head _)
    rw [List.foldl_cons, emplaceAt_of_none _ hnew, ih hrest]
    · rw [Function.update_apply, List.mem_cons, Prod.ext_iff]
      by_cases hk : k = p.1
      · subst hk
        simp [hnew, eq_comm]
      · simp [hk]
    · intro q hq
      rw [Function.update_of_ne]
      · exact hm q (.tail _ hq)
      · rintro heq
        exact hp (heq ▸ List.mem_map_of_mem hq)

end Keys

/-- A set table is keyed anew as it was. -/
theorem ControlFlowIndex.SetTable.rekeyed {α : Type*} {key : List α → List ℕ}
    {table : List (List α)} {ids : List ℕ → Option ℕ} (h : SetTable key table ids) :
    SetTable key table (keyIds key table) := by
  have hpairs : ∀ {s : List α} {i : ℕ},
      (s, i) ∈ table.zipIdx.tail ↔ 0 < i ∧ table[i]? = some s := by
    intro s i
    obtain ⟨rest, rfl⟩ : ∃ rest, table = [] :: rest := by
      cases table with
      | nil => cases h.head
      | cons set rest => exact ⟨rest, by rw [Option.some_inj.mp h.head]⟩
    rw [List.zipIdx_cons, List.tail_cons, List.mk_mem_zipIdx_iff_le_and_getElem?_sub]
    refine and_congr_right fun hi => ?_
    obtain ⟨j, rfl⟩ := Nat.exists_eq_add_of_le' hi
    simp
  have hfold : keyIds key table = (table.zipIdx.tail.map fun p => (key p.1, p.2)).foldl
      (fun m p => emplaceAt m p.1 p.2) fun _ => none := by
    rw [List.foldl_map]
    rfl
  refine ⟨h.head, h.nonempty, fun k i => ?_⟩
  rw [hfold, foldl_emplaceAt _ (fun _ _ => rfl)]
  · simp only [reduceCtorEq, false_or, List.mem_map, Prod.mk.injEq, Prod.exists]
    constructor
    · rintro ⟨s, j, hmem, rfl, rfl⟩
      obtain ⟨hj, hs⟩ := hpairs.mp hmem
      exact ⟨hj, s, hs, rfl⟩
    · rintro ⟨hi, s, hs, rfl⟩
      exact ⟨s, i, hpairs.mpr ⟨hi, hs⟩, rfl, rfl⟩
  · -- entries with one key are one entry
    rw [List.map_map]
    have hnodup : table.zipIdx.tail.Nodup := by
      refine (List.Nodup.of_map Prod.snd ?_).tail
      rw [List.zipIdx_map_snd]
      exact List.nodup_range'
    refine hnodup.map_on fun p hp q hq hk => ?_
    obtain ⟨hp0, hps⟩ := hpairs.mp hp
    obtain ⟨hq0, hqs⟩ := hpairs.mp hq
    have hid := (h.ids_iff (key p.1) p.2).mpr ⟨hp0, p.1, hps, rfl⟩
    have hid' := (h.ids_iff (key p.1) q.2).mpr ⟨hq0, q.1, hqs, hk.symm⟩
    have hsnd : p.2 = q.2 := Option.some_inj.mp (hid.symm.trans hid')
    exact Prod.ext (Option.some_inj.mp (hps.symm.trans (hsnd ▸ hqs))) hsnd

/-! ### What is saved -/

theorem map_byKey {α β : Type*} (n : ℕ) (key : β → ℕ) (f : α → β) (l : List α) :
    (byKey n (fun a => key (f a)) l).map f = byKey n key (l.map f) := by
  simp only [byKey, List.map_flatMap, List.filter_map]
  rfl

namespace ControlFlowIndex

variable {cf : ControlFlowIndex} {seen : Seen}

theorem contextAt_of_lt {i : ℕ} (hi : i < cf.contexts.length) : cf.contextAt i = cf.contexts[i] :=
  List.getD_eq_getElem _ _ hi

theorem liveIds_eq (cf : ControlFlowIndex) :
    cf.liveIds = positions (fun se => se.live) cf.contexts := by
  refine List.filter_congr fun i hi => ?_
  have hi := List.mem_range.mp hi
  rw [contextAt_of_lt hi, List.getElem?_eq_getElem hi, Option.any_some]

theorem map_liveIds (cf : ControlFlowIndex) :
    cf.liveIds.map cf.contextAt = cf.contexts.filter fun se => se.live := by
  rw [← filterMap_positions, ← liveIds_eq, ← List.filterMap_eq_map]
  refine List.filterMap_congr fun i hi => ?_
  have hi := List.mem_range.mp (List.mem_of_mem_filter hi)
  rw [List.getElem?_eq_getElem hi, Function.comp_apply, contextAt_of_lt hi]

/-- The records are the live contexts by call site. -/
theorem Inv.records_contexts (h : cf.Inv seen) : cf.records.contexts =
    byKey cf.interner.size (·.site) (cf.contexts.filter fun se => se.live) := by
  have hsites : ∀ i ∈ cf.liveIds, (cf.contextAt i).site < cf.interner.size := by
    intro i hi
    have hi := List.mem_range.mp (List.mem_of_mem_filter hi)
    rw [contextAt_of_lt hi]
    exact (h.inRange _ (List.getElem_mem hi)).site
  rw [← map_liveIds, ← map_byKey, records, saveOrder, countingSort_eq hsites]

theorem Inv.mem_records (h : cf.Inv seen) {se : StoredContext} (hse : se ∈ cf.records.contexts) :
    cf.InRange se ∧ se.live = true := by
  rw [h.records_contexts] at hse
  obtain ⟨hmem, hlive⟩ := List.mem_filter.mp (mem_byKey.mp hse).1
  exact ⟨h.inRange se hmem, hlive⟩

/-- The records are the live contexts in another order. -/
theorem Inv.perm_records (h : cf.Inv seen) :
    cf.records.contexts.Perm (cf.contexts.filter fun se => se.live) := by
  rw [h.records_contexts]
  exact perm_byKey fun se hse => (h.inRange se (List.mem_of_mem_filter hse)).site

/-- The records at a call site have their order. -/
theorem Inv.filter_records (h : cf.Inv seen) (site : Bytes) :
    (cf.records.contexts.filter fun se => decide (cf.interner.resolve se.site = site)) =
      (cf.contexts.filter fun se => se.live).filter
        fun se => decide (cf.interner.resolve se.site = site) := by
  rw [h.records_contexts]
  have hrange : ∀ se ∈ cf.contexts.filter (fun se => se.live), se.site < cf.interner.size :=
    fun se hse => (h.inRange se (List.mem_of_mem_filter hse)).site
  generalize cf.contexts.filter (fun se => se.live) = l at *
  have hmem : ∀ se ∈ byKey cf.interner.size (·.site) l, se ∈ l := fun se hse =>
    (mem_byKey.mp hse).1
  cases hid : cf.interner.find site with
  | none =>
    have hnone : ∀ se ∈ l, ¬ decide (cf.interner.resolve se.site = site) = true := fun se hse =>
      mt of_decide_eq_true (h.resolve_ne hid (hrange se hse))
    rw [List.filter_eq_nil_iff.mpr hnone,
      List.filter_eq_nil_iff.mpr fun se hse => hnone se (hmem se hse)]
  | some id =>
    have hiff : ∀ se ∈ l, decide (cf.interner.resolve se.site = site) = decide (se.site = id) :=
      fun se hse => decide_eq_decide.mpr (h.id_iff hid (hrange se hse)).symm
    rw [List.filter_congr hiff, List.filter_congr fun se hse => hiff se (hmem se hse),
      filter_byKey, if_pos (StringInterner.lt_of_find hid)]

/-- The tables of the section are the tables of the index. -/
theorem Inv.tables_records (h : cf.Inv seen) :
    cf.records.tables.Inv Seen.none ∧ cf.records.tables.view = cf.view ∧
      ∀ se, cf.InRange se → cf.records.tables.InRange se := by
  refine ⟨?_, rfl, fun se hse => { hse with }⟩
  exact
    { Inv.empty with
      toTablesInv :=
        { h.toTablesInv with
          scopes := h.scopes.rekeyed
          guards := h.guards.rekeyed
          raiis := h.raiis.rekeyed }
      inRange := fun se hse => by cases hse
      seen_known := fun _ _ hs => hs.elim
      usr_isSome := fun side id => by
        constructor
        · intro hs
          cases side <;> cases hs
        · rintro ⟨n, hs, -⟩
          exact hs.elim
      usr_pos := fun side id => by cases side <;> rfl
      display_pos := fun side id => by cases side <;> rfl }

/-- **The records of an index install an index like it**: the tables are the same, the contexts
stand by call site, and those at one call site in their order. -/
theorem Inv.install_records (h : cf.Inv seen) :
    cf.records.install.Inv (Seen.none.add cf.records.install.entries) ∧
      cf.records.install.contexts = cf.records.contexts ∧
      cf.records.install.entries = cf.records.contexts.map cf.view ∧
      cf.records.install.entries.Perm cf.entries ∧
      ∀ site, cf.records.install.entries.filter (fun c => decide (c.callSite = site)) =
        cf.entries.filter fun c => decide (c.callSite = site) := by
  obtain ⟨hbase, hview, hrange⟩ := h.tables_records
  obtain ⟨hinv, hent, hctx⟩ := hbase.insertAll cf.records.contexts fun se hse =>
    hrange se (h.mem_records hse).1
  have hnone : cf.records.tables.entries = [] := rfl
  have hempty : cf.records.tables.contexts = [] := rfl
  rw [hview] at hinv hent
  rw [hnone, List.nil_append] at hent
  have hlive : (cf.records.contexts.map fun se => { se with live := true }) =
      cf.records.contexts := by
    refine List.map_congr_left (g := id) (fun se hse => ?_) |>.trans (List.map_id _)
    cases se
    exact congrArg _ (h.mem_records hse).2.symm
  rw [hempty, List.nil_append, hlive] at hctx
  change cf.records.install.Inv _ at hinv
  change cf.records.install.entries = _ at hent
  refine ⟨hent ▸ hinv, hctx, hent, ?_, fun site => ?_⟩
  · rw [hent]
    exact h.perm_records.map _
  · rw [hent, entries, List.filter_map, List.filter_map]
    exact congrArg (List.map cf.view) (h.filter_records site)

/-! ### The numbers of the format -/

/-- The numbers of an index fit the format. -/
structure FitsSection (cf : ControlFlowIndex) : Prop where
  strings : cf.interner.size < kNoString ∧ ∀ s ∈ cf.interner.strings, s.length < 2 ^ 32
  table : (putTable cf.interner.strings).length < 2 ^ 32
  set_counts : cf.scopeSets.length < 2 ^ 32 ∧ cf.guardSets.length < 2 ^ 32 ∧
    cf.raiiSets.length < 2 ^ 32
  scopes : ∀ set ∈ cf.scopeSets, set.length < 2 ^ 32 ∧ ∀ s ∈ set, s.Fits
  guards : ∀ set ∈ cf.guardSets, set.length < 2 ^ 32 ∧ ∀ g ∈ set, ∀ t ∈ g.texts, t.length < 2 ^ 32
  raiis : ∀ set ∈ cf.raiiSets, set.length < 2 ^ 32
  contexts : cf.contexts.length < 2 ^ 32

theorem Inv.known_records (h : cf.Inv seen) {se : StoredContext}
    (hse : se ∈ cf.records.contexts) :
    ContextKnown cf.interner.size cf.scopeSets.length cf.guardSets.length cf.raiiSets.length se := by
  obtain ⟨hr, hlive⟩ := h.mem_records hse
  exact
    { caller := hr.caller
      callee := hr.callee
      callerDisplay := hr.callerDisplay
      calleeDisplay := hr.calleeDisplay
      site := hr.site
      tuPath := fun tu htu => (hr.tuPath tu htu).1
      scopeSet := hr.scopeSet
      guardSet := hr.guardSet
      raiiSet := hr.raiiSet
      live := hlive }

/-- The records of an index can be stored. -/
theorem Inv.storable_records (h : cf.Inv seen) (hfits : cf.FitsSection) :
    cf.records.Storable where
  string_count := hfits.strings.1
  strings := fun s hs => ⟨h.utf8 s hs, hfits.strings.2 s hs⟩
  table := hfits.table
  scopes :=
    { head := by rw [List.head?_eq_getElem?]; exact h.scopes.head
      count := hfits.set_counts.1
      counts := fun set hset => (hfits.scopes set hset).1
      good := fun set hset s hs => ⟨h.scopes_utf8 set hset s hs, (hfits.scopes set hset).2 s hs⟩ }
  guards :=
    { head := by rw [List.head?_eq_getElem?]; exact h.guards.head
      count := hfits.set_counts.2.1
      counts := fun set hset => (hfits.guards set hset).1
      good := by
        intro set hset g hg t ht
        obtain ⟨htext, hloc⟩ := h.guards_utf8 set hset g hg
        refine ⟨?_, (hfits.guards set hset).2 g hg t ht⟩
        simp only [ConditionalGuard.texts, List.mem_cons, List.not_mem_nil, or_false] at ht
        obtain rfl | rfl := ht
        exacts [htext, hloc] }
  raiis :=
    { head := by rw [List.head?_eq_getElem?]; exact h.raiis.head
      count := hfits.set_counts.2.2
      counts := hfits.raiis
      good := fun set hset l hl => h.raiis_range set hset l hl }
  context_count := by
    rw [h.perm_records.length_eq]
    exact (List.length_filter_le _ _).trans_lt hfits.contexts
  contexts := fun se hse => h.known_records hse

/-- **The control-flow section is loaded.** -/
theorem Inv.loadControlFlow_putControlFlow {ll : Llvm} (hll : ll.AcceptsUtf8) (h : cf.Inv seen)
    (hfits : cf.FitsSection) (sort : Sorter cf.records.idBefore) :
    loadControlFlow ll (putControlFlow cf.records sort) = some cf.records.install := by
  rw [loadControlFlow, readControlFlow_putControlFlow hll sort (h.storable_records hfits)]
  rfl

end ControlFlowIndex

end Vycor
