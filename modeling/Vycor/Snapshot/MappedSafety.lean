import Vycor.Snapshot.MappedLoad

/-!
# Attached to any file

A file is trusted with nothing but its checksums. Whatever its bytes are, a section that is
attached has its arrays inside the file (`fullyAttached_of_mapControlFlow`), and then every query
of the index answers: no read leaves its array, and a record with an id out of range is no
context.
-/

namespace Vycor

open Reader

/-! ### The readers of the section -/

namespace Within

variable {α : Type} {e : ℕ} {item : Read α} {P : α → Prop}

theorem indexText (ll : Llvm) : Within e (Reader.indexText ll) fun _ => True := by
  have hok : Within e isOk fun _ => True := get_bind fun _ _ => pure trivial
  refine str.bind fun s => hok.bind fun b => ite ?_ ?_
  · exact fail.bind fun _ => pure fun _ _ _ => trivial
  · exact pure fun _ _ => trivial

theorem count : Within e Reader.count fun _ => True := by
  refine u32.bind fun n => get_bind fun r _ => ite ?_ ?_
  · exact fail.bind fun _ => pure fun _ _ => trivial
  · exact pure fun _ => trivial

theorem countedIn (h : Within e item P) : Within e (Reader.countedIn item) fun l => ∀ a ∈ l, P a :=
  count.bind fun n => (times h n.toNat).mono fun _ hl _ => hl

/-- A value that was checked has passed. -/
theorem checked (h : Within e item P) (p : α → Bool) :
    Within e (Reader.checked item p) fun a => P a ∧ p a = true := by
  refine h.bind fun a => ?_
  split_ifs with hp
  · exact pure fun ha => ⟨ha, hp⟩
  · -- a failed reader has no value
    refine ⟨fun r hr => hr, fun r _ hok => ?_⟩
    cases hok

theorem flag : Within e Reader.flag fun _ => True := u8.bind fun _ => pure fun _ => trivial

theorem readNum : Within e Vycor.readNum fun _ => True := u32.bind fun _ => pure fun _ => trivial

theorem readId (bound : ℕ) : Within e (Vycor.readId bound) (· < bound) :=
  (readNum.checked _).mono fun _ h => of_decide_eq_true h.2

theorem readHandler (ll : Llvm) : Within e (Vycor.readHandler ll) fun _ => True := by
  refine (indexText ll).bind fun _ => flag.bind fun _ => flag.bind fun _ =>
    (indexText ll).bind fun _ => (indexText ll).bind fun _ => pure ?_
  exact fun _ _ _ _ _ => trivial

theorem readScope (ll : Llvm) : Within e (Vycor.readScope ll) fun _ => True := by
  refine (indexText ll).bind fun _ => (indexText ll).bind fun _ => readNum.bind fun _ =>
    (countedIn (readHandler ll)).bind fun _ => pure ?_
  exact fun _ _ _ _ => trivial

theorem readGuard (ll : Llvm) : Within e (Vycor.readGuard ll) fun _ => True := by
  refine (indexText ll).bind fun _ => (indexText ll).bind fun _ => flag.bind fun _ =>
    flag.bind fun _ => pure ?_
  exact fun _ _ _ _ => trivial

theorem readLocal (interned : ℕ) : Within e (Vycor.readLocal interned) fun l =>
    l.typeName < interned ∧ l.varName < interned ∧ l.declLocation < interned := by
  refine (readId _).bind fun _ => (readId _).bind fun _ => (readId _).bind fun _ =>
    u8.bind fun _ => pure ?_
  exact fun _ hdecl hvar htype => ⟨htype, hvar, hdecl⟩

theorem readSets (h : Within e item P) :
    Within e (Vycor.readSets item) fun sets => ∀ set ∈ sets, ∀ a ∈ set, P a :=
  ((countedIn (countedIn h)).checked _).mono fun _ h => h.1

theorem readSetTables (ll : Llvm) (interned : ℕ) :
    Within e (Vycor.readSetTables ll interned) fun tables => ∀ set ∈ tables.2.2, ∀ l ∈ set,
      l.typeName < interned ∧ l.varName < interned ∧ l.declLocation < interned := by
  refine (readSets (readScope ll)).bind fun _ => (readSets (readGuard ll)).bind fun _ =>
    (readSets (readLocal interned)).bind fun _ => pure ?_
  exact fun hlocals _ _ => hlocals

/-- The head of the section is left in front of the table, whose number is not too small. -/
theorem readTableSize : Within e Vycor.readTableSize fun size => 4 ≤ size.1 := by
  have hrun (r : Reader) : Vycor.readTableSize r =
      (((Vycor.readNum r).1, (Vycor.readNum (Vycor.readNum r).2).1),
        { (Vycor.readNum r).2 with
          ok := (Vycor.readNum (Vycor.readNum r).2).2.ok && decide (4 ≤ (Vycor.readNum r).1) &&
            decide ((Vycor.readNum r).1 ≤ (Vycor.readNum r).2.rest.length) }) := rfl
  constructor
  · intro r hr
    rw [hrun]
    exact readNum.place r hr
  · intro r hr hok
    rw [hrun] at hok ⊢
    simp only [Bool.and_eq_true, decide_eq_true_eq] at hok
    obtain ⟨hsecond, -⟩ := readNum.post _ (readNum.place r hr) hok.1.1
    exact ⟨(readNum.post r hr hsecond).1, hok.1.2⟩

end Within

/-! ### Attaching -/

/-- All arrays of the store lie inside the file. -/
structure MappedStore.FullyAttached (m : MappedStore) : Prop extends m.Attached where
  byCaller : m.byCaller.Holds m.buffer m.recordCount 4
  byCallee : m.byCallee.Holds m.buffer m.recordCount 4
  byCallerDisplay : m.byCallerDisplay.Holds m.buffer m.callerDisplayCount 4
  byCalleeDisplay : m.byCalleeDisplay.Holds m.buffer m.calleeDisplayCount 4

section Attach

variable {file : Bytes} {e : ℕ}

/-- A region up to the end of the section lies inside the file. -/
theorem holds_of_region (he : e ≤ file.length) {reg : Region} {n size : ℕ}
    (h : reg.length = n * size ∧ reg.start + reg.length ≤ e) : reg.Holds file n size :=
  ⟨h.2.trans he, h.1⟩

theorem Within.attachMapped (he : e ≤ file.length) (strings : Region) (stringCount : ℕ) :
    Within e (Vycor.attachMapped file strings stringCount)
      fun m => strings.Inside file → m.FullyAttached := by
  refine readNum.bind fun recordCount => (region _).bind fun records => (region _).bind fun offsets =>
    (region _).bind fun ids => (region _).bind fun byCaller => (region _).bind fun byCallee =>
    (readNum.checked _).bind fun callers => (region _).bind fun byCallerDisplay =>
    (readNum.checked _).bind fun callees => (region _).bind fun byCalleeDisplay => pure ?_
  intro h₁ _ h₂ _ h₃ h₄ h₅ h₆ h₇ _ hstrings
  exact
    { strings := hstrings
      stringOffsets := holds_of_region he h₆
      sortedIds := holds_of_region he h₅
      records := holds_of_region he h₇
      byCaller := holds_of_region he h₄
      byCallee := holds_of_region he h₃
      byCallerDisplay := holds_of_region he h₂
      byCalleeDisplay := holds_of_region he h₁ }

theorem Within.readMapped (ll : Llvm) (he : e ≤ file.length) :
    Within e (Vycor.readMapped ll file) fun cf => ∃ m, cf.mapped = some m ∧ m.FullyAttached := by
  refine readTableSize.bind fun size => (region _).bind fun table =>
    (readSetTables ll size.2).bind fun sets => (Within.attachMapped he _ size.2).bind fun m => pure ?_
  rintro hm - ⟨htable, hinside⟩ hfour
  refine ⟨m, rfl, hm ?_⟩
  change table.start + 4 + (size.1 - 4) ≤ file.length
  omega

/-- **Attached, a section has its arrays inside the file.** -/
theorem fullyAttached_of_mapControlFlow {ll : Llvm} {range : SectionRange}
    (hinside : range.offset + range.length ≤ file.length) {cf : ControlFlowIndex}
    (h : mapControlFlow ll file range = some cf) :
    ∃ m, cf.mapped = some m ∧ m.FullyAttached := by
  rw [mapControlFlow] at h
  split_ifs at h with hok
  obtain rfl := Option.some_inj.mp h
  have hlen : range.offset + (range.bytes file).length = range.offset + range.length := by
    rw [SectionRange.bytes, List.length_take, List.length_drop]
    omega
  exact ((Within.readMapped ll hinside).post _ hlen (Bool.and_eq_true_iff.mp hok).1).2

end Attach

/-! ### Reading an attached store -/

namespace MappedStore

variable {m : MappedStore}

/-- A bisection of an order array answers; positions out of range sort last. -/
theorem Attached.exists_orderRange (h : m.Attached) {order : Region} {count field : ℕ}
    (horder : order.Holds m.buffer count 4) (hfield : field + 4 ≤ kRecordBytes) (id : SId) :
    ∃ first last, m.mappedRange (some order) count field id = some (first, last) ∧ first ≤ last ∧
      last ≤ count := by
  have hprobe : ∀ i < count, ∃ v, m.fieldAt (some order) field i = some v := by
    intro i hi
    obtain ⟨pos, hpos⟩ := exists_fetchLe horder hi (by omega : 0 + 4 ≤ 4)
    rw [Nat.add_zero] at hpos
    rw [fieldAt, orderAt, hpos, Option.bind_eq_bind, Option.bind_some]
    split_ifs with hlt
    · exact ⟨_, rfl⟩
    · obtain ⟨v, hv⟩ := exists_fetchLe h.records (not_le.mp hlt) hfield
      exact ⟨some v, by rw [hv]; rfl⟩
  have htest (p : ℕ → Bool) (lo : ℕ) : ∀ i, lo ≤ i → i < count →
      ∃ b, (m.fieldAt (some order) field i).map (fun v => v.any p) = some b := by
    intro i _ hi
    obtain ⟨v, hv⟩ := hprobe i hi
    exact ⟨_, by rw [hv]; rfl⟩
  obtain ⟨first, hfirst, -, hle⟩ := exists_partitionPoint (Nat.zero_le count) (htest (· < id) 0)
  obtain ⟨last, hlast, hge, hle'⟩ := exists_partitionPoint hle (htest (· ≤ id) first)
  refine ⟨first, last, ?_, hge, hle'⟩
  rw [mappedRange, hfirst, Option.bind_eq_bind, Option.bind_some, hlast]
  rfl

theorem exists_positionsIn {order : Region} {count first last : ℕ}
    (horder : order.Holds m.buffer count 4) (hlast : last ≤ count) :
    ∃ ps, ControlFlowIndex.MappedStore.positionsIn m order (first, last) = some ps := by
  have hread : ∀ l : List ℕ, (∀ i ∈ l, i < count) →
      ∃ ps, l.mapM (fun i => m.orderAt (some order) i) = some ps := by
    intro l hl
    induction l with
    | nil => exact ⟨[], rfl⟩
    | cons i rest ih =>
      obtain ⟨pos, hpos⟩ := exists_fetchLe horder (hl i (.head _)) (by omega : 0 + 4 ≤ 4)
      rw [Nat.add_zero] at hpos
      obtain ⟨ps, hps⟩ := ih fun j hj => hl j (.tail _ hj)
      exact ⟨pos :: ps, by rw [List.mapM_cons, orderAt, hpos, hps]; rfl⟩
  refine hread _ fun i hi => ?_
  have hmem := List.mem_range'_1.mp hi
  dsimp only at hmem
  omega

end MappedStore

namespace ControlFlowIndex

/-- Every query answers: no access leaves its table or region. -/
structure AllAnswer (ll : Llvm) (cf : ControlFlowIndex) : Prop where
  contextAtSite : ∀ site, ∃ ctx, cf.contextAtSite ll site = some ctx
  contextAtSiteOf : ∀ site caller, ∃ ctx, cf.contextAtSiteOf ll site caller = some ctx
  contextsAtSite : ∀ site, ∃ ctxs, cf.contextsAtSite ll site = some ctxs
  contextForEdge : ∀ site caller callee, ∃ ctx, cf.contextForEdge ll site caller callee = some ctx
  contextsForCaller : ∀ name, ∃ ctxs, cf.contextsForCaller ll name = some ctxs
  contextsForCallee : ∀ name, ∃ ctxs, cf.contextsForCallee ll name = some ctxs
  callerNoexceptOf : ∀ name, ∃ spec, cf.callerNoexceptOf ll name = some spec
  protectedCallsTo : ∀ name, ∃ ctxs, cf.protectedCallsTo ll name = some ctxs
  unprotectedCallsTo : ∀ name, ∃ ctxs, cf.unprotectedCallsTo ll name = some ctxs
  forEachContext : ∃ ctxs, cf.forEachContext ll = some ctxs

/-- What stands at a position is read, and if it is live it is a context. -/
def Reads (ll : Llvm) (cf : ControlFlowIndex) (pos : ℕ) : Prop :=
  ∃ se, cf.storedAt pos = some se ∧ (se.live = true → ∃ ctx, cf.materialize ll se = some ctx)

/-- The lookups find positions that are read. -/
structure Readable (ll : Llvm) (cf : ControlFlowIndex) : Prop where
  findId : ∀ raw, ∃ found, cf.findId ll raw = some found
  sitePositions : ∀ site, ∃ positions, cf.sitePositions ll site = some positions ∧
    ∀ pos ∈ positions, cf.Reads ll pos
  namePositions : ∀ side name, ∃ positions, cf.namePositions ll side name = some positions ∧
    ∀ pos ∈ positions, cf.Reads ll pos
  forEachContext : ∃ ctxs, cf.forEachContext ll = some ctxs

section Reads

variable {ll : Llvm} {cf : ControlFlowIndex} {positions : List ℕ}

theorem exists_collect_of_reads (hreads : ∀ pos ∈ positions, cf.Reads ll pos)
    (keep : StoredContext → Bool) : ∃ ctxs, cf.collect ll keep positions = some ctxs := by
  induction positions with
  | nil => exact ⟨[], rfl⟩
  | cons pos rest ih =>
    obtain ⟨se, hse, hctx⟩ := hreads pos (.head _)
    obtain ⟨more, hmore⟩ := ih fun p hp => hreads p (.tail _ hp)
    rw [collect, hse]
    simp only [Option.bind_eq_bind, Option.bind_some, hmore]
    split_ifs with hkeep
    · obtain ⟨ctx, hctx⟩ := hctx (Bool.and_eq_true_iff.mp hkeep).1
      exact ⟨ctx :: more, by rw [hctx]; rfl⟩
    · exact ⟨more, rfl⟩

/-- A record that is found is a context. -/
theorem exists_firstStored_of_reads (hreads : ∀ pos ∈ positions, cf.Reads ll pos)
    (keep : StoredContext → Bool) : ∃ found, cf.firstStored keep positions = some found ∧
      ∃ ctx, cf.materializeFound ll found = some ctx := by
  induction positions with
  | nil => exact ⟨none, rfl, none, rfl⟩
  | cons pos rest ih =>
    obtain ⟨se, hse, hctx⟩ := hreads pos (.head _)
    rw [firstStored, hse]
    simp only [Option.bind_eq_bind, Option.bind_some]
    split_ifs with hkeep
    · obtain ⟨ctx, hctx⟩ := hctx (Bool.and_eq_true_iff.mp hkeep).1
      exact ⟨_, rfl, some ctx, by rw [materializeFound, hctx]; rfl⟩
    · exact ih fun p hp => hreads p (.tail _ hp)

theorem Readable.collectNamed (h : Readable ll cf) (side : Side) (name : Bytes)
    (keep : StoredContext → Bool) :
    ∃ ctxs, (do let positions ← cf.namePositions ll side name
                cf.collect ll keep positions) = some ctxs := by
  obtain ⟨positions, hpos, hreads⟩ := h.namePositions side name
  rw [hpos]
  exact exists_collect_of_reads hreads keep

/-- An index whose lookups are read answers every query. -/
theorem Readable.allAnswer (h : Readable ll cf) : AllAnswer ll cf := by
  have hsite (site : Bytes) : ∃ ctxs, cf.contextsAtSite ll site = some ctxs := by
    obtain ⟨positions, hpos, hreads⟩ := h.sitePositions site
    rw [ControlFlowIndex.contextsAtSite, hpos]
    exact exists_collect_of_reads hreads _
  exact
    { contextAtSite := fun site => by
        obtain ⟨positions, hpos, hreads⟩ := h.sitePositions site
        obtain ⟨found, hfound, hctx⟩ := exists_firstStored_of_reads hreads fun _ => true
        rw [ControlFlowIndex.contextAtSite, hpos]
        simp only [Option.bind_eq_bind, Option.bind_some, hfound]
        exact hctx
      contextAtSiteOf := fun site caller => by
        obtain ⟨id, hid⟩ := h.findId caller
        obtain ⟨positions, hpos, hreads⟩ := h.sitePositions site
        rw [ControlFlowIndex.contextAtSiteOf, hid, hpos]
        cases id with
        | none => exact ⟨none, rfl⟩
        | some id =>
          obtain ⟨found, hfound, hctx⟩ := exists_firstStored_of_reads hreads
            fun se => se.caller = id || se.callerDisplay = id
          simp only [Option.bind_eq_bind, Option.bind_some, hfound]
          exact hctx
      contextsAtSite := hsite
      contextForEdge := fun site caller callee => by
        obtain ⟨ctxs, hctxs⟩ := hsite site
        exact ⟨pickForEdge caller callee ctxs, by rw [contextForEdge, hctxs]; rfl⟩
      contextsForCaller := fun name => h.collectNamed .caller name _
      contextsForCallee := fun name => h.collectNamed .callee name _
      callerNoexceptOf := fun name => by
        obtain ⟨positions, hpos, hreads⟩ := h.namePositions .caller name
        obtain ⟨found, hfound, -⟩ := exists_firstStored_of_reads hreads fun _ => true
        rw [ControlFlowIndex.callerNoexceptOf, hpos]
        simp only [Option.bind_eq_bind, Option.bind_some, hfound]
        exact ⟨_, rfl⟩
      protectedCallsTo := fun name => h.collectNamed .callee name _
      unprotectedCallsTo := fun name => h.collectNamed .callee name _
      forEachContext := h.forEachContext }

end Reads

section Mapped

variable (ll : Llvm) {cf : ControlFlowIndex} {m : MappedStore} (hm : cf.mapped = some m)

include hm

theorem exists_findId (h : m.Attached) (raw : Bytes) : ∃ found, cf.findId ll raw = some found := by
  obtain ⟨found, hfound⟩ := h.exists_searchId (lookupText ll raw) 0 m.stringCount le_rfl
  exact ⟨found, by rw [findId, hm]; exact hfound⟩

/-- A record of the file that is live has its strings and sets. -/
theorem reads_of_attached (h : m.Attached) (pos : ℕ) : cf.Reads ll pos := by
  obtain ⟨se, hse, hvalid⟩ := h.exists_mappedRecord cf.scopeSets.length cf.guardSets.length
    cf.raiiSets.length pos
  refine ⟨se, by rw [storedAt, hm]; exact hse, fun hlive => ?_⟩
  obtain ⟨hscope, hguard, hraii⟩ := hvalid hlive
  exact exists_materialize ll hm h hscope hguard hraii

theorem exists_namePositions (h : m.FullyAttached) (side : Side) (name : Bytes) :
    ∃ positions, cf.namePositions ll side name = some positions := by
  obtain ⟨found, hfound⟩ := exists_findId ll hm h.toAttached name
  have husr : (side.order m).1.Holds m.buffer m.recordCount 4 ∧ (side.order m).2 + 4 ≤ kRecordBytes := by
    cases side with
    | caller => exact ⟨h.byCaller, (by decide : 0 + 4 ≤ kRecordBytes)⟩
    | callee => exact ⟨h.byCallee, (by decide : 4 + 4 ≤ kRecordBytes)⟩
  have hdisplay : (side.displayOrder m).1.Holds m.buffer (side.displayOrder m).2.1 4 ∧
      (side.displayOrder m).2.2 + 4 ≤ kRecordBytes := by
    cases side with
    | caller => exact ⟨h.byCallerDisplay, (by decide : 8 + 4 ≤ kRecordBytes)⟩
    | callee => exact ⟨h.byCalleeDisplay, (by decide : 12 + 4 ≤ kRecordBytes)⟩
  rw [namePositions, hfound]
  simp only [Option.bind_eq_bind, Option.bind_some, hm]
  cases found with
  | none => exact ⟨[], rfl⟩
  | some id =>
    obtain ⟨first, last, hrange, -, hlast⟩ := h.toAttached.exists_orderRange husr.1 husr.2 id
    simp only [hrange, Option.bind_some]
    split_ifs
    · obtain ⟨first', last', hrange', -, hlast'⟩ :=
        h.toAttached.exists_orderRange hdisplay.1 hdisplay.2 id
      rw [hrange']
      exact MappedStore.exists_positionsIn hdisplay.1 hlast'
    · exact MappedStore.exists_positionsIn husr.1 hlast

/-- An attached index answers every query. -/
theorem readable_of_fullyAttached (h : m.FullyAttached) : Readable ll cf where
  findId := exists_findId ll hm h.toAttached
  sitePositions site := by
    obtain ⟨positions, hpos⟩ := exists_sitePositions ll hm h.toAttached site
    exact ⟨positions, hpos, fun pos _ => reads_of_attached ll hm h.toAttached pos⟩
  namePositions side name := by
    obtain ⟨positions, hpos⟩ := exists_namePositions ll hm h side name
    exact ⟨positions, hpos, fun pos _ => reads_of_attached ll hm h.toAttached pos⟩
  forEachContext := by
    rw [ControlFlowIndex.forEachContext, hm]
    exact exists_collect_of_reads (fun pos _ => reads_of_attached ll hm h.toAttached pos) _

end Mapped

end ControlFlowIndex

end Vycor
