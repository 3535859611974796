import Vycor.Channels.Section
import Vycor.Snapshot.ControlFlowLoad
import Vycor.Snapshot.GraphLoad
import Vycor.Snapshot.MappedSafety

/-!
# Loaded from any file

Nothing in a section is trusted that the loader does not check. Whatever the bytes are, the ids of
the records that are read lie in their tables, so the indexes built from them refer to strings,
edges, contexts and sites they have, and every query of the control-flow index answers.
-/

namespace Vycor

open Reader

/-! ### The readers of the sections -/

/-- The ids of the records are in the table of strings. -/
structure GraphRecords.Known (r : GraphRecords) : Prop where
  nodes : ∀ n ∈ r.nodes, n.nameId < r.strings.length ∧ n.displayId < r.strings.length ∧
    ∀ tu ∈ n.contributors, tu < r.strings.length
  edges : ∀ e ∈ r.edges, (e.edge.caller < r.strings.length ∧ e.edge.callee < r.strings.length ∧
    e.edge.callSite < r.strings.length ∧ e.edge.refs ≠ 0) ∧ ∀ tu ∈ e.tus, tu < r.strings.length
  pairs : ∀ pairs ∈ [r.derivedClasses, r.methodOverrides, r.effectiveImplClasses,
    r.functionReturns], ∀ p ∈ pairs, p.1 < r.strings.length ∧ p.2 < r.strings.length

/-- The ids of the records are in the tables of strings and sets. -/
structure ControlFlowRecords.Known (r : ControlFlowRecords) : Prop where
  locals : ∀ set ∈ r.raiiSets, ∀ l ∈ set, l.typeName < r.strings.length ∧
    l.varName < r.strings.length ∧ l.declLocation < r.strings.length
  contexts : ∀ se ∈ r.contexts, ContextKnown r.strings.length r.scopeSets.length
    r.guardSets.length r.raiiSets.length se

namespace Within

variable {α : Type} {e : ℕ} {item : Read α} {P : α → Prop}

/-- A section that is decoded has what its reader checks. -/
theorem of_decodeSection {bytes : Bytes} {a : α} (h : Within bytes.length item P)
    (hdec : decodeSection item bytes = some a) : P a := by
  rw [decodeSection] at hdec
  split_ifs at hdec with hok
  obtain rfl := Option.some_inj.mp hdec
  exact (h.post ⟨bytes, 0, true⟩ (Nat.zero_add _) (Bool.and_eq_true_iff.mp hok).1).2

/-- A loop that has not failed has read all its items. -/
theorem length_times (h : Within e item P) (n : ℕ) : ∀ r : Reader, r.pos + r.rest.length = e →
    (Reader.times item n r).2.ok = true → (Reader.times item n r).1.length = n := by
  induction n with
  | zero => exact fun _ _ _ => rfl
  | succ n ih =>
    intro r hr hok
    have hrun : Reader.times item (n + 1) r = if r.ok then
        ((item r).1 :: (Reader.times item n (item r).2).1, (Reader.times item n (item r).2).2) else ([], r) := by
      rw [Reader.times, bind_apply]
      change (if r.ok then _ else _ : Read _) r = _
      cases r.ok with
      | true => rfl
      | false => rfl
    rw [hrun] at hok ⊢
    by_cases hr' : r.ok = true
    · rw [if_pos hr'] at hok ⊢
      rw [List.length_cons, ih _ (h.place r hr) hok]
    · rw [if_neg hr'] at hok
      exact absurd hok hr'

theorem readNodeRecord (ll : Llvm) (n : ℕ) : Within e (Vycor.readNodeRecord ll n) fun r =>
    r.nameId < n ∧ r.displayId < n ∧ ∀ tu ∈ r.contributors, tu < n := by
  refine (readId n).bind fun _ => (readId n).bind fun _ => (indexText ll).bind fun _ =>
    readNum.bind fun _ => u8.bind fun _ => (indexText ll).bind fun _ =>
    (countedIn (readId n)).bind fun _ => pure ?_
  exact fun htus _ _ _ _ hdisplay hname => ⟨hname, hdisplay, htus⟩

theorem readEdgeRecord (n : ℕ) : Within e (Vycor.readEdgeRecord n) fun r =>
    (r.edge.caller < n ∧ r.edge.callee < n ∧ r.edge.callSite < n ∧ r.edge.refs ≠ 0) ∧
      ∀ tu ∈ r.tus, tu < n := by
  refine (readId n).bind fun _ => (readId n).bind fun _ => (readId n).bind fun _ =>
    u8.bind fun _ => u8.bind fun _ => u8.bind fun _ => readNum.bind fun _ =>
    (readNum.checked _).bind fun _ => (countedIn (readId n)).bind fun _ => pure ?_
  exact fun htus hrefs _ _ _ _ hsite hcallee hcaller =>
    ⟨⟨hcaller, hcallee, hsite, of_decide_eq_true hrefs.2⟩, htus⟩

theorem readPair (n : ℕ) : Within e (Vycor.readPair n) fun p => p.1 < n ∧ p.2 < n :=
  (readId n).bind fun _ => (readId n).bind fun _ => pure fun hb ha => ⟨ha, hb⟩

theorem readGraph (ll : Llvm) : Within e (Vycor.readGraph ll) GraphRecords.Known := by
  refine (countedIn (indexText ll)).bind fun strings =>
    (countedIn (readNodeRecord ll strings.length)).bind fun _ =>
    (countedIn (readEdgeRecord strings.length)).bind fun _ =>
    (countedIn (readPair strings.length)).bind fun _ =>
    (countedIn (readPair strings.length)).bind fun _ =>
    (countedIn (readPair strings.length)).bind fun _ =>
    (countedIn (readPair strings.length)).bind fun _ => pure ?_
  intro hreturns himpls hoverrides hderived hedges hnodes _
  refine ⟨hnodes, hedges, fun pairs hmem => ?_⟩
  simp only [List.mem_cons, List.not_mem_nil, or_false] at hmem
  rcases hmem with rfl | rfl | rfl | rfl
  · exact hderived
  · exact hoverrides
  · exact himpls
  · exact hreturns

theorem readTu (n : ℕ) : Within e (Vycor.readTu n) fun tu => ∀ id, tu = some id → id < n := by
  refine (readNum.checked _).bind fun tu => pure fun h id hid => ?_
  by_cases hnone : tu = kNoString
  · rw [if_pos hnone] at hid
    cases hid
  · rw [if_neg hnone] at hid
    obtain rfl := Option.some_inj.mp hid
    simpa [hnone] using h.2

theorem readContext (n scopes guards raiis : ℕ) :
    Within e (Vycor.readContext n scopes guards raiis) (ContextKnown n scopes guards raiis) := by
  refine (readId n).bind fun _ => (readId n).bind fun _ => (readId n).bind fun _ =>
    (readId n).bind fun _ => (readId n).bind fun _ => (readTu n).bind fun _ =>
    (readId scopes).bind fun _ => (readId guards).bind fun _ => (readId raiis).bind fun _ =>
    u8.bind fun _ => flag.bind fun _ => pure ?_
  intro _ _ hraii hguard hscope htu hsite hcalleeDisplay hcallerDisplay hcallee hcaller
  exact ⟨hcaller, hcallee, hcallerDisplay, hcalleeDisplay, hsite, htu, hscope, hguard, hraii, rfl⟩

/-- A number of items that was read is the number that stands there. -/
theorem count_of_ok {r : Reader} (hok : (Reader.count r).2.ok = true) :
    (Reader.count r).1 = (Reader.u32 r).1 := by
  have hrun : Reader.count r =
      if (Reader.u32 r).2.ok && decide ((Reader.u32 r).2.rest.length < (Reader.u32 r).1.toNat) then
        (0, { (Reader.u32 r).2 with ok := false }) else Reader.u32 r := by
    rw [Reader.count, bind_apply]
    generalize Reader.u32 r = p
    obtain ⟨n, s⟩ := p
    change (if s.ok && decide (s.rest.length < n.toNat) then (do Reader.fail; return 0)
      else return n : Read UInt32) s = _
    cases s.ok && decide (s.rest.length < n.toNat) with
    | true => rfl
    | false => rfl
  rw [hrun] at hok ⊢
  cases hshort : (Reader.u32 r).2.ok &&
      decide ((Reader.u32 r).2.rest.length < (Reader.u32 r).1.toNat) with
  | true =>
    rw [hshort] at hok
    cases hok
  | false => rfl

/-- The table has as many strings as the number in front of it says. -/
theorem readTable (ll : Llvm) : Within e (Vycor.readTable ll) fun t => t.1 = t.2.length := by
  have hstrings : Within e (Reader.countedIn (Reader.indexText ll)) fun _ => True :=
    (countedIn (indexText ll)).mono fun _ _ => trivial
  have hrun (r : Reader) : Vycor.readTable ll r =
      let size := Vycor.readTableSize r
      let strings := Reader.countedIn (Reader.indexText ll) size.2
      ((size.1.2, strings.1), { strings.2 with
        ok := strings.2.ok && decide (strings.2.pos = size.2.pos + size.1.1) }) := rfl
  constructor
  · intro r hr
    rw [hrun]
    exact hstrings.place _ (readTableSize.place r hr)
  · intro r hr hok
    rw [hrun] at hok ⊢
    dsimp only at hok ⊢
    have hplace := readTableSize.place r hr
    have hok := (Bool.and_eq_true_iff.mp hok).1
    obtain ⟨hsize, -⟩ := hstrings.post _ hplace hok
    refine ⟨(readTableSize.post r hr hsize).1, ?_⟩
    -- the reader stands in front of the number that was looked at
    have hfront : (Vycor.readTableSize r).2 = (Vycor.readNum r).2 := by
      have hset : (Vycor.readTableSize r).2 =
          { (Vycor.readNum r).2 with ok := (Vycor.readTableSize r).2.ok } := rfl
      have hnum : (Vycor.readNum r).2.ok = true := by
        have hpeek : (Vycor.readTableSize r).2.ok = ((Vycor.readNum (Vycor.readNum r).2).2.ok &&
            decide (4 ≤ (Vycor.readNum r).1) &&
              decide ((Vycor.readNum r).1 ≤ (Vycor.readNum r).2.rest.length)) := rfl
        rw [hpeek, Bool.and_eq_true, Bool.and_eq_true] at hsize
        exact (readNum.post _ (readNum.place r hr) hsize.1.1).1
      rw [hset, hsize, ← hnum]
    rw [hfront] at hok hplace ⊢
    obtain ⟨hcount, -⟩ := (times (indexText ll) _).post _ (count.place _ hplace) hok
    have hlen := length_times (indexText ll) _ _ (count.place _ hplace) hok
    exact ((congrArg UInt32.toNat (count_of_ok hcount)).symm.trans hlen.symm)

theorem skipU32s (n : ℕ) : Within e (Vycor.skipU32s n) fun _ => True :=
  (bytes _).bind fun _ => pure fun _ => trivial

theorem skipCounted : Within e Vycor.skipCounted fun _ => True :=
  count.bind fun _ => (skipU32s _).mono fun _ _ _ => trivial

theorem readControlFlow (ll : Llvm) :
    Within e (Vycor.readControlFlow ll) ControlFlowRecords.Known := by
  refine (readTable ll).bind fun table => (readSetTables ll table.1).bind fun sets =>
    (countedIn (readContext table.1 sets.1.length sets.2.1.length sets.2.2.length)).bind fun _ =>
    (skipU32s _).bind fun _ => (skipU32s _).bind fun _ => skipCounted.bind fun _ =>
    skipCounted.bind fun _ => pure ?_
  intro _ _ _ _ hcontexts hlocals hlen
  rw [hlen] at hcontexts hlocals
  exact ⟨hlocals, hcontexts⟩

end Within

/-! ### Tables of ids -/

/-- The table lists numbers below `n`. -/
def ListsBelow {κ : Type} (n : ℕ) (m : κ → List ℕ) : Prop := ∀ k, ∀ a ∈ m k, a < n

namespace ListsBelow

variable {κ : Type} {m : κ → List ℕ} {n n' : ℕ}

theorem empty : ListsBelow n fun _ : κ => [] := fun _ _ h => nomatch h

theorem mono (h : ListsBelow n m) (hle : n ≤ n') : ListsBelow n' m :=
  fun k a ha => (h k a ha).trans_le hle

variable [DecidableEq κ] {a : ℕ}

theorem pushAt (h : ListsBelow n m) (k : κ) (ha : a < n) : ListsBelow n (pushAt m k a) := by
  intro k' b hb
  rcases mem_pushAt.mp hb with hb | ⟨-, rfl⟩
  · exact h k' b hb
  · exact ha

theorem pushNew (h : ListsBelow n m) (k : κ) (ha : a < n) : ListsBelow n (pushNew m k a) := by
  intro k' b hb
  rcases mem_pushNew.mp hb with hb | ⟨-, rfl⟩
  · exact h k' b hb
  · exact ha

theorem insertAt (h : ListsBelow n m) (k : κ) (ha : a < n) : ListsBelow n (insertAt m k a) := by
  intro k' b hb
  rcases mem_insertAt.mp hb with hb | ⟨-, rfl⟩
  · exact h k' b hb
  · exact ha

end ListsBelow

/-! ### Graphs -/

namespace CallGraph

/-- The graph refers to strings and to edges that it has. -/
structure Bounded (g : CallGraph) : Prop where
  nodes : ∀ id node, g.nodes id = some node → id < g.interner.size
  edges : ∀ e ∈ g.edges,
    e.caller < g.interner.size ∧ e.callee < g.interner.size ∧ e.callSite < g.interner.size
  outEdges : ListsBelow g.edges.length g.outEdges
  inEdges : ListsBelow g.edges.length g.inEdges
  tuEdges : ListsBelow g.edges.length g.tuEdges
  edgeIndex : ∀ key i, g.edgeIndex key = some i → i < g.edges.length
  byName : ListsBelow g.interner.size g.byName
  contributors : ListsBelow g.interner.size g.nodeContributors
  tuNodes : ListsBelow g.interner.size g.tuNodes
  derivedClasses : ListsBelow g.interner.size g.derivedClasses
  methodOverrides : ListsBelow g.interner.size g.methodOverrides
  overrideBases : ListsBelow g.interner.size g.overrideBases
  effectiveImplClasses : ListsBelow g.interner.size g.effectiveImplClasses
  functionReturns : ListsBelow g.interner.size g.functionReturns
  returnedBy : ListsBelow g.interner.size g.returnedBy

/-- The graph has the strings and only refers to what it has. -/
def BoundedOver (strings : List Bytes) (g : CallGraph) : Prop :=
  g.interner = ⟨strings⟩ ∧ g.Bounded

variable {strings : List Bytes} {g : CallGraph}

theorem BoundedOver.contribute (h : g.BoundedOver strings) {nameId tuId : SId}
    (hname : nameId < strings.length) (htu : tuId < strings.length) :
    (g.contribute nameId tuId).BoundedOver strings := by
  obtain ⟨hint, hb⟩ := h
  have hsize : g.interner.size = strings.length := by rw [hint]; rfl
  rw [CallGraph.contribute]
  split_ifs
  · exact ⟨hint, hb⟩
  · exact ⟨hint, { hb with
      contributors := hb.contributors.insertAt _ (hsize ▸ htu)
      tuNodes := hb.tuNodes.pushAt _ (hsize ▸ hname) }⟩

theorem BoundedOver.loadNode (h : g.BoundedOver strings) {r : NodeRecord}
    (hr : r.nameId < strings.length ∧ r.displayId < strings.length ∧
      ∀ tu ∈ r.contributors, tu < strings.length) : (g.loadNode r).BoundedOver strings := by
  have hfold (l : List ℕ) (hl : ∀ tu ∈ l, tu < strings.length) (g : CallGraph)
      (h : g.BoundedOver strings) :
      (l.foldl (fun g tu => g.contribute r.nameId tu) g).BoundedOver strings := by
    induction l generalizing g with
    | nil => exact h
    | cons tu rest ih =>
      exact ih (fun t ht => hl t (.tail _ ht)) _ (h.contribute hr.1 (hl tu (.head _)))
  obtain ⟨hint, hb⟩ := h
  have hsize : g.interner.size = strings.length := by rw [hint]; rfl
  refine hfold r.contributors hr.2.2 _ ⟨hint, { hb with
    byName := hb.byName.pushNew _ (hsize ▸ hr.1)
    nodes := fun id node hnode => ?_ }⟩
  by_cases hid : id = r.nameId
  · subst hid
    exact hsize ▸ hr.1
  · exact hb.nodes id node ((emplaceAt_of_ne _ _ hid).symm.trans hnode)

theorem BoundedOver.loadEdge (h : g.BoundedOver strings) {r : EdgeRecord}
    (hr : r.edge.caller < strings.length ∧ r.edge.callee < strings.length ∧
      r.edge.callSite < strings.length) : (g.loadEdge r).BoundedOver strings := by
  obtain ⟨hint, hb⟩ := h
  have hsize : g.interner.size = strings.length := by rw [hint]; rfl
  have hlast : g.edges.length < (g.edges ++ [r.edge]).length := by
    rw [List.length_append, List.length_singleton]
    exact Nat.lt_succ_self _
  have hfold (l : List ℕ) (idx : ℕ) (g : CallGraph) (h : g.BoundedOver strings)
      (hidx : idx < g.edges.length) :
      (l.foldl (fun g tu => g.tagEdge tu idx) g).BoundedOver strings := by
    induction l generalizing g with
    | nil => exact h
    | cons tu rest ih =>
      exact ih _ ⟨h.1, { h.2 with tuEdges := h.2.tuEdges.pushAt _ hidx }⟩ hidx
  have hindex : ∀ key i, emplaceAt g.edgeIndex (keyOf r.edge) g.edges.length key = some i →
      i < (g.edges ++ [r.edge]).length := by
    intro key i hi
    by_cases hkey : key = keyOf r.edge
    · subst hkey
      rw [emplaceAt] at hi
      split_ifs at hi with hsome
      · exact (hb.edgeIndex _ i hi).trans hlast
      · rw [Function.update_self, Option.some_inj] at hi
        exact hi ▸ hlast
    · exact (hb.edgeIndex key i ((emplaceAt_of_ne _ _ hkey).symm.trans hi)).trans hlast
  have hedges : ∀ e ∈ g.edges ++ [r.edge], e.caller < g.interner.size ∧
      e.callee < g.interner.size ∧ e.callSite < g.interner.size := by
    intro e he
    rcases List.mem_append.mp he with he | he
    · exact hb.edges e he
    · obtain rfl := List.mem_singleton.mp he
      exact hsize ▸ hr
  exact hfold r.tus _ _ ⟨hint, { hb with
    edges := hedges
    outEdges := (hb.outEdges.mono hlast.le).pushAt _ hlast
    inEdges := (hb.inEdges.mono hlast.le).pushAt _ hlast
    tuEdges := hb.tuEdges.mono hlast.le
    edgeIndex := hindex }⟩ hlast

theorem BoundedOver.foldl {α : Type} {step : CallGraph → α → CallGraph} {items : List α}
    (hstep : ∀ g a, a ∈ items → g.BoundedOver strings → (step g a).BoundedOver strings)
    (h : g.BoundedOver strings) : (items.foldl step g).BoundedOver strings := by
  induction items generalizing g with
  | nil => exact h
  | cons a rest ih =>
    exact ih (fun g b hb => hstep g b (.tail _ hb)) (hstep g a (.head _) h)

theorem boundedOver_empty (strings : List Bytes) :
    BoundedOver strings { interner := ⟨strings⟩ } := by
  refine ⟨rfl, ?_⟩
  constructor
  case nodes => exact fun _ _ hn => nomatch hn
  case edges => exact fun _ he => nomatch he
  case edgeIndex => exact fun _ _ hi => nomatch hi
  all_goals exact .empty

end CallGraph

/-- **A graph built from known ids refers to what it has.** -/
theorem GraphRecords.Known.bounded {r : GraphRecords} (h : r.Known) : r.install.Bounded := by
  have hpairs (pairs : List (ℕ × ℕ)) (hmem : pairs ∈ [r.derivedClasses, r.methodOverrides,
      r.effectiveImplClasses, r.functionReturns]) (load : CallGraph → SId → SId → CallGraph)
      (hload : ∀ g a b, g.BoundedOver r.strings → a < r.strings.length → b < r.strings.length →
        (load g a b).BoundedOver r.strings) {g : CallGraph} (hg : g.BoundedOver r.strings) :
      (CallGraph.loadPairs load pairs g).BoundedOver r.strings :=
    hg.foldl fun g p hp hg => hload g p.1 p.2 hg (h.pairs pairs hmem p hp).1
      (h.pairs pairs hmem p hp).2
  have hsize {g : CallGraph} (hg : g.BoundedOver r.strings) : g.interner.size = r.strings.length := by
    rw [hg.1]
    rfl
  have hnodes := (CallGraph.boundedOver_empty r.strings).foldl fun g n hn hg => hg.loadNode (h.nodes n hn)
  have hedges := hnodes.foldl fun g e he hg => hg.loadEdge
    ⟨(h.edges e he).1.1, (h.edges e he).1.2.1, (h.edges e he).1.2.2.1⟩
  have hderived := hpairs r.derivedClasses (by simp) CallGraph.loadDerived
    (fun g a b hg ha hb => ⟨hg.1, { hg.2 with
      derivedClasses := hg.2.derivedClasses.pushAt _ (hsize hg ▸ hb) }⟩) hedges
  have hoverrides := hpairs r.methodOverrides (by simp) CallGraph.loadOverride
    (fun g a b hg ha hb => ⟨hg.1, { hg.2 with
      methodOverrides := hg.2.methodOverrides.pushAt _ (hsize hg ▸ hb)
      overrideBases := hg.2.overrideBases.pushAt _ (hsize hg ▸ ha) }⟩) hderived
  have himpls := hpairs r.effectiveImplClasses (by simp) CallGraph.loadImpl
    (fun g a b hg ha hb => ⟨hg.1, { hg.2 with
      effectiveImplClasses := hg.2.effectiveImplClasses.insertAt _ (hsize hg ▸ hb) }⟩) hoverrides
  have hreturns := hpairs r.functionReturns (by simp) CallGraph.loadReturn
    (fun g a b hg ha hb => ⟨hg.1, { hg.2 with
      functionReturns := hg.2.functionReturns.insertAt _ (hsize hg ▸ hb)
      returnedBy := hg.2.returnedBy.pushAt _ (hsize hg ▸ ha) }⟩) himpls
  exact hreturns.2

/-! ### Control-flow indexes -/

namespace ControlFlowIndex

/-- The maps of a resident index hold positions of its contexts, whose ids are known. -/
structure Positioned (cf : ControlFlowIndex) : Prop where
  resident : cf.mapped = none
  contexts : ∀ se ∈ cf.contexts, ContextKnown cf.interner.size cf.scopeSets.length
    cf.guardSets.length cf.raiiSets.length se
  locals : ∀ set ∈ cf.raiiSets, ∀ l ∈ set, l.typeName < cf.interner.size ∧
    l.varName < cf.interner.size ∧ l.declLocation < cf.interner.size
  bySite : ListsBelow cf.contexts.length fun id => (cf.bySite id).getD []
  usrMap : ∀ side : Side, ListsBelow cf.contexts.length fun id => (side.usrMap cf id).getD []
  displayMap : ∀ side : Side,
    ListsBelow cf.contexts.length fun id => (side.displayMap cf id).getD []

variable {cf : ControlFlowIndex} {ll : Llvm}

theorem listsBelow_pushEntry {m : SId → Option (List ℕ)} {n : ℕ}
    (h : ListsBelow n fun id => (m id).getD []) (k : SId) :
    ListsBelow (n + 1) fun id => (pushEntry m k n id).getD [] := by
  have hsame : (fun id => (pushEntry m k n id).getD []) = pushAt (fun id => (m id).getD []) k n := by
    funext id
    by_cases hid : id = k
    · subst hid
      rw [pushEntry, Function.update_self, pushAt_self]
      rfl
    · rw [pushEntry, Function.update_of_ne hid, pushAt_of_ne _ _ hid]
  rw [hsame]
  exact (h.mono n.le_succ).pushAt k n.lt_succ_self

theorem positioned_empty : Positioned {} := by
  refine ⟨rfl, fun _ hc => (List.not_mem_nil hc).elim, fun set hset => ?_, .empty, fun side => ?_,
    fun side => ?_⟩
  · obtain rfl := List.mem_singleton.mp hset
    exact fun _ hl => nomatch hl
  · cases side <;> exact .empty
  · cases side <;> exact .empty

theorem Positioned.insertStored (h : cf.Positioned) {se : StoredContext}
    (hse : ContextKnown cf.interner.size cf.scopeSets.length cf.guardSets.length
      cf.raiiSets.length se) : (cf.insertStored se).Positioned := by
  have hlen : (cf.insertStored se).contexts.length = cf.contexts.length + 1 :=
    List.length_append
  refine ⟨h.resident, fun c hc => ?_, h.locals, ?_, fun side => ?_, fun side => ?_⟩
  · rcases List.mem_append.mp hc with hc | hc
    · exact h.contexts c hc
    · obtain rfl := List.mem_singleton.mp hc
      exact { hse with live := rfl }
  · rw [hlen]
    exact listsBelow_pushEntry h.bySite se.site
  · rw [hlen, usrMap_insertStored]
    exact listsBelow_pushEntry (h.usrMap side) _
  · rw [hlen, displayMap_insertStored]
    split_ifs
    · exact listsBelow_pushEntry (h.displayMap side) _
    · exact (h.displayMap side).mono (Nat.le_succ _)

/-- Every position of a resident index is read. -/
theorem Positioned.reads (h : cf.Positioned) {pos : ℕ} (hpos : pos < cf.contexts.length) :
    cf.Reads ll pos := by
  have hstring (id : SId) : cf.stringOf ll id = some (cf.interner.resolve id) := by
    rw [stringOf, h.resident]
  have hlocals (l : List (RaiiLocal SId)) : ∃ out, cf.localsOf ll l = some out := by
    induction l with
    | nil => exact ⟨[], rfl⟩
    | cons a rest ih =>
      obtain ⟨more, hmore⟩ := ih
      exact ⟨_, by rw [localsOf, hstring, hstring, hstring, hmore]; rfl⟩
  have hknown := h.contexts _ (List.getElem_mem hpos)
  refine ⟨cf.contexts[pos], ?_, fun _ => ?_⟩
  · rw [storedAt, h.resident]
    exact List.getElem?_eq_getElem hpos
  · obtain ⟨tu, htu⟩ : ∃ tu, cf.tuOf ll cf.contexts[pos] = some tu := by
      rw [tuOf]
      cases cf.contexts[pos].tuPath with
      | none => exact ⟨[], rfl⟩
      | some tu => exact ⟨_, hstring tu⟩
    obtain ⟨set, hset⟩ : ∃ set, cf.raiiSets[cf.contexts[pos].raiiSet]? = some set :=
      ⟨_, List.getElem?_eq_getElem hknown.raiiSet⟩
    obtain ⟨locals, hl⟩ := hlocals set
    simp only [materialize, hstring, htu, List.getElem?_eq_getElem hknown.scopeSet,
      List.getElem?_eq_getElem hknown.guardSet, hset, hl,
      Option.bind_eq_bind, Option.bind_some]
    exact ⟨_, rfl⟩

theorem Positioned.readable (h : cf.Positioned) : Readable ll cf where
  findId raw := ⟨cf.interner.find (lookupText ll raw), by rw [findId, h.resident]⟩
  sitePositions site := by
    rw [ControlFlowIndex.sitePositions, findId, h.resident]
    simp only [Option.bind_eq_bind, Option.bind_some]
    cases cf.interner.find (lookupText ll site) with
    | none => exact ⟨[], rfl, fun _ hp => absurd hp List.not_mem_nil⟩
    | some id => exact ⟨_, rfl, fun pos hp => h.reads (h.bySite id pos hp)⟩
  namePositions side name := by
    rw [ControlFlowIndex.namePositions, findId, h.resident]
    simp only [Option.bind_eq_bind, Option.bind_some]
    cases cf.interner.find (lookupText ll name) with
    | none => exact ⟨[], rfl, fun _ hp => absurd hp List.not_mem_nil⟩
    | some id =>
      have husr := h.usrMap side id
      dsimp only at husr ⊢
      cases hmap : side.usrMap cf id with
      | some positions =>
        rw [hmap] at husr
        exact ⟨positions, rfl, fun pos hp => h.reads (husr pos hp)⟩
      | none => exact ⟨_, rfl, fun pos hp => h.reads (h.displayMap side id pos hp)⟩
  forEachContext := by
    rw [ControlFlowIndex.forEachContext, h.resident]
    exact exists_collect_of_reads (fun pos hp => h.reads (List.mem_range.mp hp)) _

end ControlFlowIndex

/-- **An index built from known ids refers to what it has.** -/
theorem ControlFlowRecords.Known.positioned {r : ControlFlowRecords} (h : r.Known) :
    r.install.Positioned := by
  have hempty : r.tables.Positioned := by
    refine ⟨rfl, fun _ hc => (List.not_mem_nil hc).elim, h.locals, .empty, fun side => ?_, fun side => ?_⟩
    · cases side <;> exact .empty
    · cases side <;> exact .empty
  have hfold (l : List StoredContext) (hl : ∀ se ∈ l, ContextKnown r.strings.length
      r.scopeSets.length r.guardSets.length r.raiiSets.length se) (cf : ControlFlowIndex)
      (hcf : cf.Positioned) (hint : cf.interner = ⟨r.strings⟩) (hsets : cf.scopeSets = r.scopeSets ∧
        cf.guardSets = r.guardSets ∧ cf.raiiSets = r.raiiSets) :
      (l.foldl (fun cf se => cf.insertStored se) cf).Positioned := by
    induction l generalizing cf with
    | nil => exact hcf
    | cons se rest ih =>
      have hknown := hl se (.head _)
      refine ih (fun c hc => hl c (.tail _ hc)) _ (hcf.insertStored ?_) hint hsets
      rw [hint, hsets.1, hsets.2.1, hsets.2.2]
      exact hknown
  exact hfold r.contexts h.contexts _ hempty rfl ⟨rfl, rfl, rfl⟩

/-! ### Channel indexes -/

namespace ChannelIndex

/-- The maps hold positions of sites. -/
structure Positioned (ch : ChannelIndex) : Prop where
  lists : ∀ m, ListsBelow ch.sites.length (SiteMap.lists ch m)
  byTu : ListsBelow ch.sites.length ch.byTu
  index : ∀ key i, ch.index key = some i → i < ch.sites.length

theorem index_loadSite (ch : ChannelIndex) (r : ChannelRecord) :
    (ch.loadSite r).index = emplaceAt ch.index r.site.key ch.sites.length := by
  unfold ChannelIndex.loadSite emplaceAt
  cases ch.index r.site.key with
  | some j => rfl
  | none => rfl

theorem Positioned.loadSite {ch : ChannelIndex} (h : ch.Positioned) (r : ChannelRecord) :
    (ch.loadSite r).Positioned := by
  have hlen : (ch.loadSite r).sites.length = ch.sites.length + 1 := List.length_append
  have hlast := ch.sites.length.lt_succ_self
  have hold (m : SiteMap) := (h.lists m).mono hlast.le
  have hfold (tus : List Bytes) (t : Bytes → List ℕ) (ht : ListsBelow (ch.sites.length + 1) t) :
      ListsBelow (ch.sites.length + 1)
        (tus.foldl (fun t tu => pushAt t tu ch.sites.length) t) := by
    induction tus generalizing t with
    | nil => exact ht
    | cons tu rest ih => exact ih _ (ht.pushAt _ hlast)
  refine ⟨fun m => ?_, ?_, fun key i hi => ?_⟩
  · rw [hlen]
    cases m with
    | channel => exact (hold .channel).pushAt _ hlast
    | functionUsr => exact (hold .functionUsr).pushAt _ hlast
    | functionDisplay =>
      change ListsBelow _ (if _ then _ else _)
      split_ifs
      · exact (hold .functionDisplay).pushAt _ hlast
      · exact hold .functionDisplay
  · rw [hlen]
    exact hfold r.tus _ (h.byTu.mono hlast.le)
  · rw [hlen]
    rw [index_loadSite] at hi
    by_cases hkey : key = r.site.key
    · subst hkey
      cases hfound : ch.index r.site.key with
      | some j =>
        rw [emplaceAt, hfound, if_pos Option.isSome_some, hfound, Option.some_inj] at hi
        exact hi ▸ (h.index _ j hfound).trans hlast
      | none =>
        rw [emplaceAt_of_none _ hfound, Function.update_self, Option.some_inj] at hi
        exact hi ▸ hlast
    · rw [emplaceAt_of_ne _ _ hkey] at hi
      exact (h.index key i hi).trans hlast

theorem positioned_empty : Positioned {} := by
  refine ⟨fun m => ?_, .empty, fun _ _ hi => (Option.some_ne_none _ hi.symm).elim⟩
  cases m <;> exact .empty

/-- **An index that is loaded refers to sites it has.** -/
theorem positioned_of_loadChannels {ll : Llvm} {bytes : Bytes} {ch : ChannelIndex}
    (hload : loadChannels ll bytes = some ch) : ch.Positioned := by
  obtain ⟨records, -, rfl⟩ := Option.map_eq_some_iff.mp hload
  have hfold (records : List ChannelRecord) {ch : ChannelIndex} (h : ch.Positioned) :
      (records.foldl ChannelIndex.loadSite ch).Positioned := by
    induction records generalizing ch with
    | nil => exact h
    | cons r rest ih => exact ih (h.loadSite r)
  exact hfold records positioned_empty

end ChannelIndex

end Vycor
