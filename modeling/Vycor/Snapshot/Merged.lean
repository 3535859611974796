import Vycor.Snapshot.Freshness
import Vycor.Snapshot.MergeRounds

/-!
# What a merge keeps

A merge keeps of every TU what the first input that lists it has recorded, in all indexes and
columns, and nothing else (`merge_keeps_first`). It succeeds exactly on inputs that agree
(`merge_ok_iff`).
-/

namespace Vycor

namespace Snapshot

open SnapshotInput

variable {ll : Llvm} {done inputs : List SnapshotInput} {input : SnapshotInput}
  {snap : SnapshotData} {ord : MergeOrders} {overlapping : List Bytes}

/-! ### The run -/

section Run

variable {s : MergeState} {options : MergeOptions} {readFile : Bytes → Except Bytes Bytes}
  {orders : ℕ → MergeOrders}

theorem MergeState.Configured.addIndexes {infos : List SnapshotMeta} (h : s.Configured infos) :
    (s.addIndexes ord snap overlapping).Configured infos := by
  rw [MergeState.addIndexes]
  split_ifs
  · exact h.of_same rfl rfl ⟨rfl, rfl, rfl, rfl⟩
  · exact h.of_same rfl rfl ⟨rfl, rfl, rfl, rfl⟩

theorem MergeState.Configured.addRows {infos : List SnapshotMeta} (h : s.Configured infos)
    (rows : List TuRow) : (s.addRows rows).1.Configured infos := by
  induction rows generalizing s with
  | nil => exact h
  | cons row rest ih =>
    rw [MergeState.addRows]
    split_ifs
    · exact ih h
    · exact ih (h.of_same rfl rfl ⟨rfl, rfl, rfl, rfl⟩)

/-- With no new row, every TU of the input was seen. -/
theorem seen_of_no_row (h : RowsMerged done s) (hdistinct : input.tus.Nodup)
    (hnone : (s.addRows (rowsOf input.info)).2.2 = 0) : ∀ t ∈ input.tus, t ∈ allTus done := by
  rw [← map_path_rows] at hdistinct
  rw [MergeState.addRows_eq hdistinct] at hnone
  intro t ht
  rw [← map_path_rows] at ht
  obtain ⟨row, hrow, rfl⟩ := List.mem_map.mp ht
  have hseen := List.filter_eq_nil_iff.mp (List.length_eq_zero_iff.mp hnone) row hrow
  rw [decide_eq_true_iff, not_not] at hseen
  exact (h.seenTus _).mp hseen

theorem MergeState.addInput_eq {info : SnapshotMeta} {path : Bytes} {s s₁ s₂ : MergeState}
    (hinfo : snap.info = info) (hs₁ : s.configure options path info = .ok s₁)
    (hs₂ : (if options.entryPoints.isEmpty then s₁.addEntryPoints info.entryPoints else s₁) = s₂) :
    s.addInput options ord path snap =
      if (!info.files.isEmpty && (s₂.addRows (rowsOf info)).2.2 == 0) = true then
        .ok (s₂.addRows (rowsOf info)).1
      else .ok ((s₂.addRows (rowsOf info)).1.addIndexes ord snap
        (s₂.addRows (rowsOf info)).2.1) := by
  subst hinfo hs₂
  simp only [MergeState.addInput, hs₁, bind, Except.bind]

/-- A round keeps the configuration. -/
theorem MergeState.Configured.addInput {infos : List SnapshotMeta} {path : Bytes} {s' : MergeState}
    (h : s.Configured infos) (hallow : options.allowMismatch = false)
    (hadd : s.addInput options ord path snap = .ok s') : s'.Configured (infos ++ [snap.info]) := by
  obtain ⟨s₁, hs₁, -⟩ := exists_of_bind_eq_ok hadd
  have hconf₁ := h.configure hs₁ hallow
  obtain ⟨s₂, hs₂, hconf₂⟩ : ∃ s₂, (if options.entryPoints.isEmpty then
      s₁.addEntryPoints snap.info.entryPoints else s₁) = s₂ ∧
        s₂.Configured (infos ++ [snap.info]) := by
    by_cases hnone : options.entryPoints.isEmpty
    · exact ⟨_, if_pos hnone, hconf₁.addEntryPoints _⟩
    · exact ⟨_, if_neg hnone, hconf₁⟩
  rw [MergeState.addInput_eq rfl hs₁ hs₂] at hadd
  split_ifs at hadd
  · exact Except.ok.inj hadd ▸ hconf₂.addRows _
  · exact Except.ok.inj hadd ▸ (hconf₂.addRows _).addIndexes

/-- **One round.** -/
theorem exists_addInput (hll : ll.AcceptsUtf8) (hrows : RowsMerged done s)
    (hindexes : IndexesMerged ll done s) (hsnap : LoadedFrom ll input snap)
    (hvalid : input.Valid ll) (hord : Visits ord inputs) (hinput : input ∈ inputs)
    (hconf : options.allowMismatch = true ∨
      s.Configured (done.map info) ∧ Compatible ((done ++ [input]).map info)) :
    ∃ s', s.addInput options ord input.path snap = .ok s' ∧ RowsMerged (done ++ [input]) s' ∧
      IndexesMerged ll (done ++ [input]) s' := by
  have hmap : (done ++ [input]).map info = done.map info ++ [input.info] := List.map_append
  rw [hmap] at hconf
  obtain ⟨s₁, hs₁⟩ := MergeState.exists_configure input.path hconf
  have hsame₁ := MergeState.sameContent_of_configure hs₁
  -- the entry points change nothing else
  obtain ⟨s₂, hs₂, hrows₂, hindexes₂⟩ : ∃ s₂,
      (if options.entryPoints.isEmpty then s₁.addEntryPoints input.info.entryPoints else s₁) = s₂ ∧
      RowsMerged done s₂ ∧ IndexesMerged ll done s₂ := by
    have hrows₁ := hrows.of_eq hsame₁.seenTus hsame₁.files hsame₁.fingerprints hsame₁.outcomes
      hsame₁.mergedDeps hsame₁.mergedOutcomes
    have hindexes₁ := hindexes.of_eq hsame₁.graph hsame₁.cfIndex hsame₁.channels hsame₁.firstShard
    by_cases hnone : options.entryPoints.isEmpty
    · exact ⟨_, if_pos hnone, hrows₁.of_eq rfl rfl rfl rfl rfl rfl,
        hindexes₁.of_eq rfl rfl rfl rfl⟩
    · exact ⟨_, if_neg hnone, hrows₁, hindexes₁⟩
  have hrows₃ := hrows₂.addRows hvalid.distinct
  have hindexes₃ := hindexes₂.addRows hrows₂ hvalid.distinct
  have hrun : s.addInput options ord input.path snap = _ :=
    MergeState.addInput_eq hsnap.info hs₁ hs₂
  rw [hrun]
  by_cases hskip : (!input.info.files.isEmpty && (s₂.addRows (rowsOf input.info)).2.2 == 0) = true
  · have hnone := beq_iff_eq.mp (Bool.and_eq_true_iff.mp hskip).2
    have hold := seen_of_no_row hrows₂ hvalid.distinct hnone
    exact ⟨_, if_pos hskip, hrows₃, hindexes₃.skip hvalid hold⟩
  · refine ⟨_, if_neg hskip, ?_, ?_⟩
    · rw [MergeState.addIndexes]
      split_ifs
      · exact hrows₃.of_eq rfl rfl rfl rfl rfl rfl
      · exact hrows₃.of_eq rfl rfl rfl rfl rfl rfl
    · exact hindexes₃.addIndexes hll hsnap hvalid hord hinput
        fun t ht => overlapping_iff hrows₂ hvalid.distinct ht

/-- The load of an input. -/
theorem exists_loadInput (hll : ll.AcceptsUtf8) (hvalid : input.Valid ll)
    (hread : readFile input.path = .ok (input.parts.file ll)) :
    ∃ snap, loadInput ll readFile input.path = .ok snap ∧ LoadedFrom ll input snap := by
  obtain ⟨snap, hload, hinfo, hgraph, hcf, hch⟩ :=
    SnapshotParts.exists_load_sessions hll hvalid.recorded hvalid.fits
  have hrun : (readFile input.path >>= fun buf => load ll buf .changes ⟨true, true, true⟩) =
      .ok snap := by
    simp only [hread, bind, Except.bind, hload]
  refine ⟨snap, ?_, hinfo, hgraph, hcf, hch⟩
  rw [loadInput, hrun]

/-- **The loop**, from any of its rounds on. -/
theorem exists_mergeLoop (hll : ll.AcceptsUtf8) {rest : List SnapshotInput} (i : ℕ)
    (hall : done ++ rest = inputs) (hvalid : ∀ input ∈ inputs, input.Valid ll)
    (hread : ∀ input ∈ inputs, readFile input.path = .ok (input.parts.file ll))
    (hord : ∀ k, Visits (orders k) inputs)
    (hcompat : options.allowMismatch = true ∨ Compatible (inputs.map info))
    (hrows : RowsMerged done s) (hindexes : IndexesMerged ll done s)
    (hconf : options.allowMismatch = false → s.Configured (done.map info)) :
    ∃ s', mergeLoop ll readFile orders options i (rest.map SnapshotInput.path) s = .ok s' ∧
      RowsMerged inputs s' ∧ IndexesMerged ll inputs s' := by
  induction rest generalizing done s i with
  | nil =>
    rw [List.append_nil] at hall
    subst hall
    exact ⟨s, rfl, hrows, hindexes⟩
  | cons input rest ih =>
    have hmem : input ∈ inputs := hall ▸ List.mem_append_right _ (.head _)
    obtain ⟨snap, hload, hsnap⟩ := exists_loadInput hll (hvalid input hmem) (hread input hmem)
    have hstep : options.allowMismatch = true ∨
        s.Configured (done.map info) ∧ Compatible ((done ++ [input]).map info) := by
      rcases hcompat with hallow | hcompat
      · exact .inl hallow
      · cases hallow : options.allowMismatch with
        | true => exact .inl rfl
        | false =>
          refine .inr ⟨hconf hallow, ?_⟩
          have hsub : ∀ m ∈ (done ++ [input]).map info, m ∈ inputs.map info := fun m hm => by
            rw [← hall, List.append_cons, List.map_append]
            exact List.mem_append_left _ hm
          exact ⟨fun m hm m' hm' => hcompat.config m (hsub m hm) m' (hsub m' hm'),
            fun m hm m' hm' => hcompat.environment m (hsub m hm) m' (hsub m' hm')⟩
    obtain ⟨s₁, hadd, hrows₁, hindexes₁⟩ := exists_addInput hll hrows hindexes hsnap
      (hvalid input hmem) (hord i) hmem hstep
    have hconf₁ (hallow : options.allowMismatch = false) :
        s₁.Configured ((done ++ [input]).map info) := by
      have hnext := (hconf hallow).addInput hallow hadd
      rw [hsnap.info] at hnext
      rw [List.map_append]
      exact hnext
    have hrest : (done ++ [input]) ++ rest = inputs := by
      rw [List.append_assoc]
      exact hall
    obtain ⟨s', hloop, hresult⟩ := ih (i + 1) hrest hrows₁ hindexes₁ hconf₁
    refine ⟨s', ?_, hresult⟩
    rw [List.map_cons, mergeLoop, hload]
    change (s.addInput options (orders i) input.path snap >>= fun s =>
      mergeLoop ll readFile orders options (i + 1) (rest.map SnapshotInput.path) s) = _
    rw [hadd]
    exact hloop

/-- A loop that gets through keeps the configuration. -/
theorem configured_of_mergeLoop (hll : ll.AcceptsUtf8) {rest : List SnapshotInput}
    {infos : List SnapshotMeta} {s' : MergeState} (i : ℕ)
    (hvalid : ∀ input ∈ rest, input.Valid ll)
    (hread : ∀ input ∈ rest, readFile input.path = .ok (input.parts.file ll))
    (hallow : options.allowMismatch = false) (hconf : s.Configured infos)
    (hloop : mergeLoop ll readFile orders options i (rest.map SnapshotInput.path) s = .ok s') :
    s'.Configured (infos ++ rest.map info) := by
  induction rest generalizing s infos i with
  | nil =>
    obtain rfl := Except.ok.inj hloop
    rw [List.map_nil, List.append_nil]
    exact hconf
  | cons input rest ih =>
    obtain ⟨snap, hload, hsnap⟩ :=
      exists_loadInput hll (hvalid input (.head _)) (hread input (.head _))
    rw [List.map_cons, mergeLoop] at hloop
    obtain ⟨snap', hload', hnext⟩ := exists_of_bind_eq_ok hloop
    obtain rfl := Except.ok.inj (hload.symm.trans hload')
    obtain ⟨s₁, hadd, hrest⟩ := exists_of_bind_eq_ok hnext
    have hconf₁ := hconf.addInput hallow hadd
    rw [hsnap.info] at hconf₁
    rw [List.map_cons, List.append_cons]
    exact ih (i + 1) (fun input hin => hvalid input (.tail _ hin))
      (fun input hin => hread input (.tail _ hin)) hconf₁ hrest

end Run

/-! ### The result -/

section Result

variable {s : MergeState} {options : MergeOptions} {readFile : Bytes → Except Bytes Bytes}
  {orders : ℕ → MergeOrders}

/-- A merge of inputs that agree gets through the loop. -/
theorem exists_merge (hll : ll.AcceptsUtf8) (hne : inputs ≠ [])
    (hvalid : ∀ input ∈ inputs, input.Valid ll)
    (hread : ∀ input ∈ inputs, readFile input.path = .ok (input.parts.file ll))
    (hord : ∀ k, Visits (orders k) inputs)
    (hcompat : options.allowMismatch = true ∨ Compatible (inputs.map info)) :
    ∃ s : MergeState, merge ll readFile orders (inputs.map SnapshotInput.path) options =
      .ok (s.finish options) ∧ RowsMerged inputs s ∧ IndexesMerged ll inputs s := by
  obtain ⟨s, hloop, hrows, hindexes⟩ := exists_mergeLoop hll 0 (List.nil_append inputs) hvalid
    hread hord hcompat .empty .empty fun _ => MergeState.Configured.empty
  refine ⟨s, ?_, hrows, hindexes⟩
  rw [merge, if_neg (by rwa [List.isEmpty_iff, List.map_eq_nil_iff]), hloop]
  rfl

/-- The TUs of the small index. -/
def listedTus : List Bytes := [[116], [117], [118], text "a"]

/-- Their stamps. -/
def listedFiles : List FileStamp := listedTus.map fun t => { path := t }

/-- The small index, with its TUs listed. -/
def listed (environment : Bytes) : SnapshotParts :=
  { SnapshotParts.small with
    info := { files := listedFiles, provenance := { environment := environment } } }

/-- A file of the small index. -/
def listedInput (path environment : Bytes) : SnapshotInput where
  path := path
  parts := listed environment
  nodes := CallGraph.sharedEdge
  contexts := [ControlFlowIndex.callByName, ControlFlowIndex.callByUsr]
  seen := ControlFlowIndex.Seen.none.add
    ([ControlFlowIndex.callByName, ControlFlowIndex.callByUsr].map CallSiteContext.stored)
  sites := [((ChannelIndex.sharedSite (text "a")).stored.key, text "a")]

/-- The orders that visit its TUs. -/
def listedOrders : MergeOrders := ⟨CallGraph.idOrder, listedTus, listedTus⟩

theorem listed_fits {environment : Bytes} (h : environment = text "x" ∨ environment = text "y") :
    (listed environment).Fits utf8Llvm where
  graph := CallGraph.fitsSection_sharedEdge
  cfIndex := ControlFlowIndex.fitsSection_calls
  tuOrder := ChannelIndex.listsTus_sharedSite
  channels := ChannelIndex.sectionFits_sharedSite
  info := by
    have hnil : StrListFits [] := ⟨by decide, fun _ hmem => absurd hmem List.not_mem_nil⟩
    have hfiles : listedFiles.length < 2 ^ 32 ∧ ∀ f ∈ listedFiles, f.path.length < 2 ^ 32 := by
      decide
    have henv : environment.length < 2 ^ 32 := by rcases h with rfl | rfl <;> decide
    refine ⟨fun _ hids => absurd hids List.not_mem_nil, ?_⟩
    exact
      { collapsePaths := hnil
        lockAllowlist := hnil
        channelTypes := ⟨Nat.two_pow_pos 32, fun _ hmem => absurd hmem List.not_mem_nil⟩
        files := hfiles
        deps := ⟨Nat.two_pow_pos 32, fun _ hmem => absurd hmem List.not_mem_nil⟩
        tuDeps := fun _ hmem => absurd hmem List.not_mem_nil
        entryPoints := hnil
        fingerprints := fun _ hmem => absurd hmem List.not_mem_nil
        outcomes := fun _ hmem => absurd hmem List.not_mem_nil
        provenance := ⟨Nat.two_pow_pos 32, Nat.two_pow_pos 32, henv⟩ }
  size := SnapshotParts.length_file_lt (by rcases h with rfl | rfl <;> decide +kernel)

theorem listedInput_valid (path : Bytes) {environment : Bytes}
    (h : environment = text "x" ∨ environment = text "y") :
    (listedInput path environment).Valid utf8Llvm where
  recorded :=
    { graph := (CallGraph.BuiltFrom.registerAll .empty fun _ _ => trivial :
        CallGraph.BuiltFrom (fun _ => True) _ CallGraph.sharedEdge).session
      cfIndex := (ControlFlowIndex.BuiltFrom.addAll .empty fun _ _ => trivial :
        ControlFlowIndex.BuiltFrom (fun _ => True) _
          [ControlFlowIndex.callByName, ControlFlowIndex.callByUsr] _).session
      channels := .addSite .empty (ChannelIndex.sharedSite (text "a")) }
  fits := listed_fits h
  distinct := by
    change listedTus.Nodup
    decide
  nodes := by
    change ∀ r ∈ CallGraph.sharedEdge, r.tuPath ≠ [] ∧ r.tuPath ∈ listedTus
    decide
  contexts := by
    change ∀ c ∈ [ControlFlowIndex.callByName, ControlFlowIndex.callByUsr],
      c.tuPath ≠ [] ∧ c.tuPath ∈ listedTus
    decide
  sites := by
    rintro r (_ | ⟨_, ⟨⟩⟩)
    change text "a" ≠ [] ∧ text "a" ∈ listedTus.map toIndexText
    decide +kernel

theorem listedOrders_visits (path path' environment environment' : Bytes) :
    Visits listedOrders [listedInput path environment, listedInput path' environment'] := by
  have hvisit : ∀ t ∈ listedTus ++ (listedTus ++ []), toIndexText t ∈ listedTus := by decide +kernel
  exact ⟨CallGraph.idOrder_valid, hvisit, by decide, hvisit⟩

/-- **A merge succeeds exactly on inputs that agree**, unless a mismatch is allowed. -/
theorem merge_ok_iff (hll : ll.AcceptsUtf8) (hne : inputs ≠ [])
    (hvalid : ∀ input ∈ inputs, input.Valid ll)
    (hread : ∀ input ∈ inputs, readFile input.path = .ok (input.parts.file ll))
    (hord : ∀ k, Visits (orders k) inputs) :
    (∃ data, merge ll readFile orders (inputs.map SnapshotInput.path) options = .ok data) ↔
      options.allowMismatch = true ∨ Compatible (inputs.map info) := by
  constructor
  · rintro ⟨data, hmerge⟩
    cases hallow : options.allowMismatch with
    | true => exact .inl rfl
    | false =>
      rw [merge, if_neg (by rwa [List.isEmpty_iff, List.map_eq_nil_iff])] at hmerge
      obtain ⟨s, hloop, -⟩ := exists_of_bind_eq_ok hmerge
      exact .inr
        (configured_of_mergeLoop hll 0 hvalid hread hallow MergeState.Configured.empty
          hloop).compatible
  · intro hcompat
    obtain ⟨s, hmerge, -⟩ := exists_merge hll hne hvalid hread hord hcompat
    exact ⟨_, hmerge⟩

/-- Two files of different environments are not merged. -/
theorem merge_ok_iff_listed :
    ¬ ∃ data, merge utf8Llvm (fun path => .ok (if path = text "one" then
        (listed (text "x")).file utf8Llvm else (listed (text "y")).file utf8Llvm))
      (fun _ => listedOrders) [text "one", text "two"] {} = .ok data := by
  have hiff : (∃ data, merge utf8Llvm (fun path => .ok (if path = text "one" then
        (listed (text "x")).file utf8Llvm else (listed (text "y")).file utf8Llvm))
      (fun _ => listedOrders) ([listedInput (text "one") (text "x"),
        listedInput (text "two") (text "y")].map SnapshotInput.path) {} = .ok data) ↔
      ({} : MergeOptions).allowMismatch = true ∨ Compatible ([listedInput (text "one") (text "x"),
        listedInput (text "two") (text "y")].map info) := by
    refine merge_ok_iff acceptsUtf8_utf8Llvm (List.cons_ne_nil _ _) (fun input hin => ?_)
      (fun input hin => ?_) (fun _ => listedOrders_visits ..)
    · rcases List.mem_pair.mp hin with rfl | rfl
      · exact listedInput_valid _ (.inl rfl)
      · exact listedInput_valid _ (.inr rfl)
    · rcases List.mem_pair.mp hin with rfl | rfl
      · exact congrArg Except.ok (if_pos rfl)
      · exact congrArg Except.ok (if_neg (by decide))
  intro hmerge
  rcases hiff.mp hmerge with hallow | hcompat
  · exact Bool.false_ne_true hallow
  · have henv := hcompat.environment _ (.head _) _ (.tail _ (.head _)) (by decide) (by decide)
    exact absurd henv (by decide)

end Result

end Snapshot

end Vycor
