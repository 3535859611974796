import Vycor.Lib.FirstCome
import Vycor.Snapshot.Merge
import Vycor.Snapshot.Tallies

/-!
# What a round of a merge adds

The inputs of a merge are files of sessions, each of which lists its TUs and recorded nothing of
others. After some of the inputs the columns hold the rows, and the indexes the registrations,
that are kept of them (`RowsMerged`, `IndexesMerged`).
-/

namespace Vycor

/-- A file to merge, with what its sessions have recorded. -/
structure SnapshotInput where
  path : Bytes
  parts : SnapshotParts
  nodes : List Registration
  contexts : List CallSiteContext
  seen : ControlFlowIndex.Seen
  sites : List SiteRegistration

namespace SnapshotInput

/-- The meta that a load gives. -/
def info (input : SnapshotInput) : SnapshotMeta := input.parts.info.aligned

/-- The TUs the meta lists. -/
def tus (input : SnapshotInput) : List Bytes := input.parts.info.files.map FileStamp.path

/-- The TUs as they are stored. -/
def storedTus (input : SnapshotInput) : List Bytes := input.tus.map toIndexText

/-- The registrations of nodes and edges. -/
def tagged (input : SnapshotInput) : List Registration :=
  input.nodes.filter Registration.hasProvenance

/-- The input is the file of sessions that recorded nothing but of the TUs it lists. -/
structure Valid (ll : Llvm) (input : SnapshotInput) : Prop where
  recorded : input.parts.From ll input.nodes input.contexts input.seen input.sites
  fits : input.parts.Fits ll
  distinct : input.tus.Nodup
  nodes : ∀ r ∈ input.nodes, r.tuPath ≠ [] ∧ r.tuPath ∈ input.tus
  contexts : ∀ c ∈ input.contexts, c.tuPath ≠ [] ∧ c.tuPath ∈ input.tus
  sites : ∀ r ∈ input.sites, r.2 ≠ [] ∧ r.2 ∈ input.storedTus

/-- All TUs that are listed. -/
def allTus (inputs : List SnapshotInput) : List Bytes := inputs.flatMap tus

/-- Of every TU, the nodes and edges that the first input that lists it has recorded. -/
def keptNodes (inputs : List SnapshotInput) : List Registration :=
  firstCome tus tagged Registration.tuPath [] inputs

/-- Of every TU, the contexts that the first input that lists it has recorded. -/
def keptContexts (inputs : List SnapshotInput) : List CallSiteContext :=
  firstCome tus contexts CallSiteContext.tuPath [] inputs

/-- Of every TU, the channel sites that the first input that lists it has recorded. -/
def keptSites (inputs : List SnapshotInput) : List SiteRegistration :=
  firstCome storedTus sites Prod.snd [] inputs

/-- Every TU with what the first input that lists it says of it. -/
def keptRows (inputs : List SnapshotInput) : List Snapshot.TuRow :=
  firstCome tus (fun input => Snapshot.rowsOf input.info) (fun row => row.stamp.path) [] inputs

end SnapshotInput

namespace Snapshot

open SnapshotInput

/-! ### Configurations that agree -/

/-- The build configuration is the same. -/
structure SameConfig (m m' : SnapshotMeta) : Prop where
  collapsePaths : m.collapsePaths = m'.collapsePaths
  lockAllowlist : m.lockAllowlist = m'.lockAllowlist
  lockBuiltins : m.lockBuiltins = m'.lockBuiltins
  channelTypes : m.channelTypes = m'.channelTypes

theorem SameConfig.symm {m m' : SnapshotMeta} (h : SameConfig m m') : SameConfig m' m :=
  ⟨h.1.symm, h.2.symm, h.3.symm, h.4.symm⟩

theorem SameConfig.trans {m m' m'' : SnapshotMeta} (h : SameConfig m m')
    (h' : SameConfig m' m'') : SameConfig m m'' :=
  ⟨h.1.trans h'.1, h.2.trans h'.2, h.3.trans h'.3, h.4.trans h'.4⟩

/-- All have one build configuration, and those that name an environment name the same. -/
structure Compatible (infos : List SnapshotMeta) : Prop where
  config : ∀ m ∈ infos, ∀ m' ∈ infos, SameConfig m m'
  environment : ∀ m ∈ infos, ∀ m' ∈ infos, m.provenance.environment ≠ [] →
    m'.provenance.environment ≠ [] → m.provenance.environment = m'.provenance.environment

namespace MergeState

variable {s s' : MergeState} {options : MergeOptions}

theorem cfgMatches_iff (info : SnapshotMeta) :
    s.cfgMatches info = true ↔ SameConfig info s.out.info := by
  rw [cfgMatches, Bool.and_eq_true, Bool.and_eq_true, Bool.and_eq_true, beq_iff_eq, beq_iff_eq,
    beq_iff_eq, beq_iff_eq]
  constructor
  · rintro ⟨⟨⟨h1, h2⟩, h3⟩, h4⟩
    exact ⟨h1, h2, h3, h4⟩
  · rintro ⟨h1, h2, h3, h4⟩
    exact ⟨⟨⟨h1, h2⟩, h3⟩, h4⟩

theorem envMatches_iff (info : SnapshotMeta) : s.envMatches info = true ↔
    (info.provenance.environment ≠ [] → s.out.info.provenance.environment ≠ [] →
      info.provenance.environment = s.out.info.provenance.environment) := by
  rw [envMatches, Bool.or_eq_true, Bool.or_eq_true, List.isEmpty_iff, List.isEmpty_iff, beq_iff_eq]
  tauto

/-- What the configuration holds after the inputs with these metas. -/
structure Configured (s : MergeState) (done : List SnapshotMeta) : Prop where
  source : s.configSource = none ↔ done = []
  config : ∀ m ∈ done, SameConfig m s.out.info
  environment : ∀ m ∈ done, m.provenance.environment ≠ [] →
    m.provenance.environment = s.out.info.provenance.environment
  origin : s.configSource ≠ none → s.out.info.provenance.environment ≠ [] →
    ∃ m ∈ done, m.provenance.environment = s.out.info.provenance.environment

/-- What `configure` leaves as it is. -/
structure SameContent (s s' : MergeState) : Prop where
  graph : s'.out.graph = s.out.graph
  cfIndex : s'.out.cfIndex = s.out.cfIndex
  channels : s'.out.channels = s.out.channels
  files : s'.out.info.files = s.out.info.files
  fingerprints : s'.out.info.fingerprints = s.out.info.fingerprints
  outcomes : s'.out.info.outcomes = s.out.info.outcomes
  firstShard : s'.firstShard = s.firstShard
  seenTus : s'.seenTus = s.seenTus
  mergedDeps : s'.mergedDeps = s.mergedDeps
  mergedOutcomes : s'.mergedOutcomes = s.mergedOutcomes

theorem sameContent_of_configure {path : Bytes} {info : SnapshotMeta}
    (h : s.configure options path info = .ok s') : SameContent s s' := by
  rw [configure] at h
  cases hsource : s.configSource with
  | none =>
    rw [hsource] at h
    obtain rfl := Except.ok.inj h
    exact ⟨rfl, rfl, rfl, rfl, rfl, rfl, rfl, rfl, rfl, rfl⟩
  | some source =>
    rw [hsource] at h
    dsimp only at h
    split_ifs at h
    obtain rfl := Except.ok.inj h
    exact ⟨rfl, rfl, rfl, rfl, rfl, rfl, rfl, rfl, rfl, rfl⟩

theorem Configured.empty : Configured {} [] := by
  refine ⟨iff_of_true rfl rfl, fun m hm => absurd hm List.not_mem_nil,
    fun m hm => absurd hm List.not_mem_nil, fun h => absurd rfl h⟩

/-- The configuration is kept by what does not write it. -/
theorem Configured.of_same {done : List SnapshotMeta} (h : s.Configured done)
    (hsource : s'.configSource = s.configSource)
    (hprovenance : s'.out.info.provenance = s.out.info.provenance)
    (hconfig : SameConfig s.out.info s'.out.info) : s'.Configured done := by
  refine ⟨?_, fun m hm => ?_, ?_, ?_⟩
  · rw [hsource]
    exact h.source
  · exact (h.config m hm).trans hconfig
  · rw [hprovenance]
    exact h.environment
  · rw [hsource, hprovenance]
    exact h.origin

theorem Configured.addEntryPoints {done : List SnapshotMeta} (h : s.Configured done)
    (entryPoints : List Bytes) : (s.addEntryPoints entryPoints).Configured done :=
  h.of_same rfl rfl ⟨rfl, rfl, rfl, rfl⟩

theorem backfill_eq {old new : Bytes} (h : old ≠ []) : backfill old new = old := by
  rw [backfill, if_neg (by rwa [List.isEmpty_iff])]

/-- Of two environments that agree the kept one is what the new one names. -/
theorem backfill_of_agree {old new : Bytes} (h : new ≠ [] → old ≠ [] → new = old)
    (hnew : new ≠ []) : backfill old new = new := by
  by_cases hold : old = []
  · rw [hold]
    rfl
  · rw [backfill_eq hold, h hnew hold]

/-- A round that keeps the configuration. -/
theorem Configured.configure {done : List SnapshotMeta} (h : s.Configured done) {path : Bytes}
    {info : SnapshotMeta} (hstep : s.configure options path info = .ok s')
    (hallow : options.allowMismatch = false) : s'.Configured (done ++ [info]) := by
  have hne : done ++ [info] ≠ [] := by simp
  rw [MergeState.configure] at hstep
  cases hsource : s.configSource with
  | none =>
    rw [hsource] at hstep
    obtain rfl := Except.ok.inj hstep
    obtain rfl := h.source.mp hsource
    have hone : ∀ m ∈ [] ++ [info], m = info := fun m hm => List.mem_singleton.mp hm
    refine ⟨iff_of_false (Option.some_ne_none _) hne, fun m hm => ?_, fun m hm _ => ?_,
      fun _ _ => ⟨info, .head _, rfl⟩⟩
    · rw [hone m hm]
      exact ⟨rfl, rfl, rfl, rfl⟩
    · rw [hone m hm]
  | some source =>
    rw [hsource] at hstep
    simp only [hallow, Bool.not_false, Bool.and_true] at hstep
    split_ifs at hstep with hcfg henv
    obtain rfl := Except.ok.inj hstep
    rw [Bool.not_eq_true, Bool.not_eq_false', cfgMatches_iff] at hcfg
    rw [Bool.not_eq_true, Bool.not_eq_false', envMatches_iff] at henv
    refine ⟨iff_of_false (Option.some_ne_none _) hne, fun m hm => ?_, fun m hm hm' => ?_,
      fun _ _ => ?_⟩
    · rcases List.mem_append.mp hm with hm | hm
      · exact (h.config m hm).trans ⟨rfl, rfl, rfl, rfl⟩
      · obtain rfl := List.mem_singleton.mp hm
        exact hcfg.trans ⟨rfl, rfl, rfl, rfl⟩
    · change _ = backfill s.out.info.provenance.environment _
      rcases List.mem_append.mp hm with hm | hm
      · have hkept := h.environment m hm hm'
        exact hkept.trans (backfill_eq (hkept ▸ hm')).symm
      · obtain rfl := List.mem_singleton.mp hm
        exact (backfill_of_agree henv hm').symm
    · change ∃ m ∈ _, _ = backfill s.out.info.provenance.environment _
      by_cases hnil : s.out.info.provenance.environment = []
      · -- no input named an environment
        refine ⟨info, List.mem_append_right _ (.head _), ?_⟩
        rw [hnil]
        rfl
      · obtain ⟨m, hm, heq⟩ := h.origin (hsource ▸ Option.some_ne_none _) hnil
        exact ⟨m, List.mem_append_left _ hm, heq.trans (backfill_eq hnil).symm⟩

/-- What one configuration holds agrees. -/
theorem Configured.compatible {done : List SnapshotMeta} (h : s.Configured done) :
    Compatible done where
  config m hm m' hm' := (h.config m hm).trans (h.config m' hm').symm
  environment m hm m' hm' hne hne' :=
    (h.environment m hm hne).trans (h.environment m' hm' hne').symm

/-- An input whose configuration agrees with those before is accepted. -/
theorem exists_configure {done : List SnapshotMeta} {info : SnapshotMeta} (path : Bytes)
    (h : options.allowMismatch = true ∨ s.Configured done ∧ Compatible (done ++ [info])) :
    ∃ s', s.configure options path info = .ok s' := by
  rw [MergeState.configure]
  cases hsource : s.configSource with
  | none => exact ⟨_, rfl⟩
  | some source =>
    dsimp only
    rcases h with hallow | ⟨h, hcompat⟩
    · rw [hallow, Bool.not_true, Bool.and_false, Bool.and_false, if_neg Bool.false_ne_true,
        if_neg Bool.false_ne_true]
      exact ⟨_, rfl⟩
    · have hsome : s.configSource ≠ none := hsource ▸ Option.some_ne_none _
      have hinfo : info ∈ done ++ [info] := List.mem_append_right _ (.head _)
      obtain ⟨m, hm⟩ := List.exists_mem_of_ne_nil done fun hnil => hsome (h.source.mpr hnil)
      have hcfg : s.cfgMatches info = true := (cfgMatches_iff info).mpr
        ((hcompat.config info hinfo m (List.mem_append_left _ hm)).trans (h.config m hm))
      have henv : s.envMatches info = true := (envMatches_iff info).mpr fun hne hne' => by
        obtain ⟨m, hm, heq⟩ := h.origin hsome hne'
        rw [← heq]
        exact hcompat.environment info hinfo m (List.mem_append_left _ hm) hne (heq ▸ hne')
      rw [hcfg, henv, Bool.not_true, Bool.false_and, if_neg Bool.false_ne_true,
        if_neg Bool.false_ne_true]
      exact ⟨_, rfl⟩

end MergeState

/-! ### Rows -/

namespace MergeState

variable {s : MergeState}

/-- With the TUs of the rows distinct, a row is added unless its TU was seen. -/
theorem addRows_eq {rows : List TuRow} (hdistinct : (rows.map fun row => row.stamp.path).Nodup) :
    s.addRows rows =
      ((rows.filter fun row => row.stamp.path ∉ s.seenTus).foldl addRow s,
        (rows.filter fun row => row.stamp.path ∈ s.seenTus).map fun row => row.stamp.path,
        (rows.filter fun row => row.stamp.path ∉ s.seenTus).length) := by
  induction rows generalizing s with
  | nil => rfl
  | cons row rest ih =>
    obtain ⟨hnew, hrest⟩ := List.nodup_cons.mp hdistinct
    rw [addRows]
    by_cases hseen : row.stamp.path ∈ s.seenTus
    · rw [if_pos hseen, ih hrest, List.filter_cons_of_neg (by simpa using hseen),
        List.filter_cons_of_pos (by simpa using hseen)]
      rfl
    · -- the rows behind do not see the new TU
      have hother : ∀ r ∈ rest,
          r.stamp.path ∈ (s.addRow row).seenTus ↔ r.stamp.path ∈ s.seenTus := by
        intro r hr
        have hne : r.stamp.path ≠ row.stamp.path := fun heq =>
          hnew (List.mem_map.mpr ⟨r, hr, heq⟩)
        exact List.mem_cons.trans (or_iff_right hne)
      have hin : rest.filter (fun r => r.stamp.path ∈ (s.addRow row).seenTus) =
          rest.filter fun r => r.stamp.path ∈ s.seenTus :=
        List.filter_congr fun r hr => decide_eq_decide.mpr (hother r hr)
      have hout : rest.filter (fun r => r.stamp.path ∉ (s.addRow row).seenTus) =
          rest.filter fun r => r.stamp.path ∉ s.seenTus :=
        List.filter_congr fun r hr => decide_eq_decide.mpr (not_congr (hother r hr))
      rw [if_neg hseen, ih hrest, hin, hout, List.filter_cons_of_pos (by simpa using hseen),
        List.filter_cons_of_neg (by simpa using hseen)]
      rfl

/-- What the added rows change. -/
structure RowsAdded (s : MergeState) (rows : List TuRow) (s' : MergeState) : Prop where
  graph : s'.out.graph = s.out.graph
  cfIndex : s'.out.cfIndex = s.out.cfIndex
  channels : s'.out.channels = s.out.channels
  outcomes : s'.out.info.outcomes = s.out.info.outcomes
  firstShard : s'.firstShard = s.firstShard
  configSource : s'.configSource = s.configSource
  provenance : s'.out.info.provenance = s.out.info.provenance
  config : SameConfig s.out.info s'.out.info
  files : s'.out.info.files = s.out.info.files ++ rows.map TuRow.stamp
  fingerprints : s'.out.info.fingerprints = s.out.info.fingerprints ++ rows.map TuRow.fingerprint
  seenTus : ∀ t, t ∈ s'.seenTus ↔ t ∈ s.seenTus ∨ t ∈ rows.map fun row => row.stamp.path
  deps : ∀ t, t ∉ rows.map (fun row => row.stamp.path) → s'.mergedDeps t = s.mergedDeps t
  outcome : ∀ t, t ∉ rows.map (fun row => row.stamp.path) → s'.mergedOutcomes t = s.mergedOutcomes t
  columns : (∀ row ∈ rows, s.mergedDeps row.stamp.path = none ∧
      s.mergedOutcomes row.stamp.path = none) →
    ∀ row ∈ rows, s'.mergedDeps row.stamp.path = row.deps ∧
      s'.mergedOutcomes row.stamp.path = row.outcome

theorem putEntry_apply {α : Type} (m : Bytes → Option α) (t : Bytes) (entry : Option α)
    (t' : Bytes) : putEntry m t entry t' = if t' = t then entry.or (m t) else m t' := by
  cases entry with
  | none =>
    by_cases heq : t' = t
    · rw [if_pos heq, heq, Option.none_or]
      rfl
    · rw [if_neg heq]
      rfl
  | some a =>
    by_cases heq : t' = t
    · rw [if_pos heq, heq, Option.some_or]
      exact Function.update_self ..
    · rw [if_neg heq]
      exact Function.update_of_ne heq ..

theorem rowsAdded (s : MergeState) {rows : List TuRow}
    (hdistinct : (rows.map fun row => row.stamp.path).Nodup) :
    RowsAdded s rows (rows.foldl addRow s) := by
  induction rows generalizing s with
  | nil =>
    refine ⟨rfl, rfl, rfl, rfl, rfl, rfl, rfl, ⟨rfl, rfl, rfl, rfl⟩, ?_, ?_, fun t => ?_,
      fun _ _ => rfl, fun _ _ => rfl, fun _ row hrow => absurd hrow List.not_mem_nil⟩
    · exact (List.append_nil _).symm
    · exact (List.append_nil _).symm
    · simp
  | cons row rest ih =>
    obtain ⟨hnew, hrest⟩ := List.nodup_cons.mp hdistinct
    have h := ih (s.addRow row) hrest
    have hdeps (t : Bytes) : (s.addRow row).mergedDeps t =
        if t = row.stamp.path then row.deps.or (s.mergedDeps row.stamp.path) else s.mergedDeps t :=
      putEntry_apply ..
    have houtcome (t : Bytes) : (s.addRow row).mergedOutcomes t =
        if t = row.stamp.path then row.outcome.or (s.mergedOutcomes row.stamp.path)
        else s.mergedOutcomes t :=
      putEntry_apply ..
    rw [List.foldl_cons]
    refine ⟨h.graph, h.cfIndex, h.channels, h.outcomes, h.firstShard, h.configSource, h.provenance,
      ⟨h.config.1, h.config.2, h.config.3, h.config.4⟩, ?_, ?_, fun t => ?_, fun t ht => ?_,
      fun t ht => ?_, fun hnone r hr => ?_⟩
    · rw [h.files, List.map_cons, List.append_cons]
      rfl
    · rw [h.fingerprints, List.map_cons, List.append_cons]
      rfl
    · rw [h.seenTus, List.map_cons, List.mem_cons]
      change t ∈ row.stamp.path :: s.seenTus ∨ _ ↔ _
      rw [List.mem_cons]
      tauto
    · rw [List.map_cons, List.mem_cons, not_or] at ht
      rw [h.deps t ht.2, hdeps, if_neg ht.1]
    · rw [List.map_cons, List.mem_cons, not_or] at ht
      rw [h.outcome t ht.2, houtcome, if_neg ht.1]
    · rcases List.mem_cons.mp hr with rfl | hr
      · obtain ⟨hd, ho⟩ := hnone r (.head _)
        rw [h.deps _ hnew, h.outcome _ hnew, hdeps, houtcome, if_pos rfl, if_pos rfl, hd, ho,
          Option.or_none, Option.or_none]
        exact ⟨rfl, rfl⟩
      · refine h.columns (fun r' hr' => ?_) r hr
        have hne : r'.stamp.path ≠ row.stamp.path := fun heq =>
          hnew (List.mem_map.mpr ⟨r', hr', heq⟩)
        rw [hdeps, houtcome, if_neg hne, if_neg hne]
        exact hnone r' (.tail _ hr')

end MergeState

/-! ### Indexes -/

/-- What a load gives of an input. -/
structure LoadedFrom (ll : Llvm) (input : SnapshotInput) (snap : SnapshotData) : Prop where
  info : snap.info = input.info
  graph : CallGraph.Session ll snap.graph input.nodes
  cfIndex : ∃ seen, ControlFlowIndex.Session ll snap.cfIndex input.contexts seen
  channels : ChannelIndex.Built ll snap.channels input.sites

variable {ll : Llvm} {done inputs : List SnapshotInput} {input : SnapshotInput}
  {snap : SnapshotData} {ord : MergeOrders} {overlapping : List Bytes}

theorem keptNodes_concat : keptNodes (done ++ [input]) =
    keptNodes done ++ input.tagged.filter fun r => r.tuPath ∉ allTus done :=
  firstCome_concat input fun _ => decide_eq_true_iff

theorem keptContexts_concat : keptContexts (done ++ [input]) =
    keptContexts done ++ input.contexts.filter fun c => c.tuPath ∉ allTus done :=
  firstCome_concat input fun _ => decide_eq_true_iff

theorem keptSites_concat : keptSites (done ++ [input]) =
    keptSites done ++ input.sites.filter fun r => r.2 ∉ done.flatMap storedTus :=
  firstCome_concat input fun _ => decide_eq_true_iff

theorem keptRows_concat : keptRows (done ++ [input]) =
    keptRows done ++ (rowsOf input.info).filter fun row => row.stamp.path ∉ allTus done :=
  firstCome_concat input fun _ => decide_eq_true_iff

theorem allTus_concat : allTus (done ++ [input]) = allTus done ++ input.tus := by
  rw [allTus, List.flatMap_append, List.flatMap_singleton]
  rfl

theorem mem_storedTus {t : Bytes} : toIndexText t ∈ input.storedTus ↔ t ∈ input.tus :=
  List.mem_map_of_injective toIndexText_injective

theorem mem_allStoredTus {t : Bytes} :
    toIndexText t ∈ done.flatMap storedTus ↔ t ∈ allTus done := by
  simp only [allTus, List.mem_flatMap, mem_storedTus]

section Stripped

variable (hoverlap : ∀ t ∈ input.tus, t ∈ overlapping ↔ t ∈ allTus done)

include hoverlap

theorem filter_nodes (hnodes : ∀ r ∈ input.nodes, r.tuPath ≠ [] ∧ r.tuPath ∈ input.tus) :
    (input.nodes.filter fun r => !r.removedBy overlapping).filter Registration.hasProvenance =
      input.tagged.filter fun r => r.tuPath ∉ allTus done := by
  rw [tagged, List.filter_comm]
  refine List.filter_congr fun r hr => ?_
  obtain ⟨hmem, hprov⟩ := List.mem_filter.mp hr
  rw [Registration.removedBy, hprov, Bool.true_and, ← decide_not]
  exact decide_eq_decide.mpr (not_congr (hoverlap _ (hnodes r hmem).2))

theorem filter_contexts (hcontexts : ∀ c ∈ input.contexts, c.tuPath ≠ [] ∧ c.tuPath ∈ input.tus) :
    (input.contexts.filter fun c => !c.stored.removedBy overlapping) =
      input.contexts.filter fun c => c.tuPath ∉ allTus done := by
  refine List.filter_congr fun c hc => ?_
  obtain ⟨hne, hmem⟩ := hcontexts c hc
  rw [CallSiteContext.removedBy_stored hne, ← decide_not]
  exact decide_eq_decide.mpr (not_congr (hoverlap _ hmem))

theorem keptRegs_sites (hsites : ∀ r ∈ input.sites, r.2 ≠ [] ∧ r.2 ∈ input.storedTus) :
    ChannelIndex.keptRegs (overlapping.map toIndexText) input.sites =
      input.sites.filter fun r => r.2 ∉ done.flatMap storedTus := by
  refine List.filter_congr fun r hr => ?_
  obtain ⟨hne, hmem⟩ := hsites r hr
  obtain ⟨t, ht, heq⟩ := List.mem_map.mp hmem
  refine decide_eq_decide.mpr ?_
  rw [or_iff_right hne, ← heq, List.mem_map_of_injective toIndexText_injective, mem_allStoredTus]
  exact not_congr (hoverlap t ht)

end Stripped

/-- The orders of a round visit every TU that the inputs list. -/
structure Visits (ord : MergeOrders) (inputs : List SnapshotInput) : Prop where
  graph : ∀ g, (ord.graph g).Valid g
  released : ∀ t ∈ allTus inputs, toIndexText t ∈ ord.released
  nodup : ord.absorbed.Nodup
  absorbed : ∀ t ∈ allTus inputs, toIndexText t ∈ ord.absorbed

/-- The TUs that an index of channels lists have registered sites. -/
theorem exists_of_byTu {ch : ChannelIndex} {regs : List SiteRegistration} (h : ch.Inv regs)
    {tu : Bytes} (hne : ch.byTu tu ≠ []) : ∃ r ∈ regs, r.2 = tu := by
  obtain ⟨i, hi⟩ := List.exists_mem_of_ne_nil _ hne
  obtain ⟨htu, s, hs⟩ := h.byTu_live tu i hi
  exact ⟨_, (h.mem_byTu hs htu).mp hi, rfl⟩

/-- What is left of a shard when the TUs that were seen are taken out. -/
theorem LoadedFrom.stripped (hll : ll.AcceptsUtf8) (h : LoadedFrom ll input snap)
    (hvalid : input.Valid ll) (hord : Visits ord inputs) (hinput : input ∈ inputs)
    (hoverlap : ∀ t ∈ input.tus, t ∈ overlapping ↔ t ∈ allTus done) :
    CallGraph.Session ll (MergeState.stripped ord snap overlapping).graph
        (input.nodes.filter fun r => !r.removedBy overlapping) ∧
      (∃ seen, ControlFlowIndex.Session ll (MergeState.stripped ord snap overlapping).cfIndex
        (input.contexts.filter fun c => c.tuPath ∉ allTus done) seen) ∧
      ChannelIndex.Built ll (MergeState.stripped ord snap overlapping).channels
        (input.sites.filter fun r => r.2 ∉ done.flatMap storedTus) := by
  obtain ⟨seen, hcf⟩ := h.cfIndex
  rw [← filter_contexts hoverlap hvalid.contexts, ← keptRegs_sites hoverlap hvalid.sites]
  by_cases hnil : overlapping = []
  · subst hnil
    have hnodes : (input.nodes.filter fun r => !r.removedBy []) = input.nodes :=
      List.filter_eq_self.mpr fun r _ => by simp [Registration.removedBy]
    have hcontexts : (input.contexts.filter fun c => !c.stored.removedBy []) = input.contexts :=
      List.filter_eq_self.mpr fun c hc => by
        simp [CallSiteContext.removedBy_stored (hvalid.contexts c hc).1]
    have hsites : ChannelIndex.keptRegs ([].map toIndexText) input.sites = input.sites :=
      List.filter_eq_self.mpr fun r _ => by simp
    rw [hnodes, hcontexts, hsites]
    exact ⟨h.graph, ⟨seen, hcf⟩, h.channels⟩
  · have hstripped : MergeState.stripped ord snap overlapping = { snap with
        graph := (snap.graph.removeTUs overlapping).1
        cfIndex := (snap.cfIndex.removeTUs overlapping).1
        channels := (snap.channels.removeTUs ord.released overlapping).1 } :=
      if_neg (by rwa [List.isEmpty_iff])
    rw [hstripped]
    refine ⟨h.graph.removeTUs overlapping, ⟨seen, hcf.removeTUs overlapping⟩,
      h.channels.removeTUs ord.released overlapping fun tu _ hne => ?_⟩
    obtain ⟨r, hr, rfl⟩ := exists_of_byTu (h.channels.spec hll).1 hne
    obtain ⟨t, ht, heq⟩ := List.mem_map.mp (hvalid.sites r hr).2
    exact heq ▸ hord.released t (List.mem_flatMap.mpr ⟨input, hinput, ht⟩)

/-! ### Rounds -/

/-- The columns after some of the inputs. -/
structure RowsMerged (done : List SnapshotInput) (s : MergeState) : Prop where
  seenTus : ∀ t, t ∈ s.seenTus ↔ t ∈ allTus done
  files : s.out.info.files = (keptRows done).map TuRow.stamp
  fingerprints : s.out.info.fingerprints = (keptRows done).map TuRow.fingerprint
  outcomes : s.out.info.outcomes = []
  columns : ∀ row ∈ keptRows done, s.mergedDeps row.stamp.path = row.deps ∧
    s.mergedOutcomes row.stamp.path = row.outcome
  unseen : ∀ t, t ∉ allTus done → s.mergedDeps t = none ∧ s.mergedOutcomes t = none

/-- The indexes after some of the inputs. -/
structure IndexesMerged (ll : Llvm) (done : List SnapshotInput) (s : MergeState) : Prop where
  graph : ∃ log, CallGraph.Session ll s.out.graph log ∧
    (∀ r ∈ log, r.tuPath ≠ [] ∧ r.tuPath ∈ allTus done) ∧
      log.filter Registration.hasProvenance = keptNodes done
  cfIndex : ∃ seen, ControlFlowIndex.Session ll s.out.cfIndex (keptContexts done) seen
  channels : ChannelIndex.Built ll s.out.channels (keptSites done)
  first : s.firstShard = true → keptNodes done = [] ∧ keptContexts done = [] ∧ keptSites done = []

theorem RowsMerged.empty : RowsMerged [] {} where
  seenTus _ := Iff.rfl
  files := rfl
  fingerprints := rfl
  outcomes := rfl
  columns _ hrow := absurd hrow List.not_mem_nil
  unseen _ _ := ⟨rfl, rfl⟩

theorem IndexesMerged.empty : IndexesMerged ll [] {} where
  graph := ⟨[], .empty, fun _ hr => absurd hr List.not_mem_nil, rfl⟩
  cfIndex := ⟨_, .empty⟩
  channels := .empty
  first _ := ⟨rfl, rfl, rfl⟩

section Rounds

variable {s s' : MergeState}

/-- The columns hold what they did when they stay. -/
theorem RowsMerged.of_eq (h : RowsMerged done s) (hseen : s'.seenTus = s.seenTus)
    (hfiles : s'.out.info.files = s.out.info.files)
    (hfps : s'.out.info.fingerprints = s.out.info.fingerprints)
    (hout : s'.out.info.outcomes = s.out.info.outcomes) (hdeps : s'.mergedDeps = s.mergedDeps)
    (houtcomes : s'.mergedOutcomes = s.mergedOutcomes) : RowsMerged done s' := by
  refine ⟨?_, ?_, ?_, ?_, ?_, ?_⟩
  · rw [hseen]
    exact h.seenTus
  · rw [hfiles]
    exact h.files
  · rw [hfps]
    exact h.fingerprints
  · rw [hout]
    exact h.outcomes
  · rw [hdeps, houtcomes]
    exact h.columns
  · rw [hdeps, houtcomes]
    exact h.unseen

/-- The indexes hold what they did when they and `firstShard` stay. -/
theorem IndexesMerged.of_eq (h : IndexesMerged ll done s) (hgraph : s'.out.graph = s.out.graph)
    (hcf : s'.out.cfIndex = s.out.cfIndex) (hch : s'.out.channels = s.out.channels)
    (hfirst : s'.firstShard = s.firstShard) : IndexesMerged ll done s' := by
  refine ⟨?_, ?_, ?_, ?_⟩
  · rw [hgraph]
    exact h.graph
  · rw [hcf]
    exact h.cfIndex
  · rw [hch]
    exact h.channels
  · rw [hfirst]
    exact h.first

end Rounds

/-- The rows of an input name its TUs. -/
theorem map_path_rowsOf (info : SnapshotMeta) :
    (rowsOf info).map (fun row => row.stamp.path) = info.files.map FileStamp.path := by
  rw [rowsOf, List.map_map]
  have hfst : info.files.zipIdx.map Prod.fst = info.files := List.zipIdx_map_fst ..
  conv_rhs => rw [← hfst, List.map_map]
  rfl

theorem map_path_rows (input : SnapshotInput) :
    (rowsOf input.info).map (fun row => row.stamp.path) = input.tus :=
  map_path_rowsOf _

section AddRows

variable {s : MergeState}

/-- The rows of an input whose TU is new. -/
theorem fresh_rows (h : RowsMerged done s) :
    ((rowsOf input.info).filter fun row => row.stamp.path ∉ s.seenTus) =
      (rowsOf input.info).filter fun row => row.stamp.path ∉ allTus done :=
  List.filter_congr fun _ _ => decide_eq_decide.mpr (not_congr (h.seenTus _))

theorem nodup_fresh_rows (done : List SnapshotInput) (hdistinct : input.tus.Nodup) :
    (((rowsOf input.info).filter fun row => row.stamp.path ∉ allTus done).map
      fun row => row.stamp.path).Nodup := by
  rw [← map_path_rows] at hdistinct
  exact hdistinct.sublist (List.filter_sublist.map _)

theorem mem_map_path_fresh_rows (t : Bytes) :
    t ∈ ((rowsOf input.info).filter fun row => row.stamp.path ∉ allTus done).map
      (fun row => row.stamp.path) ↔ t ∈ input.tus ∧ t ∉ allTus done := by
  rw [← map_path_rows]
  constructor
  · intro ht
    obtain ⟨row, hrow, rfl⟩ := List.mem_map.mp ht
    obtain ⟨hmem, hnew⟩ := List.mem_filter.mp hrow
    exact ⟨List.mem_map_of_mem hmem, of_decide_eq_true hnew⟩
  · rintro ⟨ht, hnew⟩
    obtain ⟨row, hrow, rfl⟩ := List.mem_map.mp ht
    exact List.mem_map_of_mem (List.mem_filter.mpr ⟨hrow, decide_eq_true hnew⟩)

/-- The kept rows are those of the TUs that are listed. -/
theorem mem_map_path_keptRows (inputs : List SnapshotInput) (t : Bytes) :
    t ∈ (keptRows inputs).map (fun row => row.stamp.path) ↔ t ∈ allTus inputs := by
  induction inputs using List.reverseRecOn with
  | nil => exact Iff.rfl
  | append_singleton done input ih =>
    rw [keptRows_concat, List.map_append, List.mem_append, ih, mem_map_path_fresh_rows,
      allTus_concat, List.mem_append]
    tauto

/-- The rows of a round are added. -/
theorem RowsMerged.addRows (h : RowsMerged done s) (hdistinct : input.tus.Nodup) :
    RowsMerged (done ++ [input]) (s.addRows (rowsOf input.info)).1 := by
  rw [← map_path_rows] at hdistinct
  rw [MergeState.addRows_eq hdistinct, fresh_rows h]
  rw [map_path_rows] at hdistinct
  have hadded := MergeState.rowsAdded s (nodup_fresh_rows done hdistinct)
  have hpath (t : Bytes) : _ ↔ t ∈ input.tus ∧ t ∉ allTus done := mem_map_path_fresh_rows t
  refine ⟨fun t => ?_, ?_, ?_, ?_, fun row hrow => ?_, fun t ht => ?_⟩
  · rw [hadded.seenTus, hpath, h.seenTus, allTus_concat, List.mem_append]
    tauto
  · rw [hadded.files, h.files, keptRows_concat, List.map_append]
  · rw [hadded.fingerprints, h.fingerprints, keptRows_concat, List.map_append]
  · rw [hadded.outcomes, h.outcomes]
  · rw [keptRows_concat, List.mem_append] at hrow
    rcases hrow with hrow | hrow
    · -- a TU that was merged before keeps its row
      have hold := (mem_map_path_keptRows done _).mp (List.mem_map_of_mem hrow)
      rw [hadded.deps _ fun ht => ((hpath _).mp ht).2 hold,
        hadded.outcome _ fun ht => ((hpath _).mp ht).2 hold]
      exact h.columns row hrow
    · refine hadded.columns (fun row' hrow' => h.unseen _ ?_) row hrow
      exact of_decide_eq_true (List.mem_filter.mp hrow').2
  · rw [allTus_concat, List.mem_append, not_or] at ht
    rw [hadded.deps _ fun hin => ht.2 ((hpath t).mp hin).1,
      hadded.outcome _ fun hin => ht.2 ((hpath t).mp hin).1]
    exact h.unseen t ht.1

/-- The TUs of an input that were seen. -/
theorem overlapping_iff (h : RowsMerged done s) (hdistinct : input.tus.Nodup) {t : Bytes}
    (ht : t ∈ input.tus) : t ∈ (s.addRows (rowsOf input.info)).2.1 ↔ t ∈ allTus done := by
  rw [← map_path_rows] at hdistinct ht
  rw [MergeState.addRows_eq hdistinct]
  constructor
  · intro hin
    obtain ⟨row, hrow, rfl⟩ := List.mem_map.mp hin
    exact (h.seenTus _).mp (of_decide_eq_true (List.mem_filter.mp hrow).2)
  · intro hold
    obtain ⟨row, hrow, rfl⟩ := List.mem_map.mp ht
    exact List.mem_map_of_mem (List.mem_filter.mpr ⟨hrow, decide_eq_true ((h.seenTus _).mpr hold)⟩)

/-- The indexes are not touched by the rows. -/
theorem IndexesMerged.addRows (h : IndexesMerged ll done s) (hrows : RowsMerged done s)
    (hdistinct : input.tus.Nodup) :
    IndexesMerged ll done (s.addRows (rowsOf input.info)).1 := by
  rw [← map_path_rows] at hdistinct
  rw [MergeState.addRows_eq hdistinct, fresh_rows hrows]
  rw [map_path_rows] at hdistinct
  have hadded := MergeState.rowsAdded s (nodup_fresh_rows done hdistinct)
  exact h.of_eq hadded.graph hadded.cfIndex hadded.channels hadded.firstShard

end AddRows

section AddIndexes

variable {s : MergeState}

/-- An input without a new TU adds nothing. -/
theorem IndexesMerged.skip (h : IndexesMerged ll done s) (hvalid : input.Valid ll)
    (hold : ∀ t ∈ input.tus, t ∈ allTus done) : IndexesMerged ll (done ++ [input]) s := by
  have hnodes : (input.tagged.filter fun r => r.tuPath ∉ allTus done) = [] :=
    List.filter_eq_nil_iff.mpr fun r hr hnew => of_decide_eq_true hnew
      (hold _ (hvalid.nodes r (List.mem_of_mem_filter hr)).2)
  have hcontexts : (input.contexts.filter fun c => c.tuPath ∉ allTus done) = [] :=
    List.filter_eq_nil_iff.mpr fun c hc hnew => of_decide_eq_true hnew
      (hold _ (hvalid.contexts c hc).2)
  have hsites : (input.sites.filter fun r => r.2 ∉ done.flatMap storedTus) = [] :=
    List.filter_eq_nil_iff.mpr fun r hr hnew => by
      obtain ⟨t, ht, heq⟩ := List.mem_map.mp (hvalid.sites r hr).2
      exact of_decide_eq_true hnew (heq ▸ mem_allStoredTus.mpr (hold t ht))
  obtain ⟨log, hlog, htagged, hfilter⟩ := h.graph
  refine ⟨⟨log, hlog, fun r hr => ⟨(htagged r hr).1, ?_⟩, ?_⟩, ?_, ?_, ?_⟩
  · rw [allTus_concat]
    exact List.mem_append_left _ (htagged r hr).2
  · rw [keptNodes_concat, hnodes, List.append_nil, hfilter]
  · rw [keptContexts_concat, hcontexts, List.append_nil]
    exact h.cfIndex
  · rw [keptSites_concat, hsites, List.append_nil]
    exact h.channels
  · rw [keptNodes_concat, keptContexts_concat, keptSites_concat, hnodes, hcontexts, hsites,
      List.append_nil, List.append_nil, List.append_nil]
    exact h.first

/-- The indexes of a shard are added, moved or absorbed. -/
theorem IndexesMerged.addIndexes (hll : ll.AcceptsUtf8) (h : IndexesMerged ll done s)
    (hsnap : LoadedFrom ll input snap) (hvalid : input.Valid ll) (hord : Visits ord inputs)
    (hinput : input ∈ inputs)
    (hoverlap : ∀ t ∈ input.tus, t ∈ overlapping ↔ t ∈ allTus done) :
    IndexesMerged ll (done ++ [input]) (s.addIndexes ord snap overlapping) := by
  obtain ⟨hgraph, ⟨seen, hcf⟩, hch⟩ := hsnap.stripped hll hvalid hord hinput hoverlap
  have hnodes := filter_nodes hoverlap hvalid.nodes
  have htagged : ∀ r ∈ input.nodes.filter fun r => !r.removedBy overlapping,
      r.tuPath ≠ [] ∧ r.tuPath ∈ allTus (done ++ [input]) := fun r hr => by
    obtain ⟨hne, hmem⟩ := hvalid.nodes r (List.mem_of_mem_filter hr)
    rw [allTus_concat]
    exact ⟨hne, List.mem_append_right _ hmem⟩
  rw [MergeState.addIndexes]
  by_cases hmove : (s.firstShard && overlapping.isEmpty) = true
  · obtain ⟨hn, hc, hs⟩ := h.first (Bool.and_eq_true_iff.mp hmove).1
    rw [if_pos hmove]
    refine ⟨⟨_, hgraph, htagged, ?_⟩, ⟨seen, ?_⟩, ?_,
      fun hfirst => absurd hfirst Bool.false_ne_true⟩
    · rw [keptNodes_concat, hn, List.nil_append, hnodes]
    · rw [keptContexts_concat, hc, List.nil_append]
      exact hcf
    · rw [keptSites_concat, hs, List.nil_append]
      exact hch
  · obtain ⟨log, hlog, htag, hfilter⟩ := h.graph
    obtain ⟨seen', hcf'⟩ := h.cfIndex
    have hboth := hcf'.absorb hcf
    rw [← keptContexts_concat] at hboth
    rw [if_neg hmove]
    refine ⟨⟨_, hlog.absorb _ hgraph (hord.graph _), fun r hr => ?_, ?_⟩, ⟨_, hboth⟩, ?_,
      fun hfirst => absurd hfirst Bool.false_ne_true⟩
    · rcases List.mem_append.mp hr with hr | hr
      · rw [allTus_concat]
        exact ⟨(htag r hr).1, List.mem_append_left _ (htag r hr).2⟩
      · exact htagged r hr
    · rw [List.filter_append, hfilter, hnodes, keptNodes_concat]
    · rw [keptSites_concat]
      refine h.channels.absorb hch ⟨hord.nodup, fun tu hne => ?_⟩
      obtain ⟨r, hr, rfl⟩ := exists_of_byTu (hch.spec hll).1 hne
      obtain ⟨t, ht, heq⟩ := List.mem_map.mp (hvalid.sites r (List.mem_of_mem_filter hr)).2
      exact heq ▸ hord.absorbed t (List.mem_flatMap.mpr ⟨input, hinput, ht⟩)

end AddIndexes

end Snapshot

end Vycor
