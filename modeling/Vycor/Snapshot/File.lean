import Vycor.Channels.Answers
import Vycor.Snapshot.IndexSessions
import Vycor.Snapshot.LoadSafety
import Vycor.Snapshot.MappedAnswers
import Vycor.Snapshot.MetaSection
import Vycor.Snapshot.Sessions

/-!
# Saving and loading an index

A save writes the meta and the three indexes as the four sections of one file. A load parses the
header, then checks and decodes the meta and the sections it was asked for; a read-only load
leaves out what only mutators need, and attaches the control-flow section in place.
-/

namespace Vycor

open Reader

/-! ### Read-only indexes -/

namespace CallGraph

/-- A node of the section in a read-only load: the contributors are stepped over. -/
def loadNodeReadOnly (g : CallGraph) (r : NodeRecord) : CallGraph :=
  { g with
    byName := pushNew g.byName r.displayId r.nameId
    nodes := emplaceAt g.nodes r.nameId (nodeOf g.interner r) }

/-- An edge of the section in a read-only load: neither keyed nor tagged. -/
def loadEdgeReadOnly (g : CallGraph) (r : EdgeRecord) : CallGraph :=
  { g with
    outEdges := pushAt g.outEdges r.edge.caller g.edges.length
    inEdges := pushAt g.inEdges r.edge.callee g.edges.length
    edges := g.edges ++ [r.edge]
    liveEdgeCount := g.liveEdgeCount + 1 }

/-- The graph without the state that only mutators need. -/
def asReadOnly (g : CallGraph) : CallGraph :=
  { g with
    edgeIndex := fun _ => none
    tuEdges := fun _ => []
    nodeContributors := fun _ => []
    tuNodes := fun _ => []
    readOnly := true }

end CallGraph

/-- The graph that `SnapshotIO::load` builds in read-only mode. -/
def GraphRecords.installReadOnly (r : GraphRecords) : CallGraph :=
  let g : CallGraph := { interner := ⟨r.strings⟩, readOnly := true }
  let g := r.nodes.foldl CallGraph.loadNodeReadOnly g
  let g := r.edges.foldl CallGraph.loadEdgeReadOnly g
  let g := CallGraph.loadPairs CallGraph.loadDerived r.derivedClasses g
  let g := CallGraph.loadPairs CallGraph.loadOverride r.methodOverrides g
  let g := CallGraph.loadPairs CallGraph.loadImpl r.effectiveImplClasses g
  CallGraph.loadPairs CallGraph.loadReturn r.functionReturns g

namespace ChannelIndex

/-- A site of the section in a read-only load: its TUs are not listed. -/
def loadSiteReadOnly (ch : ChannelIndex) (r : ChannelRecord) : ChannelIndex :=
  { ch.loadSite r with byTu := ch.byTu }

/-- The index without the TUs of its sites. -/
def asReadOnly (ch : ChannelIndex) : ChannelIndex := { ch with byTu := fun _ => [] }

end ChannelIndex

/-! ### Saving -/

/-- What a save writes. `nodeCount` is the size of `nodes_`, `sort` the sort of the ids and
`tuOrder` the order in which the map of TUs yields its keys. -/
structure SnapshotParts where
  graph : CallGraph
  cfIndex : ControlFlowIndex
  channels : ChannelIndex
  info : SnapshotMeta
  sort : Sorter cfIndex.records.idBefore
  tuOrder : List Bytes

namespace SnapshotParts

variable (s : SnapshotParts)

/-- The sections, by kind. -/
def sections : List Bytes :=
  [s.info.emitMeta, s.graph.saveGraph, putControlFlow s.cfIndex.records s.sort,
    s.channels.saveChannels s.tuOrder]

/-- The counts in the header. -/
def summary : IndexSummary where
  nodes := UInt64.ofNat s.graph.records.nodes.length
  edges := UInt64.ofNat s.graph.liveEdgeCount
  callSites := UInt64.ofNat s.cfIndex.liveCount
  channelSites := UInt64.ofNat s.channels.liveCount

/-- The file of `SnapshotIO::save`. -/
def file (ll : Llvm) : Bytes := snapshotFile ll s.summary s.sections

end SnapshotParts

/-! ### Loading -/

/-- `LoadMode`. -/
inductive LoadMode where
  | changes | readOnly
  deriving DecidableEq, Repr

/-- The sections asked for, `kSectionGraph`, `kSectionControlFlow` and `kSectionChannels`. -/
structure IndexSections where
  graph : Bool
  controlFlow : Bool
  channels : Bool
  deriving DecidableEq, Repr

/-- `SnapshotData`. -/
structure SnapshotData where
  graph : CallGraph
  cfIndex : ControlFlowIndex
  channels : ChannelIndex
  info : SnapshotMeta
  summary : IndexSummary
  loaded : IndexSections

namespace Snapshot

variable (ll : Llvm)

/-- The message of `malformed`. -/
def malformed (kind : ℕ) : Bytes :=
  text "section '" ++ sectionName kind ++
    text "' does not decode (the file is damaged or from an incompatible build)"

/-- `beginSection`, the decoding and `sectionDone` of one section. -/
def loadSection {α : Type} (buf : Bytes) (header : SnapshotHeader) (kind : ℕ)
    (decode : SectionRange → Option α) : Except Bytes α :=
  match header.ranges kind with
  -- a header that was parsed has every kind
  | none => .error (malformed kind)
  | some range =>
    match verifySection ll buf kind range with
    | .error why => .error why
    | .ok () =>
      match decode range with
      | none => .error (malformed kind)
      | some a => .ok a

/-- The graph section, by mode. -/
def decodeGraph (mode : LoadMode) (bytes : Bytes) : Option CallGraph :=
  match mode with
  | .changes => loadGraph ll bytes
  | .readOnly => (decodeSection (readGraph ll) bytes).map GraphRecords.installReadOnly

/-- The control-flow section, by mode. -/
def decodeControlFlow (mode : LoadMode) (buf : Bytes) (range : SectionRange) :
    Option ControlFlowIndex :=
  match mode with
  | .changes => loadControlFlow ll (range.bytes buf)
  | .readOnly => mapControlFlow ll buf range

/-- The channels section, by mode. -/
def decodeChannels (mode : LoadMode) (bytes : Bytes) : Option ChannelIndex :=
  match mode with
  | .changes => ChannelIndex.loadChannels ll bytes
  | .readOnly =>
    (decodeSection (countedIn (checked (readChannelRecord ll) ChannelRecord.sound)) bytes).map
      (·.foldl ChannelIndex.loadSiteReadOnly {})

/-- A section that a load may skip. -/
def sectionIf {α : Type} (asked : Bool) (skipped : α) (loaded : Except Bytes α) : Except Bytes α :=
  if asked then loaded else .ok skipped

/-- `SnapshotIO::load`. -/
def load (buf : Bytes) (mode : LoadMode) (needs : IndexSections) : Except Bytes SnapshotData := do
  let header ← parseHeader ll buf
  let info ← loadSection ll buf header 0 fun range => decodeSection readMeta (range.bytes buf)
  let graph ← sectionIf needs.graph {}
    (loadSection ll buf header 1 fun range => decodeGraph ll mode (range.bytes buf))
  let cfIndex ← sectionIf needs.controlFlow {}
    (loadSection ll buf header 2 (decodeControlFlow ll mode buf))
  let channels ← sectionIf needs.channels {}
    (loadSection ll buf header 3 fun range => decodeChannels ll mode (range.bytes buf))
  .ok { graph, cfIndex, channels, info, summary := header.summary, loaded := needs }

end Snapshot

/-! ### What a read-only load leaves out -/

namespace CallGraph

variable {g : CallGraph}

theorem asReadOnly_contribute (g : CallGraph) (nameId tuId : SId) :
    (g.contribute nameId tuId).asReadOnly = g.asReadOnly := by
  unfold contribute
  split_ifs
  · rfl
  · rfl

theorem asReadOnly_loadNode (g : CallGraph) (r : NodeRecord) :
    (g.loadNode r).asReadOnly = g.asReadOnly.loadNodeReadOnly r := by
  have hfold (l : List SId) (g : CallGraph) :
      (l.foldl (fun g tu => g.contribute r.nameId tu) g).asReadOnly = g.asReadOnly := by
    induction l generalizing g with
    | nil => rfl
    | cons tu rest ih => rw [List.foldl_cons, ih, asReadOnly_contribute]
  rw [loadNode, hfold]
  rfl

theorem asReadOnly_loadEdge (g : CallGraph) (r : EdgeRecord) :
    (g.loadEdge r).asReadOnly = g.asReadOnly.loadEdgeReadOnly r := by
  have hfold (l : List SId) (i : ℕ) (g : CallGraph) :
      (l.foldl (fun g tu => g.tagEdge tu i) g).asReadOnly = g.asReadOnly := by
    induction l generalizing g with
    | nil => rfl
    | cons tu rest ih =>
      rw [List.foldl_cons, ih]
      rfl
  rw [loadEdge, hfold]
  rfl

theorem asReadOnly_loadPairs {load : CallGraph → SId → SId → CallGraph}
    (hload : ∀ g a b, (load g a b).asReadOnly = load g.asReadOnly a b) (pairs : List (ℕ × ℕ))
    (g : CallGraph) : (loadPairs load pairs g).asReadOnly = loadPairs load pairs g.asReadOnly :=
  (List.foldl_hom asReadOnly fun g p => (hload g p.1 p.2).symm).symm

/-- A read-only load gives the graph of a load for changes but for what only mutators need. -/
theorem installReadOnly_eq (r : GraphRecords) : r.installReadOnly = r.install.asReadOnly := by
  have hnodes (g : CallGraph) :
      (r.nodes.foldl loadNode g).asReadOnly = r.nodes.foldl loadNodeReadOnly g.asReadOnly :=
    (List.foldl_hom asReadOnly fun g r => (asReadOnly_loadNode g r).symm).symm
  have hedges (g : CallGraph) :
      (r.edges.foldl loadEdge g).asReadOnly = r.edges.foldl loadEdgeReadOnly g.asReadOnly :=
    (List.foldl_hom asReadOnly fun g r => (asReadOnly_loadEdge g r).symm).symm
  rw [GraphRecords.install, asReadOnly_loadPairs fun _ _ _ => rfl,
    asReadOnly_loadPairs fun _ _ _ => rfl, asReadOnly_loadPairs fun _ _ _ => rfl,
    asReadOnly_loadPairs fun _ _ _ => rfl, hedges, hnodes]
  rfl

theorem SameAnswers.refl (ll : Llvm) (g : CallGraph) : g.SameAnswers ll g where
  findNode _ := rfl
  callersOf _ _ := Iff.rfl
  calleesOf _ _ := Iff.rfl
  getDerivedClasses _ _ := Iff.rfl
  getOverrides _ _ := Iff.rfl
  getClassesForImpl _ _ := Iff.rfl
  getFunctionReturns _ _ := Iff.rfl

/-- The queries read none of it. -/
theorem SameAnswers.asReadOnly {ll : Llvm} {g' : CallGraph} (h : g.SameAnswers ll g') :
    g.asReadOnly.SameAnswers ll g' :=
  ⟨h.findNode, h.callersOf, h.calleesOf, h.getDerivedClasses, h.getOverrides, h.getClassesForImpl,
    h.getFunctionReturns⟩

end CallGraph

namespace ChannelIndex

theorem foldl_loadSiteReadOnly (records : List ChannelRecord) (ch : ChannelIndex) :
    records.foldl loadSiteReadOnly ch.asReadOnly = (records.foldl loadSite ch).asReadOnly :=
  List.foldl_hom asReadOnly fun _ _ => rfl

end ChannelIndex

namespace Snapshot

variable {ll : Llvm}

theorem sectionIf_eq_ok {α : Type} {asked : Bool} {skipped a : α} {loaded : Except Bytes α}
    (h : asked → loaded = .ok a) : sectionIf asked skipped loaded = .ok (if asked then a else skipped) := by
  cases asked with
  | false => rfl
  | true => exact h rfl

theorem loadSection_eq_ok_iff {α : Type} {buf : Bytes} {header : SnapshotHeader} {kind : ℕ}
    {decode : SectionRange → Option α} {a : α} :
    loadSection ll buf header kind decode = .ok a ↔ ∃ range, header.ranges kind = some range ∧
      checksumOf ll (range.bytes buf) = range.checksum ∧ decode range = some a := by
  unfold loadSection verifySection
  cases header.ranges kind with
  | none => simp
  | some range =>
    dsimp only
    by_cases hsum : checksumOf ll (range.bytes buf) = range.checksum
    · rw [if_pos hsum]
      cases hdec : decode range with
      | none => simp [hdec]
      | some b => simp [hsum, hdec]
    · simp [hsum]

/-- What a load that succeeds has read. -/
structure Loads (ll : Llvm) (buf : Bytes) (mode : LoadMode) (needs : IndexSections)
    (header : SnapshotHeader) (data : SnapshotData) : Prop where
  parsed : parseHeader ll buf = .ok header
  summary : data.summary = header.summary
  loaded : data.loaded = needs
  info : loadSection ll buf header 0 (fun range => decodeSection readMeta (range.bytes buf)) =
    .ok data.info
  graph : sectionIf needs.graph {} (loadSection ll buf header 1
    fun range => decodeGraph ll mode (range.bytes buf)) = .ok data.graph
  cfIndex : sectionIf needs.controlFlow {} (loadSection ll buf header 2
    (decodeControlFlow ll mode buf)) = .ok data.cfIndex
  channels : sectionIf needs.channels {} (loadSection ll buf header 3
    fun range => decodeChannels ll mode (range.bytes buf)) = .ok data.channels

theorem load_eq_ok_iff {buf : Bytes} {mode : LoadMode} {needs : IndexSections}
    {data : SnapshotData} :
    load ll buf mode needs = .ok data ↔ ∃ header, Loads ll buf mode needs header data := by
  constructor
  · intro h
    obtain ⟨header, hheader, h⟩ := exists_of_bind_eq_ok h
    obtain ⟨info, hinfo, h⟩ := exists_of_bind_eq_ok h
    obtain ⟨graph, hgraph, h⟩ := exists_of_bind_eq_ok h
    obtain ⟨cfIndex, hcf, h⟩ := exists_of_bind_eq_ok h
    obtain ⟨channels, hch, h⟩ := exists_of_bind_eq_ok h
    obtain rfl := Except.ok.inj h
    exact ⟨header, hheader, rfl, rfl, hinfo, hgraph, hcf, hch⟩
  · rintro ⟨header, h⟩
    have hbind {ε α β : Type} {x : Except ε α} {a : α} (f : α → Except ε β) (hx : x = .ok a) :
        (x >>= f) = f a := by
      rw [hx]
      rfl
    rw [load, hbind _ h.parsed, hbind _ h.info, hbind _ h.graph, hbind _ h.cfIndex,
      hbind _ h.channels, ← h.summary, ← h.loaded]

end Snapshot

/-! ### Loading any file -/

/-- The sections a load reads, by kind; the meta is always read. -/
def IndexSections.Asks (needs : IndexSections) : ℕ → Prop
  | 0 => True
  | 1 => needs.graph
  | 2 => needs.controlFlow
  | 3 => needs.channels
  | _ => False

/-- The indexes refer to what they have: ids to strings, positions to edges, contexts and sites. -/
structure SnapshotData.Sound (data : SnapshotData) (ll : Llvm) : Prop where
  graph : data.graph.Bounded
  cfIndex : ControlFlowIndex.AllAnswer ll data.cfIndex
  channels : data.channels.Positioned

namespace Snapshot

variable {ll : Llvm} {buf : Bytes} {mode : LoadMode} {needs : IndexSections} {data : SnapshotData}

theorem bounded_of_decodeGraph {bytes : Bytes} {g : CallGraph}
    (h : decodeGraph ll mode bytes = some g) : g.Bounded := by
  cases mode with
  | changes =>
    rw [decodeGraph, loadGraph, Option.map_eq_some_iff] at h
    obtain ⟨r, hr, rfl⟩ := h
    exact (Within.of_decodeSection (Within.readGraph ll) hr).bounded
  | readOnly =>
    rw [decodeGraph, Option.map_eq_some_iff] at h
    obtain ⟨r, hr, rfl⟩ := h
    have hbounded := (Within.of_decodeSection (Within.readGraph ll) hr).bounded
    rw [CallGraph.installReadOnly_eq]
    exact { hbounded with
      tuEdges := .empty
      edgeIndex := fun _ _ hi => (Option.some_ne_none _ hi.symm).elim
      contributors := .empty
      tuNodes := .empty }

theorem allAnswer_of_decodeControlFlow {range : SectionRange}
    (hinside : range.offset + range.length ≤ buf.length) {cf : ControlFlowIndex}
    (h : decodeControlFlow ll mode buf range = some cf) : ControlFlowIndex.AllAnswer ll cf := by
  cases mode with
  | changes =>
    rw [decodeControlFlow, loadControlFlow, Option.map_eq_some_iff] at h
    obtain ⟨r, hr, rfl⟩ := h
    exact (Within.of_decodeSection (Within.readControlFlow ll) hr).positioned.readable.allAnswer
  | readOnly =>
    rw [decodeControlFlow] at h
    obtain ⟨m, hm, hattached⟩ := fullyAttached_of_mapControlFlow hinside h
    exact (ControlFlowIndex.readable_of_fullyAttached ll hm hattached).allAnswer

theorem positioned_of_decodeChannels {bytes : Bytes} {ch : ChannelIndex}
    (h : decodeChannels ll mode bytes = some ch) : ch.Positioned := by
  cases mode with
  | changes => exact ChannelIndex.positioned_of_loadChannels h
  | readOnly =>
    rw [decodeChannels, Option.map_eq_some_iff] at h
    obtain ⟨records, hr, rfl⟩ := h
    have hload : ChannelIndex.loadChannels ll bytes = some (records.foldl ChannelIndex.loadSite {}) := by
      rw [ChannelIndex.loadChannels, hr]
      rfl
    have hpos := ChannelIndex.positioned_of_loadChannels hload
    have hsame := ChannelIndex.foldl_loadSiteReadOnly records {}
    change (records.foldl ChannelIndex.loadSiteReadOnly (ChannelIndex.asReadOnly {})).Positioned
    rw [hsame]
    refine ⟨fun m => ?_, .empty, hpos.index⟩
    have hlists := hpos.lists m
    cases m <;> exact hlists

/-- A section that was asked for. -/
theorem exists_range_of_asked {header : SnapshotHeader} (hparse : parseHeader ll buf = .ok header)
    {α : Type} {kind : ℕ} (hkind : kind < kSectionKinds) {asked : Bool} {skipped a : α}
    {decode : SectionRange → Option α}
    (h : sectionIf asked skipped (loadSection ll buf header kind decode) = .ok a) (hasked : asked) :
    ∃ range, header.ranges kind = some range ∧ kHeaderBytes ≤ range.offset ∧
      range.offset + range.length ≤ buf.length ∧
      checksumOf ll (range.bytes buf) = range.checksum ∧ decode range = some a := by
  rw [sectionIf, if_pos hasked] at h
  obtain ⟨range, hrange, hsum, hdecode⟩ := loadSection_eq_ok_iff.mp h
  obtain ⟨range', hrange', hfront, hinside, -⟩ := (inside_of_parseHeader hparse).1 kind hkind
  obtain rfl := Option.some_inj.mp (hrange.symm.trans hrange')
  exact ⟨range, hrange, hfront, hinside, hsum, hdecode⟩

theorem verified_of_asked {header : SnapshotHeader} (hparse : parseHeader ll buf = .ok header)
    {α : Type} {kind : ℕ} (hkind : kind < kSectionKinds) {asked : Bool} {skipped a : α}
    {decode : SectionRange → Option α}
    (h : sectionIf asked skipped (loadSection ll buf header kind decode) = .ok a) (hasked : asked) :
    ∃ range, header.ranges kind = some range ∧ kHeaderBytes ≤ range.offset ∧
      range.offset + range.length ≤ buf.length ∧
      checksumOf ll (range.bytes buf) = range.checksum := by
  obtain ⟨range, hrange, hfront, hinside, hsum, -⟩ := exists_range_of_asked hparse hkind h hasked
  exact ⟨range, hrange, hfront, hinside, hsum⟩

/-- A property of what a section decodes to, and of what stands for it when it is skipped. -/
theorem of_sectionIf {header : SnapshotHeader} (hparse : parseHeader ll buf = .ok header)
    {α : Type} {kind : ℕ} (hkind : kind < kSectionKinds) {asked : Bool} {skipped a : α}
    {decode : SectionRange → Option α} {P : α → Prop} (hskipped : P skipped)
    (hdecoded : ∀ range : SectionRange, range.offset + range.length ≤ buf.length →
      ∀ b, decode range = some b → P b)
    (h : sectionIf asked skipped (loadSection ll buf header kind decode) = .ok a) : P a := by
  cases asked with
  | false =>
    obtain rfl := Except.ok.inj h
    exact hskipped
  | true =>
    obtain ⟨range, -, -, hinside, -, hdecode⟩ := exists_range_of_asked hparse hkind h rfl
    exact hdecoded range hinside a hdecode

/-- **A load trusts nothing but its checks.** Whatever the bytes of the file are, if it loads, then
each section that was asked for lies inside the file behind the header and has its checksum, no id
or position in the indexes is out of range, and every query of the control-flow index answers. -/
theorem sound_of_load (h : load ll buf mode needs = .ok data) :
    data.Sound ll ∧ ∃ header, parseHeader ll buf = .ok header ∧ data.summary = header.summary ∧
      ∀ kind, needs.Asks kind → ∃ range, header.ranges kind = some range ∧
        kHeaderBytes ≤ range.offset ∧ range.offset + range.length ≤ buf.length ∧
          checksumOf ll (range.bytes buf) = range.checksum := by
  obtain ⟨header, hload⟩ := load_eq_ok_iff.mp h
  have hparse := hload.parsed
  refine ⟨⟨?_, ?_, ?_⟩, header, hparse, hload.summary, fun kind hasks => ?_⟩
  · exact of_sectionIf hparse (by decide) (CallGraph.boundedOver_empty []).2
      (fun range _ g hg => bounded_of_decodeGraph hg) hload.graph
  · exact of_sectionIf hparse (by decide) ControlFlowIndex.positioned_empty.readable.allAnswer
      (fun range hinside cf hcf => allAnswer_of_decodeControlFlow hinside hcf) hload.cfIndex
  · exact of_sectionIf hparse (by decide) ChannelIndex.positioned_empty
      (fun range _ ch hch => positioned_of_decodeChannels hch) hload.channels
  · have hinfo : sectionIf true data.info (loadSection ll buf header 0 fun range =>
        decodeSection readMeta (range.bytes buf)) = .ok data.info := hload.info
    match kind, hasks with
    | 0, _ => exact verified_of_asked hparse (by decide) hinfo rfl
    | 1, hasks => exact verified_of_asked hparse (by decide) hload.graph hasks
    | 2, hasks => exact verified_of_asked hparse (by decide) hload.cfIndex hasks
    | 3, hasks => exact verified_of_asked hparse (by decide) hload.channels hasks

end Snapshot

/-! ### Answers -/

namespace ControlFlowIndex

variable {ll : Llvm} {cf cf' cf'' : ControlFlowIndex}

theorem SameAnswers.refl (ll : Llvm) (cf : ControlFlowIndex) : SameAnswers ll cf cf :=
  ⟨fun _ => rfl, fun _ _ => rfl, fun _ => rfl, fun _ _ _ => rfl, fun _ => rfl, fun _ => rfl,
    fun _ => rfl, fun _ => rfl, fun _ => rfl, rfl⟩

theorem SameAnswers.bySite (h : SameAnswers ll cf cf') (h' : SameSiteAnswers ll cf' cf'') :
    SameSiteAnswers ll cf cf'' where
  contextAtSite site := (h.contextAtSite site).trans (h'.contextAtSite site)
  contextAtSiteOf site caller := (h.contextAtSiteOf site caller).trans (h'.contextAtSiteOf site caller)
  contextsAtSite site := (h.contextsAtSite site).trans (h'.contextsAtSite site)
  contextForEdge site caller callee :=
    (h.contextForEdge site caller callee).trans (h'.contextForEdge site caller callee)

theorem SameAnswers.byName (h : SameAnswers ll cf cf') (h' : SameByName ll cf' cf'') :
    SameByName ll cf cf'' where
  contextsForCaller name := h.contextsForCaller name ▸ h'.contextsForCaller name
  contextsForCallee name := h.contextsForCallee name ▸ h'.contextsForCallee name
  protectedCallsTo name := h.protectedCallsTo name ▸ h'.protectedCallsTo name
  unprotectedCallsTo name := h.unprotectedCallsTo name ▸ h'.unprotectedCallsTo name
  forEachContext := h.forEachContext ▸ h'.forEachContext

end ControlFlowIndex

namespace ChannelIndex

variable {ll : Llvm} {ch ch' : ChannelIndex}

theorem SameAnswers.refl (ll : Llvm) (ch : ChannelIndex) : ch.SameAnswers ll ch :=
  ⟨rfl, fun _ => rfl, fun _ => rfl, fun _ => rfl, .refl _⟩

theorem SameAnswers.asReadOnly (h : ch.SameAnswers ll ch') : ch.asReadOnly.SameAnswers ll ch' :=
  ⟨h.allSites, h.producersOf, h.consumersOf, h.sitesForFunction, h.allChannelIds⟩

end ChannelIndex

/-! ### Loading what was saved -/

namespace SnapshotParts

/-- The indexes come out of sessions, with what these have recorded. -/
structure From (s : SnapshotParts) (ll : Llvm) (nodes : List Registration)
    (contexts : List CallSiteContext) (seen : ControlFlowIndex.Seen)
    (sites : List SiteRegistration) : Prop where
  graph : CallGraph.Session ll s.graph nodes
  cfIndex : ControlFlowIndex.Session ll s.cfIndex contexts seen
  channels : ChannelIndex.Built ll s.channels sites

/-- The numbers of the indexes fit the format. -/
structure Fits (s : SnapshotParts) (ll : Llvm) : Prop where
  graph : s.graph.FitsSection
  cfIndex : s.cfIndex.FitsSection
  tuOrder : s.channels.ListsTus s.tuOrder
  channels : s.channels.SectionFits s.tuOrder
  info : s.info.DepsListed ∧ s.info.Fits
  size : (s.file ll).length < 2 ^ 64

/-- What a load gives back, with the store that a read-only load attaches and the channels that
a load for changes installs. -/
def loadedBy (s : SnapshotParts) (m : MappedStore) (ch : ChannelIndex) (mode : LoadMode)
    (needs : IndexSections) : SnapshotData where
  graph :=
    if needs.graph then
      match mode with
      | .changes => s.graph.records.install
      | .readOnly => s.graph.records.install.asReadOnly
    else {}
  cfIndex :=
    if needs.controlFlow then
      match mode with
      | .changes => s.cfIndex.records.install
      | .readOnly => s.cfIndex.records.attach m
    else {}
  channels :=
    if needs.channels then
      match mode with
      | .changes => ch
      | .readOnly => ch.asReadOnly
    else {}
  info := s.info.aligned
  summary := s.summary
  loaded := needs

variable {ll : Llvm} {s : SnapshotParts} {nodes : List Registration} {contexts : List CallSiteContext}
  {seen : ControlFlowIndex.Seen} {sites : List SiteRegistration}

/-- A section that was saved is loaded. -/
theorem loadSection_file {α : Type} (kind : ℕ) {header : SnapshotHeader}
    (hparse : parseHeader ll (s.file ll) = .ok header)
    (hranges : ∀ (kind : ℕ) (bytes : Bytes), s.sections[kind]? = some bytes → ∃ range,
      header.ranges kind = some range ∧ range.bytes (s.file ll) = bytes ∧
        range.checksum = checksumOf ll bytes) {bytes : Bytes}
    (hbytes : s.sections[kind]? = some bytes) {decode : SectionRange → Option α} {a : α}
    (hdecode : ∀ range : SectionRange, range.bytes (s.file ll) = bytes →
      range.offset + range.length ≤ (s.file ll).length → decode range = some a) :
    Snapshot.loadSection ll (s.file ll) header kind decode = .ok a := by
  obtain ⟨range, hrange, hread, hsum⟩ := hranges kind bytes hbytes
  have hkind : kind < kSectionKinds := (List.getElem?_eq_some_iff.mp hbytes).1
  obtain ⟨range', hrange', -, hinside, -⟩ := (inside_of_parseHeader hparse).1 kind hkind
  obtain rfl := Option.some_inj.mp (hrange.symm.trans hrange')
  exact Snapshot.loadSection_eq_ok_iff.mpr
    ⟨range, hrange, by rw [hread, hsum], hdecode range hread hinside⟩

/-- **A saved file is loaded**, in both modes and for all sections asked for. -/
theorem exists_loadedBy (hll : ll.AcceptsUtf8) (h : s.From ll nodes contexts seen sites)
    (hfits : s.Fits ll) :
    ∃ m ch, m.Stores s.cfIndex.records s.sort ∧
      (ChannelIndex.loadChannels ll (s.channels.saveChannels s.tuOrder) = some ch ∧
        ch.Inv sites ∧ ch.KeysListed ∧ ch.sites = s.channels.compact.sites) ∧
        ∀ mode needs, Snapshot.load ll (s.file ll) mode needs = .ok (s.loadedBy m ch mode needs) := by
  obtain ⟨hgraph, hacc⟩ := (h.graph.inv hll).1
  obtain ⟨hcf, -⟩ := h.cfIndex.inv hll
  obtain ⟨hchannels, htext⟩ := h.channels.spec hll
  obtain ⟨header, hparse, hsummary, hranges⟩ := parseHeader_snapshotFile s.summary
    (rfl : s.sections.length = kSectionKinds) hfits.size
  obtain ⟨ch, hload, hinv, hsites⟩ :=
    hchannels.loadChannels hll htext hfits.tuOrder hfits.channels
  -- the range of the control-flow section
  obtain ⟨range, hrange, hread, hsum⟩ := hranges 2 _ rfl
  obtain ⟨range', hrange', -, hinside, -⟩ := (inside_of_parseHeader hparse).1 2 (by decide)
  obtain rfl := Option.some_inj.mp (hrange.symm.trans hrange')
  obtain ⟨m, hm, hmap⟩ := exists_mapControlFlow hll (hcf.storable_records hfits.cfIndex) hinside hread
  refine ⟨m, ch, hm, ⟨hload, hinv, ChannelIndex.keysListed_of_loadChannels hload, hsites⟩,
    fun mode needs => Snapshot.load_eq_ok_iff.mpr
      ⟨header, hparse, hsummary.symm, rfl, ?_, ?_, ?_, ?_⟩⟩
  · refine loadSection_file 0 hparse hranges rfl fun range hread _ => ?_
    rw [hread]
    exact (SnapshotMeta.codes_meta hfits.info.1 hfits.info.2).decodeSection trivial
  · refine Snapshot.sectionIf_eq_ok fun _ =>
      loadSection_file 1 hparse hranges rfl fun range hread _ => ?_
    rw [hread]
    cases mode with
    | changes => exact hgraph.loadGraph_saveGraph hll hacc.covered hfits.graph
    | readOnly =>
      rw [Snapshot.decodeGraph, CallGraph.saveGraph,
        readGraph_putGraph hll (hgraph.storable_records hacc.covered hfits.graph)]
      exact congrArg some (CallGraph.installReadOnly_eq _)
  · refine Snapshot.sectionIf_eq_ok fun _ => ?_
    cases mode with
    | changes =>
      refine loadSection_file 2 hparse hranges rfl fun range hread _ => ?_
      rw [Snapshot.decodeControlFlow, hread]
      exact hcf.loadControlFlow_putControlFlow hll hfits.cfIndex s.sort
    | readOnly =>
      exact Snapshot.loadSection_eq_ok_iff.mpr ⟨range, hrange, (congrArg _ hread).trans hsum.symm, hmap⟩
  · refine Snapshot.sectionIf_eq_ok fun _ =>
      loadSection_file 3 hparse hranges rfl fun range hread _ => ?_
    rw [hread]
    cases mode with
    | changes => exact hload
    | readOnly =>
      obtain ⟨records, hrecords, rfl⟩ := Option.map_eq_some_iff.mp hload
      rw [Snapshot.decodeChannels, hrecords]
      exact congrArg some (ChannelIndex.foldl_loadSiteReadOnly records {})

section LoadedBy

variable (mode : LoadMode) {needs : IndexSections} (m : MappedStore) (ch : ChannelIndex)

end LoadedBy

/-- A load for changes goes on with the sessions. -/
theorem exists_load_sessions (hll : ll.AcceptsUtf8) (h : s.From ll nodes contexts seen sites)
    (hfits : s.Fits ll) :
    ∃ data, Snapshot.load ll (s.file ll) .changes ⟨true, true, true⟩ = .ok data ∧
      data.info = s.info.aligned ∧ CallGraph.Session ll data.graph nodes ∧
      (∃ seen', ControlFlowIndex.Session ll data.cfIndex contexts seen') ∧
      ChannelIndex.Built ll data.channels sites := by
  obtain ⟨m, ch, -, ⟨hch, -⟩, hload⟩ := exists_loadedBy hll h hfits
  obtain ⟨hgraph, hacc⟩ := (h.graph.inv hll).1
  have hcf := h.cfIndex.reload s.sort hfits.cfIndex
    ((h.cfIndex.inv hll).1.loadControlFlow_putControlFlow hll hfits.cfIndex s.sort)
  refine ⟨_, hload .changes ⟨true, true, true⟩, rfl, ?_, ⟨_, hcf⟩, ?_⟩
  · exact h.graph.reload hfits.graph (hgraph.loadGraph_saveGraph hll hacc.covered hfits.graph)
  · exact h.channels.load hfits.tuOrder hfits.channels hch

/-- **Both modes answer alike.** -/
theorem modes_agree (hll : ll.AcceptsUtf8) (h : s.From ll nodes contexts seen sites)
    (hfits : s.Fits ll) (needs : IndexSections) :
    ∃ forChanges forReading, Snapshot.load ll (s.file ll) .changes needs = .ok forChanges ∧
      Snapshot.load ll (s.file ll) .readOnly needs = .ok forReading ∧
      forReading.info = forChanges.info ∧ forReading.summary = forChanges.summary ∧
      forReading.graph.SameAnswers ll forChanges.graph ∧
      ControlFlowIndex.SameAnswers ll forReading.cfIndex forChanges.cfIndex ∧
      forReading.channels.SameAnswers ll forChanges.channels := by
  obtain ⟨m, ch, hm, -, hload⟩ := exists_loadedBy hll h hfits
  refine ⟨_, _, hload .changes needs, hload .readOnly needs, rfl, rfl, ?_, ?_, ?_⟩
  · rw [loadedBy, loadedBy]
    dsimp only
    cases needs.graph with
    | true => exact CallGraph.SameAnswers.asReadOnly (.refl ll _)
    | false => exact .refl ll {}
  · rw [loadedBy, loadedBy]
    dsimp only
    cases needs.controlFlow with
    | true => exact (h.cfIndex.inv hll).1.sameAnswers_attach hll hfits.cfIndex hm
    | false => exact .refl ll _
  · rw [loadedBy, loadedBy]
    dsimp only
    cases needs.channels with
    | true => exact ChannelIndex.SameAnswers.asReadOnly (.refl ll ch)
    | false => exact .refl ll {}

/-- One edge of two TUs, two calls and a channel site. -/
def small : SnapshotParts where
  graph := ({} : CallGraph).registerAll CallGraph.sharedEdge
  cfIndex := ({} : ControlFlowIndex).addAll
    [ControlFlowIndex.callByName, ControlFlowIndex.callByUsr]
  channels := ({} : ChannelIndex).addSite (ChannelIndex.sharedSite (text "a"))
  info := {}
  sort := ControlFlowRecords.idSorter _
  tuOrder := [text "a"]

/-- Sections that are short make a file that fits. -/
theorem length_file_lt {s : SnapshotParts} {ll : Llvm}
    (hsections : s.sections.flatten.length < 4096) : (s.file ll).length < 2 ^ 64 := by
  rw [file, snapshotFile, List.length_append, List.length_append,
    length_headerBytes s.summary rfl, putU64, length_toLe]
  have hheader : kHeaderBytes = 152 := rfl
  omega

theorem exists_from_small : ∃ nodes contexts seen sites,
    small.From utf8Llvm nodes contexts seen sites :=
  have hgraph : CallGraph.BuiltFrom (fun _ => True) _ CallGraph.sharedEdge :=
    CallGraph.BuiltFrom.empty.registerAll fun _ _ => trivial
  have hcf : ControlFlowIndex.BuiltFrom (fun _ => True) _
      [ControlFlowIndex.callByName, ControlFlowIndex.callByUsr] _ :=
    ControlFlowIndex.BuiltFrom.empty.addAll fun _ _ => trivial
  have hchannels : ChannelIndex.Built utf8Llvm small.channels _ :=
    .addSite .empty (ChannelIndex.sharedSite (text "a"))
  ⟨_, _, _, _, hgraph.session, hcf.session, hchannels⟩

theorem small_fits : small.Fits utf8Llvm where
  graph := CallGraph.fitsSection_sharedEdge
  cfIndex := ControlFlowIndex.fitsSection_calls
  tuOrder := ChannelIndex.listsTus_sharedSite
  channels := ChannelIndex.sectionFits_sharedSite
  info := by
    have hnil : StrListFits [] := ⟨by decide, fun _ h => nomatch h⟩
    constructor
    · exact fun _ hids => nomatch hids
    · exact
        { collapsePaths := hnil
          lockAllowlist := hnil
          channelTypes := ⟨by decide, fun _ h => nomatch h⟩
          files := by decide
          deps := by decide
          tuDeps := by decide
          entryPoints := hnil
          fingerprints := by decide
          outcomes := by decide
          provenance := by decide }
  size := length_file_lt (by decide +kernel)

/-- The small index is loaded in both modes, the channels left out. -/
theorem modes_agree_small : ∃ forChanges forReading,
    Snapshot.load utf8Llvm (small.file utf8Llvm) .changes ⟨true, true, false⟩ = .ok forChanges ∧
      Snapshot.load utf8Llvm (small.file utf8Llvm) .readOnly ⟨true, true, false⟩ =
        .ok forReading ∧
      ControlFlowIndex.SameAnswers utf8Llvm forReading.cfIndex forChanges.cfIndex := by
  obtain ⟨nodes, contexts, seen, sites, hfrom⟩ := exists_from_small
  obtain ⟨forChanges, forReading, hchanges, hreading, -, -, -, hcf, -⟩ :=
    modes_agree acceptsUtf8_utf8Llvm hfrom small_fits ⟨true, true, false⟩
  exact ⟨forChanges, forReading, hchanges, hreading, hcf⟩

/-- The small index is a file that loads. -/
theorem exists_load_small (mode : LoadMode) (needs : IndexSections) :
    ∃ data, Snapshot.load utf8Llvm (small.file utf8Llvm) mode needs = .ok data := by
  obtain ⟨nodes, contexts, seen, sites, hfrom⟩ := exists_from_small
  obtain ⟨m, ch, -, -, hload⟩ := exists_loadedBy acceptsUtf8_utf8Llvm hfrom small_fits
  exact ⟨_, hload mode needs⟩

end SnapshotParts

namespace Snapshot

theorem sound_of_load_small : ∃ data,
    load utf8Llvm (SnapshotParts.small.file utf8Llvm) .readOnly ⟨true, true, true⟩ = .ok data ∧
      data.Sound utf8Llvm := by
  obtain ⟨data, hload⟩ := SnapshotParts.exists_load_small .readOnly ⟨true, true, true⟩
  exact ⟨data, hload, (sound_of_load hload).1⟩

end Snapshot

end Vycor
