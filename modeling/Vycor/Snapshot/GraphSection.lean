import Vycor.CallGraph.Basic
import Vycor.Snapshot.MetaSection

/-!
# The graph section of a snapshot

The section holds the interner table, the nodes with their contributors, the live edges with
the TUs that registered them, and the forward relations, all by id. `records` is what a save
writes of a graph, `install` what a load for changes builds from it; the bytes in between give
the records back (`readGraph_putGraph`).
-/

namespace Vycor

open Reader

/-! ### Records -/

/-- A node of the section. -/
structure NodeRecord where
  nameId : ℕ
  displayId : ℕ
  file : Bytes
  line : ℕ
  isEntryPoint : Bool
  isVirtual : Bool
  enclosingClass : Bytes
  contributors : List ℕ
  deriving DecidableEq, Repr

/-- An edge of the section. -/
structure EdgeRecord where
  edge : StoredEdge
  tus : List ℕ
  deriving DecidableEq, Repr

/-- The section. -/
structure GraphRecords where
  strings : List Bytes
  nodes : List NodeRecord
  edges : List EdgeRecord
  derivedClasses : List (ℕ × ℕ)
  methodOverrides : List (ℕ × ℕ)
  effectiveImplClasses : List (ℕ × ℕ)
  functionReturns : List (ℕ × ℕ)

namespace CallGraph

/-- The record of a node. `addNode` interns every display name, so the lookup finds it. -/
def nodeRecord (g : CallGraph) (id : SId) (node : CallGraphNode) : NodeRecord where
  nameId := id
  displayId := (g.interner.find node.qualifiedName).getD id
  file := node.file
  line := node.line
  isEntryPoint := node.isEntryPoint
  isVirtual := node.isVirtual
  enclosingClass := node.enclosingClass
  contributors := g.nodeContributors id

/-- The TUs of the registrations of an edge: the entry of `edgeTus`, which the sort leaves in
ascending order. -/
def edgeTus (g : CallGraph) (i : ℕ) : List SId :=
  (List.range g.interner.size).flatMap fun tu => ((g.tuEdges tu).filter (· = i)).map fun _ => tu

/-- The pairs of a relation, by ascending key. -/
def pairsByKey (g : CallGraph) (m : SId → List SId) : List (ℕ × ℕ) :=
  (List.range g.interner.size).flatMap fun k => (m k).map (k, ·)

/-- The records that `SnapshotIO::save` writes of a graph. -/
def records (g : CallGraph) : GraphRecords where
  strings := g.interner.strings
  nodes := (List.range g.interner.size).filterMap fun id => (g.nodes id).map (g.nodeRecord id)
  edges := (g.edges.zipIdx.filter fun p => p.1.refs ≠ 0).map fun p => ⟨p.1, g.edgeTus p.2⟩
  derivedClasses := g.pairsByKey g.derivedClasses
  methodOverrides := g.pairsByKey g.methodOverrides
  effectiveImplClasses := g.pairsByKey g.effectiveImplClasses
  functionReturns := g.pairsByKey g.functionReturns

end CallGraph

/-! ### Writing -/

/-- The byte of an `EdgeKind`. -/
def EdgeKind.code : EdgeKind → UInt8
  | .directCall => 0
  | .virtualDispatch => 1
  | .functionPointer => 2
  | .constructorCall => 3
  | .destructorCall => 4
  | .operatorCall => 5
  | .templateInstantiation => 6
  | .lambdaCall => 7
  | .threadEntry => 8
  | .functionPointerReturn => 9
  | .unnamed c => c

/-- The byte of a `Confidence`. -/
def Confidence.code : Confidence → UInt8
  | .Proven => 0
  | .Plausible => 1
  | .Unknown => 2
  | .unnamed c => c

/-- The byte of an `ExecutionContext`. -/
def ExecutionContext.code : ExecutionContext → UInt8
  | .synchronous => 0
  | .threadSpawn => 1
  | .asyncTask => 2
  | .packagedTask => 3
  | .invoke => 4
  | .unnamed c => c

/-- The flags of a node. -/
def nodeFlags (isEntryPoint isVirtual : Bool) : UInt8 :=
  (if isEntryPoint then 1 else 0) ||| if isVirtual then 2 else 0

/-- A node. -/
def putNodeRecord (r : NodeRecord) : Bytes :=
  [putId r.nameId, putId r.displayId, putStr r.file, putId r.line,
    putU8 (nodeFlags r.isEntryPoint r.isVirtual), putStr r.enclosingClass,
    putCounted putId r.contributors].flatten

/-- An edge. -/
def putEdgeRecord (r : EdgeRecord) : Bytes :=
  [putId r.edge.caller, putId r.edge.callee, putId r.edge.callSite, putU8 r.edge.kind.code,
    putU8 r.edge.confidence.code, putU8 r.edge.execContext.code, putId r.edge.indirectionDepth,
    putId r.edge.refs, putCounted putId r.tus].flatten

/-- A pair of ids. -/
def putPair (p : ℕ × ℕ) : Bytes := [putId p.1, putId p.2].flatten

/-- The graph section. -/
def putGraph (r : GraphRecords) : Bytes :=
  [putCounted putStr r.strings, putCounted putNodeRecord r.nodes, putCounted putEdgeRecord r.edges,
    putCounted putPair r.derivedClasses, putCounted putPair r.methodOverrides,
    putCounted putPair r.effectiveImplClasses, putCounted putPair r.functionReturns].flatten

/-- The graph section that `SnapshotIO::save` writes. -/
def CallGraph.saveGraph (g : CallGraph) : Bytes := putGraph g.records

/-! ### Reading -/

/-- `static_cast<EdgeKind>` of a byte. -/
def EdgeKind.ofCode (c : UInt8) : EdgeKind :=
  if h : 10 ≤ c.toNat then .unnamed ⟨c, h⟩
  else if c = 0 then .directCall
  else if c = 1 then .virtualDispatch
  else if c = 2 then .functionPointer
  else if c = 3 then .constructorCall
  else if c = 4 then .destructorCall
  else if c = 5 then .operatorCall
  else if c = 6 then .templateInstantiation
  else if c = 7 then .lambdaCall
  else if c = 8 then .threadEntry
  else .functionPointerReturn

/-- `static_cast<Confidence>` of a byte. -/
def Confidence.ofCode (c : UInt8) : Confidence :=
  if h : 3 ≤ c.toNat then .unnamed ⟨c, h⟩
  else if c = 0 then .Proven
  else if c = 1 then .Plausible
  else .Unknown

/-- `static_cast<ExecutionContext>` of a byte. -/
def ExecutionContext.ofCode (c : UInt8) : ExecutionContext :=
  if h : 5 ≤ c.toNat then .unnamed ⟨c, h⟩
  else if c = 0 then .synchronous
  else if c = 1 then .threadSpawn
  else if c = 2 then .asyncTask
  else if c = 3 then .packagedTask
  else .invoke

/-- A node. -/
def readNodeRecord (ll : Llvm) (interned : ℕ) : Read NodeRecord := do
  let nameId ← readId interned
  let displayId ← readId interned
  let file ← indexText ll
  let line ← readNum
  let flags ← u8
  let enclosingClass ← indexText ll
  let contributors ← countedIn (readId interned)
  return {
    nameId, displayId, file, line
    isEntryPoint := flags &&& 1 != 0
    isVirtual := flags &&& 2 != 0
    enclosingClass, contributors }

/-- An edge. Saved edges are live. -/
def readEdgeRecord (interned : ℕ) : Read EdgeRecord := do
  let caller ← readId interned
  let callee ← readId interned
  let callSite ← readId interned
  let kind ← u8
  let confidence ← u8
  let execContext ← u8
  let indirectionDepth ← readNum
  let refs ← checked readNum fun refs => decide (refs ≠ 0)
  let tus ← countedIn (readId interned)
  return {
    edge := {
      caller, callee, callSite
      kind := EdgeKind.ofCode kind
      confidence := Confidence.ofCode confidence
      execContext := ExecutionContext.ofCode execContext
      indirectionDepth, refs }
    tus }

/-- A pair of ids. -/
def readPair (interned : ℕ) : Read (ℕ × ℕ) := do
  let a ← readId interned
  let b ← readId interned
  return (a, b)

/-- The graph section in `SnapshotIO::load`. -/
def readGraph (ll : Llvm) : Read GraphRecords := do
  let strings ← countedIn (indexText ll)
  let nodes ← countedIn (readNodeRecord ll strings.length)
  let edges ← countedIn (readEdgeRecord strings.length)
  let derivedClasses ← countedIn (readPair strings.length)
  let methodOverrides ← countedIn (readPair strings.length)
  let effectiveImplClasses ← countedIn (readPair strings.length)
  let functionReturns ← countedIn (readPair strings.length)
  return {
    strings, nodes, edges, derivedClasses, methodOverrides, effectiveImplClasses, functionReturns }

/-! ### What the records need -/

/-- All ids of the records are interned, all texts are text and all numbers fit 32 bits. -/
structure GraphRecords.Storable (r : GraphRecords) : Prop where
  strings : r.strings.length < 2 ^ 32 ∧ ∀ s ∈ r.strings, Utf8Text s ∧ s.length < 2 ^ 32
  node_count : r.nodes.length < 2 ^ 32
  node_ids : ∀ n ∈ r.nodes, n.nameId < r.strings.length ∧ n.displayId < r.strings.length ∧
    ∀ tu ∈ n.contributors, tu < r.strings.length
  node_texts : ∀ n ∈ r.nodes, Utf8Text n.file ∧ Utf8Text n.enclosingClass
  node_fits : ∀ n ∈ r.nodes, n.file.length < 2 ^ 32 ∧ n.enclosingClass.length < 2 ^ 32 ∧
    n.line < 2 ^ 32 ∧ n.contributors.length < 2 ^ 32
  edge_count : r.edges.length < 2 ^ 32
  edge_ids : ∀ e ∈ r.edges, (e.edge.caller < r.strings.length ∧ e.edge.callee < r.strings.length ∧
    e.edge.callSite < r.strings.length) ∧ ∀ tu ∈ e.tus, tu < r.strings.length
  edge_fits : ∀ e ∈ r.edges, e.edge.refs ≠ 0 ∧ e.edge.refs < 2 ^ 32 ∧
    e.edge.indirectionDepth < 2 ^ 32 ∧ e.tus.length < 2 ^ 32
  pairs : ∀ pairs ∈ [r.derivedClasses, r.methodOverrides, r.effectiveImplClasses,
    r.functionReturns], pairs.length < 2 ^ 32 ∧
      ∀ p ∈ pairs, p.1 < r.strings.length ∧ p.2 < r.strings.length

/-! ### Round trip -/

section Codec

variable {ll : Llvm} {n : ℕ}

theorem EdgeKind.ofCode_code (k : EdgeKind) : ofCode k.code = k := by
  cases k with
  | unnamed c => simp [ofCode, code, c.2]
  | _ => rfl

theorem Confidence.ofCode_code (c : Confidence) : ofCode c.code = c := by
  cases c with
  | unnamed c => simp [ofCode, code, c.2]
  | _ => rfl

theorem ExecutionContext.ofCode_code (e : ExecutionContext) : ofCode e.code = e := by
  cases e with
  | unnamed c => simp [ofCode, code, c.2]
  | _ => rfl

theorem codes_nodeRecord (hll : ll.AcceptsUtf8) (hn : n ≤ 2 ^ 32) {r : NodeRecord}
    (hids : r.nameId < n ∧ r.displayId < n ∧ ∀ tu ∈ r.contributors, tu < n)
    (htexts : Utf8Text r.file ∧ Utf8Text r.enclosingClass)
    (hfits : r.file.length < 2 ^ 32 ∧ r.enclosingClass.length < 2 ^ 32 ∧ r.line < 2 ^ 32 ∧
      r.contributors.length < 2 ^ 32) :
    Codes True (readNodeRecord ll n) (putNodeRecord r) r := by
  have hentry : (nodeFlags r.isEntryPoint r.isVirtual &&& 1 != 0) = r.isEntryPoint := by
    cases r.isEntryPoint <;> cases r.isVirtual <;> rfl
  have hvirtual : (nodeFlags r.isEntryPoint r.isVirtual &&& 2 != 0) = r.isVirtual := by
    cases r.isEntryPoint <;> cases r.isVirtual <;> rfl
  apply Codes.congr
  · apply Codes.field (codes_id hids.1 hn)
    apply Codes.field (codes_id hids.2.1 hn)
    apply Codes.field (Codes.indexText (hll _ htexts.1))
    apply Codes.field (codes_num hfits.2.2.1)
    apply Codes.field (Codes.u8 _)
    apply Codes.field (Codes.indexText (hll _ htexts.2))
    apply Codes.field (codes_ids hids.2.2 hn hfits.2.2.2)
    rw [hentry, hvirtual]
    exact Codes.done _
  · exact iff_of_true ⟨trivial, trivial, hfits.1, trivial, trivial, hfits.2.1, trivial, trivial⟩
      trivial

theorem codes_edgeRecord (hn : n ≤ 2 ^ 32) {r : EdgeRecord}
    (hids : (r.edge.caller < n ∧ r.edge.callee < n ∧ r.edge.callSite < n) ∧ ∀ tu ∈ r.tus, tu < n)
    (hfits : r.edge.refs ≠ 0 ∧ r.edge.refs < 2 ^ 32 ∧ r.edge.indirectionDepth < 2 ^ 32 ∧
      r.tus.length < 2 ^ 32) :
    Codes True (readEdgeRecord n) (putEdgeRecord r) r := by
  apply Codes.congr
  · apply Codes.field (codes_id hids.1.1 hn)
    apply Codes.field (codes_id hids.1.2.1 hn)
    apply Codes.field (codes_id hids.1.2.2 hn)
    apply Codes.field (Codes.u8 _)
    apply Codes.field (Codes.u8 _)
    apply Codes.field (Codes.u8 _)
    apply Codes.field (codes_num hfits.2.2.1)
    apply Codes.field (Codes.checked (codes_num hfits.2.1) (decide_eq_true hfits.1))
    apply Codes.field (codes_ids hids.2 hn hfits.2.2.2)
    rw [EdgeKind.ofCode_code, Confidence.ofCode_code, ExecutionContext.ofCode_code]
    exact Codes.done _
  · simp

theorem codes_pairs (hn : n ≤ 2 ^ 32) {pairs : List (ℕ × ℕ)} (hlen : pairs.length < 2 ^ 32)
    (hids : ∀ p ∈ pairs, p.1 < n ∧ p.2 < n) :
    Codes True (countedIn (readPair n)) (putCounted putPair pairs) pairs := by
  have hpair (p : ℕ × ℕ) (hp : p ∈ pairs) : Codes True (readPair n) (putPair p) p := by
    apply Codes.congr
    · apply Codes.field (codes_id (hids p hp).1 hn)
      apply Codes.field (codes_id (hids p hp).2 hn)
      exact Codes.done _
    · simp
  exact (Codes.countedIn hpair fun p => flatten_id_ne_nil _ _).congr
    (iff_of_true ⟨hlen, fun _ _ => trivial⟩ trivial)

/-- **The records of the section are read back.** -/
theorem readGraph_putGraph (hll : ll.AcceptsUtf8) {r : GraphRecords} (h : r.Storable) :
    decodeSection (readGraph ll) (putGraph r) = some r := by
  have hn := h.strings.1.le
  have hpairs (pairs : List (ℕ × ℕ)) (hmem : pairs ∈ [r.derivedClasses, r.methodOverrides,
      r.effectiveImplClasses, r.functionReturns]) :=
    codes_pairs hn (h.pairs pairs hmem).1 (h.pairs pairs hmem).2
  have hcodes : Codes True (readGraph ll) (putGraph r) r := by
    apply Codes.congr
    · apply Codes.field (Codes.countedIn (fun s hs => Codes.indexText (hll s (h.strings.2 s hs).1))
        putStr_not_nil)
      apply Codes.field (Codes.countedIn (fun node hnode => codes_nodeRecord hll hn
        (h.node_ids node hnode) (h.node_texts node hnode) (h.node_fits node hnode))
        fun node => flatten_id_ne_nil _ _)
      apply Codes.field (Codes.countedIn (fun e he => codes_edgeRecord hn (h.edge_ids e he)
        (h.edge_fits e he)) fun e => flatten_id_ne_nil _ _)
      apply Codes.field (hpairs r.derivedClasses (by simp))
      apply Codes.field (hpairs r.methodOverrides (by simp))
      apply Codes.field (hpairs r.effectiveImplClasses (by simp))
      apply Codes.field (hpairs r.functionReturns (by simp))
      exact Codes.done _
    · exact iff_of_true ⟨⟨h.strings.1, fun s hs => (h.strings.2 s hs).2⟩,
        ⟨h.node_count, fun _ _ => trivial⟩, ⟨h.edge_count, fun _ _ => trivial⟩, trivial, trivial,
        trivial, trivial, trivial⟩ trivial
  exact hcodes.decodeSection trivial

end Codec

end Vycor
