import Vycor.Impact.Ordinals
import Vycor.PathSearch.Texts
import Vycor.Snapshot.Meta

/-!
# The diff in the mirror

`semanticDiff` of two indexes and of the same two exchanged. The functions and relationships of
the two sides are merged alike, so records, rename candidates and moves are mirrored
(`Mirrors`). The ambiguous groups are not always: the loop over them walks the groups of the
first index only, and takes a group for ambiguous by its first key, which may be marked for
another group that it is filed under. The mirror holds exactly when both sides agree on which
groups open with a marked key (`semanticDiff_mirrors_iff`).
-/

namespace Vycor

/-! ### What makes two indexes comparable -/

namespace SnapshotMeta

variable (m : SnapshotMeta)

/-- `SnapshotIO::outcomesOf`: the last outcome recorded for a path. -/
def outcomeOf (path : Bytes) : Option TuOutcome :=
  ((m.files.zip m.outcomes).reverse.find? fun p => p.1.path = path).map (·.2)

/-- The requested TUs, `std::set`. -/
def requested : List Bytes := keysOf id (m.files.map fun f => toIndexText f.path)

/-- `classify`: the TUs with an outcome of some kind. -/
def classified (kind : TuStatus → Bool) : List Bytes :=
  (((m.files.map (·.path)).dedup.filter fun path =>
    (m.outcomeOf path).any fun o => kind o.status).map toIndexText).insertionSort (· ≤ ·)

def failed : List Bytes := m.classified fun s => s ≠ .partially && s ≠ .indexed

def partlyParsed : List Bytes := m.classified fun s => s = .partially

end SnapshotMeta

/-- `checkComparability`, as far as the diff reads it. -/
def checkComparability (before after : Option SnapshotMeta) : Comparability :=
  match before, after with
  | some b, some a => {
      comparable := b.collapsePaths = a.collapsePaths &&
        (b.lockAllowlist = a.lockAllowlist && b.lockBuiltins = a.lockBuiltins) &&
        b.channelTypes = a.channelTypes
      tusOnlyBefore := b.requested.filter (· ∉ a.requested)
      tusOnlyAfter := a.requested.filter (· ∉ b.requested)
      failedBefore := b.failed
      failedAfter := a.failed
      partialBefore := b.partlyParsed
      partialAfter := a.partlyParsed }
  | _, _ => {}

/-! ### The mirror -/

def Comparability.mirror (c : Comparability) : Comparability where
  comparable := c.comparable
  tusOnlyBefore := c.tusOnlyAfter
  tusOnlyAfter := c.tusOnlyBefore
  failedBefore := c.failedAfter
  failedAfter := c.failedBefore
  partialBefore := c.partialAfter
  partialAfter := c.partialBefore

def ChangeKind.mirror : ChangeKind → ChangeKind
  | .functionRemoved => .functionAdded
  | .functionAdded => .functionRemoved
  | .callRemoved => .callAdded
  | .callAdded => .callRemoved
  | .callChanged => .callChanged
  | .contextChanged => .contextChanged

/-- An explanation with its suffix exchanged. -/
def mirrorExplanation (s : Bytes) : Bytes :=
  if text "_before" <:+ s then s.rdrop 7 ++ text "_after"
  else if text "_after" <:+ s then s.rdrop 6 ++ text "_before"
  else s

/-- A record with its sides exchanged. -/
def ChangeRecord.mirror (r : ChangeRecord) : ChangeRecord :=
  { r with
    change := r.change.mirror
    before := r.after
    after := r.before
    explanation := mirrorExplanation r.explanation }

/-- A record without the display names it shows. -/
def ChangeRecord.unnamed (r : ChangeRecord) : ChangeRecord :=
  { r with callerName := [], calleeName := [] }

def AmbiguousIdentity.mirror (a : AmbiguousIdentity) : AmbiguousIdentity where
  group := a.group
  beforeUsrs := a.afterUsrs
  afterUsrs := a.beforeUsrs
  edgesWithheldBefore := a.edgesWithheldAfter
  edgesWithheldAfter := a.edgesWithheldBefore

def RenameCandidate.mirror (r : RenameCandidate) : RenameCandidate where
  name := r.name
  beforeKey := r.afterKey
  afterKey := r.beforeKey
  beforeFile := r.afterFile
  afterFile := r.beforeFile

/-- The second result is the first one with its sides exchanged; the records come in the order
of their kinds, which the mirror changes. -/
structure SemanticDiffResult.Mirrors (r r' : SemanticDiffResult) : Prop where
  refused : r'.refused = r.refused
  changes : (r'.changes.map ChangeRecord.unnamed).Perm
    (r.changes.map fun rec => rec.mirror.unnamed)
  ambiguous : r'.ambiguous = r.ambiguous.map AmbiguousIdentity.mirror
  renameCandidates : r'.renameCandidates.Perm (r.renameCandidates.map RenameCandidate.mirror)
  moves : r'.moves.length = r.moves.length
  movedFunctions : r'.movedFunctions = r.movedFunctions

namespace IdentityTable

/-- The first key filed under a group is marked: it is filed under a group that both tables
have, in different sizes. -/
def OpensMarked (a b : IdentityTable) (group : Bytes) : Bool :=
  (entriesOf Prod.fst a.groups group).head?.any fun q =>
    a.groups.any fun p => p.2 = q.2 && sizesDiffer a b p.1

end IdentityTable

/-- The two graphs open the same groups with a marked key. -/
def OpenAlike (ll : Llvm) (before after : CallGraph) : Prop :=
  ∀ group,
    (IdentityTable.build ll before).OpensMarked (IdentityTable.build ll after) group =
      (IdentityTable.build ll after).OpensMarked (IdentityTable.build ll before) group

/-! ### Comparability and explanations -/

theorem checkComparability_swap (before after : Option SnapshotMeta) :
    checkComparability after before = (checkComparability before after).mirror := by
  cases before <;> cases after
  · rfl
  · rfl
  · rfl
  · simp only [checkComparability, Comparability.mirror, eq_comm]

theorem mirrorExplanation_explainAbsence (file : Bytes) (absent failed partly : List Bytes) :
    mirrorExplanation (explainAbsence file absent failed partly (text "after")) =
        explainAbsence file absent failed partly (text "before") ∧
      mirrorExplanation (explainAbsence file absent failed partly (text "before")) =
        explainAbsence file absent failed partly (text "after") := by
  simp only [explainAbsence]
  split
  · decide +kernel
  split
  · decide +kernel
  split
  · decide +kernel
  · decide +kernel

/-! ### The merged maps -/

section Merge

variable {κ ν : Type*} [LinearOrder κ]

theorem mergedMaps_swap (before after : List (κ × ν)) :
    mergedMaps after before = (mergedMaps before after).map fun p => (p.1, p.2.2, p.2.1) := by
  have hkeys : keysOf Prod.fst (after ++ before) = keysOf Prod.fst (before ++ after) :=
    keysOf_congr fun k => by simp only [List.mem_append, or_comm]
  rw [mergedMaps, mergedMaps, hkeys, List.map_map]
  rfl

end Merge

theorem functionChanges_mirror (c : Comparability)
    (merged : List (Bytes × Option FunctionFacts × Option FunctionFacts)) :
    functionChanges c.mirror (merged.map fun p => (p.1, p.2.2, p.2.1)) =
      (functionChanges c merged).map ChangeRecord.mirror := by
  rw [functionChanges, functionChanges, List.filterMap_map, List.map_filterMap]
  refine List.filterMap_congr fun p _ => ?_
  obtain ⟨key, _ | b, _ | a⟩ := p
  · rfl
  · simp only [Function.comp_apply, Option.map_some, ChangeRecord.mirror, ChangeKind.mirror,
      (mirrorExplanation_explainAbsence _ _ _ _).2, Comparability.mirror]
  · simp only [Function.comp_apply, Option.map_some, ChangeRecord.mirror, ChangeKind.mirror,
      (mirrorExplanation_explainAbsence _ _ _ _).1, Comparability.mirror]
  · rfl

theorem length_functionMoves_swap
    (merged : List (Bytes × Option FunctionFacts × Option FunctionFacts)) :
    (functionMoves (merged.map fun p => (p.1, p.2.2, p.2.1))).length =
      (functionMoves merged).length := by
  rw [functionMoves, functionMoves, List.length_filterMap_eq_countP,
    List.length_filterMap_eq_countP, List.countP_map]
  refine List.countP_congr fun p _ => ?_
  obtain ⟨key, _ | b, _ | a⟩ := p
  · rfl
  · rfl
  · rfl
  · simp only [Function.comp_apply, ne_comm]
    split <;> rfl

/-- Pairs may be listed by either component first. -/
theorem flatMap_flatMap_perm {α β γ : Type*} (l : List α) (l' : List β) (f : α → β → List γ) :
    (l.flatMap fun a => l'.flatMap (f a)).Perm (l'.flatMap fun b => l.flatMap fun a => f a b) := by
  rw [← Multiset.coe_eq_coe, ← Multiset.coe_bind, ← Multiset.coe_bind]
  simp only [← Multiset.coe_bind]
  exact Multiset.bind_bind _ _

/-- The functions that only the first side has. -/
def removedFunctions (merged : List (Bytes × Option FunctionFacts × Option FunctionFacts)) :
    List FunctionFacts :=
  merged.filterMap fun p => if p.2.2.isNone then p.2.1 else none

/-- The functions of two lists that share a name. -/
def renamePairs (removed added : List FunctionFacts) : List RenameCandidate :=
  removed.flatMap fun b => added.flatMap fun a =>
    if a.name = b.name then [⟨b.name, b.key, a.key, b.file, a.file⟩] else []

theorem renamesOf_perm (merged : List (Bytes × Option FunctionFacts × Option FunctionFacts)) :
    (renamesOf merged).Perm (renamePairs (removedFunctions merged)
      (removedFunctions (merged.map fun p => (p.1, p.2.2, p.2.1)))) := by
  have hfilter (l : List FunctionFacts) (name : Bytes) (mk : FunctionFacts → RenameCandidate) :
      (l.filter fun f => f.name = name).map mk =
        l.flatMap fun f => if f.name = name then [mk f] else [] := by
    induction l with
    | nil => rfl
    | cons f l ih =>
      rw [List.filter_cons, List.flatMap_cons, ← ih]
      by_cases h : f.name = name <;> simp [h]
  rw [renamesOf]
  refine (List.perm_insertionSort _ _).trans (.of_eq ?_)
  simp only [hfilter, renamePairs, removedFunctions, List.filterMap_map]
  congr 1
  · funext b
    congr 1
    refine List.filterMap_congr fun p _ => ?_
    obtain ⟨key, _ | b, _ | a⟩ := p <;> rfl
  · refine List.filterMap_congr fun p _ => ?_
    obtain ⟨key, _ | b, _ | a⟩ := p <;> rfl

theorem renamesOf_mirror
    (merged : List (Bytes × Option FunctionFacts × Option FunctionFacts)) :
    (renamesOf (merged.map fun p => (p.1, p.2.2, p.2.1))).Perm
      ((renamesOf merged).map RenameCandidate.mirror) := by
  have hback : (merged.map fun p => (p.1, p.2.2, p.2.1)).map (fun p => (p.1, p.2.2, p.2.1)) =
      merged := by
    rw [List.map_map]
    exact List.map_id _
  have hpairs (removed added : List FunctionFacts) :
      (renamePairs removed added).map RenameCandidate.mirror =
        removed.flatMap fun b => added.flatMap fun a =>
          if b.name = a.name then [⟨a.name, a.key, b.key, a.file, b.file⟩] else [] := by
    simp only [renamePairs, List.map_flatMap]
    refine List.flatMap_congr fun b _ => List.flatMap_congr fun a _ => ?_
    by_cases h : a.name = b.name
    · simp [h, RenameCandidate.mirror]
    · simp [h, Ne.symm h]
  have h := renamesOf_perm (merged.map fun p => (p.1, p.2.2, p.2.1))
  rw [hback] at h
  refine h.trans (.trans ?_ ((renamesOf_perm merged).map RenameCandidate.mirror).symm)
  rw [hpairs]
  exact flatMap_flatMap_perm _ _ _

/-! ### Relationships -/

/-- The changes of a relationship, mirrored, where the two values repeat the key. -/
theorem relationshipChange_mirror {contexts : Bool} {maxSites : ℕ} {vb va : Option RelValue}
    (h : ∀ b ∈ vb, ∀ a ∈ va,
      b.callerKey = a.callerKey ∧ b.calleeKey = a.calleeKey ∧ b.kind = a.kind) :
    (relationshipChange contexts maxSites va vb).map ChangeRecord.unnamed =
      (relationshipChange contexts maxSites vb va).map fun rec => rec.mirror.unnamed := by
  have hempty : mirrorExplanation [] = [] := by decide +kernel
  obtain _ | b := vb <;> obtain _ | a := va
  · rfl
  · simp [relationshipChange, ChangeRecord.mirror, ChangeRecord.unnamed, ChangeKind.mirror, hempty]
  · simp [relationshipChange, ChangeRecord.mirror, ChangeRecord.unnamed, ChangeKind.mirror, hempty]
  · obtain ⟨hcaller, hcallee, hkind⟩ := h b rfl a rfl
    have hmirror (change : ChangeKind) (hchange : change.mirror = change) :
        ChangeRecord.unnamed
            { change := change, callerKey := a.callerKey, calleeKey := a.calleeKey, kind := a.kind
              callerName := b.callerName, calleeName := b.calleeName
              before := some (trimSites maxSites a.side)
              after := some (trimSites maxSites b.side) } =
          ChangeRecord.unnamed (ChangeRecord.mirror
            { change := change, callerKey := b.callerKey, calleeKey := b.calleeKey, kind := b.kind
              callerName := a.callerName, calleeName := a.calleeName
              before := some (trimSites maxSites b.side)
              after := some (trimSites maxSites a.side) }) := by
      simp only [ChangeRecord.unnamed, ChangeRecord.mirror, hchange, hempty, hcaller, hcallee, hkind]
    simp only [relationshipChange, List.map_append, ne_comm (a := a.side.attributes),
      ne_comm (a := a.side.signatures)]
    congr 1
    · split
      · simpa using hmirror .callChanged rfl
      · rfl
    · split
      · simpa using hmirror .contextChanged rfl
      · rfl

/-- The value of a relationship repeats its key. -/
theorem repeats_of_valueAt {ll : Llvm} {identity : IdentityTable} {side : DiffSide}
    {signatures : Option (Bytes → Bytes → Bytes → Bytes)} {key : Bytes ×ₗ (Bytes ×ₗ ℕ)}
    {v : RelValue} (h : valueAt (collectSide ll identity side signatures).relationships key = some v) :
    v.callerKey = (ofLex key).1 ∧ v.calleeKey = (ofLex (ofLex key).2).1 ∧
      v.kind.value = (ofLex (ofLex key).2).2 := by
  have hmem := mem_of_valueAt h
  refine ⟨(keys_of_mem_relationships hmem).1, (keys_of_mem_relationships hmem).2, ?_⟩
  obtain ⟨p, hp, hv⟩ := List.mem_filterMap.mp hmem
  obtain ⟨k, -, rfl⟩ := List.mem_map.mp hp
  obtain ⟨e, he, hpair⟩ := Option.map_eq_some_iff.mp hv
  obtain ⟨rfl, rfl⟩ := Prod.mk.inj hpair
  rw [← (mem_entriesOf.mp (List.mem_of_head? he)).2]
  rfl

theorem relationshipChanges_mirror {ll : Llvm} {idB idA : IdentityTable} {before after : DiffSide}
    {contexts : Bool} {maxSites : ℕ} :
    (((mergedMaps (collected ll idA contexts after).relationships
        (collected ll idB contexts before).relationships).flatMap fun p =>
      relationshipChange contexts maxSites p.2.1 p.2.2).map ChangeRecord.unnamed) =
    ((mergedMaps (collected ll idB contexts before).relationships
        (collected ll idA contexts after).relationships).flatMap fun p =>
      relationshipChange contexts maxSites p.2.1 p.2.2).map fun rec => rec.mirror.unnamed := by
  rw [mergedMaps_swap, List.flatMap_map, List.map_flatMap, List.map_flatMap]
  refine List.flatMap_congr fun p hp => relationshipChange_mirror fun b hb a ha => ?_
  obtain ⟨-, hbefore, hafter⟩ := mem_mergedMaps_iff.mp hp
  obtain ⟨hcallerB, hcalleeB, hkindB⟩ := repeats_of_valueAt (hbefore.symm.trans hb)
  obtain ⟨hcallerA, hcalleeA, hkindA⟩ := repeats_of_valueAt (hafter.symm.trans ha)
  exact ⟨hcallerB.trans hcallerA.symm, hcalleeB.trans hcalleeA.symm,
    EdgeKind.value_injective (hkindB.trans hkindA.symm)⟩

/-! ### Ambiguous groups -/

namespace IdentityTable

/-- The first key of a group is marked. -/
def Opens (t : IdentityTable) (group : Bytes) : Bool :=
  (entriesOf Prod.fst t.groups group).head?.any fun q => t.isAmbiguous q.2

theorem opens_markedAgainst {ll : Llvm} (g g' : CallGraph) (group : Bytes) :
    ((build ll g).markedAgainst (build ll g')).Opens group =
      (build ll g).OpensMarked (build ll g') group := rfl

/-- The groups that a table opens, in order. -/
def openGroups (t : IdentityTable) : List Bytes := (keysOf Prod.fst t.groups).filter t.Opens

theorem mem_openGroups {t : IdentityTable} {group : Bytes} :
    group ∈ t.openGroups ↔ t.Opens group = true := by
  rw [openGroups, List.mem_filter, and_iff_right_iff_imp]
  intro h
  obtain ⟨q, hq, -⟩ := (Option.any_eq_true _ _).mp h
  exact mem_keysOf.mpr ⟨q, mem_entriesOf.mp (List.mem_of_head? hq)⟩

theorem openGroups_eq_iff {a b : IdentityTable} :
    a.openGroups = b.openGroups ↔ ∀ group, a.Opens group = b.Opens group := by
  have hsorted (t : IdentityTable) : t.openGroups.Pairwise (· ≤ ·) :=
    (List.pairwise_insertionSort _ _).filter _
  have hnodup (t : IdentityTable) : t.openGroups.Nodup := (nodup_keysOf _ _).filter _
  constructor
  · intro h group
    rw [Bool.eq_iff_iff, ← mem_openGroups, ← mem_openGroups, h]
  · intro h
    have hperm : a.openGroups.Perm b.openGroups :=
      (List.perm_ext_iff_of_nodup (hnodup a) (hnodup b)).mpr fun group => by
        rw [mem_openGroups, mem_openGroups, h]
    exact hperm.eq_of_pairwise (fun _ _ _ _ => le_antisymm) (hsorted a) (hsorted b)

end IdentityTable

/-- A group with what is withheld of it. -/
def ambiguousEntry (idB idA : IdentityTable) (sideB sideA : CollectedSide) (group : Bytes) :
    AmbiguousIdentity where
  group := group
  beforeUsrs := (entriesOf Prod.fst idB.groups group).filterMap fun q => idB.usrOf q.2
  afterUsrs := (entriesOf Prod.fst idA.groups group).filterMap fun q => idA.usrOf q.2
  edgesWithheldBefore := sideB.withheld group
  edgesWithheldAfter := sideA.withheld group

theorem ambiguousGroups_eq (idB idA : IdentityTable) (sideB sideA : CollectedSide) :
    ambiguousGroups idB idA sideB sideA =
      idB.openGroups.map (ambiguousEntry idB idA sideB sideA) := by
  rw [ambiguousGroups, groupedBy, List.filterMap_map, IdentityTable.openGroups,
    ← List.filterMap_eq_map, List.filterMap_filter]
  rfl

theorem ambiguousGroups_mirror_iff {idB idA : IdentityTable} {sideB sideA : CollectedSide} :
    ambiguousGroups idA idB sideA sideB =
        (ambiguousGroups idB idA sideB sideA).map AmbiguousIdentity.mirror ↔
      ∀ group, idB.Opens group = idA.Opens group := by
  have hentry : AmbiguousIdentity.mirror ∘ ambiguousEntry idB idA sideB sideA =
      ambiguousEntry idA idB sideA sideB := rfl
  have hinj : Function.Injective (ambiguousEntry idA idB sideA sideB) := fun _ _ h =>
    congrArg AmbiguousIdentity.group h
  rw [ambiguousGroups_eq, ambiguousGroups_eq, List.map_map, hentry,
    hinj.list_map.eq_iff, IdentityTable.openGroups_eq_iff]
  exact forall_congr' fun _ => eq_comm

/-! ### The mirror of a diff -/

section Run

variable {ll : Llvm} {c : Comparability} {before after : DiffSide} {opts : SemanticDiffOptions}

theorem contextsCompared_swap (before after : DiffSide) :
    contextsCompared opts after before = contextsCompared opts before after := by
  simp only [contextsCompared, Bool.and_assoc, Bool.and_comm after.signatures.isSome]

theorem sideBefore_swap (before after : DiffSide) :
    sideBefore ll after before opts = sideAfter ll before after opts := by
  rw [sideBefore, sideAfter, contextsCompared_swap]
  rfl

/-- The functions of the two sides, merged. -/
def mergedFunctions (ll : Llvm) (before after : DiffSide) (opts : SemanticDiffOptions) :
    List (Bytes × Option FunctionFacts × Option FunctionFacts) :=
  mergedMaps (sideBefore ll before after opts).functions (sideAfter ll before after opts).functions

/-- The changes of the relationships of the two sides. -/
def relationshipChanges (ll : Llvm) (before after : DiffSide) (opts : SemanticDiffOptions) :
    List ChangeRecord :=
  (mergedMaps (sideBefore ll before after opts).relationships
    (sideAfter ll before after opts).relationships).flatMap fun p =>
      relationshipChange (contextsCompared opts before after) opts.maxSites p.2.1 p.2.2

/-- What a diff that is not refused reports. -/
structure SemanticDiffResult.Reports (ll : Llvm) (c : Comparability) (before after : DiffSide)
    (opts : SemanticDiffOptions) (r : SemanticDiffResult) : Prop where
  refused : r.refused = false
  changes : r.changes.Perm
    (functionChanges c (mergedFunctions ll before after opts) ++
      relationshipChanges ll before after opts)
  ambiguous : r.ambiguous =
    ambiguousGroups (identityTables ll before.graph after.graph).1
      (identityTables ll before.graph after.graph).2 (sideBefore ll before after opts)
      (sideAfter ll before after opts)
  renameCandidates : r.renameCandidates = renamesOf (mergedFunctions ll before after opts)
  moves : r.moves =
    if opts.includeMoves then functionMoves (mergedFunctions ll before after opts) else []
  movedFunctions : r.movedFunctions =
    (functionMoves (mergedFunctions ll before after opts)).length

theorem reports_semanticDiff (before after : DiffSide)
    (hrun : (!c.comparable && !opts.allowMismatch) = false) :
    (semanticDiff ll c before after opts).Reports ll c before after opts := by
  have hopen : ¬ (!c.comparable && !opts.allowMismatch) = true := by simp [hrun]
  constructor <;> unfold semanticDiff <;> rw [if_neg hopen] <;>
    simp only [mergedFunctions, relationshipChanges, sideBefore, sideAfter, identityTables,
      IdentityTable.markAmbiguousGroups]
  exact List.perm_insertionSort _ _

theorem mergedFunctions_swap : mergedFunctions ll after before opts =
    (mergedFunctions ll before after opts).map fun p => (p.1, p.2.2, p.2.1) := by
  rw [mergedFunctions, sideBefore_swap before after, ← sideBefore_swap after before, mergedMaps_swap]
  rfl

theorem relationshipChanges_swap :
    (relationshipChanges ll after before opts).map ChangeRecord.unnamed =
      (relationshipChanges ll before after opts).map fun rec => rec.mirror.unnamed := by
  rw [relationshipChanges, sideBefore_swap before after, ← sideBefore_swap after before,
    contextsCompared_swap]
  exact relationshipChanges_mirror

end Run

/-- **The diff of two indexes exchanged is the mirror of their diff exactly when the indexes
agree on the groups that open with a marked key**, or the diff is refused. -/
theorem semanticDiff_mirrors_iff (ll : Llvm) (metaBefore metaAfter : Option SnapshotMeta)
    (before after : DiffSide) (opts : SemanticDiffOptions) :
    (semanticDiff ll (checkComparability metaBefore metaAfter) before after opts).Mirrors
        (semanticDiff ll (checkComparability metaAfter metaBefore) after before opts) ↔
      (((checkComparability metaBefore metaAfter).comparable || opts.allowMismatch) = true →
        OpenAlike ll before.graph after.graph) := by
  rw [checkComparability_swap metaBefore metaAfter]
  generalize checkComparability metaBefore metaAfter = c
  by_cases hrun : (c.comparable || opts.allowMismatch) = true
  · have hopen : (!c.comparable && !opts.allowMismatch) = false := by
      rw [← Bool.not_or, hrun]
      rfl
    have hopen' : (!c.mirror.comparable && !opts.allowMismatch) = false := hopen
    have h : (semanticDiff ll c before after opts).Reports ll c before after opts :=
      reports_semanticDiff before after hopen
    have h' : (semanticDiff ll c.mirror after before opts).Reports ll c.mirror after before opts :=
      reports_semanticDiff after before hopen'
    have hgroups : (semanticDiff ll c.mirror after before opts).ambiguous =
        (semanticDiff ll c before after opts).ambiguous.map AmbiguousIdentity.mirror ↔
          OpenAlike ll before.graph after.graph := by
      rw [h.ambiguous, h'.ambiguous, sideBefore_swap before after, ← sideBefore_swap after before]
      exact ambiguousGroups_mirror_iff
    rw [imp_iff_right hrun, ← hgroups]
    refine ⟨fun hmirror => hmirror.ambiguous, fun hambiguous => ⟨?_, ?_, hambiguous, ?_, ?_, ?_⟩⟩
    · rw [h.refused, h'.refused]
    · refine (h'.changes.map _).trans (.trans (.of_eq ?_) (h.changes.map _).symm)
      rw [List.map_append, List.map_append, mergedFunctions_swap, functionChanges_mirror,
        List.map_map, relationshipChanges_swap]
      rfl
    · rw [h.renameCandidates, h'.renameCandidates, mergedFunctions_swap]
      exact renamesOf_mirror _
    · rw [h.moves, h'.moves, mergedFunctions_swap]
      split
      · exact length_functionMoves_swap _
      · rfl
    · rw [h.movedFunctions, h'.movedFunctions, mergedFunctions_swap, length_functionMoves_swap]
  · rw [Bool.not_eq_true] at hrun
    have hrefused : (!c.comparable && !opts.allowMismatch) = true := by
      rw [← Bool.not_or, hrun]
      rfl
    have hrefused' : (!c.mirror.comparable && !opts.allowMismatch) = true := hrefused
    rw [semanticDiff, semanticDiff, if_pos hrefused, if_pos hrefused']
    exact iff_of_true ⟨rfl, .refl _, rfl, .refl _, rfl, rfl⟩ fun h => by simp [hrun] at h

namespace IdentityTable

variable {a b : IdentityTable}

theorem sizesDiffer_comm (group : Bytes) : sizesDiffer a b group = sizesDiffer b a group := by
  simp only [sizesDiffer, ne_comm (a := a.groupSizes group),
    Bool.and_comm (decide (group ∈ a.groups.map Prod.fst))]

/-- Where every key is filed under one group, a group opens with a marked key when its sizes
differ. -/
theorem opensMarked_of_filedOnce (h : ∀ p ∈ a.groups, ∀ q ∈ a.groups, p.2 = q.2 → p.1 = q.1)
    (group : Bytes) : a.OpensMarked b group = sizesDiffer a b group := by
  rw [OpensMarked]
  cases hhead : (entriesOf Prod.fst a.groups group).head? with
  | none =>
    have hnone : group ∉ a.groups.map Prod.fst := by
      rw [List.mem_map]
      rintro ⟨p, hp, hgroup⟩
      exact List.not_mem_nil (List.head?_eq_none_iff.mp hhead ▸ mem_entriesOf.mpr ⟨hp, hgroup⟩)
    simp [sizesDiffer, hnone]
  | some q =>
    obtain ⟨hq, hgroup⟩ := mem_entriesOf.mp (List.mem_of_head? hhead)
    rw [Option.any_some, Bool.eq_iff_iff, List.any_eq_true]
    constructor
    · rintro ⟨p, hp, hmarked⟩
      rw [Bool.and_eq_true, decide_eq_true_eq] at hmarked
      rw [← hgroup, ← h p hp q hq hmarked.1]
      exact hmarked.2
    · intro hdiffer
      exact ⟨q, hq, by simp [hgroup, hdiffer]⟩

end IdentityTable

/-- Graphs that file every key under one group open the same groups. -/
theorem openAlike_of_filedOnce {ll : Llvm} {g g' : CallGraph}
    (h : ∀ p ∈ (IdentityTable.build ll g).groups, ∀ q ∈ (IdentityTable.build ll g).groups,
      p.2 = q.2 → p.1 = q.1)
    (h' : ∀ p ∈ (IdentityTable.build ll g').groups, ∀ q ∈ (IdentityTable.build ll g').groups,
      p.2 = q.2 → p.1 = q.1) : OpenAlike ll g g' := fun group => by
  rw [IdentityTable.opensMarked_of_filedOnce h, IdentityTable.opensMarked_of_filedOnce h',
    IdentityTable.sizesDiffer_comm]

/-- Three usrs with two positions each. Two of them spell one offset in two ways, and get one
key in two groups. -/
def twoSpellings : List Registration :=
  [.node { qualifiedName := text "f", usr := text "a.c@1@b.c@10@Sa" } [],
    .node { qualifiedName := text "g", usr := text "a.c@1@b.c@010@Sa" } [],
    .node { qualifiedName := text "h", usr := text "a.c@2@b.c@10@Sa" } []]

/-- One of the groups is only in the first index, and listed only from there. -/
theorem semanticDiff_mirrors_fails :
    ¬ ∀ (ll : Llvm) (metaBefore metaAfter : Option SnapshotMeta) (before after : DiffSide)
      (opts : SemanticDiffOptions),
      (semanticDiff ll (checkComparability metaBefore metaAfter) before after opts).Mirrors
        (semanticDiff ll (checkComparability metaAfter metaBefore) after before opts) := by
  intro h
  have hmirror := (h utf8Llvm none none ⟨({} : CallGraph).registerAll twoSpellings, none⟩
    ⟨({} : CallGraph).registerAll (twoSpellings.take 1), none⟩ {}).ambiguous
  have hlength := congrArg List.length hmirror
  rw [List.length_map] at hlength
  revert hlength
  decide +kernel

end Vycor
