import Vycor.Impact.Diff

/-!
# Undecidable ordinals

A rank says nothing across two indexes when the group it was drawn from has different sizes
in the two: the member that came or went cannot be told. `markAmbiguousGroups` withholds the
keys filed under such a group. A key may embed ranks of other groups as well, those of the
lambdas around a lambda and those of the later fragments of a usr, and for these the table
keeps no mark. `semanticDiff_ordinals_iff` says exactly when nothing is compared by an
undecidable rank.
-/

namespace Vycor

/-! ### What is compared -/

section Compared

variable {ll : Llvm} {identity : IdentityTable} {side : DiffSide}
  {signatures : Option (Bytes → Bytes → Bytes → Bytes)} {k : Bytes}

/-- The first entries of the groups are under their keys. -/
theorem exists_mem_groupedBy_head {α κ β : Type*} [LinearOrder κ] {key : α → κ} {l : List α}
    {f : κ × List α → α → β} {k : κ} :
    (∃ v, (k, v) ∈ (groupedBy key l).filterMap fun p => p.2.head?.map fun a => (p.1, f p a)) ↔
      ∃ a ∈ l, key a = k := by
  constructor
  · rintro ⟨v, hv⟩
    obtain ⟨p, hp, hfirst⟩ := List.mem_filterMap.mp hv
    obtain ⟨k', hk', rfl⟩ := List.mem_map.mp hp
    obtain ⟨a, -, ha⟩ := Option.map_eq_some_iff.mp hfirst
    rw [Prod.mk.injEq] at ha
    obtain ⟨rfl, -⟩ := ha
    exact mem_keysOf.mp hk'
  · rintro ⟨a, ha, rfl⟩
    obtain ⟨b, hb⟩ : ∃ b, (entriesOf key l (key a)).head? = some b := by
      rw [← Option.isSome_iff_exists, List.isSome_head?]
      simpa using List.ne_nil_of_mem (mem_entriesOf.mpr ⟨ha, rfl⟩)
    refine ⟨f (key a, entriesOf key l (key a)) b, List.mem_filterMap.mpr
      ⟨(key a, entriesOf key l (key a)), List.mem_map.mpr ⟨_, mem_keysOf.mpr ⟨a, ha, rfl⟩, rfl⟩, ?_⟩⟩
    rw [hb]
    rfl

/-- The compared functions: the nodes whose keys are not withheld. -/
theorem mem_functions_iff :
    (∃ f, (k, f) ∈ (collectSide ll identity side signatures).functions) ↔
      (∃ n ∈ side.graph.nodesByUsr, identity.keyOf n.usr = k) ∧ identity.isAmbiguous k = false := by
  refine exists_mem_groupedBy_head.trans ?_
  constructor
  · rintro ⟨f, hf, rfl⟩
    obtain ⟨hmem, hamb⟩ := List.mem_filter.mp hf
    obtain ⟨n, hn, rfl⟩ := List.mem_map.mp hmem
    exact ⟨⟨n, hn, rfl⟩, by simpa using hamb⟩
  · rintro ⟨⟨n, hn, rfl⟩, hamb⟩
    exact ⟨factsOfNode identity n, List.mem_filter.mpr ⟨List.mem_map_of_mem hn, by
      simpa [factsOfNode] using hamb⟩, rfl⟩

theorem withheldFor_eq_none_iff {e : CallGraphEdge} : withheldFor identity e = none ↔
    identity.isAmbiguous (identity.keyOf e.callerUsr) = false ∧
      identity.isAmbiguous (identity.keyOf e.calleeUsr) = false := by
  unfold withheldFor
  split_ifs with h h'
  · simp [h]
  · simp [h']
  · simp [h, h']

/-- The compared relationships: the edges with neither key withheld. -/
theorem mem_relationships_iff {key : Bytes ×ₗ (Bytes ×ₗ ℕ)} :
    (∃ v, (key, v) ∈ (collectSide ll identity side signatures).relationships) ↔
      ∃ e ∈ sideEdges ll side.graph, withheldFor identity e = none ∧
        relKeyOf identity e = key := by
  refine exists_mem_groupedBy_head.trans ?_
  simp only [List.mem_filter, Option.isNone_iff_eq_none, and_assoc]

/-- A key that a side compares: of a function or at an end of a relationship. -/
def CollectedSide.Compares (s : CollectedSide) (k : Bytes) : Prop :=
  (∃ f, (k, f) ∈ s.functions) ∨
    ∃ key v, (key, v) ∈ s.relationships ∧ ((ofLex key).1 = k ∨ (ofLex (ofLex key).2).1 = k)

/-- The places of a key in a graph: on a node, or at the end of an edge whose other end is not
withheld. -/
def OpenPlace (ll : Llvm) (identity : IdentityTable) (g : CallGraph) (k : Bytes) : Prop :=
  (∃ n ∈ g.nodesByUsr, identity.keyOf n.usr = k) ∨
    ∃ e ∈ sideEdges ll g,
      (identity.keyOf e.callerUsr = k ∧ identity.isAmbiguous (identity.keyOf e.calleeUsr) = false) ∨
      (identity.keyOf e.calleeUsr = k ∧ identity.isAmbiguous (identity.keyOf e.callerUsr) = false)

theorem compares_iff : (collectSide ll identity side signatures).Compares k ↔
    OpenPlace ll identity side.graph k ∧ identity.isAmbiguous k = false := by
  unfold CollectedSide.Compares OpenPlace
  rw [mem_functions_iff]
  constructor
  · rintro (⟨hn, hamb⟩ | ⟨key, v, hv, hend⟩)
    · exact ⟨.inl hn, hamb⟩
    · obtain ⟨e, he, hkept, rfl⟩ := mem_relationships_iff.mp ⟨v, hv⟩
      obtain ⟨hcaller, hcallee⟩ := withheldFor_eq_none_iff.mp hkept
      rcases hend with rfl | rfl
      · exact ⟨.inr ⟨e, he, .inl ⟨rfl, hcallee⟩⟩, hcaller⟩
      · exact ⟨.inr ⟨e, he, .inr ⟨rfl, hcaller⟩⟩, hcallee⟩
  · rintro ⟨hn | ⟨e, he, ⟨rfl, hcallee⟩ | ⟨rfl, hcaller⟩⟩, hamb⟩
    · exact .inl ⟨hn, hamb⟩
    · obtain ⟨v, hv⟩ := mem_relationships_iff.mpr
        ⟨e, he, withheldFor_eq_none_iff.mpr ⟨hamb, hcallee⟩, rfl⟩
      exact .inr ⟨_, v, hv, .inl rfl⟩
    · obtain ⟨v, hv⟩ := mem_relationships_iff.mpr
        ⟨e, he, withheldFor_eq_none_iff.mpr ⟨hcaller, hamb⟩, rfl⟩
      exact .inr ⟨_, v, hv, .inr rfl⟩

end Compared

/-! ### The records and the matches -/

section Merge

variable {κ ν : Type*} [LinearOrder κ] {before after : List (κ × ν)} {k : κ}

theorem mem_of_valueAt {m : List (κ × ν)} {v : ν} (h : valueAt m k = some v) : (k, v) ∈ m := by
  obtain ⟨p, hp, rfl⟩ := Option.map_eq_some_iff.mp h
  have hk : p.1 = k := by simpa using List.find?_some hp
  rw [← hk]
  exact List.mem_of_find?_eq_some hp

theorem exists_valueAt {m : List (κ × ν)} {v : ν} (h : (k, v) ∈ m) :
    ∃ v', valueAt m k = some v' := by
  rw [valueAt, ← Option.isSome_iff_exists, Option.isSome_map, List.find?_isSome]
  exact ⟨(k, v), h, by simp⟩

theorem mem_mergedMaps_iff {p : κ × Option ν × Option ν} : p ∈ mergedMaps before after ↔
    ((∃ v, (p.1, v) ∈ before) ∨ ∃ v, (p.1, v) ∈ after) ∧ p.2.1 = valueAt before p.1 ∧
      p.2.2 = valueAt after p.1 := by
  obtain ⟨k, vb, va⟩ := p
  simp only [mergedMaps, List.mem_map, mem_keysOf, List.mem_append, Prod.mk.injEq, Prod.exists]
  constructor
  · rintro ⟨k', ⟨k'', v, hv, rfl⟩, rfl, rfl, rfl⟩
    exact ⟨hv.imp (⟨v, ·⟩) (⟨v, ·⟩), rfl, rfl⟩
  · rintro ⟨⟨v, hv⟩ | ⟨v, hv⟩, rfl, rfl⟩
    · exact ⟨k, ⟨k, v, .inl hv, rfl⟩, rfl, rfl, rfl⟩
    · exact ⟨k, ⟨k, v, .inr hv, rfl⟩, rfl, rfl, rfl⟩

end Merge

/-- The change is about a relationship. -/
def ChangeKind.OfCall : ChangeKind → Prop
  | .functionRemoved | .functionAdded => False
  | _ => True

/-- A change record names the key. -/
def SemanticDiffResult.Records (r : SemanticDiffResult) (k : Bytes) : Prop :=
  ∃ rec ∈ r.changes, rec.callerKey = k ∨ rec.change.OfCall ∧ rec.calleeKey = k

/-- The key is matched between two sides, on a function or a relationship. -/
def Matches (before after : CollectedSide) (k : Bytes) : Prop :=
  (∃ f f', (k, f) ∈ before.functions ∧ (k, f') ∈ after.functions) ∨
    ∃ key v v', (key, v) ∈ before.relationships ∧ (key, v') ∈ after.relationships ∧
      ((ofLex key).1 = k ∨ (ofLex (ofLex key).2).1 = k)

section Diff

variable {ll : Llvm} {c : Comparability} {before after : DiffSide} {opts : SemanticDiffOptions}

/-- The value of a relationship repeats its key. -/
theorem keys_of_mem_relationships {identity : IdentityTable} {side : DiffSide}
    {signatures : Option (Bytes → Bytes → Bytes → Bytes)} {key : Bytes ×ₗ (Bytes ×ₗ ℕ)}
    {v : RelValue} (h : (key, v) ∈ (collectSide ll identity side signatures).relationships) :
    v.callerKey = (ofLex key).1 ∧ v.calleeKey = (ofLex (ofLex key).2).1 := by
  obtain ⟨p, -, hv⟩ := List.mem_filterMap.mp h
  obtain ⟨e, -, he⟩ := Option.map_eq_some_iff.mp hv
  rw [Prod.mk.injEq] at he
  obtain ⟨rfl, rfl⟩ := he
  exact ⟨rfl, rfl⟩

/-- The side a diff collects. -/
def sideBefore (ll : Llvm) (before after : DiffSide) (opts : SemanticDiffOptions) : CollectedSide :=
  collected ll (identityTables ll before.graph after.graph).1 (contextsCompared opts before after)
    before

@[inherit_doc sideBefore]
def sideAfter (ll : Llvm) (before after : DiffSide) (opts : SemanticDiffOptions) : CollectedSide :=
  collected ll (identityTables ll before.graph after.graph).2 (contextsCompared opts before after)
    after

/-- The changes of a diff that was not refused. -/
theorem mem_changes_iff (hrun : (!c.comparable && !opts.allowMismatch) = false)
    {rec : ChangeRecord} : rec ∈ (semanticDiff ll c before after opts).changes ↔
      rec ∈ functionChanges c (mergedMaps (sideBefore ll before after opts).functions
        (sideAfter ll before after opts).functions) ∨
      ∃ p ∈ mergedMaps (sideBefore ll before after opts).relationships
        (sideAfter ll before after opts).relationships,
        rec ∈ relationshipChange (contextsCompared opts before after) opts.maxSites p.2.1 p.2.2 := by
  unfold semanticDiff
  rw [hrun, if_neg (by simp)]
  dsimp only
  rw [(List.perm_insertionSort _ _).mem_iff, List.mem_append, List.mem_flatMap]
  rfl

/-- The ends of a relationship record are those of a relationship of either side. -/
theorem ends_of_mem_relationshipChange {contexts : Bool} {maxSites : ℕ} {vb va : Option RelValue}
    {rec : ChangeRecord} (h : rec ∈ relationshipChange contexts maxSites vb va) :
    ∃ v, (vb = some v ∨ va = some v) ∧ rec.callerKey = v.callerKey ∧
      rec.calleeKey = v.calleeKey := by
  rcases vb with _ | b
  · rcases va with _ | a
    · cases h
    · obtain rfl := List.mem_singleton.mp h
      exact ⟨a, .inr rfl, rfl, rfl⟩
  · rcases va with _ | a
    · obtain rfl := List.mem_singleton.mp h
      exact ⟨b, .inl rfl, rfl, rfl⟩
    · rcases List.mem_append.mp h with h | h
      all_goals
        split_ifs at h
        · obtain rfl := List.mem_singleton.mp h
          exact ⟨b, .inl rfl, rfl, rfl⟩
        · cases h

/-- A function record names a function of either side. -/
theorem key_of_mem_functionChanges
    {merged : List (Bytes × Option FunctionFacts × Option FunctionFacts)} {rec : ChangeRecord}
    (h : rec ∈ functionChanges c merged) :
    ¬ rec.change.OfCall ∧ ∃ p ∈ merged, p.1 = rec.callerKey := by
  obtain ⟨⟨key, vb, va⟩, hp, hrec⟩ := List.mem_filterMap.mp h
  rcases vb with _ | b <;> rcases va with _ | a
  · cases hrec
  · obtain rfl := Option.some_injective _ hrec
    exact ⟨id, _, hp, rfl⟩
  · obtain rfl := Option.some_injective _ hrec
    exact ⟨id, _, hp, rfl⟩
  · cases hrec

/-- A key appears in a record or is matched exactly when a side compares it. -/
theorem records_or_matches_iff (hrun : (!c.comparable && !opts.allowMismatch) = false)
    {k : Bytes} :
    (semanticDiff ll c before after opts).Records k ∨
        Matches (sideBefore ll before after opts) (sideAfter ll before after opts) k ↔
      (sideBefore ll before after opts).Compares k ∨
        (sideAfter ll before after opts).Compares k := by
  set sb := sideBefore ll before after opts with hsb
  set sa := sideAfter ll before after opts with hsa
  have hkeysB : ∀ {key v}, (key, v) ∈ sb.relationships →
      v.callerKey = (ofLex key).1 ∧ v.calleeKey = (ofLex (ofLex key).2).1 :=
    keys_of_mem_relationships
  have hkeysA : ∀ {key v}, (key, v) ∈ sa.relationships →
      v.callerKey = (ofLex key).1 ∧ v.calleeKey = (ofLex (ofLex key).2).1 :=
    keys_of_mem_relationships
  constructor
  · rintro (⟨rec, hrec, hk⟩ | ⟨f, f', hf, -⟩ | ⟨key, v, v', hv, -, hk⟩)
    · rcases (mem_changes_iff hrun).mp hrec with hfun | ⟨⟨key, vb, va⟩, hp, hrel⟩
      · obtain ⟨hcall, p, hp, hkey⟩ := key_of_mem_functionChanges hfun
        rcases hk with rfl | ⟨hof, -⟩
        · rw [← hkey]
          exact (mem_mergedMaps_iff.mp hp).1.imp .inl .inl
        · exact absurd hof hcall
      · obtain ⟨-, hvb, hva⟩ := mem_mergedMaps_iff.mp hp
        obtain ⟨v, hv | hv, hcaller, hcallee⟩ := ends_of_mem_relationshipChange hrel
        · have hmem := mem_of_valueAt (hvb.symm.trans hv)
          have hkeys := hkeysB hmem
          exact .inl (.inr ⟨key, v, hmem, hk.imp (by rw [hcaller, hkeys.1]; exact id)
            fun h => by rw [← h.2, hcallee, hkeys.2]⟩)
        · have hmem := mem_of_valueAt (hva.symm.trans hv)
          have hkeys := hkeysA hmem
          exact .inr (.inr ⟨key, v, hmem, hk.imp (by rw [hcaller, hkeys.1]; exact id)
            fun h => by rw [← h.2, hcallee, hkeys.2]⟩)
    · exact .inl (.inl ⟨f, hf⟩)
    · exact .inl (.inr ⟨key, v, hv, hk⟩)
  · rintro ((⟨f, hf⟩ | ⟨key, v, hv, hk⟩) | ⟨f, hf⟩ | ⟨key, v, hv, hk⟩)
    · obtain ⟨b, hb⟩ := exists_valueAt hf
      have hp : (k, some b, valueAt sa.functions k) ∈ mergedMaps sb.functions sa.functions :=
        mem_mergedMaps_iff.mpr ⟨.inl ⟨f, hf⟩, hb.symm, rfl⟩
      rcases ha : valueAt sa.functions k with _ | a
      · rw [ha] at hp
        exact .inl ⟨_, (mem_changes_iff hrun).mpr (.inl (List.mem_filterMap.mpr ⟨_, hp, rfl⟩)),
          .inl rfl⟩
      · exact .inr (.inl ⟨b, a, mem_of_valueAt hb, mem_of_valueAt ha⟩)
    · obtain ⟨b, hb⟩ := exists_valueAt hv
      have hmem := mem_of_valueAt hb
      have hp : (key, some b, valueAt sa.relationships key) ∈
          mergedMaps sb.relationships sa.relationships :=
        mem_mergedMaps_iff.mpr ⟨.inl ⟨v, hv⟩, hb.symm, rfl⟩
      rcases ha : valueAt sa.relationships key with _ | a
      · rw [ha] at hp
        refine .inl ⟨_, (mem_changes_iff hrun).mpr (.inr ⟨_, hp, List.mem_singleton_self _⟩), ?_⟩
        rw [← (hkeysB hmem).1, ← (hkeysB hmem).2] at hk
        exact hk.imp id fun h => ⟨trivial, h⟩
      · exact .inr (.inr ⟨key, b, a, hmem, mem_of_valueAt ha, hk⟩)
    · obtain ⟨a, ha⟩ := exists_valueAt hf
      have hp : (k, valueAt sb.functions k, some a) ∈ mergedMaps sb.functions sa.functions :=
        mem_mergedMaps_iff.mpr ⟨.inr ⟨f, hf⟩, rfl, ha.symm⟩
      rcases hb : valueAt sb.functions k with _ | b
      · rw [hb] at hp
        exact .inl ⟨_, (mem_changes_iff hrun).mpr (.inl (List.mem_filterMap.mpr ⟨_, hp, rfl⟩)),
          .inl rfl⟩
      · exact .inr (.inl ⟨b, a, mem_of_valueAt hb, mem_of_valueAt ha⟩)
    · obtain ⟨a, ha⟩ := exists_valueAt hv
      have hmem := mem_of_valueAt ha
      have hp : (key, valueAt sb.relationships key, some a) ∈
          mergedMaps sb.relationships sa.relationships :=
        mem_mergedMaps_iff.mpr ⟨.inr ⟨v, hv⟩, rfl, ha.symm⟩
      rcases hb : valueAt sb.relationships key with _ | b
      · rw [hb] at hp
        refine .inl ⟨_, (mem_changes_iff hrun).mpr (.inr ⟨_, hp, List.mem_singleton_self _⟩), ?_⟩
        rw [← (hkeysA hmem).1, ← (hkeysA hmem).2] at hk
        exact hk.imp id fun h => ⟨trivial, h⟩
      · exact .inr (.inr ⟨key, b, a, mem_of_valueAt hb, hmem, hk⟩)

end Diff

/-! ### Undecidable ranks -/

/-- The usrs of a graph with a position in them. -/
def CallGraph.rewritten (ll : Llvm) (g : CallGraph) : List Rewritten :=
  g.rewrittenLambdas ++ g.rewrittenLocated ll

/-- Both graphs hold the group, in different sizes. -/
def Undecidable (ll : Llvm) (before after : CallGraph) (group : Bytes) : Prop :=
  ∃ m n, (IdentityTable.build ll before).groupSizes group = some m ∧
    (IdentityTable.build ll after).groupSizes group = some n ∧ m ≠ n

section Ordinals

variable (ll : Llvm) (c : Comparability) (before after : DiffSide) (opts : SemanticDiffOptions)

/-- A side compares the key, and the key embeds a rank that was drawn there from the group. -/
def EmbedsRank (side : CollectedSide) (g : CallGraph) (k group : Bytes) : Prop :=
  side.Compares k ∧ ∃ e ∈ g.rewritten ll, e.key = k ∧ group ∈ e.ordinals

/-- Nothing is compared by an undecidable rank: no key in a record or a match embeds one. -/
def RanksDecided : Prop :=
  ∀ k, (semanticDiff ll c before after opts).Records k ∨
      (semanticDiff ll c before after opts).refused = false ∧
        Matches (sideBefore ll before after opts) (sideAfter ll before after opts) k →
    ∀ group, EmbedsRank ll (sideBefore ll before after opts) before.graph k group ∨
        EmbedsRank ll (sideAfter ll before after opts) after.graph k group →
      ¬ Undecidable ll before.graph after.graph group

end Ordinals

/-- The entry's own group, the one the table of `g` files its key under, has keys filed under
it in both graphs, and different sizes there. -/
def Rewritten.Flagged (ll : Llvm) (g g' : CallGraph) (e : Rewritten) : Prop :=
  IdentityTable.sizesDiffer (IdentityTable.build ll g) (IdentityTable.build ll g') e.group = true

/-- The withheld keys are those of the flagged entries. -/
theorem isAmbiguous_markedAgainst_iff {ll : Llvm} {g g' : CallGraph} {k : Bytes} :
    ((IdentityTable.build ll g).markedAgainst (IdentityTable.build ll g')).isAmbiguous k = true ↔
      ∃ e ∈ g.rewritten ll, e.key = k ∧ e.Flagged ll g g' := by
  have hgroups : (IdentityTable.build ll g).groups =
      (g.rewritten ll).map fun e => (e.group, e.key) := rfl
  have hmark : ((IdentityTable.build ll g).markedAgainst (IdentityTable.build ll g')).isAmbiguous k
      = (IdentityTable.build ll g).groups.any fun p =>
        p.2 = k && (IdentityTable.build ll g).sizesDiffer (IdentityTable.build ll g') p.1 :=
    Bool.false_or _
  rw [hmark, hgroups, List.any_eq_true]
  constructor
  · rintro ⟨p, hp, h⟩
    obtain ⟨e, he, rfl⟩ := List.mem_map.mp hp
    rw [Bool.and_eq_true, decide_eq_true_eq] at h
    exact ⟨e, he, h.1, h.2⟩
  · rintro ⟨e, he, hk, hf⟩
    refine ⟨_, List.mem_map_of_mem he, ?_⟩
    rw [Bool.and_eq_true, decide_eq_true_eq]
    exact ⟨hk, hf⟩

/-- Wherever the diff would compare a usr of `g` whose key embeds an undecidable rank, the
usr's key is filed under a group of which both graphs file keys, in different numbers. -/
def CallGraph.RanksFlagged (ll : Llvm) (g g' : CallGraph) : Prop :=
  ∀ e ∈ g.rewritten ll,
    OpenPlace ll ((IdentityTable.build ll g).markedAgainst (IdentityTable.build ll g')) g e.key →
      (∃ group ∈ e.ordinals, Undecidable ll g g' group) →
        ∃ e' ∈ g.rewritten ll, e'.key = e.key ∧ e'.Flagged ll g g'

theorem Undecidable.symm {ll : Llvm} {g g' : CallGraph} {group : Bytes}
    (h : Undecidable ll g g' group) : Undecidable ll g' g group := by
  obtain ⟨m, n, hm, hn, hne⟩ := h
  exact ⟨n, m, hn, hm, hne.symm⟩

/-- One side of the comparison: what it compares embeds no undecidable rank. -/
theorem ranksFlagged_iff {ll : Llvm} {side : DiffSide} {g' : CallGraph} {contexts : Bool} :
    side.graph.RanksFlagged ll g' ↔
      ∀ k group, EmbedsRank ll (collected ll ((IdentityTable.build ll side.graph).markedAgainst
          (IdentityTable.build ll g')) contexts side) side.graph k group →
        ¬ Undecidable ll side.graph g' group := by
  constructor
  · rintro hflag k group ⟨hcomp, e, he, rfl, hgroup⟩ hund
    obtain ⟨hopen, hamb⟩ := compares_iff.mp hcomp
    have hmarked := isAmbiguous_markedAgainst_iff.mpr (hflag e he hopen ⟨group, hgroup, hund⟩)
    rw [hmarked] at hamb
    cases hamb
  · intro hno e he hopen hund
    obtain ⟨group, hgroup, hund⟩ := hund
    by_contra hnone
    have hamb := mt isAmbiguous_markedAgainst_iff.mp hnone
    rw [Bool.not_eq_true] at hamb
    exact hno e.key group ⟨compares_iff.mpr ⟨hopen, hamb⟩, e, he, rfl, hgroup⟩ hund

/-- **When nothing is compared by an undecidable rank**: a diff that runs compares no key with
an undecidable rank in it if and only if, in each of the two graphs, every usr that would be
compared and whose key embeds such a rank has its key filed under a group whose size
differs. -/
theorem semanticDiff_ranks_decided_iff (ll : Llvm) (c : Comparability) (before after : DiffSide)
    (opts : SemanticDiffOptions) :
    RanksDecided ll c before after opts ↔
      ((c.comparable || opts.allowMismatch) = true →
        before.graph.RanksFlagged ll after.graph ∧ after.graph.RanksFlagged ll before.graph) := by
  constructor
  · intro hdecided hallowed
    have hrun : (!c.comparable && !opts.allowMismatch) = false := by
      rw [← Bool.not_or, hallowed]
      rfl
    have hrefused : (semanticDiff ll c before after opts).refused = false := by
      unfold semanticDiff
      rw [hrun, if_neg (by simp)]
    have hshown : ∀ k, (sideBefore ll before after opts).Compares k ∨
        (sideAfter ll before after opts).Compares k → ∀ group,
        EmbedsRank ll (sideBefore ll before after opts) before.graph k group ∨
          EmbedsRank ll (sideAfter ll before after opts) after.graph k group →
        ¬ Undecidable ll before.graph after.graph group := fun k hk =>
      hdecided k (((records_or_matches_iff hrun).mpr hk).imp id fun hm => ⟨hrefused, hm⟩)
    constructor
    · exact ranksFlagged_iff.mpr fun k group hemb => hshown k (.inl hemb.1) group (.inl hemb)
    · exact ranksFlagged_iff.mpr fun k group hemb hund =>
        hshown k (.inr hemb.1) group (.inr hemb) hund.symm
  · intro hflagged k hk group hemb
    rcases hallowed : c.comparable || opts.allowMismatch
    · -- a refused diff records nothing and matches nothing
      have hrefused : semanticDiff ll c before after opts = { refused := true } := by
        unfold semanticDiff
        rw [← Bool.not_or, hallowed, Bool.not_false, if_pos rfl]
      rw [hrefused] at hk
      rcases hk with ⟨rec, hrec, -⟩ | ⟨hr, -⟩
      · cases hrec
      · cases hr
    · obtain ⟨hbefore, hafter⟩ := hflagged hallowed
      rcases hemb with hemb | hemb
      · exact ranksFlagged_iff.mp hbefore k group hemb
      · exact fun hund => ranksFlagged_iff.mp hafter k group hemb hund.symm

/-- A lambda of `g` at line 1 of `f.c`, and a lambda inside it. -/
def nestedLambdas : List Registration :=
  [.node { qualifiedName := text "lambda#f.c:1:1#g", usr := text "vycor-lambda:lambda#f.c:1:1#g" } [],
    .node { qualifiedName := text "lambda#f.c:2:1#lambda#f.c:1:1#g",
            usr := text "vycor-lambda:lambda#f.c:2:1#lambda#f.c:1:1#g" } []]

/-- The same, with a second lambda of `g` behind the first. -/
def nestedLambdasAndOne : List Registration :=
  nestedLambdas ++ [.node { qualifiedName := text "lambda#f.c:5:1#g",
                            usr := text "vycor-lambda:lambda#f.c:5:1#g" } []]

/-- The lambda inside the first one is matched by a key with the first one's rank in it,
though `g` has another lambda now. -/
theorem semanticDiff_compares_nested_lambda :
    ¬ ∀ (ll : Llvm) (c : Comparability) (before after : DiffSide) (opts : SemanticDiffOptions),
      RanksDecided ll c before after opts := by
  intro hall
  let before : CallGraph := ({} : CallGraph).registerAll nestedLambdas
  let after : CallGraph := ({} : CallGraph).registerAll nestedLambdasAndOne
  let inner : Rewritten :=
    { usr := text "vycor-lambda:lambda#f.c:2:1#lambda#f.c:1:1#g"
      key := text "vycor-lambda:f.c#vycor-lambda:f.c#g#0#0"
      group := text "f.c#vycor-lambda:f.c#g#0"
      ordinals := [text "f.c#vycor-lambda:f.c#g#0", text "f.c#g"] }
  have hinner : inner ∈ before.rewritten utf8Llvm := by decide +kernel
  have hcomp : (sideBefore utf8Llvm ⟨before, none⟩ ⟨after, none⟩ {}).Compares inner.key := by
    refine compares_iff.mpr ⟨.inl ?_, ?_⟩
    · decide +kernel
    · decide +kernel
  have hund : Undecidable utf8Llvm before after (text "f.c#g") :=
    ⟨1, 2, by decide +kernel, by decide +kernel, by decide⟩
  have hshown := (records_or_matches_iff (c := {}) (by decide)).mpr (.inl hcomp)
  refine hall utf8Llvm {} ⟨before, none⟩ ⟨after, none⟩ {} inner.key
    (hshown.imp id fun hm => ⟨by decide +kernel, hm⟩) (text "f.c#g")
    (.inl ⟨hcomp, inner, hinner, rfl, ?_⟩) hund
  decide +kernel

end Vycor
