import Vycor.PathSearch.Contract
import Vycor.PathSearch.Rename
import Vycor.PathSearch.Texts

/-!
# Path enumeration and insertion order

Two graphs built from the same registrations in different orders give their strings
different ids, and their adjacency lists different orders. `findCallerPaths_eq` says that
they answer every search alike when their caller views agree, by relating the two walks along
equal strings. The views agree exactly when every synthesized edge has a donor with the same
attributes in both (`callerText_iff_sameDonors`).
-/

namespace Vycor

/-- Lists with the same images, element by element. -/
theorem forall₂_of_map_eq {α β γ : Type*} {f : α → γ} {f' : β → γ} {l : List α} {l' : List β}
    (hl : l.map f = l'.map f') :
    List.Forall₂ (fun a b => a ∈ l ∧ b ∈ l' ∧ f a = f' b) l l' := by
  induction l generalizing l' with
  | nil =>
    obtain rfl := List.map_eq_nil_iff.mp hl.symm
    exact .nil
  | cons a l ih =>
    cases l' with
    | nil => simp at hl
    | cons b l' =>
      rw [List.map_cons, List.map_cons, List.cons.injEq] at hl
      refine .cons ⟨.head _, .head _, hl.1⟩ ((ih hl.2).imp fun a b hab => ?_)
      exact ⟨.tail _ hab.1, .tail _ hab.2.1, hab.2.2⟩

namespace CallGraph

variable {g g' : CallGraph}

/-- Ids of one string in two graphs. -/
def SameText (g g' : CallGraph) (i i' : SId) : Prop :=
  i < g.interner.size ∧ i' < g'.interner.size ∧ g.interner.resolve i = g'.interner.resolve i'

/-- Wherever no edge is stored, the first row that could supply the synthesized edge gives it
the same attributes in both graphs. -/
def SameDonors (g g' : CallGraph) : Prop :=
  ∀ x y z, (¬ ∃ f, g.ledger.ShownAt x y z f) → g.synthText x y z = g'.synthText x y z

/-- The two graphs show the same edges to every usr. -/
def SameCallers (g g' : CallGraph) : Prop := ∀ u e, g.CallerText u e ↔ g'.CallerText u e

theorem synthText_names {x y z : Bytes} {e : EdgeFact} (he : g.synthText x y z = some e) :
    e.caller = x ∧ e.callee = y ∧ e.callSite = z := by
  obtain ⟨a, c, s, -, rfl, rfl, rfl, r, hr, rfl⟩ := synthText_eq_some he
  obtain ⟨rfl, rfl, rfl⟩ := callSite_inSynth hr
  exact ⟨rfl, rfl, rfl⟩

/-- **The caller views agree exactly when the donors do.** -/
theorem callerText_iff_sameDonors (h : g.Inv) (h' : g'.Inv) (hv : g.ledger.SameViews g'.ledger) :
    SameCallers g g' ↔ SameDonors g g' := by
  constructor
  · intro hcallers x y z hno
    have hno' : ¬ ∃ f, g'.ledger.ShownAt x y z f := by rwa [← hv.shownAt]
    refine Option.ext fun e => ⟨fun he => ?_, fun he => ?_⟩
    · obtain ⟨rfl, hy, rfl⟩ := synthText_names he
      have := (hcallers y e).mp (h.callerText_iff.mpr ⟨hy, .inr ⟨he, hno⟩⟩)
      rcases (h'.callerText_iff.mp this).2 with hsh | ⟨hsyn, -⟩
      exacts [absurd ⟨e, hsh⟩ hno', hsyn]
    · obtain ⟨rfl, hy, rfl⟩ := synthText_names he
      have := (hcallers y e).mpr (h'.callerText_iff.mpr ⟨hy, .inr ⟨he, hno'⟩⟩)
      rcases (h.callerText_iff.mp this).2 with hsh | ⟨hsyn, -⟩
      exacts [absurd ⟨e, hsh⟩ hno, hsyn]
  · intro hd u e
    rw [h.callerText_iff, h'.callerText_iff, ← hv.shownAt]
    by_cases hex : ∃ f, g.ledger.ShownAt e.caller u e.callSite f
    · simp only [hex, not_true, and_false, or_false]
    · rw [hd _ _ _ hex]

/-! ### Two graphs with the same views -/

/-- Two graphs that read alike over strings. -/
structure ReadAlike (g g' : CallGraph) : Prop where
  left : g.Inv
  right : g'.Inv
  views : g.ledger.SameViews g'.ledger
  callers : SameCallers g g'

theorem ReadAlike.symm (h : ReadAlike g g') : ReadAlike g' g :=
  ⟨h.right, h.left, h.views.symm, fun u e => (h.callers u e).symm⟩

theorem SameText.symm {i i' : SId} (hi : SameText g g' i i') : SameText g' g i' i :=
  ⟨hi.2.1, hi.1, hi.2.2.symm⟩

/-- Edges with the same strings are related. -/
theorem related_of_map_eq {e e' : EdgeRef} (he : e.Below g.interner.size)
    (he' : e'.Below g'.interner.size) (heq : e.map g.interner.resolve = e'.map g'.interner.resolve) :
    Edge.Related (SameText g g') e e' := by
  simp only [Edge.map, Edge.mk.injEq] at heq
  obtain ⟨h₁, h₂, h₃, h₄, h₅, h₆, h₇⟩ := heq
  exact ⟨⟨he.1, he'.1, h₁⟩, ⟨he.2.1, he'.2.1, h₂⟩, ⟨he.2.2, he'.2.2, h₃⟩, h₄, h₅, h₆, h₇⟩

section Views

variable (ll : Llvm) (h : ReadAlike g g')

include h

theorem ReadAlike.referencedText (u : Bytes) : g.ReferencedText u ↔ g'.ReferencedText u := by
  simp only [ReferencedText, Mentions, h.views.nodes_isSome, h.views.node_iff, h.callers _ _]

theorem ReadAlike.knownAs (name u : Bytes) : g.KnownAs ll name u ↔ g'.KnownAs ll name u := by
  simp only [KnownAs, h.referencedText, h.views.names]

/-- A string that one graph references has an id in both. -/
theorem ReadAlike.exists_sameText {i : SId} (hi : i < g.interner.size)
    (href : g.ReferencedText (g.interner.resolve i)) : ∃ i', SameText g g' i i' := by
  obtain ⟨i', hf⟩ := h.right.find_of_referencedText ((h.referencedText _).mp href)
  exact ⟨i', hi, StringInterner.lt_of_find hf, (StringInterner.resolve_of_find hf).symm⟩

theorem ReadAlike.sameText_inj {i j i' j' : SId} (hi : SameText g g' i i')
    (hj : SameText g g' j j') : i = j ↔ i' = j' := by
  rw [← h.left.resolve_inj hi.1 hj.1, hi.2.2, hj.2.2, h.right.resolve_inj hi.2.1 hj.2.1]

variable (hll : ll.AcceptsUtf8)

include hll

theorem ReadAlike.mem_resolveKnownIds {name : Bytes} {i i' : SId} (hi : SameText g g' i i') :
    i ∈ g.resolveKnownIds ll name ↔ i' ∈ g'.resolveKnownIds ll name := by
  rw [h.left.mem_resolveKnownIds ll hll, h.right.mem_resolveKnownIds ll hll, hi.2.2,
    h.knownAs ll, and_iff_right hi.1, and_iff_right hi.2.1]

/-- A name is known in both graphs or in neither. -/
theorem ReadAlike.resolveKnownIds_eq_nil (name : Bytes) :
    g.resolveKnownIds ll name = [] ↔ g'.resolveKnownIds ll name = [] := by
  have key : ∀ {g g' : CallGraph}, ReadAlike g g' → g.resolveKnownIds ll name = [] →
      g'.resolveKnownIds ll name = [] := by
    intro g g' h hnil
    rw [List.eq_nil_iff_forall_not_mem] at hnil ⊢
    intro i' hi'
    obtain ⟨hlt, hknown⟩ := (h.right.mem_resolveKnownIds ll hll).mp hi'
    obtain ⟨i, hi⟩ := h.symm.exists_sameText hlt hknown.1
    exact hnil i ((h.mem_resolveKnownIds ll hll hi.symm).mpr hi')
  exact ⟨key h, key h.symm⟩

theorem ReadAlike.mem_startIds {starts : List Bytes} {i i' : SId} (hi : SameText g g' i i') :
    i ∈ g.startIds ll starts ↔ i' ∈ g'.startIds ll starts := by
  simp only [startIds, List.mem_dedup, List.mem_flatMap, h.mem_resolveKnownIds ll hll hi]

theorem ReadAlike.startIds_eq_nil (starts : List Bytes) :
    g.startIds ll starts = [] ↔ g'.startIds ll starts = [] := by
  have hdedup : ∀ l : List SId, l.dedup = [] ↔ l = [] := fun l => by
    simp only [List.eq_nil_iff_forall_not_mem, List.mem_dedup]
  simp only [startIds, hdedup, List.flatMap_eq_nil_iff, h.resolveKnownIds_eq_nil ll hll]

/-- The corridors mark ids of one string alike. -/
theorem ReadAlike.corridor (starts : List Bytes) {i i' : SId} (hi : SameText g g' i i') :
    g.corridor none (g.startIds ll starts) i = g'.corridor none (g'.startIds ll starts) i' := by
  -- an edge of one callee view has a counterpart in the other
  have hsucc : ∀ {g g' : CallGraph}, ReadAlike g g' → ∀ {x x' y : SId}, SameText g g' x x' →
      x ∈ (g.calleeRefsOf y).map (·.callee) →
        ∃ y', SameText g g' y y' ∧ x' ∈ (g'.calleeRefsOf y').map (·.callee) := by
    intro g g' h x x' y hx hxy
    obtain ⟨r, hr, -⟩ := List.mem_map.mp hxy
    have hy : y < g.interner.size := by
      have hb := h.left.below_of_mem_calleeRefsOf hr
      rw [← hb.1]
      exact hb.2.1
    obtain ⟨e, he, hcaller⟩ := (h.left.callee_iff_callerText hy hx.1).mp hxy
    obtain ⟨y', hy'⟩ := h.exists_sameText hy (.inr (.inr ⟨_, e, he, hcaller⟩))
    refine ⟨y', hy', (h.right.callee_iff_callerText hy'.2.1 hx.2.1).mpr ⟨e, ?_, ?_⟩⟩
    · rw [← hx.2.2]
      exact (h.callers _ e).mp he
    · rw [hcaller, hy'.2.2]
  refine (h.left.distanceMap_corridor ll starts).eq_of_bisimulates
    (h.right.distanceMap_corridor ll starts) (h.mem_startIds ll hll) (hsucc h)
    (fun hx hxy => ?_) hi
  obtain ⟨y, hy, hxy⟩ := hsucc h.symm hx.symm hxy
  exact ⟨y, hy.symm, hxy⟩

/-- **The searches of a request are related along equal strings.** -/
theorem ReadAlike.search (starts : List Bytes) (limits : SearchLimits) (cycles : CycleRule) :
    Search.Related (SameText g g') (g.search ll starts limits cycles none)
      (g'.search ll starts limits cycles none) where
  inj := h.sameText_inj
  callersOf {i i'} hi := by
    have hsorted := h.left.sorted_callers_eq h.right hi.1 hi.2.1 hi.2.2 h.callers
    refine (forall₂_of_map_eq hsorted).imp fun e e' he => ?_
    refine related_of_map_eq ?_ ?_ he.2.2
    · exact h.left.below_of_mem_callerRefsOf (mem_sortCallerRefsCanonically.mp he.1)
    · exact h.right.below_of_mem_callerRefsOf (mem_sortCallerRefsCanonically.mp he.2.1)
  storedInDegree hi := h.left.storedInDegree_eq h.right hi.1 hi.2.1 hi.2.2 h.views.live
  limits := rfl
  cycles := rfl
  admits _ := rfl
  startSet hi := h.mem_startIds ll hll hi
  minFromStart hi := h.corridor ll hll starts hi

/-- The targets come in the same order. -/
theorem ReadAlike.orderedTargets (target : Bytes) :
    List.Forall₂ (SameText g g') (g.orderedTargets ll target) (g'.orderedTargets ll target) := by
  have hmap : ∀ {g : CallGraph}, (g.orderedTargets ll target).map g.interner.resolve =
      ((g.resolveKnownIds ll target).map g.interner.resolve).insertionSort (· ≤ ·) := by
    intro g
    exact List.map_insertionSort _ _ _ _ fun a _ b _ => not_lt
  have hnodup : ∀ {g : CallGraph}, g.Inv →
      ((g.resolveKnownIds ll target).map g.interner.resolve).Nodup := by
    intro g h
    refine (List.nodup_dedup _).map_on fun a ha b hb hab => ?_
    exact (h.resolve_inj (lt_of_mem_resolveKnownIds ll ha)
      (lt_of_mem_resolveKnownIds ll hb)).mp hab
  have hmem : ∀ {g g' : CallGraph}, ReadAlike g g' → ∀ u,
      u ∈ (g.resolveKnownIds ll target).map g.interner.resolve →
        u ∈ (g'.resolveKnownIds ll target).map g'.interner.resolve := by
    intro g g' h u hu
    obtain ⟨i, hi, rfl⟩ := List.mem_map.mp hu
    obtain ⟨hlt, hknown⟩ := (h.left.mem_resolveKnownIds ll hll).mp hi
    obtain ⟨i', hi'⟩ := h.exists_sameText hlt hknown.1
    exact List.mem_map.mpr ⟨i', (h.mem_resolveKnownIds ll hll hi').mp hi, hi'.2.2.symm⟩
  have hperm := (List.perm_ext_iff_of_nodup (hnodup h.left) (hnodup h.right)).mpr
    fun u => ⟨hmem h u, hmem h.symm u⟩
  have heq : (g.orderedTargets ll target).map g.interner.resolve =
      (g'.orderedTargets ll target).map g'.interner.resolve := by
    rw [hmap, hmap]
    exact List.Perm.eq_of_pairwise (fun _ _ _ _ => le_antisymm) (List.pairwise_insertionSort _ _)
      (List.pairwise_insertionSort _ _)
      ((List.perm_insertionSort _ _).trans (hperm.trans (List.perm_insertionSort _ _).symm))
  refine (forall₂_of_map_eq heq).imp fun a b hab => ⟨?_, ?_, hab.2.2⟩
  · exact lt_of_mem_resolveKnownIds ll ((mem_orderedTargets ll).mp hab.1)
  · exact lt_of_mem_resolveKnownIds ll ((mem_orderedTargets ll).mp hab.2.1)

theorem ReadAlike.displayOf {i i' : SId} (hi : SameText g g' i i') :
    g.displayOf ll i = g'.displayOf ll i' := by
  rw [h.left.displayOf_eq ll hll hi.1, h.right.displayOf_eq ll hll hi.2.1, hi.2.2, h.views.display]

/-- Related chains are reported alike. -/
theorem ReadAlike.toCallPath {w w' : List EdgeRef}
    (hw : List.Forall₂ (Edge.Related (SameText g g')) w w') :
    g.toCallPath ll w = g'.toCallPath ll w' := by
  have hhop : ∀ {e e'}, Edge.Related (SameText g g') e e' → g.toHop ll e = g'.toHop ll e' := by
    intro e e' he
    rw [toHop, toHop, h.displayOf ll hll he.caller, h.displayOf ll hll he.callee,
      he.caller.2.2, he.callee.2.2, he.callSite.2.2, he.kind, he.confidence, he.execContext,
      he.indirectionDepth]
  rw [CallGraph.toCallPath, CallGraph.toCallPath, CallPath.mk.injEq]
  induction hw with
  | nil => rfl
  | cons he _ ih => rw [List.map_cons, List.map_cons, hhop he, ih]

/-- **Graphs that read alike answer every search alike.** -/
theorem ReadAlike.findCallerPaths (target : Bytes) (starts : List Bytes) (limits : SearchLimits)
    (cycles : CycleRule) : g.findCallerPaths ll target starts limits cycles =
      g'.findCallerPaths ll target starts limits cycles := by
  have htargets : (g.resolveKnownIds ll target).isEmpty = (g'.resolveKnownIds ll target).isEmpty := by
    rw [Bool.eq_iff_iff, List.isEmpty_iff, List.isEmpty_iff, h.resolveKnownIds_eq_nil ll hll]
  have hstarts : (g.startIds ll starts).isEmpty = (g'.startIds ll starts).isEmpty := by
    rw [Bool.eq_iff_iff, List.isEmpty_iff, List.isEmpty_iff, h.startIds_eq_nil ll hll]
  have hst := (h.search ll hll starts limits cycles).searchTargets (h.orderedTargets ll hll target)
    (SearchState.Related.empty _)
  unfold CallGraph.findCallerPaths
  dsimp only
  rw [htargets, hstarts]
  split_ifs
  · rfl
  · generalize (g.search ll starts limits cycles none).searchTargets _ _ = st at hst ⊢
    generalize (g'.search ll starts limits cycles none).searchTargets _ _ = st' at hst ⊢
    have hpaths : st.found.map (g.toCallPath ll) = st'.found.map (g'.toCallPath ll) := by
      refine List.forall₂_eq_eq_eq ▸ ?_
      rw [List.forall₂_map_left_iff, List.forall₂_map_right_iff]
      exact hst.found.imp fun _ _ hw => h.toCallPath ll hll hw
    have hhubs : st.hubs.map (fun hub => (⟨g.interner.resolve hub.1, g.displayOf ll hub.1,
        hub.2⟩ : SkippedHub)) = st'.hubs.map fun hub => ⟨g'.interner.resolve hub.1,
          g'.displayOf ll hub.1, hub.2⟩ := by
      refine List.forall₂_eq_eq_eq ▸ ?_
      rw [List.forall₂_map_left_iff, List.forall₂_map_right_iff]
      refine hst.hubs.imp fun a b hab => ?_
      rw [hab.1.2.2, h.displayOf ll hll hab.1, hab.2]
    rw [hpaths, hhubs, hst.truncated, hst.depthLimit, hst.workBudget, hst.hubPruned,
      hst.expansions]

end Views

/-! ### What a search shows of a donor -/

/-- A usr that a search reaches by its own text: a node, or the display name of none. -/
def Addressed (g : CallGraph) (u : Bytes) : Prop :=
  (g.ledger.nodes u).isSome ∨ ¬ ∃ v n, g.ledger.nodes v = some n ∧ n.qualifiedName = u

section Shown

variable (ll : Llvm) (hll : ll.AcceptsUtf8)

include hll

theorem Inv.mem_resolveKnownIds_addressed (h : g.Inv) {i j : SId} (hi : i < g.interner.size)
    (haddr : g.Addressed (g.interner.resolve i))
    (href : g.ReferencedText (g.interner.resolve i)) :
    j ∈ g.resolveKnownIds ll (g.interner.resolve i) ↔ j = i := by
  have hself : g.ledger.Names (g.interner.resolve i) (g.interner.resolve i) := by
    rcases hnode : g.ledger.nodes (g.interner.resolve i) with _ | n
    · refine .inr (.inr ⟨hnode, haddr.resolve_left ?_, rfl⟩)
      rw [hnode]
      exact Bool.false_ne_true
    · exact .inl ⟨by rw [hnode]; rfl, rfl⟩
  have honly : ∀ u, g.ledger.Names (g.interner.resolve i) u → u = g.interner.resolve i := by
    rintro u (⟨-, hu⟩ | ⟨hnone, n, hn, hq⟩ | ⟨-, -, hu⟩)
    · exact hu
    · rcases haddr with hsome | hno
      · rw [hnone] at hsome
        cases hsome
      · exact absurd ⟨u, n, hn, hq⟩ hno
    · exact hu
  rw [h.mem_resolveKnownIds ll hll, KnownAs, h.lookupText_resolve ll hll hi]
  constructor
  · rintro ⟨hj, -, hn | ⟨-, heq⟩⟩
    · exact (h.resolve_inj hj hi).mp (honly _ hn)
    · exact (h.resolve_inj hj hi).mp heq
  · rintro rfl
    exact ⟨hi, href, .inl hself⟩

/-- One edge long, without other limits. -/
def oneEdge : SearchLimits := ⟨0, 1, 0, 0⟩

/-- A search of one edge reports every edge between two addressed usrs. -/
theorem Inv.mem_paths_of_callerText (h : g.Inv) {u : Bytes} {e : EdgeFact} (he : g.CallerText u e)
    (hu : g.Addressed u) (hcaller : g.Addressed e.caller) :
    ∃ r : EdgeRef, r.map g.interner.resolve = e ∧ g.toCallPath ll [r] ∈
      (g.findCallerPaths ll u [e.caller] oneEdge .simpleEdges).paths := by
  have hrefU : g.ReferencedText u := .inr (.inl ⟨e, he⟩)
  have hrefCaller : g.ReferencedText e.caller := .inr (.inr ⟨u, e, he, rfl⟩)
  obtain ⟨c, hc, rfl, r, hr, rfl⟩ := he
  have hb := h.below_of_mem_callerRefsOf hr
  have hcallee := h.callee_of_mem_callerRefsOf hr
  have htargets : ∀ j, j ∈ g.resolveKnownIds ll (g.interner.resolve c) ↔ j = c := fun j =>
    h.mem_resolveKnownIds_addressed ll hll hc hu hrefU
  have hstarts : r.caller ∈ g.startIds ll [g.interner.resolve r.caller] := by
    rw [startIds, List.mem_dedup, List.flatMap_singleton]
    exact (h.mem_resolveKnownIds_addressed ll hll hb.1 hcaller hrefCaller).mpr rfl
  refine ⟨r, rfl, ?_⟩
  -- a single target shadows nothing, and nothing cuts the search
  have hno : ¬ ∃ a b, g.Shadows ll (g.interner.resolve c) [g.interner.resolve r.caller]
      oneEdge.effectiveDepth .simpleEdges a b := by
    rintro ⟨a, b, hsh⟩
    have hlt := hsh.before
    rw [(htargets a).mp hsh.targets.1, (htargets b).mp hsh.targets.2] at hlt
    exact lt_irrefl _ hlt
  obtain ⟨chains, hpaths, -, -, hcomplete, -⟩ := h.searchContract ll hno
  have hu : (g.search ll [g.interner.resolve r.caller] oneEdge .simpleEdges none).Unlimited :=
    ⟨rfl, rfl, rfl⟩
  have hcut := hu.uncut_searchTargets (g.orderedTargets ll (g.interner.resolve c)) {}
    ⟨rfl, rfl, rfl⟩
  have hcompl := (findCallerPaths_known ll oneEdge .simpleEdges
    (List.ne_nil_of_mem ((htargets c).mpr rfl)) (List.ne_nil_of_mem hstarts)).2 hcut
  have hdepth : oneEdge.effectiveDepth = 1 := by decide
  have hmem := hcomplete hcompl [r] ⟨List.cons_ne_nil _ _, r.caller, hstarts, c,
    (htargets c).mpr rfl, ⟨rfl, hcallee.symm ▸ hr, hcallee⟩, by simp [CycleRule.Allows]⟩
    (by rw [hdepth, List.length_singleton])
  rw [show (Edge.map g.interner.resolve r).caller = g.interner.resolve r.caller from rfl, hpaths]
  exact List.mem_map_of_mem hmem

omit hll in
/-- A reported edge is one of the caller view. -/
theorem Inv.callerText_of_mem_paths (h' : g'.Inv) {target : Bytes}
    {starts : List Bytes} {limits : SearchLimits} {cycles : CycleRule} {r : EdgeRef}
    (hpath : g.toCallPath ll [r] ∈
      (g'.findCallerPaths ll target starts limits cycles).paths) :
    g'.CallerText (g.interner.resolve r.callee) (r.map g.interner.resolve) := by
  obtain ⟨w, hw, hpath⟩ : ∃ w, g'.CallChain ll target starts cycles w ∧
      g'.toCallPath ll w = g.toCallPath ll [r] := by
    unfold findCallerPaths at hpath
    dsimp only at hpath
    split_ifs at hpath
    · cases hpath
    · obtain ⟨w, hw, heq⟩ := List.mem_map.mp hpath
      exact ⟨w, ((h'.found_sound ll target starts limits cycles).2 w hw).1, heq⟩
  obtain ⟨-, s, -, t, -, hchain, -⟩ := hw
  -- the path has one hop, which names the edge
  rw [toCallPath, toCallPath, CallPath.mk.injEq] at hpath
  obtain ⟨r', rfl⟩ := List.length_eq_one_iff.mp (by simpa using congrArg List.length hpath)
  simp only [List.map_cons, List.map_nil, List.cons.injEq, and_true, toHop, PathHop.mk.injEq]
    at hpath
  have heq : r'.map g'.interner.resolve = r.map g.interner.resolve := by
    simp only [Edge.map, Edge.mk.injEq]
    tauto
  have hmem := hchain.2.1
  refine ⟨r'.callee, (h'.below_of_mem_callerRefsOf hmem).2.1, ?_, r', hmem, heq⟩
  exact congrArg Edge.callee heq

end Shown

/-- **Path enumeration and insertion order**: two graphs built from the same tagged
registrations in any orders, directly or through absorbed graphs, give the same result for
every target, starts, limits and cycle rule when their synthesized edges have donors with the
same attributes; and if every search gives the same result, the donors of every edge between
two usrs that a search can name do. -/
theorem findCallerPaths_order_free {ll : Llvm} (hll : ll.AcceptsUtf8) {disp : Bytes → Bytes}
    {log log' : List Registration} (hg : BuiltFrom (Tagged disp) g log)
    (hg' : BuiltFrom (Tagged disp) g' log') (hperm : log.Perm log') :
    (SameDonors g g' → ∀ target starts limits cycles,
      g.findCallerPaths ll target starts limits cycles =
        g'.findCallerPaths ll target starts limits cycles) ∧
    ((∀ target starts limits cycles, g.findCallerPaths ll target starts limits cycles =
        g'.findCallerPaths ll target starts limits cycles) →
      ∀ x y z, g.Addressed x → g.Addressed y → (¬ ∃ f, g.ledger.ShownAt x y z f) →
        g.synthText x y z = g'.synthText x y z) := by
  have h := hg.inv.1
  have h' := hg'.inv.1
  have hv := sameViews_of_perm hg hg' hperm
  refine ⟨fun hd target starts limits cycles => ?_, fun hall x y z hx hy hno => ?_⟩
  · exact ReadAlike.findCallerPaths ll
      ⟨h, h', hv, (callerText_iff_sameDonors h h' hv).mpr hd⟩ hll target starts limits cycles
  · have haddr : ∀ u, g.Addressed u ↔ g'.Addressed u := fun u => by
      simp only [Addressed, hv.nodes_isSome, hv.node_iff]
    have hno' : ¬ ∃ f, g'.ledger.ShownAt x y z f := by rwa [← hv.shownAt]
    -- what one graph synthesizes, a search of one edge shows in the other
    have key : ∀ {g g' : CallGraph}, g.Inv → g'.Inv → (∀ target starts limits cycles,
        g.findCallerPaths ll target starts limits cycles =
          g'.findCallerPaths ll target starts limits cycles) → g.Addressed x → g.Addressed y →
        (¬ ∃ f, g.ledger.ShownAt x y z f) → (¬ ∃ f, g'.ledger.ShownAt x y z f) →
        ∀ e, g.synthText x y z = some e → g'.synthText x y z = some e := by
      intro g g' h h' hall hx hy hno hno' e he
      obtain ⟨rfl, rfl, rfl⟩ := synthText_names he
      obtain ⟨r, rfl, hpath⟩ := h.mem_paths_of_callerText ll hll
        (h.callerText_iff.mpr ⟨rfl, .inr ⟨he, hno⟩⟩) hy hx
      rw [hall] at hpath
      have hshown := h'.callerText_iff.mp (h'.callerText_of_mem_paths ll hpath)
      rcases hshown.2 with hsh | ⟨hsyn, -⟩
      exacts [absurd ⟨_, hsh⟩ hno', hsyn]
    refine Option.ext fun e => ⟨key h h' hall hx hy hno hno' e, ?_⟩
    exact key h' h (fun t s l c => (hall t s l c).symm) ((haddr x).mp hx) ((haddr y).mp hy) hno'
      hno e

/-- Two direct calls of `b` by `a`, at the call sites `s` and `t`. -/
def twoCalls : List Registration :=
  [.edge ⟨[97], [98], .directCall, .Proven, [115], 0, .synchronous, [], []⟩ [117],
    .edge ⟨[97], [98], .directCall, .Proven, [116], 0, .synchronous, [], []⟩ [117]]

/-- Nothing is synthesized from direct calls, so their order does not matter. -/
theorem findCallerPaths_order_free_twoCalls :
    let g := ({} : CallGraph).registerAll twoCalls
    let g' := ({} : CallGraph).registerAll twoCalls.reverse
    SameDonors g g' ∧ ∀ target starts limits cycles,
      g.findCallerPaths utf8Llvm target starts limits cycles =
        g'.findCallerPaths utf8Llvm target starts limits cycles := by
  intro g g'
  have htagged : ∀ r ∈ twoCalls, Tagged id r := by
    intro r hr
    simp only [twoCalls, List.mem_cons, List.not_mem_nil, or_false] at hr
    rcases hr with rfl | rfl
    · exact ⟨by decide, trivial⟩
    · exact ⟨by decide, trivial⟩
  have hg : BuiltFrom (Tagged id) g ([] ++ twoCalls) := BuiltFrom.empty.registerAll htagged
  have hg' : BuiltFrom (Tagged id) g' ([] ++ twoCalls.reverse) :=
    BuiltFrom.empty.registerAll fun r hr => htagged r (List.mem_reverse.mp hr)
  have hnone : ∀ {g : CallGraph}, g.Inv → (∀ se ∈ g.edges, se.kind = .directCall) →
      ∀ x y z, g.synthText x y z = none := by
    intro g h hdirect x y z
    rcases hs : g.synthText x y z with _ | e
    · rfl
    · obtain ⟨a, c, s, -, -, -, -, r, hr, -⟩ := synthText_eq_some hs
      rcases (synth_of_first h.inDispatch_spec h.inReturn_spec).1 r hr with
        ⟨se, hse, -⟩ | ⟨-, se, hse, -⟩
      · obtain ⟨⟨idx, he⟩, hd, -⟩ := hse
        have hk := hdirect se (List.mem_of_getElem? he.1)
        rw [hd.1] at hk
        cases hk
      · obtain ⟨⟨idx, he⟩, hd, -⟩ := hse
        have hk := hdirect se (List.mem_of_getElem? he.1)
        rw [hd] at hk
        cases hk
  have hsame : SameDonors g g' := fun x y z _ => by
    rw [hnone hg.inv.1 (by decide +kernel), hnone hg'.inv.1 (by decide +kernel)]
  exact ⟨hsame, (findCallerPaths_order_free acceptsUtf8_utf8Llvm hg hg'
    (List.reverse_perm twoCalls).symm).1 hsame⟩

/-- `D` overrides `B`; `a` dispatches to `B` at one call site, once in its own thread and once
in another. -/
def twoDispatches : List Registration :=
  [.methodOverride [66] [68] [117],
    .edge ⟨[97], [66], .virtualDispatch, .Plausible, [115], 0, .synchronous, [], []⟩ [117],
    .edge ⟨[97], [66], .virtualDispatch, .Plausible, [115], 0, .threadSpawn, [], []⟩ [117]]

/-- The edge synthesized from `a` to `D` takes over the execution context of the dispatch that
was registered first. -/
theorem findCallerPaths_follows_insertion :
    ¬ ∀ (ll : Llvm), ll.AcceptsUtf8 → ∀ (disp : Bytes → Bytes) (g g' : CallGraph)
      (log log' : List Registration), BuiltFrom (Tagged disp) g log →
      BuiltFrom (Tagged disp) g' log' → log.Perm log' → ∀ target starts limits cycles,
        g.findCallerPaths ll target starts limits cycles =
          g'.findCallerPaths ll target starts limits cycles := by
  intro hall
  have htagged : ∀ r ∈ twoDispatches, Tagged id r := by
    intro r hr
    simp only [twoDispatches, List.mem_cons, List.not_mem_nil, or_false] at hr
    rcases hr with rfl | rfl | rfl
    · exact ⟨by decide, trivial⟩
    · exact ⟨by decide, trivial⟩
    · exact ⟨by decide, trivial⟩
  have heq := hall utf8Llvm acceptsUtf8_utf8Llvm id _ _ _ _
    (BuiltFrom.empty.registerAll htagged)
    (BuiltFrom.empty.registerAll fun r hr => htagged r (List.mem_reverse.mp hr))
    (List.reverse_perm twoDispatches).symm [68] [[97]] {} .simpleNodes
  revert heq
  decide +kernel

end CallGraph

end Vycor
