import Vycor.ControlFlow.Oracle
import Vycor.CallGraph.Answers

/-!
# Which handlers take an exception type

`isSubtypeOf` asks two hierarchies, each on its own: it walks the built-in table of standard
exceptions up from the thrown type, and the classes recorded in the graph down from the
caught type. Both walks compute a transitive closure (`stdHierarchyReaches_iff`,
`Inv.mem_getAllDerivedClasses`), and `isSubtypeOf_iff` puts them together. A chain that
crosses from one hierarchy into the other is not found: a base class the index never saw
defined is a miss.
-/

namespace Vycor

open Relation (TransGen ReflTransGen)

/-! ### The standard hierarchy -/

/-- The table names `base` as a base of `derived`. -/
def StdBase (derived base : Bytes) : Prop := (derived, base) ∈ stdExceptionHierarchy

instance (derived base : Bytes) : Decidable (StdBase derived base) :=
  inferInstanceAs (Decidable ((derived, base) ∈ stdExceptionHierarchy))

/-- The place of a class in the table, from 1 on; 0 for a class that has no entry. -/
def stdRank (cls : Bytes) : ℕ :=
  if cls ∈ stdExceptionHierarchy.map Prod.fst then
    (stdExceptionHierarchy.map Prod.fst).idxOf cls + 1
  else 0

theorem stdRank_le (cls : Bytes) : stdRank cls ≤ stdExceptionHierarchy.length := by
  rw [stdRank]
  split_ifs with h
  · have hlt := List.idxOf_lt_length_of_mem h
    rw [List.length_map] at hlt
    omega
  · omega

/-- A class stands below its base: the table lists every base before. -/
theorem stdRank_lt {derived base : Bytes} (h : StdBase derived base) :
    stdRank base < stdRank derived := by
  have hall : ∀ p ∈ stdExceptionHierarchy, stdRank p.2 < stdRank p.1 := by decide +kernel
  exact hall _ h

theorem StdBase.unique {derived base base' : Bytes} (h : StdBase derived base)
    (h' : StdBase derived base') : base = base' := by
  have hall : ∀ p ∈ stdExceptionHierarchy, ∀ q ∈ stdExceptionHierarchy, p.1 = q.1 → p.2 = q.2 := by
    decide +kernel
  exact hall _ h _ h' rfl

/-- The walk finds what the table reaches: no class comes twice, since the rank falls. -/
theorem stdHierarchyReaches_iff (caught : Bytes) (fuel : ℕ) (current : Bytes)
    (visited : List Bytes) (hfuel : stdRank current < fuel)
    (hvisited : ∀ v ∈ visited, stdRank current < stdRank v) :
    stdHierarchyReaches caught fuel current visited = true ↔ TransGen StdBase current caught := by
  induction fuel generalizing current visited with
  | zero => omega
  | succ fuel ih =>
    have hnew : current ∉ visited := fun hmem => lt_irrefl _ (hvisited current hmem)
    rw [stdHierarchyReaches, if_neg hnew]
    generalize hfind : stdExceptionHierarchy.find? _ = found
    rcases found with _ | pair
    · -- no entry, no base
      refine iff_of_false Bool.false_ne_true fun hreach => ?_
      obtain ⟨base, hbase, -⟩ := Relation.TransGen.head'_iff.mp hreach
      exact (List.find?_eq_none.mp hfind) _ hbase (by simp)
    · have hfst : pair.1 = current := by simpa using List.find?_some hfind
      have hbase : StdBase current pair.2 := hfst ▸ List.mem_of_find?_eq_some hfind
      have hlt := stdRank_lt hbase
      dsimp only
      split_ifs with hcaught
      · exact iff_of_true rfl (hcaught ▸ .single hbase)
      · have hrest : ∀ v ∈ current :: visited, stdRank pair.2 < stdRank v := by
          intro v hv
          rcases List.mem_cons.mp hv with rfl | hv
          exacts [hlt, hlt.trans (hvisited v hv)]
        rw [ih pair.2 (current :: visited) (by omega) hrest]
        constructor
        · exact fun hreach => .head hbase hreach
        · intro hreach
          obtain ⟨base, hbase', hreach⟩ := Relation.TransGen.head'_iff.mp hreach
          rw [← hbase.unique hbase'] at hreach
          rcases Relation.reflTransGen_iff_eq_or_transGen.mp hreach with heq | hreach
          exacts [absurd heq.symm hcaught, hreach]

namespace CallGraph

variable {g : CallGraph}

/-! ### The classes of the graph -/

/-- The pairs still to be pushed: those of the classes not expanded yet. -/
def pendingPairs (g : CallGraph) (visited : List SId) : ℕ :=
  ∑ c ∈ (Finset.range g.interner.size).filter (· ∉ visited), (g.derivedClasses c).length

/-- What the loop of `getAllDerivedClasses` maintains: each class is expanded once, `listed`
are the subclasses of the expanded ones, everything met is below the start, and everything
listed waits or is expanded. -/
structure DerivedInv (g : CallGraph) (start : SId) (stack visited listed : List SId) : Prop where
  nodup : visited.Nodup
  listed_eq : listed = visited.reverse.flatMap g.derivedClasses
  start_met : start ∈ visited ∨ start ∈ stack
  listed_met : ∀ d ∈ listed, d ∈ visited ∨ d ∈ stack
  below : ∀ c, c ∈ visited ∨ c ∈ stack → ReflTransGen (Succ g.derivedClasses) start c

theorem DerivedInv.skip {start cls : SId} {stack visited listed : List SId}
    (h : DerivedInv g start (cls :: stack) visited listed) (hcls : cls ∈ visited) :
    DerivedInv g start stack visited listed := by
  have hmet : ∀ c, c ∈ visited ∨ c ∈ cls :: stack → c ∈ visited ∨ c ∈ stack := by
    rintro c (hc | hc)
    · exact .inl hc
    · rcases List.mem_cons.mp hc with rfl | hc
      exacts [.inl hcls, .inr hc]
  exact
    { nodup := h.nodup
      listed_eq := h.listed_eq
      start_met := hmet _ h.start_met
      listed_met := fun d hd => hmet _ (h.listed_met d hd)
      below := fun c hc => h.below c (hc.imp_right (List.mem_cons_of_mem _)) }

theorem DerivedInv.expand {start cls : SId} {stack visited listed : List SId}
    (h : DerivedInv g start (cls :: stack) visited listed) (hcls : cls ∉ visited) :
    DerivedInv g start ((g.derivedClasses cls).reverse ++ stack) (cls :: visited)
      (listed ++ g.derivedClasses cls) := by
  have hmet : ∀ c, c ∈ visited ∨ c ∈ cls :: stack →
      c ∈ cls :: visited ∨ c ∈ (g.derivedClasses cls).reverse ++ stack := by
    rintro c (hc | hc)
    · exact .inl (.tail _ hc)
    · rcases List.mem_cons.mp hc with rfl | hc
      exacts [.inl (.head _), .inr (List.mem_append_right _ hc)]
  refine ⟨List.nodup_cons.mpr ⟨hcls, h.nodup⟩, ?_, hmet _ h.start_met, fun d hd => ?_, fun c hc => ?_⟩
  · rw [h.listed_eq, List.reverse_cons, List.flatMap_append, List.flatMap_singleton]
  · rcases List.mem_append.mp hd with hd | hd
    · exact hmet _ (h.listed_met d hd)
    · exact .inr (List.mem_append_left _ (List.mem_reverse.mpr hd))
  · have hreach := h.below cls (.inr (.head _))
    rcases hc with hc | hc
    · rcases List.mem_cons.mp hc with rfl | hc
      exacts [hreach, h.below c (.inl hc)]
    · rcases List.mem_append.mp hc with hc | hc
      · exact hreach.tail (List.mem_reverse.mp hc)
      · exact h.below c (.inr (.tail _ hc))

/-- Expanding a class takes its pairs off the account. -/
theorem pendingPairs_cons (h : g.Inv) {cls : SId} {visited : List SId} (hcls : cls ∉ visited) :
    (g.derivedClasses cls).length + g.pendingPairs (cls :: visited) ≤ g.pendingPairs visited := by
  rcases hnil : g.derivedClasses cls with _ | ⟨d, rest⟩
  · rw [List.length_nil, zero_add]
    refine Finset.sum_le_sum_of_subset fun c hc => ?_
    simp only [Finset.mem_filter, List.mem_cons, not_or] at hc ⊢
    exact ⟨hc.1, hc.2.2⟩
  · have hlt : cls < g.interner.size := (h.rel.derived_ids (hnil ▸ List.mem_cons_self)).1
    have hsplit : (Finset.range g.interner.size).filter (· ∉ visited) =
        insert cls ((Finset.range g.interner.size).filter (· ∉ cls :: visited)) := by
      ext c
      simp only [Finset.mem_filter, Finset.mem_insert, Finset.mem_range, List.mem_cons, not_or]
      constructor
      · exact fun hc => or_iff_not_imp_left.mpr fun hne => ⟨hc.1, hne, hc.2⟩
      · rintro (rfl | hc)
        exacts [⟨hlt, hcls⟩, ⟨hc.1, hc.2.2⟩]
    rw [← hnil, pendingPairs, pendingPairs, hsplit, Finset.sum_insert (by simp)]

/-- With fuel for the stack and the pairs to come, the loop runs until its stack is empty. -/
theorem allDerivedLoop_spec (h : g.Inv) {start : SId} :
    ∀ (fuel : ℕ) (stack visited listed : List SId), DerivedInv g start stack visited listed →
      stack.length + g.pendingPairs visited ≤ fuel →
      ∃ visited' listed', DerivedInv g start [] visited' listed' ∧
        g.allDerivedLoop fuel stack visited (listed.map g.interner.resolve) =
          listed'.map g.interner.resolve
  | 0, stack, visited, listed, hinv, hfuel => by
    have hstack : stack = [] := List.eq_nil_of_length_eq_zero (by omega)
    subst hstack
    exact ⟨visited, listed, hinv, by rw [allDerivedLoop]⟩
  | fuel + 1, [], visited, listed, hinv, _ => ⟨visited, listed, hinv, by rw [allDerivedLoop]⟩
  | fuel + 1, cls :: stack, visited, listed, hinv, hfuel => by
    rw [List.length_cons] at hfuel
    rw [allDerivedLoop]
    split_ifs with hcls
    · exact allDerivedLoop_spec h fuel stack visited listed (hinv.skip hcls) (by omega)
    · have hpairs := pendingPairs_cons h hcls
      rw [← List.map_append]
      refine allDerivedLoop_spec h fuel _ _ _ (hinv.expand hcls) ?_
      rw [List.length_append, List.length_reverse]
      omega

variable (ll : Llvm)

/-- The list is put together from the subclasses of every class at or below the start, each
of these classes taken once. -/
theorem Inv.getAllDerivedClasses_eq (h : g.Inv) {name : Bytes} {start : SId}
    (hf : g.findText ll name = some start) :
    ∃ expanded : List SId, expanded.Nodup ∧
      (∀ c, c ∈ expanded ↔ ReflTransGen (Succ g.derivedClasses) start c) ∧
      g.getAllDerivedClasses ll name =
        (expanded.flatMap g.derivedClasses).map g.interner.resolve := by
  have hinit : DerivedInv g start [start] [] [] :=
    { nodup := List.nodup_nil
      listed_eq := rfl
      start_met := by simp
      listed_met := by simp
      below := by simp [Relation.ReflTransGen.refl] }
  have hall : g.pendingPairs [] =
      ((List.range g.interner.size).map fun c => (g.derivedClasses c).length).sum := by
    simp only [pendingPairs, List.not_mem_nil, not_false_eq_true, Finset.filter_true]
    rfl
  obtain ⟨visited, listed, hdone, hrun⟩ := allDerivedLoop_spec h
    (2 + ((List.range g.interner.size).map fun c => (g.derivedClasses c).length).sum)
    [start] [] [] hinit (by rw [hall, List.length_singleton]; omega)
  -- nothing waits any more, so everything met is expanded
  have hvisited : ∀ c, ReflTransGen (Succ g.derivedClasses) start c → c ∈ visited := by
    intro c hc
    induction hc with
    | refl => simpa using hdone.start_met
    | @tail b c _ hbc ih =>
      have hlisted : c ∈ listed := by
        rw [hdone.listed_eq]
        exact List.mem_flatMap.mpr ⟨b, List.mem_reverse.mpr ih, hbc⟩
      simpa using hdone.listed_met c hlisted
  refine ⟨visited.reverse, List.nodup_reverse.mpr hdone.nodup, fun c => ?_, ?_⟩
  · rw [List.mem_reverse]
    exact ⟨fun hc => hdone.below c (.inl hc), hvisited c⟩
  · rw [getAllDerivedClasses, hf, ← hdone.listed_eq]
    exact hrun

/-- A name the graph does not hold is no class that others derive from. -/
theorem not_derived_of_findText {name x : Bytes} (hf : g.findText ll name = none) :
    ¬ g.ledger.derived (lookupText ll name) x := by
  rintro ⟨i, -, hi, -⟩
  rw [findText] at hf
  exact absurd (hi.symm.trans hf) (Option.some_ne_none i)

/-- **All derived classes** of a class are those strictly below it in the recorded relation. -/
theorem Inv.mem_getAllDerivedClasses (h : g.Inv) {name x : Bytes} :
    x ∈ g.getAllDerivedClasses ll name ↔ TransGen g.ledger.derived (lookupText ll name) x := by
  cases hf : g.findText ll name with
  | none =>
    rw [getAllDerivedClasses, hf]
    refine iff_of_false List.not_mem_nil fun hreach => ?_
    obtain ⟨y, hstep, -⟩ := Relation.TransGen.head'_iff.mp hreach
    exact not_derived_of_findText ll hf hstep
  | some start =>
    obtain ⟨expanded, -, hexpanded, hlist⟩ := h.getAllDerivedClasses_eq ll hf
    have hstart := StringInterner.resolve_of_find hf
    rw [hlist, List.mem_map, Relation.TransGen.tail'_iff, ← hstart]
    constructor
    · rintro ⟨d, hd, rfl⟩
      obtain ⟨c, hc, hd⟩ := List.mem_flatMap.mp hd
      obtain ⟨hcs, hds⟩ := h.rel.derived_ids hd
      exact ⟨g.interner.resolve c, (h.reaches_pairs h.rel.derived_ids (StringInterner.lt_of_find hf)).mpr
        ⟨c, hcs, rfl, (hexpanded c).mp hc⟩, (h.pairs_resolve hcs hds).mpr hd⟩
    · rintro ⟨y, hreach, hstep⟩
      obtain ⟨c, hcs, rfl, hc⟩ :=
        (h.reaches_pairs h.rel.derived_ids (StringInterner.lt_of_find hf)).mp hreach
      obtain ⟨i, d, hi, hd, hm⟩ := hstep
      rw [h.find_resolve hcs, Option.some_inj] at hi
      subst hi
      exact ⟨d, List.mem_flatMap.mpr ⟨c, (hexpanded c).mpr hc, hm⟩, StringInterner.resolve_of_find hd⟩

/-! ### Both hierarchies -/

/-- **A handler takes a type through one hierarchy at a time.** After the spellings are
stripped, the names are equal, or the caught type is reached from the thrown type in the
table of standard exceptions, or the thrown type is recorded, directly or not, as derived
from the caught type. -/
theorem isSubtypeOf_iff {log : List Registration} (hg : Reachable g log)
    (thrownType caughtType : Bytes) :
    g.isSubtypeOf ll thrownType caughtType = true ↔
      stripTypeSpelling thrownType = stripTypeSpelling caughtType ∨
      TransGen StdBase (stripTypeSpelling thrownType) (stripTypeSpelling caughtType) ∨
      TransGen g.ledger.derived (lookupText ll (stripTypeSpelling caughtType))
        (stripTypeSpelling thrownType) := by
  have hstd := stdHierarchyReaches_iff (stripTypeSpelling caughtType) (stdExceptionHierarchy.length + 1)
    (stripTypeSpelling thrownType) [] (Nat.lt_succ_of_le (stdRank_le _)) (by simp)
  rw [isSubtypeOf, ← hstd, ← hg.inv.1.mem_getAllDerivedClasses ll]
  by_cases hraw : thrownType = caughtType
  · simp [hraw]
  · simp [hraw]

/-- One step up either hierarchy. -/
def DerivesFrom (g : CallGraph) (derived base : Bytes) : Prop :=
  StdBase derived base ∨ g.ledger.derived base derived

/-- `MyError`, defined with the base `std::runtime_error`. -/
def myError : List Registration :=
  [.derivedClass (text "std::runtime_error") (text "MyError") (text "a.cpp")]

theorem reachable_myError : Reachable (({} : CallGraph).registerAll myError) ([] ++ myError) :=
  BuiltFrom.empty.registerAll fun _ _ => trivial

/-- A handler of `const std::runtime_error &` takes `MyError`. -/
theorem isSubtypeOf_recorded :
    (({} : CallGraph).registerAll myError).isSubtypeOf utf8Llvm (text "MyError")
      (text "const std::runtime_error &") = true := by
  refine (isSubtypeOf_iff utf8Llvm reachable_myError _ _).mpr (.inr (.inr ?_))
  rw [← reachable_myError.inv.1.mem_getAllDerivedClasses]
  decide +kernel

/-- A handler of `std::exception` misses `MyError`: the second step of the chain is only in
the table. -/
theorem isSubtypeOf_misses_crossing_chain :
    ¬ ∀ (ll : Llvm) (g : CallGraph) (log : List Registration), Reachable g log →
      ∀ thrownType caughtType, g.isSubtypeOf ll thrownType caughtType = true ↔
        ReflTransGen g.DerivesFrom (stripTypeSpelling thrownType) (stripTypeSpelling caughtType) := by
  intro hall
  have hiff := hall utf8Llvm _ _ reachable_myError (text "MyError") (text "std::exception")
  have hmiss : (({} : CallGraph).registerAll myError).isSubtypeOf utf8Llvm (text "MyError")
      (text "std::exception") = false := by
    decide +kernel
  have hgraph : (({} : CallGraph).registerAll myError).ledger.derived (text "std::runtime_error")
      (text "MyError") := by
    refine ⟨0, 1, ?_, ?_, ?_⟩
    all_goals decide +kernel
  have hstd : StdBase (text "std::runtime_error") (text "std::exception") := by decide +kernel
  have hstrip : stripTypeSpelling (text "MyError") = text "MyError" ∧
      stripTypeSpelling (text "std::exception") = text "std::exception" := by
    decide +kernel
  rw [hmiss, hstrip.1, hstrip.2] at hiff
  exact Bool.false_ne_true (hiff.mpr (.head (.inr hgraph) (.single (.inl hstd))))

end CallGraph

end Vycor
