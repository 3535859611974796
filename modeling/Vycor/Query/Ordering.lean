import Vycor.CallGraph.Directions
import Vycor.Query.ChannelTools

/-!
# The evidence for an ordering

`findConcurrencyBoundaries` walks up the callers of a function. The walk starts from a usr and
goes on by display names, and the graph resolves a display name to every function that bears
it. What the walk visits are therefore names: those *heard* from the usr. It lists exactly the
boundaries of the function if and only if every function that has a boundary is resolved by
exactly one name heard, when it stands behind the function, and by none otherwise
(`findConcurrencyBoundaries_exact_iff`).
-/

namespace Vycor

variable (ll : Llvm) {g : CallGraph}

namespace CallGraph

/-- The caller edges of a function at which a walk stops. -/
def boundariesInto (g : CallGraph) (c : SId) : List EdgeRef :=
  (g.callerRefsOf c).filter (·.execContext ≠ .synchronous)

/-- The record of a boundary. -/
def boundaryOf (g : CallGraph) (e : EdgeRef) : ConcurrencyBoundary where
  spawner := g.displayFor e.caller
  target := g.displayFor e.callee
  executionContext := executionContextToString e.execContext
  callSite := g.interner.resolve e.callSite

/-- A chain of `Synchronous` edges leads from a function to `f`. -/
inductive SyncReaches (g : CallGraph) (f : SId) : SId → Prop where
  | self : SyncReaches g f f
  | caller {c : SId} {e : EdgeRef} (h : SyncReaches g f c) (he : e ∈ g.callerRefsOf c)
      (hsync : e.execContext = .synchronous) : SyncReaches g f e.caller

/-- The names a walk by names goes by: the usr it starts from, and the display names of the
`Synchronous` callers of all functions a name resolves to. -/
inductive Heard (g : CallGraph) (usr : Bytes) : Bytes → Prop where
  | usr : Heard g usr usr
  | caller {n : Bytes} {c : SId} {e : EdgeRef} (h : Heard g usr n)
      (hc : c ∈ g.resolveUsrIds ll n) (he : e ∈ g.callerRefsOf c)
      (hsync : e.execContext = .synchronous) : Heard g usr (g.displayFor e.caller)

/-- The boundaries of the functions that names resolve to, as edges. -/
def boundariesHeard (g : CallGraph) (names : List Bytes) : List EdgeRef :=
  names.flatMap fun n => (g.resolveUsrIds ll n).flatMap g.boundariesInto

/-- The walk runs to its end below its bound. -/
def FewHeard (g : CallGraph) (usr : Bytes) : Prop :=
  ∀ names : List Bytes, names.Nodup → (∀ n ∈ names, g.Heard ll usr n) →
    names.length < kMaxBoundaryWalkNodes

end CallGraph

namespace BoundaryWalk

variable {st : BoundaryWalk}

theorem follow_materialize (st : BoundaryWalk) (e : EdgeRef) : st.follow (g.materialize e) =
    if e.execContext ≠ .synchronous then { st with found := st.found ++ [g.boundaryOf e] }
    else if g.displayFor e.caller ∈ st.queue then st
    else { st with queue := st.queue ++ [g.displayFor e.caller] } := rfl

/-- Following edges adds their boundaries, and the names of the other callers. -/
theorem follow_all (es : List EdgeRef) (hnodup : st.queue.Nodup) :
    let st' := (es.map g.materialize).foldl follow st
    st'.queue.Nodup ∧ (∃ more, st'.queue = st.queue ++ more) ∧
      (∀ n, n ∈ st'.queue ↔ n ∈ st.queue ∨
        ∃ e ∈ es, e.execContext = .synchronous ∧ g.displayFor e.caller = n) ∧
      st'.found = st.found ++ (es.filter (·.execContext ≠ .synchronous)).map g.boundaryOf := by
  induction es generalizing st with
  | nil => simpa using hnodup
  | cons e es ih =>
    rw [List.map_cons, List.foldl_cons]
    by_cases hsync : e.execContext = .synchronous
    · by_cases hold : g.displayFor e.caller ∈ st.queue
      · have hstep : st.follow (g.materialize e) = st := by
          rw [follow_materialize, if_neg (not_not.mpr hsync), if_pos hold]
        obtain ⟨hnodup', hmore, hqueue, hfound⟩ := ih hnodup
        rw [hstep]
        refine ⟨hnodup', hmore, fun n => (hqueue n).trans ?_, ?_⟩
        · simp only [List.mem_cons, exists_eq_or_imp]
          constructor
          · exact fun h => h.imp_right .inr
          · rintro (h | ⟨-, rfl⟩ | h)
            exacts [.inl h, .inl hold, .inr h]
        · rw [hfound, List.filter_cons_of_neg (by simp [hsync])]
      · have hstep : st.follow (g.materialize e) =
            { st with queue := st.queue ++ [g.displayFor e.caller] } := by
          rw [follow_materialize, if_neg (not_not.mpr hsync), if_neg hold]
        have hnodup₁ : (st.queue ++ [g.displayFor e.caller]).Nodup :=
          List.nodup_append.mpr ⟨hnodup, List.nodup_singleton _, fun a ha b hb hab =>
            hold (List.mem_singleton.mp hb ▸ hab ▸ ha)⟩
        obtain ⟨hnodup', ⟨more, hmore⟩, hqueue, hfound⟩ :=
          @ih { st with queue := st.queue ++ [g.displayFor e.caller] } hnodup₁
        rw [hstep]
        refine ⟨hnodup', ⟨_ :: more, by rw [hmore, List.append_assoc]; rfl⟩,
          fun n => (hqueue n).trans ?_, ?_⟩
        · rw [List.mem_append, List.mem_singleton, or_assoc]
          simp only [List.mem_cons, exists_eq_or_imp, hsync, true_and]
          exact or_congr_right (or_congr_left eq_comm)
        · rw [hfound, List.filter_cons_of_neg (by simp [hsync])]
    · have hstep : st.follow (g.materialize e) =
          { st with found := st.found ++ [g.boundaryOf e] } := by
        rw [follow_materialize, if_pos hsync]
      obtain ⟨hnodup', hmore, hqueue, hfound⟩ :=
        @ih { st with found := st.found ++ [g.boundaryOf e] } hnodup
      rw [hstep]
      refine ⟨hnodup', hmore, fun n => (hqueue n).trans ?_, ?_⟩
      · simp [hsync]
      · rw [hfound, List.filter_cons_of_pos (by simp [hsync]), List.map_cons, List.append_assoc,
          List.singleton_append]

end BoundaryWalk

namespace CallGraph

variable {ll} {usr : Bytes}

theorem callersOf_eq_map (g : CallGraph) (n : Bytes) :
    g.callersOf ll n = ((g.resolveUsrIds ll n).flatMap g.callerRefsOf).map g.materialize := by
  rw [callersOf, List.map_flatMap]

variable (ll) in
/-- What the rounds of the walk keep: names are heard, each stands once, and the callers of
the names behind the walk were followed. -/
structure Walking (g : CallGraph) (usr : Bytes) (qi : ℕ) (st : BoundaryWalk) : Prop where
  nodup : st.queue.Nodup
  start : usr ∈ st.queue
  heard : ∀ n ∈ st.queue, g.Heard ll usr n
  closed : ∀ n ∈ st.queue.take qi, ∀ c ∈ g.resolveUsrIds ll n, ∀ e ∈ g.callerRefsOf c,
    e.execContext = .synchronous → g.displayFor e.caller ∈ st.queue
  found : st.found = (g.boundariesHeard ll (st.queue.take qi)).map g.boundaryOf

/-- A walk that ends below its bound has visited the names heard. -/
theorem boundaryLoop_spec (hfew : g.FewHeard ll usr) (fuel qi : ℕ) {st : BoundaryWalk}
    (h : g.Walking ll usr qi st) (hqi : qi ≤ st.queue.length)
    (hfuel : kMaxBoundaryWalkNodes ≤ fuel + qi) :
    ∃ names : List Bytes, (boundaryLoop ll g fuel qi st).queue = names ∧ names.Nodup ∧
      (∀ n, n ∈ names ↔ g.Heard ll usr n) ∧
      (boundaryLoop ll g fuel qi st).found = (g.boundariesHeard ll names).map g.boundaryOf := by
  have hshort := hfew _ h.nodup h.heard
  induction fuel generalizing qi st with
  | zero => omega
  | succ fuel ih =>
    rw [boundaryLoop, if_neg (not_le.mpr hshort)]
    rcases hcur : st.queue[qi]? with _ | cur
    · -- every name was visited
      have hall : st.queue.take qi = st.queue :=
        List.take_of_length_le (List.getElem?_eq_none_iff.mp hcur)
      refine ⟨st.queue, rfl, h.nodup, fun n => ⟨h.heard n, fun hn => ?_⟩, ?_⟩
      · induction hn with
        | usr => exact h.start
        | caller _ hc he hsync ih => exact h.closed _ (hall.symm ▸ ih) _ hc _ he hsync
      · rw [h.found, hall]
    · obtain ⟨hlt, hget⟩ := List.getElem?_eq_some_iff.mp hcur
      have hmem : cur ∈ st.queue := hget ▸ List.getElem_mem hlt
      dsimp only
      rw [callersOf_eq_map]
      obtain ⟨hnodup, ⟨more, hmore⟩, hqueue, hfound⟩ :=
        BoundaryWalk.follow_all (g := g) ((g.resolveUsrIds ll cur).flatMap g.callerRefsOf) h.nodup
      generalize (((g.resolveUsrIds ll cur).flatMap g.callerRefsOf).map g.materialize).foldl
        BoundaryWalk.follow st = st' at *
      have htake : st'.queue.take (qi + 1) = st.queue.take qi ++ [cur] := by
        rw [hmore, List.take_append_of_le_length hlt, List.take_add_one, hcur]
        rfl
      have hheard : ∀ n ∈ st'.queue, g.Heard ll usr n := by
        intro n hn
        rcases (hqueue n).mp hn with hn | ⟨e, he, hsync, rfl⟩
        · exact h.heard n hn
        · obtain ⟨c, hc, he⟩ := List.mem_flatMap.mp he
          exact .caller (h.heard cur hmem) hc he hsync
      refine ih (qi + 1) ⟨hnodup, (hqueue usr).mpr (.inl h.start), hheard, fun n hn c hc e he hsync => ?_,
        ?_⟩ ?_ (by omega) (hfew _ hnodup hheard)
      · rw [htake] at hn
        rcases List.mem_append.mp hn with hn | hn
        · exact (hqueue _).mpr (.inl (h.closed n hn c hc e he hsync))
        · rw [List.mem_singleton.mp hn] at hc
          exact (hqueue _).mpr (.inr ⟨e, List.mem_flatMap.mpr ⟨c, hc, he⟩, hsync, rfl⟩)
      · rw [hfound, h.found, htake, boundariesHeard, boundariesHeard, List.flatMap_append,
          List.flatMap_singleton, List.map_append, List.filter_flatMap]
        rfl
      · rw [hmore, List.length_append]
        omega

/-- An edge that `explain_ordering` should list for `f`. -/
def IsBoundary (g : CallGraph) (f : SId) (e : EdgeRef) : Prop :=
  e.execContext ≠ .synchronous ∧ e ∈ g.callerRefsOf e.callee ∧ g.SyncReaches f e.callee

/-- The edges that a walk over `names` records are the boundaries of `f`, each once. -/
def ExactlyBoundaries (g : CallGraph) (f : SId) (edges : List EdgeRef) : Prop :=
  edges.Nodup ∧ ∀ e, e ∈ edges ↔ g.IsBoundary f e

variable (ll) in
/-- Every function that has a boundary is resolved by exactly one name heard, when it stands
behind `f`, and by none otherwise. -/
def HeardRight (g : CallGraph) (f : SId) : Prop :=
  ∀ c, g.boundariesInto c ≠ [] →
    (g.SyncReaches f c → ∃! n, g.Heard ll (g.interner.resolve f) n ∧ c ∈ g.resolveUsrIds ll n) ∧
    (¬ g.SyncReaches f c → ∀ n, g.Heard ll (g.interner.resolve f) n → c ∉ g.resolveUsrIds ll n)

theorem mem_boundariesInto {c : SId} {e : EdgeRef} :
    e ∈ g.boundariesInto c ↔ e ∈ g.callerRefsOf c ∧ e.execContext ≠ .synchronous := by
  rw [boundariesInto, List.mem_filter, decide_eq_true_eq]

theorem mem_boundariesHeard {names : List Bytes} {e : EdgeRef} :
    e ∈ g.boundariesHeard ll names ↔
      ∃ n ∈ names, ∃ c ∈ g.resolveUsrIds ll n, e ∈ g.boundariesInto c := by
  simp only [boundariesHeard, List.mem_flatMap]

theorem Inv.nodup_resolveUsrIds (hg : g.Inv) (n : Bytes) : (g.resolveUsrIds ll n).Nodup := by
  rw [resolveUsrIds]
  rcases g.findText ll n with _ | id
  · exact List.nodup_nil
  · dsimp only
    split_ifs
    · exact List.nodup_singleton _
    · exact hg.node.byName_nodup id
    · exact List.nodup_singleton _

/-- A boundary has one function as its callee. -/
theorem Inv.callee_of_mem_boundariesInto (hg : g.Inv) {c : SId} {e : EdgeRef}
    (he : e ∈ g.boundariesInto c) : e.callee = c :=
  hg.callee_of_mem_callerRefsOf (mem_boundariesInto.mp he).1

/-- Names list each boundary once exactly if no two of them resolve to its callee. -/
theorem Inv.nodup_boundariesHeard_iff (hg : g.Inv) {names : List Bytes} (hnodup : names.Nodup) :
    (g.boundariesHeard ll names).Nodup ↔ ∀ n ∈ names, ∀ n' ∈ names, ∀ c, g.boundariesInto c ≠ [] →
      c ∈ g.resolveUsrIds ll n → c ∈ g.resolveUsrIds ll n' → n = n' := by
  have hone : ∀ n, ((g.resolveUsrIds ll n).flatMap g.boundariesInto).Nodup := by
    intro n
    refine List.nodup_flatMap.mpr ⟨fun c _ => (hg.nodup_callerRefsOf c).filter _, ?_⟩
    refine (hg.nodup_resolveUsrIds n).imp fun {c c'} hne e he he' => hne ?_
    exact (hg.callee_of_mem_boundariesInto he).symm.trans (hg.callee_of_mem_boundariesInto he')
  rw [boundariesHeard, List.nodup_flatMap, and_iff_right fun n _ => hone n]
  constructor
  · intro hpair n hn n' hn' c hc hcn hcn'
    by_contra hne
    obtain ⟨e, he⟩ := List.exists_mem_of_ne_nil _ hc
    -- two names would list a boundary of `c` twice
    have hsymm : Std.Symm (Function.onFun List.Disjoint fun n =>
        (g.resolveUsrIds ll n).flatMap g.boundariesInto) := ⟨fun _ _ h => h.symm⟩
    exact hpair.forall hn hn' hne (List.mem_flatMap.mpr ⟨c, hcn, he⟩)
      (List.mem_flatMap.mpr ⟨c, hcn', he⟩)
  · intro hall
    refine hnodup.imp_of_mem fun {n n'} hn hn' hne e he he' => hne ?_
    obtain ⟨c, hc, he⟩ := List.mem_flatMap.mp he
    obtain ⟨c', hc', he'⟩ := List.mem_flatMap.mp he'
    obtain rfl : c = c' :=
      (hg.callee_of_mem_boundariesInto he).symm.trans (hg.callee_of_mem_boundariesInto he')
    exact hall n hn n' hn' c (List.ne_nil_of_mem he) hc hc'

/-- The edges of the names heard are the boundaries of `f` exactly if the names heard are
right. -/
theorem Inv.exactlyBoundaries_iff (hg : g.Inv) {f : SId} {names : List Bytes} (hnodup : names.Nodup)
    (hnames : ∀ n, n ∈ names ↔ g.Heard ll (g.interner.resolve f) n) :
    g.ExactlyBoundaries f (g.boundariesHeard ll names) ↔ g.HeardRight ll f := by
  rw [ExactlyBoundaries, hg.nodup_boundariesHeard_iff hnodup]
  constructor
  · rintro ⟨honce, hmem⟩ c hc
    obtain ⟨e, he⟩ := List.exists_mem_of_ne_nil _ hc
    have hcallee := hg.callee_of_mem_boundariesInto he
    obtain ⟨hin, hasync⟩ := mem_boundariesInto.mp he
    have hlisted : e ∈ g.boundariesHeard ll names ↔ g.SyncReaches f c := by
      rw [hmem, IsBoundary, hcallee]
      exact ⟨fun h => h.2.2, fun h => ⟨hasync, hin, h⟩⟩
    refine ⟨fun hreach => ?_, fun hreach n hn hcn => hreach (hlisted.mp ?_)⟩
    · obtain ⟨n, hn, c', hc', he'⟩ := mem_boundariesHeard.mp (hlisted.mpr hreach)
      obtain rfl : c' = c := (hg.callee_of_mem_boundariesInto he').symm.trans hcallee
      refine ⟨n, ⟨(hnames n).mp hn, hc'⟩, fun n' hn' => ?_⟩
      exact honce n' ((hnames n').mpr hn'.1) n hn c' hc hn'.2 hc'
    · exact mem_boundariesHeard.mpr ⟨n, (hnames n).mpr hn, c, hcn, he⟩
  · intro hright
    refine ⟨fun n hn n' hn' c hc hcn hcn' => ?_, fun e => ?_⟩
    · have hn := (hnames n).mp hn
      have hn' := (hnames n').mp hn'
      by_cases hreach : g.SyncReaches f c
      · exact ((hright c hc).1 hreach).unique ⟨hn, hcn⟩ ⟨hn', hcn'⟩
      · exact absurd hcn ((hright c hc).2 hreach n hn)
    · rw [mem_boundariesHeard]
      constructor
      · rintro ⟨n, hn, c, hc, he⟩
        obtain ⟨hin, hasync⟩ := mem_boundariesInto.mp he
        rw [IsBoundary, hg.callee_of_mem_boundariesInto he]
        refine ⟨hasync, hin, not_not.mp fun hreach => ?_⟩
        exact (hright c (List.ne_nil_of_mem he)).2 hreach n ((hnames n).mp hn) hc
      · rintro ⟨hasync, hin, hreach⟩
        have he := mem_boundariesInto.mpr ⟨hin, hasync⟩
        obtain ⟨n, ⟨hn, hc⟩, -⟩ := (hright _ (List.ne_nil_of_mem he)).1 hreach
        exact ⟨n, (hnames n).mpr hn, _, hc, he⟩

variable (ll) in
/-- The edges whose records the walk lists: the boundaries of the functions that the names on
its queue resolve to. -/
def boundariesWalked (g : CallGraph) (usr : Bytes) : List EdgeRef :=
  g.boundariesHeard ll
    (boundaryLoop ll g kMaxBoundaryWalkNodes 0 { queue := [usr] }).queue

/-- **The boundaries listed.** A walk below its bound lists the records of the edges it met.
These are exactly the boundaries of the function, each once, if and only if every function
with a boundary is resolved by one name heard, or by none if it does not stand behind. -/
theorem findConcurrencyBoundaries_exact_iff (ll : Llvm) {log : List Registration}
    (hg : Reachable g log) (f : SId) (hfew : g.FewHeard ll (g.interner.resolve f)) :
    findConcurrencyBoundaries ll g (g.interner.resolve f) =
        (g.boundariesWalked ll (g.interner.resolve f)).map g.boundaryOf ∧
      (g.ExactlyBoundaries f (g.boundariesWalked ll (g.interner.resolve f)) ↔
        g.HeardRight ll f) := by
  have hstart : g.Walking ll (g.interner.resolve f) 0 { queue := [g.interner.resolve f] } := by
    refine ⟨List.nodup_singleton _, List.mem_singleton_self _, fun n hn => ?_,
      fun n hn => absurd hn List.not_mem_nil, rfl⟩
    rw [List.mem_singleton.mp hn]
    exact .usr
  obtain ⟨names, hqueue, hnodup, hnames, hfound⟩ :=
    boundaryLoop_spec hfew kMaxBoundaryWalkNodes 0 hstart (Nat.zero_le _) le_rfl
  rw [findConcurrencyBoundaries, boundariesWalked, hqueue]
  exact ⟨hfound, hg.inv.1.exactlyBoundaries_iff hnodup hnames⟩

/-- A thread is started at `f`. -/
def threadStart : List Registration :=
  [.node { qualifiedName := [102], usr := [102] } [],
    .edge ⟨[109], [102], .threadEntry, .Proven, [115], 0, .threadSpawn, [], []⟩ []]

/-- The walk from `f` lists the thread's start. -/
theorem findConcurrencyBoundaries_exact_threadStart :
    let g := ({} : CallGraph).registerAll threadStart
    (findConcurrencyBoundaries utf8Llvm g [102]).length = 1 ∧
      g.ExactlyBoundaries 0 (g.boundariesWalked utf8Llvm [102]) := by
  intro g
  have hg : Reachable g ([] ++ threadStart) := BuiltFrom.empty.registerAll fun _ _ => trivial
  have hids : g.resolveUsrIds utf8Llvm [102] = [0] := by decide +kernel
  have hasync : ∀ e ∈ g.callerRefsOf 0, e.execContext ≠ .synchronous := by decide +kernel
  have hname : g.interner.resolve 0 = [102] := by decide +kernel
  -- the walk stops at once
  have hheard : ∀ n, g.Heard utf8Llvm [102] n → n = [102] := by
    intro n hn
    induction hn with
    | usr => rfl
    | caller _ hc he hsync ih =>
      rw [ih, hids, List.mem_singleton] at hc
      exact absurd hsync (hasync _ (hc ▸ he))
  have hfew : g.FewHeard utf8Llvm (g.interner.resolve 0) := by
    intro names hnodup hall
    rw [hname] at hall
    have hsub : names ⊆ [[102]] := fun n hn => List.mem_singleton.mpr (hheard n (hall n hn))
    have hlen := (List.subperm_of_subset hnodup hsub).length_le
    exact lt_of_le_of_lt hlen (by decide)
  obtain ⟨-, hiff⟩ := findConcurrencyBoundaries_exact_iff utf8Llvm hg 0 hfew
  rw [hname] at hiff
  refine ⟨by decide +kernel, hiff.mpr fun c hc => ⟨fun hreach => ?_, fun hreach n hn hcn => ?_⟩⟩
  · have hself : ∀ c, g.SyncReaches 0 c → c = 0 := by
      intro c hc
      induction hc with
      | self => rfl
      | caller _ he hsync ih => exact absurd hsync (hasync _ (ih ▸ he))
    rw [hself c hreach, hname]
    refine ⟨[102], ⟨.usr, by rw [hids]; exact List.mem_singleton_self 0⟩, fun n hn => hheard n hn.1⟩
  · rw [hname] at hn
    rw [hheard n hn, hids, List.mem_singleton] at hcn
    exact hreach (hcn ▸ .self)

/-- `a` calls `f`; `b` only shares the display name `n` with `a`, and is the entry of a
thread. -/
def sharedName : List Registration :=
  [.node { qualifiedName := [102], usr := [102] } [],
    .node { qualifiedName := [110], usr := [97] } [],
    .node { qualifiedName := [110], usr := [98] } [],
    .edge ⟨[97], [102], .directCall, .Proven, [115], 0, .synchronous, [], []⟩ [],
    .edge ⟨[122], [98], .threadEntry, .Proven, [116], 0, .threadSpawn, [], []⟩ []]

/-- The walk from `f` lists the start of the thread of `b`. -/
theorem findConcurrencyBoundaries_shares_name :
    ¬ ∀ (ll : Llvm), ll.AcceptsUtf8 → ∀ (g : CallGraph) (log : List Registration),
      Reachable g log → ∀ f < g.interner.size,
        (∀ l : List SId, l.Nodup → (∀ c ∈ l, g.SyncReaches f c) →
          l.length < kMaxBoundaryWalkNodes) →
        ∃ edges, findConcurrencyBoundaries ll g (g.interner.resolve f) = edges.map g.boundaryOf ∧
          g.ExactlyBoundaries f edges := by
  intro hall
  have hg : Reachable (({} : CallGraph).registerAll sharedName) ([] ++ sharedName) :=
    BuiltFrom.empty.registerAll fun _ _ => trivial
  have hfew : ∀ l : List SId, l.Nodup →
      (∀ c ∈ l, (({} : CallGraph).registerAll sharedName).SyncReaches 0 c) →
        l.length < kMaxBoundaryWalkNodes := by
    intro l hnodup hl
    have hlt : ∀ c, (({} : CallGraph).registerAll sharedName).SyncReaches 0 c →
        c < (({} : CallGraph).registerAll sharedName).interner.size := by
      intro c hc
      induction hc with
      | self => decide +kernel
      | caller _ he _ _ => exact (hg.inv.1.below_of_mem_callerRefsOf he).1
    have hsub : l ⊆ List.range (({} : CallGraph).registerAll sharedName).interner.size :=
      fun c hc => List.mem_range.mpr (hlt c (hl c hc))
    have hlen := (List.subperm_of_subset hnodup hsub).length_le
    rw [List.length_range] at hlen
    exact lt_of_le_of_lt hlen (by decide +kernel)
  obtain ⟨edges, hfound, -, hexact⟩ :=
    hall utf8Llvm acceptsUtf8_utf8Llvm _ _ hg 0 (by decide +kernel) hfew
  have hone : (findConcurrencyBoundaries utf8Llvm (({} : CallGraph).registerAll sharedName)
      ((({} : CallGraph).registerAll sharedName).interner.resolve 0)).length = 1 := by
    decide +kernel
  rw [hfound, List.length_map] at hone
  obtain ⟨e, rfl⟩ := List.length_eq_one_iff.mp hone
  obtain ⟨hasync, hin, hreach⟩ := (hexact e).mp (List.mem_singleton_self e)
  -- only `f` and `a` stand behind, and neither has a boundary
  have hbehind : ∀ c, (({} : CallGraph).registerAll sharedName).SyncReaches 0 c →
      c = 0 ∨ c = 1 := by
    intro c hc
    have hcallers : ∀ c, c = 0 ∨ c = 1 →
        ∀ e ∈ (({} : CallGraph).registerAll sharedName).callerRefsOf c,
          e.caller = 0 ∨ e.caller = 1 := by
      rintro c (rfl | rfl) <;> decide +kernel
    induction hc with
    | self => exact .inl rfl
    | caller _ he _ ih => exact hcallers _ ih _ he
  have hnone : ∀ c, c = 0 ∨ c = 1 →
      ∀ e ∈ (({} : CallGraph).registerAll sharedName).callerRefsOf c,
        e.execContext = .synchronous := by
    rintro c (rfl | rfl) <;> decide +kernel
  exact hasync (hnone _ (hbehind _ hreach) e hin)

end CallGraph

end Vycor
