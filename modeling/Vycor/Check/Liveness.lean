import Vycor.Check.DeadCode
import Vycor.ControlFlow.CatchWalk
import Mathlib.Order.Bounds.Basic

/-!
# What the dead-code walk reaches

The walk runs over usrs. A set of usrs is closed for it if it contains the seeds and with a
function the targets of the edges that are followed: in the optimistic mode also those of a
dispatch to a method of a class that a function of the set constructs. Edges put aside are
looked at again whenever a class was added, so the walk ends with the least closed set
(`livenessBfs_isLeast`).
-/

namespace Vycor

namespace CallGraph

variable (ll : Llvm) (g : CallGraph)

/-- A function of a set of usrs calls a constructor of a class. -/
def Built (A : Set Bytes) (cls : Bytes) : Prop :=
  ∃ b ∈ A, ∃ e ∈ g.calleesOf ll b, e.kind = .constructorCall ∧
    g.enclosingClassOf ll e.calleeUsr = some cls

/-- A function is a method of a class, or an effective implementation for it. -/
def MethodOf (usr cls : Bytes) : Prop :=
  cls ∈ g.getClassesForImpl ll usr ∨ g.enclosingClassOf ll usr = some cls

/-- A set of usrs that the walk does not leave. -/
structure WalkClosed (optimistic : Bool) (seeds : List Bytes) (A : Set Bytes) : Prop where
  seed : ∀ u ∈ seeds.flatMap (g.usrsForName ll), u ∈ A
  proven : ∀ u ∈ A, ∀ e ∈ g.calleesOf ll u, e.confidence = .Proven → e.calleeUsr ∈ A
  other : optimistic = true → ∀ u ∈ A, ∀ e ∈ g.calleesOf ll u, e.kind ≠ .virtualDispatch →
    e.calleeUsr ∈ A
  dispatch : optimistic = true → ∀ u ∈ A, ∀ e ∈ g.calleesOf ll u, e.kind = .virtualDispatch →
    ∀ cls, g.Built ll A cls → g.MethodOf ll e.calleeUsr cls → e.calleeUsr ∈ A

/-- An edge of the graph, stored or synthesized. -/
def Shows (e : CallGraphEdge) : Prop := ∃ i, ∃ r ∈ g.calleeRefsOf i, g.materialize r = e

/-- Dispatches are proven or plausible. -/
def DispatchesKnown : Prop :=
  ∀ e, g.Shows e → e.kind = .virtualDispatch → e.confidence = .Proven ∨ e.confidence = .Plausible

variable {ll g}

theorem shows_of_mem_calleesOf {u : Bytes} {e : CallGraphEdge} (he : e ∈ g.calleesOf ll u) :
    g.Shows e := by
  obtain ⟨i, -, he⟩ := List.mem_flatMap.mp he
  obtain ⟨r, hr, rfl⟩ := List.mem_map.mp he
  exact ⟨i, r, hr, rfl⟩

theorem targetConstructed_iff {constructed : List Bytes} {usr : Bytes} :
    g.targetConstructed ll constructed usr = true ↔ ∃ cls ∈ constructed, g.MethodOf ll usr cls := by
  rw [targetConstructed, Bool.or_eq_true, List.any_eq_true, Option.any_eq_true]
  simp only [decide_eq_true_eq, MethodOf]
  constructor
  · rintro (⟨cls, himpl, hcls⟩ | ⟨cls, hencl, hcls⟩)
    exacts [⟨cls, hcls, .inl himpl⟩, ⟨cls, hcls, .inr hencl⟩]
  · rintro ⟨cls, hcls, himpl | hencl⟩
    exacts [.inl ⟨cls, himpl, hcls⟩, .inr ⟨cls, hencl, hcls⟩]

variable (ll g) in
/-- What the walk has done about an edge it has met. -/
structure Handled (optimistic : Bool) (st : LivenessWalk) (e : CallGraphEdge) : Prop where
  built : e.kind = .constructorCall → ∀ cls, g.enclosingClassOf ll e.calleeUsr = some cls →
    cls ∈ st.constructedClasses
  proven : e.confidence = .Proven → e.calleeUsr ∈ st.alive
  other : optimistic = true → e.kind ≠ .virtualDispatch → e.calleeUsr ∈ st.alive
  dispatch : optimistic = true → e.kind = .virtualDispatch →
    e.calleeUsr ∈ st.alive ∨ e.calleeUsr ∈ st.deferred

/-- A later state of a walk. -/
structure Later (st st' : LivenessWalk) : Prop where
  alive : st.alive ⊆ st'.alive
  constructed : st.constructedClasses ⊆ st'.constructedClasses
  deferred : ∀ d ∈ st.deferred, d ∈ st'.alive ∨ d ∈ st'.deferred

theorem Later.refl (st : LivenessWalk) : Later st st :=
  ⟨List.Subset.refl _, List.Subset.refl _, fun _ hd => .inr hd⟩

theorem Later.trans {st st' st'' : LivenessWalk} (h : Later st st') (h' : Later st' st'') :
    Later st st'' where
  alive _ hu := h'.alive (h.alive hu)
  constructed _ hc := h'.constructed (h.constructed hc)
  deferred d hd := (h.deferred d hd).elim (fun ha => .inl (h'.alive ha)) (h'.deferred d)

theorem Handled.later {optimistic : Bool} {st st' : LivenessWalk} {e : CallGraphEdge}
    (h : g.Handled ll optimistic st e) (hst : Later st st') :
    g.Handled ll optimistic st' e where
  built hkind cls hcls := hst.constructed (h.built hkind cls hcls)
  proven hconf := hst.alive (h.proven hconf)
  other hopt hkind := hst.alive (h.other hopt hkind)
  dispatch hopt hkind :=
    (h.dispatch hopt hkind).elim (fun ha => .inl (hst.alive ha)) (hst.deferred _)

/-- What holds at every step of a walk: what is alive lies in every closed set, the functions
not queued any more were taken off the queue, the edges of those `done` were met, and what
waits for a class waits for one that is not there, unless one was added in this round, which
began with `n` classes. -/
structure WalkInv (ll : Llvm) (g : CallGraph) (optimistic : Bool) (seeds : List Bytes) (n : ℕ)
    (taken done : List Bytes) (st : LivenessWalk) : Prop where
  sound : ∀ A, g.WalkClosed ll optimistic seeds A → (∀ u ∈ st.alive, u ∈ A) ∧
    (∀ cls ∈ st.constructedClasses, g.Built ll A cls) ∧
    ∀ d ∈ st.deferred, optimistic = true ∧
      ∃ b ∈ A, ∃ e ∈ g.calleesOf ll b, e.kind = .virtualDispatch ∧ e.calleeUsr = d
  cover : ∀ u ∈ st.alive, u ∈ taken ∨ u ∈ st.queue
  queued : ∀ u ∈ st.queue, u ∈ st.alive
  nodup : st.alive.Nodup
  classes : st.constructedClasses.Nodup
  handled : ∀ u ∈ done, ∀ e ∈ g.calleesOf ll u, g.Handled ll optimistic st e
  parked : ∀ d ∈ st.deferred, g.targetConstructed ll st.constructedClasses d = true →
    d ∈ st.alive ∨ st.changed = true
  grown : n ≤ st.constructedClasses.length ∧
    (st.changed = true → n < st.constructedClasses.length)

variable {optimistic : Bool} {seeds taken done : List Bytes} {n : ℕ} {st : LivenessWalk}

/-- A target becomes alive. -/
theorem later_reach (st : LivenessWalk) (usr : Bytes) : Later st (st.reach usr) := by
  rw [LivenessWalk.reach]
  split_ifs with hold
  · exact .refl st
  · exact ⟨fun u hu => List.mem_cons_of_mem _ hu, List.Subset.refl _, fun d hd => .inr hd⟩

theorem mem_alive_reach (st : LivenessWalk) (usr : Bytes) : usr ∈ (st.reach usr).alive := by
  rw [LivenessWalk.reach]
  split_ifs with hold
  · exact hold
  · exact List.mem_cons_self

theorem WalkInv.reach (h : g.WalkInv ll optimistic seeds n taken done st) {usr : Bytes}
    (husr : ∀ A, g.WalkClosed ll optimistic seeds A → usr ∈ A) :
    g.WalkInv ll optimistic seeds n taken done (st.reach usr) := by
  have hlater := later_reach st usr
  rw [LivenessWalk.reach] at hlater ⊢
  split_ifs at hlater ⊢ with hold
  · exact h
  · refine ⟨fun A hA => ⟨fun u hu => ?_, (h.sound A hA).2⟩, fun u hu => ?_, fun u hu => ?_,
      List.nodup_cons.mpr ⟨hold, h.nodup⟩, h.classes,
      fun u hu e he => (h.handled u hu e he).later hlater, fun d hd hready => ?_, h.grown⟩
    · rcases List.mem_cons.mp hu with rfl | hu
      · exact husr A hA
      · exact (h.sound A hA).1 u hu
    · rcases List.mem_cons.mp hu with rfl | hu
      · exact .inr (List.mem_append_right _ (List.mem_singleton_self _))
      · exact (h.cover u hu).imp_right (List.mem_append_left _)
    · rcases List.mem_append.mp hu with hu | hu
      · exact List.mem_cons_of_mem _ (h.queued u hu)
      · rw [List.mem_singleton.mp hu]
        exact List.mem_cons_self
    · exact (h.parked d hd hready).imp_left (List.mem_cons_of_mem _)

/-- A class is constructed. -/
theorem WalkInv.construct (h : g.WalkInv ll optimistic seeds n taken done st) {cls : Bytes}
    (hcls : ∀ A, g.WalkClosed ll optimistic seeds A → g.Built ll A cls) :
    g.WalkInv ll optimistic seeds n taken done (st.construct cls) ∧ Later st (st.construct cls) ∧
      cls ∈ (st.construct cls).constructedClasses ∧ (st.construct cls).queue = st.queue ∧
      (st.construct cls).alive = st.alive := by
  rw [LivenessWalk.construct]
  split_ifs with hold
  · exact ⟨h, .refl st, hold, rfl, rfl⟩
  · have hlater : Later st { st with
        constructedClasses := cls :: st.constructedClasses, changed := true } :=
      ⟨List.Subset.refl _, fun c hc => List.mem_cons_of_mem _ hc, fun d hd => .inr hd⟩
    have hlen := h.grown.1
    refine ⟨⟨fun A hA => ⟨(h.sound A hA).1, fun c hc => ?_, (h.sound A hA).2.2⟩, h.cover,
      h.queued, h.nodup, List.nodup_cons.mpr ⟨hold, h.classes⟩,
      fun u hu e he => (h.handled u hu e he).later hlater, fun d _ _ => .inr rfl, ?_⟩, hlater,
      List.mem_cons_self, rfl, rfl⟩
    · rcases List.mem_cons.mp hc with rfl | hc
      · exact hcls A hA
      · exact (h.sound A hA).2.1 c hc
    · rw [List.length_cons]
      exact ⟨by omega, fun _ => by omega⟩

/-- A dispatch is put aside. -/
theorem WalkInv.defer (h : g.WalkInv ll optimistic seeds n taken done st) {usr : Bytes}
    (hopt : optimistic = true)
    (hedge : ∀ A, g.WalkClosed ll optimistic seeds A → ∃ b ∈ A, ∃ e ∈ g.calleesOf ll b,
      e.kind = .virtualDispatch ∧ e.calleeUsr = usr)
    (hwait : g.targetConstructed ll st.constructedClasses usr = false) :
    g.WalkInv ll optimistic seeds n taken done { st with deferred := st.deferred ++ [usr] } ∧
      Later st { st with deferred := st.deferred ++ [usr] } := by
  have hlater : Later st { st with deferred := st.deferred ++ [usr] } :=
    ⟨List.Subset.refl _, List.Subset.refl _, fun d hd => .inr (List.mem_append_left _ hd)⟩
  refine ⟨⟨fun A hA => ⟨(h.sound A hA).1, (h.sound A hA).2.1, fun d hd => ?_⟩, h.cover,
    h.queued, h.nodup, h.classes, fun u hu e he => (h.handled u hu e he).later hlater,
    fun d hd hready => ?_, h.grown⟩, hlater⟩
  · rcases List.mem_append.mp hd with hd | hd
    · exact (h.sound A hA).2.2 d hd
    · rw [List.mem_singleton.mp hd]
      exact ⟨hopt, hedge A hA⟩
  · rcases List.mem_append.mp hd with hd | hd
    · exact h.parked d hd hready
    · rw [List.mem_singleton.mp hd, hwait] at hready
      cases hready

/-- A function becomes alive when it is queued. -/
theorem balance_reach (st : LivenessWalk) (usr : Bytes) :
    (st.reach usr).alive.length + st.queue.length = st.alive.length + (st.reach usr).queue.length := by
  rw [LivenessWalk.reach]
  split_ifs with hold
  · rfl
  · rw [List.length_cons, List.length_append, List.length_singleton]
    omega

/-- When an edge is followed. -/
theorem shouldFollowEdge_iff {constructed : List Bytes} {e : CallGraphEdge} :
    g.shouldFollowEdge ll optimistic constructed e = true ↔ e.confidence = .Proven ∨
      (optimistic = true ∧ (e.kind ≠ .virtualDispatch ∨
        g.targetConstructed ll constructed e.calleeUsr = true)) := by
  rw [shouldFollowEdge]
  split_ifs with hproven hopt hpointer hdispatch
  · exact iff_of_true rfl (.inl hproven)
  · rw [Bool.not_eq_true'] at hopt
    simp [hproven, hopt]
  · rw [Bool.not_eq_true', Bool.not_eq_false] at hopt
    exact iff_of_true rfl (.inr ⟨hopt, .inl fun hd => by rw [hpointer] at hd; cases hd⟩)
  · rw [Bool.not_eq_true', Bool.not_eq_false] at hopt
    simp [hproven, hopt, hdispatch]
  · rw [Bool.not_eq_true', Bool.not_eq_false] at hopt
    exact iff_of_true rfl (.inr ⟨hopt, .inl hdispatch⟩)

/-- **One edge.** It is followed, put aside, or left. -/
theorem WalkInv.walkEdge (hknown : g.DispatchesKnown)
    (h : g.WalkInv ll optimistic seeds n taken done st) {current : Bytes} (hcur : current ∈ st.alive)
    {e : CallGraphEdge} (he : e ∈ g.calleesOf ll current) :
    g.WalkInv ll optimistic seeds n taken done (g.walkEdge ll optimistic st e) ∧
      Later st (g.walkEdge ll optimistic st e) ∧
      g.Handled ll optimistic (g.walkEdge ll optimistic st e) e ∧
      (g.walkEdge ll optimistic st e).alive.length + st.queue.length =
        st.alive.length + (g.walkEdge ll optimistic st e).queue.length := by
  have hin : ∀ A, g.WalkClosed ll optimistic seeds A → current ∈ A :=
    fun A hA => (h.sound A hA).1 current hcur
  -- the class of a constructor is noted first
  obtain ⟨st₁, hst₁, h₁, hlater₁, hbuilt₁, hqueue₁, halive₁⟩ : ∃ st₁ : LivenessWalk,
      g.walkEdge ll optimistic st e =
        (if g.shouldFollowEdge ll optimistic st₁.constructedClasses e then st₁.reach e.calleeUsr
        else if optimistic ∧ e.kind = .virtualDispatch ∧ e.confidence = .Plausible then
          { st₁ with deferred := st₁.deferred ++ [e.calleeUsr] }
        else st₁) ∧
      g.WalkInv ll optimistic seeds n taken done st₁ ∧ Later st st₁ ∧
      (e.kind = .constructorCall → ∀ cls, g.enclosingClassOf ll e.calleeUsr = some cls →
        cls ∈ st₁.constructedClasses) ∧ st₁.queue = st.queue ∧ st₁.alive = st.alive := by
    refine ⟨_, rfl, ?_⟩
    split_ifs with hkind
    · rcases hclass : g.enclosingClassOf ll e.calleeUsr with _ | cls
      · exact ⟨h, .refl st, fun _ cls hcls => (by cases hcls), rfl, rfl⟩
      · obtain ⟨hinv, hlater, hmem, hqueue, halive⟩ :=
          h.construct fun A hA => ⟨current, hin A hA, e, he, hkind, hclass⟩
        exact ⟨hinv, hlater, fun _ cls' hcls => Option.some_inj.mp hcls ▸ hmem, hqueue, halive⟩
    · exact ⟨h, .refl st, fun hk => absurd hk hkind, rfl, rfl⟩
  rw [hst₁]
  split_ifs with hfollow hpark
  · -- followed
    have hreach : ∀ A, g.WalkClosed ll optimistic seeds A → e.calleeUsr ∈ A := by
      intro A hA
      rcases shouldFollowEdge_iff.mp hfollow with hproven | ⟨hopt, hother | hready⟩
      · exact hA.proven current (hin A hA) e he hproven
      · exact hA.other hopt current (hin A hA) e he hother
      · obtain ⟨cls, hcls, hmethod⟩ := targetConstructed_iff.mp hready
        by_cases hkind : e.kind = .virtualDispatch
        · exact hA.dispatch hopt current (hin A hA) e he hkind cls ((h₁.sound A hA).2.1 cls hcls)
            hmethod
        · exact hA.other hopt current (hin A hA) e he hkind
    have hlater₂ := later_reach st₁ e.calleeUsr
    have halive := mem_alive_reach st₁ e.calleeUsr
    refine ⟨h₁.reach hreach, hlater₁.trans hlater₂, ⟨fun hk cls hcls =>
      hlater₂.constructed (hbuilt₁ hk cls hcls), fun _ => halive, fun _ _ => halive,
      fun _ _ => .inl halive⟩, ?_⟩
    rw [← hqueue₁, ← halive₁]
    exact balance_reach st₁ e.calleeUsr
  · -- put aside
    obtain ⟨hopt, hkind, hplausible⟩ := hpark
    rw [shouldFollowEdge_iff, not_or] at hfollow
    have hwait : g.targetConstructed ll st₁.constructedClasses e.calleeUsr = false := by
      rw [← Bool.not_eq_true]
      exact fun hready => hfollow.2 ⟨hopt, .inr hready⟩
    obtain ⟨hinv, hlater₂⟩ := h₁.defer hopt (fun A hA => ⟨current, hin A hA, e, he, hkind, rfl⟩) hwait
    refine ⟨hinv, hlater₁.trans hlater₂, ⟨hbuilt₁, fun hproven => absurd hproven hfollow.1,
      fun _ hne => absurd hkind hne, fun _ _ => .inr (List.mem_append_right _
        (List.mem_singleton_self _))⟩, ?_⟩
    rw [hqueue₁, halive₁]
  · rw [shouldFollowEdge_iff, not_or, not_and] at hfollow
    refine ⟨h₁, hlater₁, ⟨hbuilt₁, fun hproven => absurd hproven hfollow.1, fun hopt hne =>
      absurd (Or.inl hne) (hfollow.2 hopt), fun hopt hkind => ?_⟩, by rw [hqueue₁, halive₁]⟩
    -- a dispatch that is not proven is plausible
    exact absurd ⟨hopt, hkind, (hknown e (shows_of_mem_calleesOf he) hkind).resolve_left hfollow.1⟩ hpark

/-- The edges of a function. -/
theorem WalkInv.walkEdges (hknown : g.DispatchesKnown) {current : Bytes} (l : List CallGraphEdge)
    (hl : ∀ e ∈ l, e ∈ g.calleesOf ll current) {st : LivenessWalk}
    (h : g.WalkInv ll optimistic seeds n taken done st) (hcur : current ∈ st.alive) :
    g.WalkInv ll optimistic seeds n taken done (l.foldl (g.walkEdge ll optimistic) st) ∧
      Later st (l.foldl (g.walkEdge ll optimistic) st) ∧
      (∀ e ∈ l, g.Handled ll optimistic (l.foldl (g.walkEdge ll optimistic) st) e) ∧
      (l.foldl (g.walkEdge ll optimistic) st).alive.length + st.queue.length =
        st.alive.length + (l.foldl (g.walkEdge ll optimistic) st).queue.length := by
  induction l generalizing st with
  | nil => exact ⟨h, .refl st, fun e he => absurd he List.not_mem_nil, rfl⟩
  | cons e l ih =>
    obtain ⟨h₁, hlater₁, hhandled, hbalance₁⟩ := h.walkEdge hknown hcur (hl e List.mem_cons_self)
    obtain ⟨h₂, hlater₂, hall, hbalance₂⟩ :=
      ih (fun x hx => hl x (List.mem_cons_of_mem _ hx)) h₁ (hlater₁.alive hcur)
    rw [List.foldl_cons]
    refine ⟨h₂, hlater₁.trans hlater₂, fun x hx => ?_, by omega⟩
    rcases List.mem_cons.mp hx with rfl | hx
    · exact hhandled.later hlater₂
    · exact hall x hx

/-! ### The rounds -/

variable (ll g) in
/-- The loop over the queue, run to its end. -/
inductive WalkDrained (optimistic : Bool) : LivenessWalk → LivenessWalk → Prop
  | empty {st : LivenessWalk} (hq : st.queue = []) : WalkDrained optimistic st st
  | take {st st' : LivenessWalk} {current : Bytes} {rest : List Bytes}
      (hq : st.queue = current :: rest)
      (hrest : WalkDrained optimistic ((g.calleesOf ll current).foldl (g.walkEdge ll optimistic)
        { st with queue := rest }) st') : WalkDrained optimistic st st'

variable (ll g) in
/-- The rounds of a walk, run to their end. -/
inductive WalkEnded (optimistic : Bool) : LivenessWalk → LivenessWalk → Prop
  | last {st st' : LivenessWalk} (hdrained : g.WalkDrained ll optimistic { st with changed := false } st')
      (hsame : st'.changed = false) : WalkEnded optimistic st st'
  | round {st st' st'' : LivenessWalk}
      (hdrained : g.WalkDrained ll optimistic { st with changed := false } st')
      (hchanged : st'.changed = true)
      (hrest : WalkEnded optimistic (if optimistic then g.recheckDeferred ll st' else st') st'') :
      WalkEnded optimistic st st''

/-- A set the walk does not leave bounds what it makes alive. -/
theorem WalkInv.length_alive_le (h : g.WalkInv ll optimistic seeds n taken done st)
    {bound : List Bytes} (hbound : g.WalkClosed ll optimistic seeds {u | u ∈ bound}) :
    st.alive.length ≤ bound.length :=
  (h.nodup.subperm (h.sound _ hbound).1).length_le

/-- **The queue.** It runs empty after as many functions as there are in a closed set. -/
theorem WalkInv.drainQueue (hknown : g.DispatchesKnown) {bound : List Bytes}
    (hbound : g.WalkClosed ll optimistic seeds {u | u ∈ bound}) (fuel : ℕ) {done : List Bytes}
    {st : LivenessWalk} (h : g.WalkInv ll optimistic seeds n done done st)
    (hfuel : st.queue.length + bound.length < fuel + st.alive.length) :
    g.WalkDrained ll optimistic st (g.drainQueue ll optimistic fuel st) ∧
      (g.drainQueue ll optimistic fuel st).queue = [] ∧
      st.alive ⊆ (g.drainQueue ll optimistic fuel st).alive ∧
      ∃ done', g.WalkInv ll optimistic seeds n done' done' (g.drainQueue ll optimistic fuel st) := by
  induction fuel generalizing done st with
  | zero =>
    have := h.length_alive_le hbound
    omega
  | succ fuel ih =>
    rcases hq : st.queue with _ | ⟨current, rest⟩
    · have hself : g.drainQueue ll optimistic (fuel + 1) st = st := by
        rw [CallGraph.drainQueue, hq]
      rw [hself]
      exact ⟨.empty hq, hq, List.Subset.refl _, done, h⟩
    · have hstep : g.drainQueue ll optimistic (fuel + 1) st = g.drainQueue ll optimistic fuel
          ((g.calleesOf ll current).foldl (g.walkEdge ll optimistic) { st with queue := rest }) := by
        rw [CallGraph.drainQueue, hq]
      have hcur : current ∈ st.alive := h.queued current (hq ▸ List.mem_cons_self)
      -- the function is off the queue, its edges not yet met
      have htaken : g.WalkInv ll optimistic seeds n (current :: done) done
          { st with queue := rest } := by
        refine ⟨h.sound, fun u hu => ?_, fun u hu => h.queued u ?_, h.nodup, h.classes,
          fun u hu e he => ?_, h.parked, h.grown⟩
        · rcases h.cover u hu with hu | hu
          · exact .inl (List.mem_cons_of_mem _ hu)
          · rw [hq] at hu
            exact (List.mem_cons.mp hu).imp_left fun heq : u = current => heq ▸ List.mem_cons_self
        · exact hq ▸ List.mem_cons_of_mem _ hu
        · exact (h.handled u hu e he).later ⟨List.Subset.refl _, List.Subset.refl _,
            fun _ hd => .inr hd⟩
      obtain ⟨hnext, hlater, hmet, hbalance⟩ :=
        htaken.walkEdges hknown (g.calleesOf ll current) (fun _ he => he) hcur
      rw [hq, List.length_cons] at hfuel
      dsimp only at hbalance
      have hall : ∀ u ∈ current :: done, ∀ e ∈ g.calleesOf ll u, g.Handled ll optimistic
          ((g.calleesOf ll current).foldl (g.walkEdge ll optimistic) { st with queue := rest }) e := by
        intro u hu e he
        rcases List.mem_cons.mp hu with rfl | hu
        · exact hmet e he
        · exact hnext.handled u hu e he
      obtain ⟨hdrained, hempty, hkept, hend⟩ := ih ⟨hnext.sound, hnext.cover, hnext.queued,
        hnext.nodup, hnext.classes, hall, hnext.parked, hnext.grown⟩ (by omega)
      rw [hstep]
      exact ⟨.take hq hdrained, hempty, List.Subset.trans hlater.alive hkept, hend⟩

/-- Targets that are all followed. -/
theorem WalkInv.foldl_reach {l : List Bytes}
    (hl : ∀ u ∈ l, ∀ A, g.WalkClosed ll optimistic seeds A → u ∈ A) {st : LivenessWalk}
    (h : g.WalkInv ll optimistic seeds n taken done st) :
    g.WalkInv ll optimistic seeds n taken done (l.foldl LivenessWalk.reach st) ∧
      (∀ u ∈ l, u ∈ (l.foldl LivenessWalk.reach st).alive) ∧
      Later st (l.foldl LivenessWalk.reach st) ∧
      (l.foldl LivenessWalk.reach st).alive.length + st.queue.length =
        st.alive.length + (l.foldl LivenessWalk.reach st).queue.length := by
  induction l generalizing st with
  | nil => exact ⟨h, fun u hu => absurd hu List.not_mem_nil, .refl st, rfl⟩
  | cons usr l ih =>
    have hbalance := balance_reach st usr
    obtain ⟨hnext, hall, hlater, hbalance'⟩ :=
      ih (fun u hu => hl u (List.mem_cons_of_mem _ hu)) (h.reach (hl usr List.mem_cons_self))
    rw [List.foldl_cons]
    refine ⟨hnext, fun u hu => ?_, (later_reach st usr).trans hlater, by omega⟩
    rcases List.mem_cons.mp hu with rfl | hu
    · exact hlater.alive (mem_alive_reach st u)
    · exact hall u hu

theorem constructedClasses_foldl_reach (l : List Bytes) (st : LivenessWalk) :
    (l.foldl LivenessWalk.reach st).constructedClasses = st.constructedClasses ∧
      (l.foldl LivenessWalk.reach st).deferred = st.deferred := by
  induction l generalizing st with
  | nil => exact ⟨rfl, rfl⟩
  | cons usr l ih =>
    rw [List.foldl_cons, (ih _).1, (ih _).2, LivenessWalk.reach]
    split_ifs with hold <;> exact ⟨rfl, rfl⟩

/-- The next round may begin when nothing put aside could be followed. -/
theorem WalkInv.restart (h : g.WalkInv ll optimistic seeds n taken done st)
    (hparked : ∀ d ∈ st.deferred, g.targetConstructed ll st.constructedClasses d = true →
      d ∈ st.alive) :
    g.WalkInv ll optimistic seeds st.constructedClasses.length taken done
      { st with changed := false } :=
  ⟨h.sound, h.cover, h.queued, h.nodup, h.classes, fun u hu e he =>
    (h.handled u hu e he).later ⟨List.Subset.refl _, List.Subset.refl _, fun _ hd => .inr hd⟩,
    fun d hd hready => .inl (hparked d hd hready), le_rfl, fun hc => by cases hc⟩

/-- **The edges put aside.** Those that can be followed now are. -/
theorem WalkInv.recheckDeferred (h : g.WalkInv ll optimistic seeds n done done st)
    (hq : st.queue = []) :
    g.WalkInv ll optimistic seeds (g.recheckDeferred ll st).constructedClasses.length done done
        { g.recheckDeferred ll st with changed := false } ∧
      (g.recheckDeferred ll st).constructedClasses = st.constructedClasses ∧
      st.alive ⊆ (g.recheckDeferred ll st).alive ∧
      (g.recheckDeferred ll st).queue.length ≤ (g.recheckDeferred ll st).alive.length := by
  have hready : ∀ u ∈ st.deferred.filter (g.targetConstructed ll st.constructedClasses),
      ∀ A, g.WalkClosed ll optimistic seeds A → u ∈ A := by
    intro u hu A hA
    obtain ⟨hu, hfollow⟩ := List.mem_filter.mp hu
    obtain ⟨cls, hcls, hmethod⟩ := targetConstructed_iff.mp hfollow
    obtain ⟨hopt, b, hb, e, he, hkind, rfl⟩ := (h.sound A hA).2.2 u hu
    exact hA.dispatch hopt b hb e he hkind cls ((h.sound A hA).2.1 cls hcls) hmethod
  obtain ⟨hnext, hall, hlater, hbalance⟩ := h.foldl_reach hready
  obtain ⟨hclasses, hdeferred⟩ := constructedClasses_foldl_reach
    (st.deferred.filter (g.targetConstructed ll st.constructedClasses)) st
  rw [CallGraph.recheckDeferred]
  dsimp only
  rw [hq, List.length_nil] at hbalance
  -- what stays put aside waits for a class that is not there
  have hkept : ∀ d, d ∈ st.deferred.filter
      (fun usr => !g.targetConstructed ll st.constructedClasses usr) ↔
        d ∈ st.deferred ∧ g.targetConstructed ll st.constructedClasses d = false := by
    intro d
    rw [List.mem_filter, Bool.not_eq_true']
  refine ⟨⟨fun A hA => ⟨(hnext.sound A hA).1, (hnext.sound A hA).2.1, fun d hd =>
    (h.sound A hA).2.2 d ((hkept d).mp hd).1⟩, hnext.cover, hnext.queued, hnext.nodup,
    hnext.classes, fun u hu e he => (hnext.handled u hu e he).later ⟨List.Subset.refl _,
      List.Subset.refl _, fun d hd => ?_⟩, fun d hd hfollow => ?_, le_rfl, fun hc => by cases hc⟩,
    hclasses, hlater.alive, by omega⟩
  · rw [hdeferred] at hd
    rcases hfollow : g.targetConstructed ll st.constructedClasses d with _ | _
    · exact .inr ((hkept d).mpr ⟨hd, hfollow⟩)
    · exact .inl (hall d (List.mem_filter.mpr ⟨hd, hfollow⟩))
  · dsimp only at hfollow
    rw [hclasses, ((hkept d).mp hd).2] at hfollow
    cases hfollow

/-- **The rounds.** A round but the last adds a class, so they end, with nothing to do. -/
theorem WalkInv.rounds (hknown : g.DispatchesKnown) {bound classes : List Bytes}
    (hbound : g.WalkClosed ll optimistic seeds {u | u ∈ bound})
    (hsize : bound.length ≤ g.interner.size)
    (hclasses : ∀ A cls, g.Built ll A cls → cls ∈ classes) (fuel : ℕ) {done : List Bytes}
    {st : LivenessWalk} (h : g.WalkInv ll optimistic seeds st.constructedClasses.length done done
      { st with changed := false })
    (hqueue : st.queue.length ≤ st.alive.length)
    (hfuel : classes.length < fuel + st.constructedClasses.length) :
    g.WalkEnded ll optimistic st (g.livenessRounds ll optimistic fuel st) ∧
      (g.livenessRounds ll optimistic fuel st).queue = [] ∧
      (g.livenessRounds ll optimistic fuel st).changed = false ∧
      st.alive ⊆ (g.livenessRounds ll optimistic fuel st).alive ∧
      ∃ n done', g.WalkInv ll optimistic seeds n done' done'
        (g.livenessRounds ll optimistic fuel st) := by
  have hroom : ∀ l : List Bytes, l.Nodup → (∀ cls ∈ l, g.Built ll {u | u ∈ bound} cls) →
      l.length ≤ classes.length :=
    fun l hl hbuilt => (hl.subperm fun cls hcls => hclasses _ cls (hbuilt cls hcls)).length_le
  induction fuel generalizing done st with
  | zero =>
    have := hroom st.constructedClasses h.classes (h.sound _ hbound).2.1
    omega
  | succ fuel ih =>
    obtain ⟨hdrained, hempty, hkept, done', hend⟩ :=
      h.drainQueue hknown hbound (g.interner.size + 2) (by dsimp only; omega)
    rw [CallGraph.livenessRounds]
    generalize g.drainQueue ll optimistic (g.interner.size + 2) { st with changed := false } = st'
      at hdrained hempty hkept hend ⊢
    split_ifs with hchanged hopt
    · -- a class was added, and what waited is looked at again
      obtain ⟨hnext, hsame, hkept', hqueue'⟩ := hend.recheckDeferred hempty
      have hgrown := hend.grown.2 hchanged
      obtain ⟨hend', hempty', hsame', hlater, hinv⟩ := ih hnext hqueue' (by rw [hsame]; omega)
      exact ⟨.round hdrained hchanged (by rw [if_pos hopt]; exact hend'), hempty', hsame',
        List.Subset.trans hkept (List.Subset.trans hkept' hlater), hinv⟩
    · -- nothing waits in the pessimistic walk
      have hgrown := hend.grown.2 hchanged
      obtain ⟨hend', hempty', hsame', hlater, hinv⟩ := ih (hend.restart fun d hd _ =>
        absurd ((hend.sound _ hbound).2.2 d hd).1 hopt) (by rw [hempty]; exact Nat.zero_le _)
        (by omega)
      exact ⟨.round hdrained hchanged (by rw [if_neg hopt]; exact hend'), hempty', hsame',
        List.Subset.trans hkept hlater, hinv⟩
    · rw [Bool.not_eq_true] at hchanged
      exact ⟨.last hdrained hchanged, hempty, hchanged, hkept, _, done', hend⟩

/-! ### The alive functions of a graph -/

variable (ll g) in
/-- The walk before its first round. -/
def livenessSeeded (seeds : List Bytes) : LivenessWalk :=
  (seeds.flatMap (g.usrsForName ll)).foldl LivenessWalk.reach {}

variable (ll g) in
/-- The functions a walk finds alive. -/
def aliveSet (optimistic : Bool) (seeds : List Bytes) : Set Bytes :=
  {u | u ∈ g.livenessBfs ll optimistic seeds}

variable (g) in
/-- The class of a function. -/
def ClassOf (usr cls : Bytes) : Prop :=
  cls ≠ [] ∧ ∃ i n, g.nodes i = some n ∧ n.usr = usr ∧ n.enclosingClass = cls

variable (g) in
/-- A function is an effective implementation for a class. -/
def ImplOf (usr cls : Bytes) : Prop :=
  ∃ i, ∃ c ∈ g.effectiveImplClasses i, g.interner.resolve i = usr ∧ g.interner.resolve c = cls

variable (g) in
/-- A class is constructed by a function of a set. -/
def Constructs (A : Set Bytes) (cls : Bytes) : Prop :=
  ∃ e, g.Shows e ∧ e.callerUsr ∈ A ∧ e.kind = .constructorCall ∧ g.ClassOf e.calleeUsr cls

variable (ll g) in
/-- What liveness asks of a set of functions. -/
structure LiveClosed (optimistic : Bool) (seeds : List Bytes) (A : Set Bytes) : Prop where
  seed : ∀ u ∈ seeds.flatMap (g.usrsForName ll), u ∈ A
  proven : ∀ e, g.Shows e → e.callerUsr ∈ A → e.confidence = .Proven → e.calleeUsr ∈ A
  plausibleEdges : optimistic = true → ∀ e, g.Shows e → e.callerUsr ∈ A → e.confidence = .Plausible →
    e.kind ≠ .virtualDispatch → e.calleeUsr ∈ A
  dispatch : optimistic = true → ∀ e, g.Shows e → e.callerUsr ∈ A → e.confidence = .Plausible →
    e.kind = .virtualDispatch → ∀ cls, g.Constructs A cls →
      g.ImplOf e.calleeUsr cls ∨ g.ClassOf e.calleeUsr cls → e.calleeUsr ∈ A

variable (g) in
/-- The edges that are neither proven nor plausible, dispatches apart, stay in a set. -/
def UnknownInside (A : Set Bytes) : Prop :=
  ∀ e, g.Shows e → e.callerUsr ∈ A → e.confidence ≠ .Proven → e.confidence ≠ .Plausible →
    e.kind ≠ .virtualDispatch → e.calleeUsr ∈ A

variable (g) in
/-- The texts of ids that lead back to the id alone. -/
def SettledText (u : Bytes) : Prop := ∃ c, g.Settled c ∧ g.interner.resolve c = u

section Settled

variable (h : g.Inv) (hll : ll.AcceptsUtf8)
include h

theorem Inv.settled_of_callee (hends : g.EndsUnnamed) {a : SId} {r : EdgeRef}
    (hr : r ∈ g.calleeRefsOf a) : g.Settled r.callee := by
  refine ⟨(h.below_of_mem_calleeRefsOf hr).2.2.1, or_iff_not_imp_left.mpr fun hnode => ?_⟩
  obtain ⟨r', hr', -⟩ := h.caller_of_mem_calleeRefsOf hr
  have hnone := Option.not_isSome_iff_eq_none.mp hnode
  refine List.eq_nil_iff_forall_not_mem.mpr fun id hid => ?_
  obtain ⟨n, hn, hfind⟩ := h.node.byName_iff.mp hid
  exact hends r.callee r' hr' r.callee (.inr (h.callee_of_mem_callerRefsOf hr').symm) hnone id n hn
    (StringInterner.resolve_of_find hfind).symm

theorem Inv.settledText_of_shows (hends : g.EndsUnnamed) {e : CallGraphEdge} (he : g.Shows e) :
    g.SettledText e.calleeUsr := by
  obtain ⟨i, r, hr, rfl⟩ := he
  exact ⟨r.callee, h.settled_of_callee hends hr, rfl⟩

theorem Inv.settledText_of_seed {seeds : List Bytes} {u : Bytes}
    (hu : u ∈ seeds.flatMap (g.usrsForName ll)) : g.SettledText u := by
  obtain ⟨name, -, hu⟩ := List.mem_flatMap.mp hu
  obtain ⟨c, hc, rfl⟩ := List.mem_map.mp hu
  exact ⟨c, h.settled_of_target hc, rfl⟩

include hll

/-- The edges asked for by a function's usr are its own. -/
theorem Inv.mem_calleesOf_settled {u : Bytes} (hu : g.SettledText u) {e : CallGraphEdge} :
    e ∈ g.calleesOf ll u ↔ g.Shows e ∧ e.callerUsr = u := by
  obtain ⟨c, hc, rfl⟩ := hu
  rw [calleesOf, h.resolveUsrIds_resolve hll hc, List.flatMap_singleton, List.mem_map]
  constructor
  · rintro ⟨r, hr, rfl⟩
    refine ⟨⟨c, r, hr, rfl⟩, ?_⟩
    rw [← (h.below_of_mem_calleeRefsOf hr).1]
    rfl
  · rintro ⟨⟨i, r, hr, rfl⟩, hcaller⟩
    obtain ⟨rfl, hbelow⟩ := h.below_of_mem_calleeRefsOf hr
    have hsame : r.caller = c := (h.resolve_inj hbelow.1 hc.1).mp hcaller
    exact ⟨r, hsame ▸ hr, rfl⟩

theorem Inv.enclosingClassOf_settled {u : Bytes} (hu : g.SettledText u) {cls : Bytes} :
    g.enclosingClassOf ll u = some cls ↔ g.ClassOf u cls := by
  obtain ⟨c, hc, rfl⟩ := hu
  have hfind : g.findNode ll (g.interner.resolve c) = g.nodes c := by
    rw [findNode, h.resolveUsrIds_resolve hll hc]
    rcases hnode : g.nodes c with _ | n <;> simp [hnode, betterNode]
  rw [enclosingClassOf, hfind, Option.filter_eq_some_iff, Option.map_eq_some_iff, decide_eq_true_eq]
  constructor
  · rintro ⟨⟨n, hn, hcls⟩, hne⟩
    exact ⟨hne, c, n, hn, (StringInterner.resolve_of_find (h.node.node_key hn).1).symm, hcls⟩
  · rintro ⟨hne, i, n, hn, husr, hcls⟩
    have hsame : i = c := by
      rw [← h.resolve_inj (h.lt_of_node hn) hc.1,
        StringInterner.resolve_of_find (h.node.node_key hn).1, husr]
    exact ⟨⟨n, hsame ▸ hn, hcls⟩, hne⟩

theorem Inv.mem_getClassesForImpl_settled {u : Bytes} (hu : g.SettledText u) {cls : Bytes} :
    cls ∈ g.getClassesForImpl ll u ↔ g.ImplOf u cls := by
  obtain ⟨c, hc, rfl⟩ := hu
  rw [getClassesForImpl, relatedIds, h.resolveUsrIds_resolve hll hc, List.flatMap_singleton,
    List.mem_map]
  constructor
  · rintro ⟨k, hk, rfl⟩
    exact ⟨c, k, (mem_freshOf.mp hk).2, rfl, rfl⟩
  · rintro ⟨i, k, hk, htext, rfl⟩
    have hsame : i = c := (h.resolve_inj (h.rel.impl_ids hk).1 hc.1).mp htext
    exact ⟨k, mem_freshOf.mpr ⟨List.not_mem_nil, hsame ▸ hk⟩, rfl⟩

/-- On the functions of a graph, what the walk asks of a set is what liveness does. -/
theorem Inv.built_settled (hends : g.EndsUnnamed) {A : Set Bytes} (hA : ∀ u ∈ A, g.SettledText u)
    {cls : Bytes} : g.Built ll A cls ↔ g.Constructs A cls := by
  constructor
  · rintro ⟨b, hb, e, he, hkind, hclass⟩
    obtain ⟨hshow, rfl⟩ := (h.mem_calleesOf_settled hll (hA b hb)).mp he
    exact ⟨e, hshow, hb, hkind, (h.enclosingClassOf_settled hll
      (h.settledText_of_shows hends hshow)).mp hclass⟩
  · rintro ⟨e, hshow, hb, hkind, hclass⟩
    exact ⟨e.callerUsr, hb, e, (h.mem_calleesOf_settled hll (hA _ hb)).mpr ⟨hshow, rfl⟩, hkind,
      (h.enclosingClassOf_settled hll (h.settledText_of_shows hends hshow)).mpr hclass⟩

theorem Inv.methodOf_settled {u : Bytes} (hu : g.SettledText u) {cls : Bytes} :
    g.MethodOf ll u cls ↔ g.ImplOf u cls ∨ g.ClassOf u cls :=
  or_congr (h.mem_getClassesForImpl_settled hll hu) (h.enclosingClassOf_settled hll hu)

theorem Inv.walkClosed_settled (hends : g.EndsUnnamed) (hknown : g.DispatchesKnown)
    {A : Set Bytes} (hA : ∀ u ∈ A, g.SettledText u) :
    g.WalkClosed ll optimistic seeds A ↔
      g.LiveClosed ll optimistic seeds A ∧ (optimistic = true → g.UnknownInside A) := by
  have hmem : ∀ {e : CallGraphEdge}, g.Shows e → e.callerUsr ∈ A →
      e ∈ g.calleesOf ll e.callerUsr := fun hshow hin =>
    (h.mem_calleesOf_settled hll (hA _ hin)).mpr ⟨hshow, rfl⟩
  constructor
  · intro hw
    refine ⟨⟨hw.seed, fun e hshow hin => hw.proven _ hin e (hmem hshow hin),
      fun hopt e hshow hin _ hkind => hw.other hopt _ hin e (hmem hshow hin) hkind,
      fun hopt e hshow hin _ hkind cls hbuilt hmethod => ?_⟩,
      fun hopt e hshow hin _ _ hkind => hw.other hopt _ hin e (hmem hshow hin) hkind⟩
    exact hw.dispatch hopt _ hin e (hmem hshow hin) hkind cls
      ((h.built_settled hll hends hA).mpr hbuilt)
      ((h.methodOf_settled hll (h.settledText_of_shows hends hshow)).mpr hmethod)
  · rintro ⟨hl, hunknown⟩
    have hshows : ∀ {u : Bytes} {e : CallGraphEdge}, u ∈ A → e ∈ g.calleesOf ll u →
        g.Shows e ∧ e.callerUsr ∈ A := by
      intro u e hu he
      obtain ⟨hshow, rfl⟩ := (h.mem_calleesOf_settled hll (hA u hu)).mp he
      exact ⟨hshow, hu⟩
    refine ⟨hl.seed, fun u hu e he => hl.proven e (hshows hu he).1 (hshows hu he).2,
      fun hopt u hu e he hkind => ?_, fun hopt u hu e he hkind cls hbuilt hmethod => ?_⟩
    all_goals
      obtain ⟨hshow, hin⟩ := hshows hu he
      by_cases hproven : e.confidence = .Proven
      · exact hl.proven e hshow hin hproven
    · by_cases hplausible : e.confidence = .Plausible
      · exact hl.plausibleEdges hopt e hshow hin hplausible hkind
      · exact hunknown hopt e hshow hin hproven hplausible hkind
    · exact hl.dispatch hopt e hshow hin ((hknown e hshow hkind).resolve_left hproven) hkind cls
        ((h.built_settled hll hends hA).mp hbuilt)
        ((h.methodOf_settled hll (h.settledText_of_shows hends hshow)).mp hmethod)

end Settled

/-- **The walk.** It ends, and what it finds alive is the least set it does not leave. -/
theorem Inv.livenessBfs_closed (ll : Llvm) (h : g.Inv) (hknown : g.DispatchesKnown) (optimistic : Bool)
    (seeds : List Bytes) :
    (∃ st, g.WalkEnded ll optimistic (g.livenessSeeded ll seeds) st ∧
      st.alive = g.livenessBfs ll optimistic seeds) ∧
    IsLeast {A | g.WalkClosed ll optimistic seeds A} (g.aliveSet ll optimistic seeds) := by
  -- the strings of the table bound the functions, the nodes the classes
  have hbound : g.WalkClosed ll optimistic seeds {u | u ∈ g.interner.strings} := by
    have hcallee : ∀ {u : Bytes} {e : CallGraphEdge}, e ∈ g.calleesOf ll u →
        e.calleeUsr ∈ g.interner.strings := by
      intro u e he
      obtain ⟨i, r, hr, rfl⟩ := shows_of_mem_calleesOf he
      exact StringInterner.resolve_mem (h.below_of_mem_calleeRefsOf hr).2.2.1
    refine ⟨fun u hu => ?_, fun u _ e he _ => hcallee he, fun _ u _ e he _ => hcallee he,
      fun _ u _ e he _ _ _ _ => hcallee he⟩
    obtain ⟨c, hc, rfl⟩ := h.settledText_of_seed hu
    exact StringInterner.resolve_mem hc.1
  have hclasses : ∀ A cls, g.Built ll A cls → cls ∈ g.allNodes.map (·.enclosingClass) := by
    rintro A cls ⟨b, -, e, -, -, hclass⟩
    rw [enclosingClassOf, Option.filter_eq_some_iff, Option.map_eq_some_iff] at hclass
    obtain ⟨⟨n, hn, rfl⟩, -⟩ := hclass
    obtain ⟨⟨u, -, hu⟩, -⟩ := (h.findNode_iff ll).mp hn
    obtain ⟨-, i, hi⟩ := h.node_iff.mp hu
    exact List.mem_map.mpr ⟨n, List.mem_filterMap.mpr ⟨i, List.mem_range.mpr (h.lt_of_node hi), hi⟩,
      rfl⟩
  -- before the first round nothing but the seeds is alive
  have hempty : g.WalkInv ll optimistic seeds 0 [] [] {} :=
    ⟨fun A _ => ⟨fun u hu => absurd hu List.not_mem_nil, fun cls hcls => absurd hcls List.not_mem_nil,
      fun d hd => absurd hd List.not_mem_nil⟩, fun u hu => absurd hu List.not_mem_nil,
      fun u hu => absurd hu List.not_mem_nil, List.nodup_nil, List.nodup_nil,
      fun u hu => absurd hu List.not_mem_nil, fun d hd => absurd hd List.not_mem_nil, le_rfl,
      fun hc => by cases hc⟩
  obtain ⟨hstart, hseeds, -, hbalance⟩ := hempty.foldl_reach (l := seeds.flatMap (g.usrsForName ll))
    fun u hu A hA => hA.seed u hu
  obtain ⟨hnone, hwait⟩ := constructedClasses_foldl_reach (seeds.flatMap (g.usrsForName ll)) {}
  change g.WalkInv ll optimistic seeds 0 [] [] (g.livenessSeeded ll seeds) at hstart
  change ∀ u ∈ seeds.flatMap (g.usrsForName ll), u ∈ (g.livenessSeeded ll seeds).alive at hseeds
  change (g.livenessSeeded ll seeds).constructedClasses = [] at hnone
  change (g.livenessSeeded ll seeds).deferred = [] at hwait
  have hqueue : (g.livenessSeeded ll seeds).queue.length ≤ (g.livenessSeeded ll seeds).alive.length := by
    rw [livenessSeeded]
    simp only [List.length_nil] at hbalance
    omega
  obtain ⟨hend, hq, hsame, hkept, n, done, hinv⟩ := WalkInv.rounds hknown hbound le_rfl hclasses
    (g.allNodes.length + 2) (hstart.restart fun d hd _ => by rw [hwait] at hd; cases hd) hqueue
    (by rw [List.length_map]; omega)
  change g.WalkEnded ll optimistic _ (g.livenessRounds ll optimistic _ (g.livenessSeeded ll seeds)) at hend
  refine ⟨⟨_, hend, rfl⟩, ?_, fun A hA u hu => (hinv.sound A hA).1 u hu⟩
  generalize hst : g.livenessRounds ll optimistic (g.allNodes.length + 2) (g.livenessSeeded ll seeds) = st
    at hq hsame hkept hinv
  have halive : g.aliveSet ll optimistic seeds = {u | u ∈ st.alive} := by
    rw [← hst]
    rfl
  have hdone : ∀ u ∈ st.alive, u ∈ done := by
    intro u hu
    have := hinv.cover u hu
    rw [hq] at this
    exact this.resolve_right List.not_mem_nil
  rw [halive]
  refine ⟨fun u hu => hkept (hseeds u hu),
    fun u hu e he => (hinv.handled u (hdone u hu) e he).proven,
    fun hopt u hu e he => (hinv.handled u (hdone u hu) e he).other hopt,
    fun hopt u hu e he hkind cls hbuilt hmethod => ?_⟩
  -- the class was noted, so the dispatch does not wait for it
  obtain ⟨b, hb, e', he', hkind', hclass⟩ := hbuilt
  have hnoted := (hinv.handled b (hdone b hb) e' he').built hkind' cls hclass
  rcases (hinv.handled u (hdone u hu) e he).dispatch hopt hkind with hin | hwaits
  · exact hin
  · refine (hinv.parked _ hwaits (targetConstructed_iff.mpr ⟨cls, hnoted, hmethod⟩)).resolve_right ?_
    rw [hsame]
    exact Bool.false_ne_true

/-- **What is alive**, whatever the edges' confidence. -/
theorem Inv.aliveSet_isLeast (h : g.Inv) (hll : ll.AcceptsUtf8) (hends : g.EndsUnnamed)
    (hknown : g.DispatchesKnown) (optimistic : Bool) (seeds : List Bytes) :
    IsLeast {A | g.LiveClosed ll optimistic seeds A ∧ (optimistic = true → g.UnknownInside A)}
      (g.aliveSet ll optimistic seeds) := by
  obtain ⟨-, hclosed, hleast⟩ := h.livenessBfs_closed ll hknown optimistic seeds
  -- the functions of the graph are closed, so only they are alive
  have hsettled : ∀ u ∈ g.aliveSet ll optimistic seeds, g.SettledText u :=
    hleast (a := {u | g.SettledText u}) ((h.walkClosed_settled hll hends hknown fun _ hu => hu).mpr
      ⟨⟨fun u hu => h.settledText_of_seed hu, fun e he _ _ => h.settledText_of_shows hends he,
        fun _ e he _ _ _ => h.settledText_of_shows hends he,
        fun _ e he _ _ _ _ _ _ => h.settledText_of_shows hends he⟩,
        fun _ e he _ _ _ _ => h.settledText_of_shows hends he⟩)
  refine ⟨(h.walkClosed_settled hll hends hknown hsettled).mp hclosed, fun A hA => ?_⟩
  have hinter : g.WalkClosed ll optimistic seeds {u | u ∈ A ∧ g.SettledText u} := by
    refine (h.walkClosed_settled hll hends hknown fun u hu => hu.2).mpr
      ⟨⟨fun u hu => ⟨hA.1.seed u hu, h.settledText_of_seed hu⟩,
        fun e he hin hc => ⟨hA.1.proven e he hin.1 hc, h.settledText_of_shows hends he⟩,
        fun hopt e he hin hc hk =>
          ⟨hA.1.plausibleEdges hopt e he hin.1 hc hk, h.settledText_of_shows hends he⟩,
        fun hopt e he hin hc hk cls hcls hm => ⟨?_, h.settledText_of_shows hends he⟩⟩,
        fun hopt e he hin hc hc' hk =>
          ⟨hA.2 hopt e he hin.1 hc hc' hk, h.settledText_of_shows hends he⟩⟩
    obtain ⟨e', he', hin', hkind', hclass⟩ := hcls
    exact hA.1.dispatch hopt e he hin.1 hc hk cls ⟨e', he', hin'.1, hkind', hclass⟩ hm
  exact fun u hu => (hleast hinter hu).1

variable (ll g) in
/-- The least set of functions that liveness asks for. -/
def leastLive (optimistic : Bool) (seeds : List Bytes) : Set Bytes :=
  {u | ∀ A, g.LiveClosed ll optimistic seeds A → u ∈ A}

theorem leastLive_isLeast (ll : Llvm) (g : CallGraph) (optimistic : Bool) (seeds : List Bytes) :
    IsLeast {A | g.LiveClosed ll optimistic seeds A} (g.leastLive ll optimistic seeds) := by
  refine ⟨⟨fun u hu A hA => hA.seed u hu, fun e he hin hc A hA => hA.proven e he (hin A hA) hc,
    fun hopt e he hin hc hk A hA => hA.plausibleEdges hopt e he (hin A hA) hc hk,
    fun hopt e he hin hc hk cls hcls hm A hA => ?_⟩, fun A hA u hu => hu A hA⟩
  obtain ⟨e', he', hin', hkind', hclass⟩ := hcls
  exact hA.dispatch hopt e he (hin A hA) hc hk cls ⟨e', he', hin' A hA, hkind', hclass⟩ hm

/-- Two graphs that say the same about liveness, in whatever order. -/
structure SameLiveness (g g' : CallGraph) : Prop where
  shows : ∀ e, g.Shows e ↔ g'.Shows e
  classOf : ∀ u cls, g.ClassOf u cls ↔ g'.ClassOf u cls
  implOf : ∀ u cls, g.ImplOf u cls ↔ g'.ImplOf u cls

theorem SameLiveness.liveClosed {g g' : CallGraph} (hsame : SameLiveness g g') {seeds' : List Bytes}
    (hseeds : ∀ u, u ∈ seeds.flatMap (g.usrsForName ll) ↔ u ∈ seeds'.flatMap (g'.usrsForName ll))
    {A : Set Bytes} :
    (g.LiveClosed ll optimistic seeds A ∧ (optimistic = true → g.UnknownInside A)) ↔
      g'.LiveClosed ll optimistic seeds' A ∧ (optimistic = true → g'.UnknownInside A) := by
  have hbuilt : ∀ cls, g.Constructs A cls ↔ g'.Constructs A cls := by
    intro cls
    simp only [Constructs, hsame.shows, hsame.classOf]
  constructor
  · rintro ⟨hl, hunknown⟩
    refine ⟨⟨fun u hu => hl.seed u ((hseeds u).mpr hu),
      fun e he => hl.proven e ((hsame.shows e).mpr he),
      fun hopt e he => hl.plausibleEdges hopt e ((hsame.shows e).mpr he),
      fun hopt e he hin hc hk cls hcls hm => ?_⟩,
      fun hopt e he => hunknown hopt e ((hsame.shows e).mpr he)⟩
    exact hl.dispatch hopt e ((hsame.shows e).mpr he) hin hc hk cls ((hbuilt cls).mpr hcls)
      (hm.imp (hsame.implOf _ _).mpr (hsame.classOf _ _).mpr)
  · rintro ⟨hl, hunknown⟩
    refine ⟨⟨fun u hu => hl.seed u ((hseeds u).mp hu),
      fun e he => hl.proven e ((hsame.shows e).mp he),
      fun hopt e he => hl.plausibleEdges hopt e ((hsame.shows e).mp he),
      fun hopt e he hin hc hk cls hcls hm => ?_⟩,
      fun hopt e he => hunknown hopt e ((hsame.shows e).mp he)⟩
    exact hl.dispatch hopt e ((hsame.shows e).mp he) hin hc hk cls ((hbuilt cls).mp hcls)
      (hm.imp (hsame.implOf _ _).mp (hsame.classOf _ _).mp)

variable (ll g) in
/-- What is promised of the alive functions. -/
structure LivenessContract (seeds : List Bytes) : Prop where
  optimistic : IsLeast {A | g.LiveClosed ll true seeds A} (g.aliveSet ll true seeds)
  pessimistic : IsLeast {A | g.LiveClosed ll false seeds A} (g.aliveSet ll false seeds)
  contained : g.aliveSet ll false seeds ⊆ g.aliveSet ll true seeds
  orderFree : ∀ (g' : CallGraph) (log' : List Registration) (seeds' : List Bytes),
    Reachable g' log' → g'.EndsUnnamed → SameLiveness g g' →
    (∀ u, u ∈ seeds.flatMap (g.usrsForName ll) ↔ u ∈ seeds'.flatMap (g'.usrsForName ll)) →
    ∀ optimistic, g'.aliveSet ll optimistic seeds' = g.aliveSet ll optimistic seeds
  ends : ∀ optimistic, ∃ st, g.WalkEnded ll optimistic (g.livenessSeeded ll seeds) st ∧
    st.alive = g.livenessBfs ll optimistic seeds

/-- **Liveness is the least fixpoint** exactly when the edges that are neither proven nor
plausible, dispatches apart, do not leave it. -/
theorem livenessContract_iff {log : List Registration} (hg : Reachable g log)
    (hll : ll.AcceptsUtf8) (hends : g.EndsUnnamed) (hknown : g.DispatchesKnown)
    (entryPoints publicApi : List Bytes) :
    g.LivenessContract ll (entryPoints ++ publicApi) ↔
      g.UnknownInside (g.leastLive ll true (entryPoints ++ publicApi)) := by
  have h := hg.inv.1
  have hwide := h.aliveSet_isLeast hll hends hknown true (entryPoints ++ publicApi)
  have hleast := leastLive_isLeast ll g true (entryPoints ++ publicApi)
  constructor
  · intro hcontract
    rw [← hcontract.optimistic.unique hleast]
    exact hwide.1.2 rfl
  · intro hinside
    have hopt : g.aliveSet ll true (entryPoints ++ publicApi) =
        g.leastLive ll true (entryPoints ++ publicApi) :=
      Set.Subset.antisymm (hwide.2 ⟨hleast.1, fun _ => hinside⟩) (hleast.2 hwide.1.1)
    have hpess := h.aliveSet_isLeast hll hends hknown false (entryPoints ++ publicApi)
    have hpess' : IsLeast {A | g.LiveClosed ll false (entryPoints ++ publicApi) A}
        (g.aliveSet ll false (entryPoints ++ publicApi)) :=
      ⟨hpess.1.1, fun A hA => hpess.2 ⟨hA, fun hf => (by cases hf)⟩⟩
    refine ⟨hopt ▸ hleast, hpess', hpess'.2 ?_, fun g' log' seeds' hg' hends' hsame hseeds optimistic
      => ?_, fun optimistic => (h.livenessBfs_closed ll hknown optimistic _).1⟩
    · -- the optimistic set follows proven edges too
      exact ⟨hwide.1.1.seed, hwide.1.1.proven, fun hf => (by cases hf), fun hf => (by cases hf)⟩
    · have hknown' : g'.DispatchesKnown := fun e he => hknown e ((hsame.shows e).mpr he)
      have hleast' := hg'.inv.1.aliveSet_isLeast hll hends' hknown' optimistic seeds'
      have hset : {A | g'.LiveClosed ll optimistic seeds' A ∧
          (optimistic = true → g'.UnknownInside A)} =
          {A | g.LiveClosed ll optimistic (entryPoints ++ publicApi) A ∧
            (optimistic = true → g.UnknownInside A)} :=
        Set.ext fun A => (hsame.liveClosed hseeds).symm
      rw [hset] at hleast'
      exact hleast'.unique (h.aliveSet_isLeast hll hends hknown optimistic _)

/-- `m` calls `a`, which is proven, and `b`, of which nothing is known. -/
def unknownCall (confidence : Confidence) : List Registration :=
  [.node { qualifiedName := [109], usr := [109] } [],
    .node { qualifiedName := [97], usr := [97] } [],
    .node { qualifiedName := [98], usr := [98] } [],
    .edge ⟨[109], [97], .directCall, .Proven, [115], 0, .synchronous, [], []⟩ [],
    .edge ⟨[109], [98], .directCall, confidence, [116], 0, .synchronous, [], []⟩ []]

/-- No dispatch, and both ends of every edge are nodes. -/
theorem unknownCall_fits (confidence : Confidence)
    (hfits : ∀ c < (({} : CallGraph).registerAll (unknownCall confidence)).interner.size,
      (∀ e ∈ (({} : CallGraph).registerAll (unknownCall confidence)).callerRefsOf c,
        ((({} : CallGraph).registerAll (unknownCall confidence)).nodes e.caller).isSome ∧
          ((({} : CallGraph).registerAll (unknownCall confidence)).nodes e.callee).isSome) ∧
      ∀ e ∈ (({} : CallGraph).registerAll (unknownCall confidence)).calleeRefsOf c,
        e.kind ≠ .virtualDispatch) :
    Reachable (({} : CallGraph).registerAll (unknownCall confidence)) ([] ++ unknownCall confidence) ∧
      (({} : CallGraph).registerAll (unknownCall confidence)).EndsUnnamed ∧
      (({} : CallGraph).registerAll (unknownCall confidence)).DispatchesKnown := by
  have hg : Reachable (({} : CallGraph).registerAll (unknownCall confidence))
      ([] ++ unknownCall confidence) := BuiltFrom.empty.registerAll fun _ _ => trivial
  refine ⟨hg, hg.inv.1.endsUnnamed_of_nodes fun c hc => (hfits c hc).1, ?_⟩
  rintro e ⟨i, r, hr, rfl⟩ hkind
  obtain ⟨rfl, hbelow⟩ := hg.inv.1.below_of_mem_calleeRefsOf hr
  exact absurd hkind ((hfits _ hbelow.1).2 r hr)

/-- A plausible call is followed by the optimistic walk only. -/
theorem livenessContract_iff_plausible :
    let g := ({} : CallGraph).registerAll (unknownCall .Plausible)
    g.livenessBfs utf8Llvm true [[109]] = [[98], [97], [109]] ∧
      g.livenessBfs utf8Llvm false [[109]] = [[97], [109]] ∧
      g.LivenessContract utf8Llvm [[109]] := by
  intro g
  obtain ⟨hg, hends, hknown⟩ := unknownCall_fits .Plausible (by decide +kernel)
  refine ⟨by decide +kernel, by decide +kernel,
    (livenessContract_iff hg acceptsUtf8_utf8Llvm hends hknown [[109]] []).mpr ?_⟩
  rintro e ⟨i, r, hr, rfl⟩ _ hproven hplausible _
  have hall : ∀ i < g.interner.size, ∀ r ∈ g.calleeRefsOf i,
      r.confidence = .Proven ∨ r.confidence = .Plausible := by decide +kernel
  obtain ⟨rfl, hbelow⟩ := hg.inv.1.below_of_mem_calleeRefsOf hr
  exact absurd (hall _ hbelow.1 r hr) (not_or.mpr ⟨hproven, hplausible⟩)

/-- The optimistic walk follows the call of which nothing is known. -/
theorem livenessBfs_follows_unknown :
    ¬ ∀ (ll : Llvm), ll.AcceptsUtf8 → ∀ (g : CallGraph) (log : List Registration),
      Reachable g log → g.EndsUnnamed → g.DispatchesKnown →
      ∀ entryPoints publicApi : List Bytes,
        IsLeast {A | g.LiveClosed ll true (entryPoints ++ publicApi) A}
          (g.aliveSet ll true (entryPoints ++ publicApi)) := by
  intro hall
  obtain ⟨hg, hends, hknown⟩ := unknownCall_fits .Unknown (by decide +kernel)
  have hleast := (hall utf8Llvm acceptsUtf8_utf8Llvm _ _ hg hends hknown [[109]] []).2
  have halive : [98] ∈ (({} : CallGraph).registerAll (unknownCall .Unknown)).aliveSet utf8Llvm true
      ([[109]] ++ []) := by
    show [98] ∈ (({} : CallGraph).registerAll (unknownCall .Unknown)).livenessBfs utf8Llvm true [[109]]
    decide +kernel
  -- `m` and `a` alone are closed
  have hclosed : (({} : CallGraph).registerAll (unknownCall .Unknown)).LiveClosed utf8Llvm true
      ([[109]] ++ []) {u | u = [109] ∨ u = [97]} := by
    have hcalls : ∀ i < (({} : CallGraph).registerAll (unknownCall .Unknown)).interner.size,
        ∀ r ∈ (({} : CallGraph).registerAll (unknownCall .Unknown)).calleeRefsOf i,
          r.confidence ≠ .Plausible ∧ (r.confidence = .Proven →
            (({} : CallGraph).registerAll (unknownCall .Unknown)).interner.resolve r.callee = [97]) := by
      decide +kernel
    have hshows : ∀ e, (({} : CallGraph).registerAll (unknownCall .Unknown)).Shows e →
        e.confidence ≠ .Plausible ∧ (e.confidence = .Proven → e.calleeUsr = [97]) := by
      rintro e ⟨i, r, hr, rfl⟩
      obtain ⟨rfl, hbelow⟩ := hg.inv.1.below_of_mem_calleeRefsOf hr
      exact hcalls _ hbelow.1 r hr
    have hseeds : ∀ u ∈ ([[109]] ++ [] : List Bytes).flatMap
        ((({} : CallGraph).registerAll (unknownCall .Unknown)).usrsForName utf8Llvm), u = [109] := by
      decide +kernel
    exact ⟨fun u hu => .inl (hseeds u hu), fun e he _ hc => .inr ((hshows e he).2 hc),
      fun _ e he _ hc => absurd hc (hshows e he).1, fun _ e he _ hc => absurd hc (hshows e he).1⟩
  rcases hleast hclosed halive with h | h <;> cases h

end CallGraph

end Vycor
