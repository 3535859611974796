import Vycor.ControlFlow.Runs
import Vycor.Snapshot.ControlFlowLoad

/-!
# Control-flow indexes across restarts

A process saves its index and a later one goes on with what it loads. A save sorts the contexts
by call site, so a session has the contexts of a run without restarts in another order, those at
one call site in theirs. What the queries by call site answer is the same, and the queries by
name find the same contexts (`Session.unobserved`).
-/

namespace Vycor

namespace ControlFlowIndex

/-- The indexes of the runs that also save the index and go on with what a load gives back, with
the contexts left and the usrs seen since the last compaction or load. -/
inductive Session (ll : Llvm) : ControlFlowIndex → List CallSiteContext → Seen → Prop where
  | empty : Session ll {} [] Seen.none
  | add {cf log seen} (ctx : CallSiteContext) : Session ll cf log seen →
      Session ll (cf.addCallSiteContext ctx) (log ++ [ctx]) (seen.add [ctx.stored])
  | absorb {cf log seen shard log' seen'} : Session ll cf log seen → Session ll shard log' seen' →
      Session ll (cf.absorb shard) (log ++ log') (seen.add (log'.map CallSiteContext.stored))
  | removeTUs {cf log seen} (tuPaths : List Bytes) : Session ll cf log seen →
      Session ll (cf.removeTUs tuPaths).1 (log.filter fun c => !c.stored.removedBy tuPaths) seen
  | compact {cf log seen} : Session ll cf log seen →
      Session ll cf.compact log (Seen.none.add (log.map CallSiteContext.stored))
  | reload {cf log seen cf'} (sort : Sorter cf.records.idBefore) : Session ll cf log seen →
      cf.FitsSection → loadControlFlow ll (putControlFlow cf.records sort) = some cf' →
        Session ll cf' log (Seen.none.add (log.map CallSiteContext.stored))

variable {cf cf' : ControlFlowIndex} {ll : Llvm} {log : List CallSiteContext} {seen : Seen}

/-- A run without restarts is a session. -/
theorem BuiltFrom.session {P : CallSiteContext → Prop} (h : BuiltFrom P cf log seen) :
    Session ll cf log seen := by
  induction h with
  | empty => exact .empty
  | add ctx _ _ ih => exact .add ctx ih
  | absorb _ _ ih ih' => exact .absorb ih ih'
  | removeTUs tuPaths _ ih => exact .removeTUs tuPaths ih
  | compact _ ih => exact .compact ih

/-! ### Contexts in the order of their call sites -/

/-- The same contexts, those at one call site in the same order. -/
structure SameBySite (cs ds : List CallSiteContext) : Prop where
  perm : cs.Perm ds
  site : ∀ site, cs.filter (fun c => decide (c.callSite = site)) =
    ds.filter fun c => decide (c.callSite = site)

variable {cs cs' ds ds' es : List CallSiteContext}

theorem SameBySite.of_eq (h : cs = ds) : SameBySite cs ds := by
  subst h
  exact ⟨.refl _, fun _ => rfl⟩

theorem SameBySite.trans (h : SameBySite cs ds) (h' : SameBySite ds es) : SameBySite cs es :=
  ⟨h.perm.trans h'.perm, fun site => (h.site site).trans (h'.site site)⟩

theorem SameBySite.append (h : SameBySite cs ds) (h' : SameBySite cs' ds') :
    SameBySite (cs ++ cs') (ds ++ ds') :=
  ⟨h.perm.append h'.perm, fun site => by
    rw [List.filter_append, List.filter_append, h.site, h'.site]⟩

theorem SameBySite.filter (h : SameBySite cs ds) (p : CallSiteContext → Bool) :
    SameBySite (cs.filter p) (ds.filter p) :=
  ⟨h.perm.filter p, fun site => by
    rw [List.filter_comm _ p, h.site, List.filter_comm p]⟩

theorem SameBySite.add_eq (h : SameBySite cs ds) (seen : Seen) : seen.add cs = seen.add ds := by
  funext side n
  simp only [Seen.add, h.perm.mem_iff]

/-! ### Sessions -/

/-- A session keeps the invariant and has the contexts of its log. -/
theorem Session.inv (hll : ll.AcceptsUtf8) (h : Session ll cf log seen) :
    cf.Inv seen ∧ SameBySite cf.entries (log.map CallSiteContext.stored) := by
  induction h with
  | empty => exact ⟨.empty, .of_eq rfl⟩
  | add ctx _ ih =>
    obtain ⟨hinv, hent⟩ := ih.1.addCallSiteContext ctx
    refine ⟨hinv, ?_⟩
    rw [hent, List.map_append, List.map_singleton]
    exact ih.2.append (.of_eq rfl)
  | absorb _ _ ih ih' =>
    obtain ⟨hinv, hent⟩ := ih.1.absorb ih'.1
    rw [ih'.2.add_eq] at hinv
    refine ⟨hinv, ?_⟩
    rw [hent, List.map_append]
    exact ih.2.append ih'.2
  | removeTUs tuPaths _ ih =>
    obtain ⟨hinv, hent, -⟩ := ih.1.removeTUs tuPaths
    refine ⟨hinv, ?_⟩
    rw [hent]
    exact (ih.2.filter _).trans (.of_eq (List.filter_map ..))
  | compact _ ih =>
    obtain ⟨hinv, hent⟩ := ih.1.compact
    rw [ih.2.add_eq] at hinv
    refine ⟨hinv, ?_⟩
    rw [hent]
    exact ih.2
  | reload sort _ hfits hload ih =>
    rw [ih.1.loadControlFlow_putControlFlow hll hfits, Option.some_inj] at hload
    obtain ⟨hinv, -, -, hperm, hsite⟩ := ih.1.install_records
    rw [hload] at hinv hperm hsite
    have hsame := SameBySite.trans ⟨hperm, hsite⟩ ih.2
    rw [hsame.add_eq] at hinv
    exact ⟨hinv, hsame⟩

/-- Two indexes answer the queries by call site alike. -/
structure SameSiteAnswers (ll : Llvm) (cf cf' : ControlFlowIndex) : Prop where
  contextAtSite : ∀ site, cf.contextAtSite ll site = cf'.contextAtSite ll site
  contextAtSiteOf : ∀ site caller,
    cf.contextAtSiteOf ll site caller = cf'.contextAtSiteOf ll site caller
  contextsAtSite : ∀ site, cf.contextsAtSite ll site = cf'.contextsAtSite ll site
  contextForEdge : ∀ site caller callee,
    cf.contextForEdge ll site caller callee = cf'.contextForEdge ll site caller callee

/-- Both find the same contexts, maybe in another order. -/
def FindSame (a b : Option (List CallSiteContext)) : Prop :=
  ∃ cs ds, a = some cs ∧ b = some ds ∧ cs.Perm ds

/-- Two indexes find the same contexts by name. -/
structure SameByName (ll : Llvm) (cf cf' : ControlFlowIndex) : Prop where
  contextsForCaller : ∀ name, FindSame (cf.contextsForCaller ll name) (cf'.contextsForCaller ll name)
  contextsForCallee : ∀ name, FindSame (cf.contextsForCallee ll name) (cf'.contextsForCallee ll name)
  protectedCallsTo : ∀ name, FindSame (cf.protectedCallsTo ll name) (cf'.protectedCallsTo ll name)
  unprotectedCallsTo : ∀ name,
    FindSame (cf.unprotectedCallsTo ll name) (cf'.unprotectedCallsTo ll name)
  forEachContext : FindSame (cf.forEachContext ll) (cf'.forEachContext ll)

theorem sameSiteAnswers_of_sameBySite {seen' : Seen} (h : cf.Inv seen) (h' : cf'.Inv seen')
    (hsame : SameBySite cf.entries cf'.entries) : SameSiteAnswers ll cf cf' where
  contextAtSite site := by rw [h.contextAtSite, h'.contextAtSite, hsame.site]
  contextAtSiteOf site caller := by rw [h.contextAtSiteOf, h'.contextAtSiteOf, hsame.site]
  contextsAtSite site := by rw [h.contextsAtSite, h'.contextsAtSite, hsame.site]
  contextForEdge site caller callee := by rw [h.contextForEdge, h'.contextForEdge, hsame.site]

theorem sameByName_of_named {seen' : Seen} (h : cf.Inv seen) (h' : cf'.Inv seen')
    (hperm : cf.entries.Perm cf'.entries)
    (hnamed : ∀ side n, (named seen side n cf.entries).Perm (named seen' side n cf'.entries)) :
    SameByName ll cf cf' where
  contextsForCaller name := ⟨_, _, h.contextsForCaller name, h'.contextsForCaller name, hnamed ..⟩
  contextsForCallee name := ⟨_, _, h.contextsForCallee name, h'.contextsForCallee name, hnamed ..⟩
  protectedCallsTo name :=
    ⟨_, _, h.protectedCallsTo name, h'.protectedCallsTo name, (hnamed ..).filter _⟩
  unprotectedCallsTo name :=
    ⟨_, _, h.unprotectedCallsTo name, h'.unprotectedCallsTo name, (hnamed ..).filter _⟩
  forEachContext := ⟨_, _, h.forEachContext, h'.forEachContext, hperm⟩

theorem named_perm (seen : Seen) (side : Side) (n : Bytes) (h : cs.Perm ds) :
    (named seen side n cs).Perm (named seen side n ds) := by
  rw [named, named]
  split_ifs
  · exact h.filter _
  · exact h.filter _

/-- With nothing hidden, the names of a session stand for the contexts of its log. -/
theorem Session.named_perm (hll : ll.AcceptsUtf8) (h : Session ll cf log seen)
    (hidden : NothingHidden log seen) (side : Side) (n : Bytes) :
    (named seen side n cf.entries).Perm (named (Seen.none.add (log.map CallSiteContext.stored))
      side n (log.map CallSiteContext.stored)) := by
  obtain ⟨hinv, hsame⟩ := h.inv hll
  -- the entries are stored contexts in some order of the log
  have hmap := List.eq_map_comp_perm CallSiteContext.stored
  obtain ⟨order, hent, horder⟩ : ∃ order : List CallSiteContext, cf.entries = order.map CallSiteContext.stored ∧
      order.Perm log := by
    have hcomp : Relation.Comp (· = List.map CallSiteContext.stored ·) List.Perm cf.entries log := by
      rw [hmap]
      exact hsame.perm
    exact hcomp
  have hidden' : NothingHidden order seen := by
    intro side n hs
    simp only [horder.mem_iff]
    exact hidden side n hs
  rw [named_eq_of_nothingHidden hinv hent hidden', hsame.add_eq]
  exact ControlFlowIndex.named_perm _ side n hsame.perm

/-- **Restarts are not observed.** The queries by call site answer as on an index to which only
the contexts left were added, the queries by name find the same contexts unless a removed usr
hides some, and a section that fits the format is loaded. -/
theorem Session.unobserved (hll : ll.AcceptsUtf8) (h : Session ll cf log seen) :
    SameSiteAnswers ll cf (({} : ControlFlowIndex).addAll log) ∧
      (NothingHidden log seen → SameByName ll cf (({} : ControlFlowIndex).addAll log)) ∧
      (cf.FitsSection → ∀ sort : Sorter cf.records.idBefore,
        ∃ cf', loadControlFlow ll (putControlFlow cf.records sort) = some cf' ∧
          SameSiteAnswers ll cf' cf ∧ cf'.liveCount = cf.liveCount) := by
  obtain ⟨hinv, hsame⟩ := h.inv hll
  have hfresh : BuiltFrom (fun _ => True) (({} : ControlFlowIndex).addAll log) log _ :=
    BuiltFrom.empty.addAll fun _ _ => trivial
  obtain ⟨hinv', hent'⟩ := hfresh.inv
  refine ⟨?_, fun hidden => ?_, fun hfits sort => ?_⟩
  · exact sameSiteAnswers_of_sameBySite hinv hinv' (hent' ▸ hsame)
  · refine sameByName_of_named hinv hinv' (hent' ▸ hsame.perm) fun side n => ?_
    rw [hent']
    exact h.named_perm hll hidden side n
  · obtain ⟨hload, hctx, hent, hperm, hsite⟩ := hinv.install_records
    refine ⟨_, hinv.loadControlFlow_putControlFlow hll hfits sort, ?_, ?_⟩
    · exact sameSiteAnswers_of_sameBySite hload hinv ⟨hperm, hsite⟩
    · rw [hload.liveCount, hinv.liveCount, List.countP_eq_length_filter,
        List.countP_eq_length_filter]
      have hlen := hperm.length_eq
      rwa [entries, entries, List.length_map, List.length_map] at hlen

/-- The two calls fit the format. -/
theorem fitsSection_calls : (({} : ControlFlowIndex).addAll [callByName, callByUsr]).FitsSection where
  strings := by decide
  table := by decide
  set_counts := by decide
  scopes set hset := by
    have hnil : set = [] := List.mem_singleton.mp hset
    simp [hnil]
  guards set hset := by
    have hnil : set = [] := List.mem_singleton.mp hset
    simp [hnil]
  raiis set hset := by
    have hnil : set = [] := List.mem_singleton.mp hset
    simp [hnil]
  contexts := by decide

/-- The calls are added, saved and loaded, and the TU of the first is removed. -/
theorem Session.unobserved_calls :
    ∃ cf seen, Session utf8Llvm cf [callByUsr] seen ∧ cf.contexts.length = 1 ∧
      SameSiteAnswers utf8Llvm cf (({} : ControlFlowIndex).addAll [callByUsr]) ∧
        SameByName utf8Llvm cf (({} : ControlFlowIndex).addAll [callByUsr]) := by
  have hbuilt : BuiltFrom (fun _ => True)
      (({} : ControlFlowIndex).addAll [callByName, callByUsr]) [callByName, callByUsr] _ :=
    BuiltFrom.empty.addAll fun _ _ => trivial
  have hload := hbuilt.inv.1.loadControlFlow_putControlFlow acceptsUtf8_utf8Llvm fitsSection_calls
    (ControlFlowRecords.idSorter _)
  have hrun := ((hbuilt.session.reload _ fitsSection_calls hload).removeTUs [[116]]).compact
  obtain ⟨hsite, hname, -⟩ := Session.unobserved acceptsUtf8_utf8Llvm hrun
  refine ⟨_, _, hrun, by decide +kernel, hsite, hname ?_⟩
  rintro side n (hs | ⟨c, hc, hn⟩)
  · exact hs.elim
  · obtain rfl := List.mem_singleton.mp hc
    exact .inl ⟨callByUsr, .head _, hn⟩

end ControlFlowIndex

end Vycor
