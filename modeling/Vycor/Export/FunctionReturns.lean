import Vycor.CallGraph.Query
import Vycor.CallGraph.Invariant
import Vycor.CallGraph.Runs
import Mathlib.Data.List.Perm.Basic

/-!
# Exported function returns

The relation between a function and the functions it returns is kept by usr, and exported by
display name: the member `function_returns` of a shard maps the display name of a function to
those of the functions it returns. The members are assigned in the order in which the hash
table of the relation is walked, and a later one replaces an earlier one of the same name.
-/

namespace Vycor

namespace CallGraph

variable {g : CallGraph}

/-- The targets of a function, a `std::set` of ids, by display name. -/
def returnedDisplays (g : CallGraph) (f : SId) : List Bytes :=
  ((g.functionReturns f).insertionSort (· ≤ ·)).map g.displayFor

/-- The functions with recorded returns, as some walk of the hash table lists them. -/
def ReturnOrder (g : CallGraph) (order : List SId) : Prop :=
  order.Nodup ∧ ∀ f, f ∈ order ↔ g.functionReturns f ≠ []

/-- The member `function_returns` of `toShardObject` for the whole graph. -/
def functionReturnsObject (g : CallGraph) (order : List SId) : Bytes → Option (List Bytes) :=
  order.foldl (fun obj f => Function.update obj (g.displayFor f) (some (g.returnedDisplays f)))
    fun _ => none

/-- The member holds the returns of the last function of the name. -/
theorem functionReturnsObject_eq (order : List SId) (d : Bytes) :
    g.functionReturnsObject order d =
      (order.reverse.find? fun f => decide (g.displayFor f = d)).map g.returnedDisplays := by
  rw [functionReturnsObject]
  induction order using List.reverseRecOn with
  | nil => rfl
  | append_singleton order f ih =>
    rw [List.foldl_append, List.foldl_cons, List.foldl_nil, List.reverse_append,
      List.reverse_singleton, List.singleton_append]
    by_cases hd : g.displayFor f = d
    · rw [← hd, Function.update_self, List.find?_cons_of_pos (by simp), Option.map_some]
    · rw [Function.update_of_ne (Ne.symm hd), ih, List.find?_cons_of_neg (by simpa using hd)]

/-- A member holds the returns of some function of its name. -/
theorem exists_of_functionReturnsObject {order : List SId} {d : Bytes} {l : List Bytes}
    (h : g.functionReturnsObject order d = some l) :
    ∃ f ∈ order, g.displayFor f = d ∧ g.returnedDisplays f = l := by
  rw [functionReturnsObject_eq, Option.map_eq_some_iff] at h
  obtain ⟨f, hf, hl⟩ := h
  exact ⟨f, List.mem_reverse.mp (List.mem_of_find?_eq_some hf), by simpa using List.find?_some hf, hl⟩

/-- Every function has a member. -/
theorem functionReturnsObject_isSome {order : List SId} {f : SId} (hf : f ∈ order) :
    ∃ l, g.functionReturnsObject order (g.displayFor f) = some l := by
  rw [← Option.isSome_iff_exists, functionReturnsObject_eq, Option.isSome_map, List.find?_isSome]
  exact ⟨f, List.mem_reverse.mpr hf, by simp⟩

theorem mem_returnedDisplays {f : SId} {x : Bytes} :
    x ∈ g.returnedDisplays f ↔ ∃ r ∈ g.functionReturns f, g.displayFor r = x := by
  rw [returnedDisplays, List.mem_map]
  exact exists_congr fun r => and_congr_left' (List.mem_insertionSort _)

/-- The contract of the export: a member for every pair, nothing else, and the same whatever
the order of the walk is. -/
structure ExportsReturns (g : CallGraph) : Prop where
  pair : ∀ order, g.ReturnOrder order → ∀ f, ∀ r ∈ g.functionReturns f,
    ∃ l, g.functionReturnsObject order (g.displayFor f) = some l ∧ g.displayFor r ∈ l
  only : ∀ order, g.ReturnOrder order → ∀ d l, g.functionReturnsObject order d = some l →
    (∃ f, g.functionReturns f ≠ [] ∧ g.displayFor f = d) ∧
      ∀ x ∈ l, ∃ f, ∃ r ∈ g.functionReturns f, g.displayFor f = d ∧ g.displayFor r = x
  orderFree : ∀ order order', g.ReturnOrder order → g.ReturnOrder order' → ∀ d l l',
    g.functionReturnsObject order d = some l → g.functionReturnsObject order' d = some l' → l.Perm l'

/-- A walk of the hash table may end with any function that has returns. -/
theorem Inv.exists_returnOrder (hg : g.Inv) {f : SId} (hf : g.functionReturns f ≠ []) :
    ∃ order, g.ReturnOrder (order ++ [f]) := by
  have hlt : ∀ f, g.functionReturns f ≠ [] → f < g.interner.size := by
    intro f hf
    obtain ⟨r, hr⟩ := List.exists_mem_of_ne_nil _ hf
    exact (hg.rel.return_ids hr).1
  refine ⟨(List.range g.interner.size).filter fun i => g.functionReturns i ≠ [] ∧ i ≠ f, ?_, ?_⟩
  · refine List.nodup_append.mpr ⟨List.nodup_range.filter _, List.nodup_singleton f, ?_⟩
    intro a ha b hb hab
    rw [List.mem_filter, decide_eq_true_eq] at ha
    exact ha.2.2 (hab.trans (List.mem_singleton.mp hb))
  · intro i
    rw [List.mem_append, List.mem_filter, decide_eq_true_eq, List.mem_range, List.mem_singleton]
    constructor
    · rintro (⟨-, hi, -⟩ | rfl)
      exacts [hi, hf]
    · intro hi
      by_cases hif : i = f
      · exact .inr hif
      · exact .inl ⟨hlt i hi, hi, hif⟩

/-- **The export loses no function return** if and only if functions of one display name that
both have returns return functions of the same display names. -/
theorem exportsReturns_iff {log : List Registration} (hg : Reachable g log) :
    g.ExportsReturns ↔ ∀ f f', g.functionReturns f ≠ [] → g.functionReturns f' ≠ [] →
      g.displayFor f = g.displayFor f' →
        ((g.functionReturns f).map g.displayFor).Perm ((g.functionReturns f').map g.displayFor) := by
  have hdisplays : ∀ f, (g.returnedDisplays f).Perm ((g.functionReturns f).map g.displayFor) :=
    fun f => (List.perm_insertionSort _ _).map _
  constructor
  · intro h f f' hf hf' hname
    -- walks that end with one function and with the other
    have hlast : ∀ {f}, g.functionReturns f ≠ [] → ∃ order, g.ReturnOrder order ∧
        g.functionReturnsObject order (g.displayFor f) = some (g.returnedDisplays f) := by
      intro f hf
      obtain ⟨order, horder⟩ := hg.inv.1.exists_returnOrder hf
      refine ⟨_, horder, ?_⟩
      rw [functionReturnsObject_eq, List.reverse_append, List.reverse_singleton,
        List.singleton_append, List.find?_cons_of_pos (by simp), Option.map_some]
    obtain ⟨order, horder, hobj⟩ := hlast hf
    obtain ⟨order', horder', hobj'⟩ := hlast hf'
    rw [← hname] at hobj'
    exact ((hdisplays f).symm.trans (h.orderFree _ _ horder horder' _ _ _ hobj hobj')).trans
      (hdisplays f')
  · intro h
    have hsame : ∀ {f f'}, g.functionReturns f ≠ [] → g.functionReturns f' ≠ [] →
        g.displayFor f = g.displayFor f' → (g.returnedDisplays f).Perm (g.returnedDisplays f') :=
      fun hf hf' hname => ((hdisplays _).trans (h _ _ hf hf' hname)).trans (hdisplays _).symm
    refine ⟨fun order horder f r hr => ?_, fun order horder d l hobj => ?_,
      fun order order' horder horder' d l l' hobj hobj' => ?_⟩
    · have hf := List.ne_nil_of_mem hr
      obtain ⟨l, hl⟩ := functionReturnsObject_isSome ((horder.2 f).mpr hf)
      obtain ⟨f', hf', hname, rfl⟩ := exists_of_functionReturnsObject hl
      refine ⟨_, hl, (hsame hf ((horder.2 f').mp hf') hname.symm).mem_iff.mp ?_⟩
      exact mem_returnedDisplays.mpr ⟨r, hr, rfl⟩
    · obtain ⟨f, hf, hname, rfl⟩ := exists_of_functionReturnsObject hobj
      refine ⟨⟨f, (horder.2 f).mp hf, hname⟩, fun x hx => ?_⟩
      obtain ⟨r, hr, hx⟩ := mem_returnedDisplays.mp hx
      exact ⟨f, r, hr, hname, hx⟩
    · obtain ⟨f, hf, hname, rfl⟩ := exists_of_functionReturnsObject hobj
      obtain ⟨f', hf', hname', rfl⟩ := exists_of_functionReturnsObject hobj'
      exact hsame ((horder.2 f).mp hf) ((horder'.2 f').mp hf') (hname.trans hname'.symm)

/-- One function with returns: its member holds the function it returns. -/
theorem exportsReturns_single :
    (({} : CallGraph).registerAll [.functionReturn [97] [120] []]).ExportsReturns := by
  have hg : Reachable (({} : CallGraph).registerAll [.functionReturn [97] [120] []])
      ([] ++ [.functionReturn [97] [120] []]) := BuiltFrom.empty.registerAll fun _ _ => trivial
  refine (exportsReturns_iff hg).mpr fun f f' hf hf' _ => ?_
  have honly : ∀ f, (({} : CallGraph).registerAll [.functionReturn [97] [120] []]).functionReturns f
      ≠ [] → f = 0 := by
    intro f hf
    obtain ⟨r, hr⟩ := List.exists_mem_of_ne_nil _ hf
    have hlt := (hg.inv.1.rel.return_ids hr).1
    have hsize : (({} : CallGraph).registerAll [.functionReturn [97] [120] []]).interner.size = 2 := by
      decide +kernel
    rw [hsize] at hlt
    have hcases : ∀ f < 2, (({} : CallGraph).registerAll
        [.functionReturn [97] [120] []]).functionReturns f ≠ [] → f = 0 := by decide +kernel
    exact hcases f hlt hf
  rw [honly f hf, honly f' hf']

/-- Two functions `a` and `b` of one display name `f`; `a` returns `x`, `b` returns `y`. -/
def overloadedReturns : List Registration :=
  [.node { qualifiedName := [102], usr := [97] } [], .node { qualifiedName := [102], usr := [98] } [],
    .functionReturn [97] [120] [], .functionReturn [98] [121] []]

/-- One of the two returns is lost. -/
theorem exportsReturns_loses_overload :
    ¬ ∀ (g : CallGraph) (log : List Registration), Reachable g log → g.ExportsReturns := by
  intro hall
  have hg : Reachable (({} : CallGraph).registerAll overloadedReturns) ([] ++ overloadedReturns) :=
    BuiltFrom.empty.registerAll fun _ _ => trivial
  have horder : (({} : CallGraph).registerAll overloadedReturns).ReturnOrder [0, 2] := by
    refine ⟨by decide, fun f => ?_⟩
    by_cases hf : f < 5
    · revert f
      decide +kernel
    · -- other ids are not in the table
      refine iff_of_false (fun hmem => hf ?_) (fun hret => hf ?_)
      · rcases List.mem_pair.mp hmem with rfl | rfl <;> decide
      · obtain ⟨r, hr⟩ := List.exists_mem_of_ne_nil _ hret
        have hlt := (hg.inv.1.rel.return_ids hr).1
        have hsize : (({} : CallGraph).registerAll overloadedReturns).interner.size = 5 := by
          decide +kernel
        rwa [hsize] at hlt
  obtain ⟨l, hl, hmem⟩ := (hall _ _ hg).pair [0, 2] horder 0 3 (by decide +kernel)
  have hlast : (({} : CallGraph).registerAll overloadedReturns).functionReturnsObject [0, 2]
      ((({} : CallGraph).registerAll overloadedReturns).displayFor 0) = some [[121]] := by
    decide +kernel
  rw [hlast, Option.some_inj] at hl
  rw [← hl] at hmem
  revert hmem
  decide +kernel

end CallGraph

end Vycor
