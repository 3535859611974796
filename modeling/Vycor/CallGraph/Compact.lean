import Vycor.CallGraph.Remove

/-!
# Compaction and whole runs

`compact` copies the live records to a new log and re-points the registrations; the ledger
does not change. With it every public mutator is known to keep the representation
invariant, and the invariant holds in every graph a sequence of mutators can produce.
-/

namespace Vycor

namespace CallGraph

variable {g : CallGraph}

/-! ### Compaction -/

/-- The tables after the first records of the log have been copied. -/
structure CompactSpec (g : CallGraph) (done : List StoredEdge) (c : Compaction) : Prop where
  edge : EdgeInv g.interner c.edges c.edgeIndex c.outEdges c.inEdges c.edges.length fun _ => []
  edges_eq : c.edges = done.filter fun e => decide (0 < e.refs)
  remap_live : ∀ {i j}, c.remap i = some j → ∃ e, LiveAt g.edges i e ∧ c.edges[j]? = some e
  remap_total : ∀ {i e}, i < done.length → LiveAt g.edges i e → ∃ j, c.remap i = some j

theorem CompactSpec.nil (g : CallGraph) : CompactSpec g [] {} where
  edge := by constructor <;> simp [LiveAt]
  edges_eq := rfl
  remap_live := by simp
  remap_total := by simp

theorem CompactSpec.snoc (h : g.Inv) {done : List StoredEdge} {c : Compaction} {e : StoredEdge}
    (hdone : done ++ [e] <+: g.edges) (hc : CompactSpec g done c) :
    CompactSpec g (done ++ [e]) (c.step (e, done.length)) := by
  have hget : g.edges[done.length]? = some e := by
    obtain ⟨rest, hrest⟩ := hdone
    rw [← hrest, List.append_assoc, List.getElem?_append_right le_rfl, Nat.sub_self]
    rfl
  unfold Compaction.step
  dsimp only
  split_ifs with h0 h1
  · refine { hc with edges_eq := ?_, remap_total := ?_ }
    · rw [hc.edges_eq, List.filter_append]
      simp [h0]
    · intro i e' hi he'
      rw [List.length_append, List.length_singleton] at hi
      refine hc.remap_total (Nat.lt_of_le_of_ne (by omega) ?_) he'
      rintro rfl
      obtain rfl := Option.some_injective _ (hget.symm.trans he'.1)
      exact he'.2.ne' h0
  · -- a record with the same content was copied before: impossible
    obtain ⟨j, hj⟩ := Option.isSome_iff_exists.mp h1
    obtain ⟨e', he', hk⟩ := hc.edge.index_iff.mp hj
    have hmem : e' ∈ done := by
      have := List.mem_of_getElem? he'.1
      rw [hc.edges_eq] at this
      exact List.mem_of_mem_filter this
    obtain ⟨i, hi⟩ := List.mem_iff_getElem?.mp hmem
    have hlt := (List.getElem?_eq_some_iff.mp hi).1
    have hlive : LiveAt g.edges i e' := by
      obtain ⟨rest, hrest⟩ := hdone
      refine ⟨?_, he'.2⟩
      rw [← hrest, List.append_assoc, List.getElem?_append_left hlt, hi]
    have := (h.edge.live_unique hlive ⟨hget, Nat.pos_of_ne_zero h0⟩ hk).1
    omega
  · rw [Bool.not_eq_true, Option.isSome_eq_false_iff, Option.isNone_iff_eq_none] at h1
    have happ := hc.edge.append (h.edge.edge_ids hget) (Nat.pos_of_ne_zero h0) h1
    refine ⟨?_, ?_, fun {i j} hij => ?_, fun {i e'} hi he' => ?_⟩
    · dsimp only
      rw [List.length_append, List.length_singleton]
      exact happ
    · dsimp only
      rw [hc.edges_eq, List.filter_append]
      simp [Nat.pos_of_ne_zero h0]
    · dsimp only at hij ⊢
      rw [Function.update_apply] at hij
      split_ifs at hij with hi
      · subst hi
        obtain rfl := Option.some_injective _ hij
        exact ⟨e, ⟨hget, Nat.pos_of_ne_zero h0⟩, by simp⟩
      · obtain ⟨e', he', hj⟩ := hc.remap_live hij
        refine ⟨e', he', ?_⟩
        rwa [List.getElem?_append_left (List.getElem?_eq_some_iff.mp hj).1]
    · dsimp only
      rw [Function.update_apply]
      split_ifs with hid
      · exact ⟨_, rfl⟩
      · rw [List.length_append, List.length_singleton] at hi
        exact hc.remap_total (by omega) he'

theorem Inv.compaction (h : g.Inv) {l : List StoredEdge} (hl : l <+: g.edges) :
    CompactSpec g l (l.zipIdx.foldl Compaction.step {}) := by
  induction l using List.reverseRecOn with
  | nil => exact .nil g
  | append_singleton l e ih =>
    rw [List.zipIdx_append, List.foldl_append]
    simp only [Nat.zero_add, List.zipIdx_singleton, List.foldl_cons, List.foldl_nil]
    exact (ih ((List.prefix_append l [e]).trans hl)).snoc h hl

/-- **`compact` keeps the invariant and the ledger.** -/
theorem Inv.compact (h : g.Inv) : g.compact.Inv ∧ g.compact.ledger = g.ledger := by
  have hc := h.compaction (List.prefix_refl g.edges)
  unfold CallGraph.compact
  rw [if_neg (by simp [h.mutable])]
  dsimp only
  generalize g.edges.zipIdx.foldl Compaction.step {} = c at *
  have htag : ∀ {tu i}, i ∈ g.tuEdges tu → ∃ j e, c.remap i = some j ∧
      LiveAt g.edges i e ∧ LiveAt c.edges j e := by
    intro tu i hi
    obtain ⟨-, e, he⟩ := h.edge.tag_live hi
    obtain ⟨j, hj⟩ := hc.remap_total (List.getElem?_eq_some_iff.mp he.1).1 he
    obtain ⟨e', he', hget⟩ := hc.remap_live hj
    obtain rfl := Option.some_injective _ (he.1.symm.trans he'.1)
    exact ⟨j, e, hj, he, hget, he.2⟩
  constructor
  · refine ⟨h.mutable, h.strings_nodup, h.strings_text, h.node, ?_, h.rel⟩
    refine { hc.edge with live_count := ?_, tag_live := fun {tu j} hj => ?_ }
    · rw [h.edge.live_count, ← hc.edge.live_count, hc.edges_eq, List.countP_eq_length_filter]
    · obtain ⟨i, hi, hij⟩ := List.mem_filterMap.mp hj
      obtain ⟨j', e, hj', -, hlive⟩ := htag hi
      obtain rfl := Option.some_injective _ (hj'.symm.trans hij)
      exact ⟨(h.edge.tag_live hi).1, e, hlive⟩
  · refine Ledger.ext rfl rfl (funext fun f => ?_) (funext fun f => ?_) rfl rfl rfl rfl
    · change refsIn _ c.edges f = refsIn _ g.edges f
      rw [hc.edges_eq]
      generalize g.edges = l
      induction l with
      | nil => rfl
      | cons e rest ih =>
        unfold refsIn at ih ⊢
        by_cases he : 0 < e.refs
        · simp [he, ih]
        · have hz : e.refs = 0 := by omega
          simp [hz, ih]
    · change regsIn _ c.edges _ f = regsIn _ g.edges _ f
      unfold regsIn
      refine Finset.sum_congr rfl fun tu _ => ?_
      congr 1
      rw [List.countP_filterMap]
      refine List.countP_congr fun i hi => ?_
      obtain ⟨j, e, hj, he, hlive⟩ := htag hi
      simp [hj, factAt, he.1, hlive.1]

end CallGraph

end Vycor
