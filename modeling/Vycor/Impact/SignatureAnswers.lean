import Vycor.ControlFlow.InOrder
import Vycor.Impact.SignatureTable

/-!
# The table and the index agree

`forEdge_build`: on a resident index, and on a mapped one whose file is in order, the table
answers with the signature of the context that `contextForEdge` returns. The walk reads all
records, the lookup bisects them, so in a file that is not in order the two can differ.
-/

namespace Vycor

namespace ControlFlowIndex

/-- A resident index, or a mapped one in order. -/
def Ordered (cf : ControlFlowIndex) : Prop :=
  (∃ seen, cf.Inv seen) ∨ ∃ m, cf.mapped = some m ∧ m.InOrder

variable {ll : Llvm} {cf : ControlFlowIndex}

theorem Ordered.exists_contextsAtSite (h : cf.Ordered) (hll : ll.AcceptsUtf8) :
    ∃ contexts, cf.forEachContext ll = some contexts ∧ ∀ site, cf.contextsAtSite ll site =
      some (contexts.filter (·.callSite = lookupText ll site)) := by
  rcases h with ⟨seen, hinv⟩ | ⟨m, hm, hord⟩
  · exact ⟨cf.entries, hinv.forEachContext, hinv.contextsAtSite⟩
  · exact ControlFlowIndex.exists_contextsAtSite hm hord hll

end ControlFlowIndex

variable {ll : Llvm} {cf : ControlFlowIndex}

/-- **The table answers what the index does.** On a resident index or a mapped one in order,
for every edge at a call site that is UTF-8, the table has the signature of the context that
`contextForEdge` returns, and answers "absent" exactly where that returns nothing. -/
theorem forEdge_build (hll : ll.AcceptsUtf8) (h : cf.Ordered)
    (walk : List SignatureKey → List SignatureKey) (hwalk : ∀ ks, (walk ks).Perm ks) :
    ∃ sigs, ContextSignatures.build ll cf walk = some sigs ∧ ∀ site caller callee, Utf8Text site →
      ∃ found, cf.contextForEdge ll site caller callee = some found ∧
        sigs.forEdge site caller callee = (found.map contextSignature).getD absent ∧
          (sigs.forEdge site caller callee = absent ↔ found = none) := by
  obtain ⟨contexts, hall, hsite⟩ := h.exists_contextsAtSite hll
  obtain ⟨sigs, hbuild, hedge⟩ := exists_build_forEdge hall walk hwalk
  refine ⟨sigs, hbuild, fun site caller callee hutf8 => ⟨_, ?_, hedge site caller callee, ?_⟩⟩
  · rw [ControlFlowIndex.contextForEdge, hsite, CallGraph.lookupText_eq ll hll hutf8]
    rfl
  · rw [hedge]
    rcases ControlFlowIndex.pickForEdge caller callee
      (contexts.filter fun c => decide (c.callSite = site)) with _ | c
    · exact ⟨fun _ => rfl, fun _ => rfl⟩
    · exact ⟨fun heq => absurd heq (contextSignature_ne_absent c), fun heq => by cases heq⟩

/-! ### A file with two strings -/

/-- The strings "a" and "b", their ids in some order, and a call of `a` by `a` at `b`. -/
def twoStrings (first second : ℕ) : MappedStore where
  buffer := [1, 0, 0, 0, 97, 1, 0, 0, 0, 98] ++
    ([0, 5, first, second, 0, 0, 0, 0, 1, kNoString, 0, 0, 0].flatMap (toLe 4)) ++ [0, 0]
  strings := ⟨0, 10⟩
  stringCount := 2
  stringOffsets := ⟨10, 8⟩
  sortedIds := ⟨18, 8⟩
  records := ⟨26, 38⟩
  recordCount := 1
  byCaller := ⟨0, 0⟩
  byCallee := ⟨0, 0⟩
  byCallerDisplay := ⟨0, 0⟩
  callerDisplayCount := 0
  byCalleeDisplay := ⟨0, 0⟩
  calleeDisplayCount := 0

theorem attached_twoStrings (first second : ℕ) : (twoStrings first second).Attached := by
  have hlen : (twoStrings first second).buffer.length = 64 := by
    simp [twoStrings]
  constructor <;> simp [Region.Holds, Region.Inside, hlen] <;> simp [twoStrings, kRecordBytes]

theorem inOrder_twoStrings : (twoStrings 0 1).InOrder := by
  have hstr₀ : (twoStrings 0 1).mappedString 0 = some [97] := by decide +kernel
  have hstr₁ : (twoStrings 0 1).mappedString 1 = some [98] := by decide +kernel
  have hat₀ : (twoStrings 0 1).idAt 0 = some 0 := by decide +kernel
  have hat₁ : (twoStrings 0 1).idAt 1 = some 1 := by decide +kernel
  have hcases : ∀ i, i < (twoStrings 0 1).stringCount → i = 0 ∨ i = 1 := fun i hi =>
    Nat.le_one_iff_eq_zero_or_eq_one.mp (Nat.lt_succ_iff.mp hi)
  refine ⟨attached_twoStrings 0 1, fun id s hid hs => ?_, fun id hid => ?_,
    fun i j id id' s s' hij hj hi hj' hs hs' => ?_, fun i j v v' hij hj hv hv' => ?_⟩
  · rcases hcases id hid with rfl | rfl
    · obtain rfl := Option.some_inj.mp (hstr₀.symm.trans hs)
      exact utf8Text_toIndexText [97]
    · obtain rfl := Option.some_inj.mp (hstr₁.symm.trans hs)
      exact utf8Text_toIndexText [98]
  · rcases hcases id hid with rfl | rfl
    · exact ⟨0, by decide, hat₀⟩
    · exact ⟨1, by decide, hat₁⟩
  · obtain ⟨rfl, rfl⟩ : i = 0 ∧ j = 1 := by
      have := hcases j hj
      omega
    obtain rfl := Option.some_inj.mp (hat₀.symm.trans hi)
    obtain rfl := Option.some_inj.mp (hat₁.symm.trans hj')
    obtain rfl := Option.some_inj.mp (hstr₀.symm.trans hs)
    obtain rfl := Option.some_inj.mp (hstr₁.symm.trans hs')
    decide
  · obtain ⟨rfl, rfl⟩ : i = 0 ∧ j = 0 := by
      have : j < 1 := hj
      omega
    exact (Option.some_inj.mp (hv.symm.trans hv')).le

/-- The index over the file. -/
def mappedIndex (m : MappedStore) : ControlFlowIndex := { mapped := some m }

/-- In order, the table answers for the call what the index answers. -/
theorem forEdge_build_twoStrings :
    (mappedIndex (twoStrings 0 1)).Ordered ∧
      ∃ sigs, ContextSignatures.build utf8Llvm (mappedIndex (twoStrings 0 1)) id = some sigs ∧
        ∀ site caller callee, Utf8Text site → ∃ found,
          (mappedIndex (twoStrings 0 1)).contextForEdge utf8Llvm site caller callee =
              some found ∧
            sigs.forEdge site caller callee = (found.map contextSignature).getD absent ∧
              (sigs.forEdge site caller callee = absent ↔ found = none) :=
  have h : (mappedIndex (twoStrings 0 1)).Ordered := .inr ⟨_, rfl, inOrder_twoStrings⟩
  ⟨h, forEdge_build acceptsUtf8_utf8Llvm h id fun _ => .refl _⟩

/-- Where the ids are not listed in the order of their strings, the bisection misses the call
site that the walk has read. -/
theorem forEdge_build_out_of_order :
    ¬ ∀ (ll : Llvm) (cf : ControlFlowIndex) (walk : List SignatureKey → List SignatureKey)
      (sigs : ContextSignatures) (found : Option CallSiteContext) (site caller callee : Bytes),
      ll.AcceptsUtf8 → cf.Held → (∀ ks, (walk ks).Perm ks) → Utf8Text site → Utf8Text caller →
        Utf8Text callee → ContextSignatures.build ll cf walk = some sigs →
          cf.contextForEdge ll site caller callee = some found →
            sigs.forEdge site caller callee = (found.map contextSignature).getD absent := by
  intro hall
  have hctx : (mappedIndex (twoStrings 1 0)).forEachContext utf8Llvm = some
      [{ callerName := [97], calleeName := [97], callSite := [98], callerUsr := [97]
         calleeUsr := [97] }] := by decide +kernel
  obtain ⟨sigs, hbuild, hedge⟩ := exists_build_forEdge hctx id fun _ => .refl _
  have hsearch : (twoStrings 1 0).searchId [98] 0 2 = some none := by
    have hat : (twoStrings 1 0).sortedIds.fetchLe (twoStrings 1 0).buffer (1 * 4) 4 = some 0 := by
      decide +kernel
    have hstr : (twoStrings 1 0).mappedString 0 = some [97] := by decide +kernel
    rw [MappedStore.searchId, if_pos (by decide)]
    simp only [Nat.reduceSub, Nat.reduceDiv, Nat.zero_add, hat, hstr]
    rw [if_neg (by decide), if_pos (by decide), MappedStore.searchId, if_neg (by decide)]
  have hnone : (mappedIndex (twoStrings 1 0)).contextForEdge utf8Llvm [98] [97] [97] =
      some none := by
    have htext : lookupText utf8Llvm [98] = [98] := by decide
    rw [ControlFlowIndex.contextForEdge, ControlFlowIndex.contextsAtSite,
      ControlFlowIndex.sitePositions, ControlFlowIndex.findId, htext]
    change ((((twoStrings 1 0).searchId [98] 0 2).bind _).bind _).bind _ = _
    rw [hsearch]
    simp only [Option.bind_some, ControlFlowIndex.collect, ControlFlowIndex.pickForEdge,
      List.filter_nil, List.mergeSort_nil, List.head?_nil]
  have heq := hall utf8Llvm (mappedIndex (twoStrings 1 0)) id sigs none [98] [97] [97]
    acceptsUtf8_utf8Llvm (.inr ⟨_, rfl, attached_twoStrings 1 0⟩) (fun _ => .refl _)
    (utf8Text_toIndexText [98]) (utf8Text_toIndexText [97]) (utf8Text_toIndexText [97]) hbuild
    hnone
  rw [hedge] at heq
  exact absurd heq (by decide +kernel)

end Vycor
