import Vycor.Query.Identity

/-!
# Did you mean

`suggestFunctions` answers with the functions that match what was typed, then with those
that match its unqualified tail, then with those whose unqualified name is near that tail. A
function within the bound is in the answer unless the answer is full
(`mem_suggestFunctions`).
-/

namespace Vycor

theorem length_le_of_afterLastScope {s tail : Bytes} (h : afterLastScope s = some tail) :
    tail.length ≤ s.length := by
  fun_induction afterLastScope s generalizing tail with
  | case1 => cases h
  | case2 => cases h
  | case3 a b rest tail' hrest ih =>
    obtain rfl := Option.some_inj.mp h
    exact (ih hrest).trans (Nat.le_succ _)
  | case4 a b rest hrest hscope ih =>
    obtain rfl := Option.some_inj.mp h
    simp only [List.length_cons]
    omega
  | case5 => cases h

theorem length_unqualifiedName_le (s : Bytes) : (unqualifiedName s).length ≤ s.length := by
  rw [unqualifiedName]
  cases h : afterLastScope s with
  | none => exact Nat.le_refl _
  | some tail => exact length_le_of_afterLastScope h

theorem mem_ranked {hits : List (ℕ × CallGraphNode)} {n : CallGraphNode} :
    n ∈ ranked hits ↔ ∃ d, (d, n) ∈ hits := by
  simp [ranked, List.mem_mergeSort]

variable {g : CallGraph} {n : CallGraphNode} {tail : Bytes}

theorem toNat_typoBound_le (tail : Bytes) : (typoBound tail).toNat ≤ 3 := by
  rw [typoBound]
  split_ifs with hlow hhigh
  · decide
  · decide
  · exact UInt32.le_iff_toNat_le.mp (UInt32.not_lt.mp hhigh)

/-- **The near functions** are those within the bound: neither the length test nor the cut in
the table loses one. -/
theorem mem_nearFunctions {seen : List CallGraphNode} (htail : tail.length < 2 ^ 31)
    (hn : n.qualifiedName.length < 2 ^ 31) :
    n ∈ nearFunctions g tail seen ↔ n ∈ g.allNodes ∧ n ∉ seen ∧
      nameDistance tail (unqualifiedName n.qualifiedName) ≤ (typoBound tail).toNat := by
  have hunq := (length_unqualifiedName_le n.qualifiedName).trans_lt hn
  have hlen := length_sub_le_nameDistance tail (unqualifiedName n.qualifiedName)
  obtain ⟨hexact, hover⟩ := typoDistance_spec htail hunq
    ((toNat_typoBound_le tail).trans_lt (by decide))
  -- the test on the distance
  have hwithin : typoDistance tail (unqualifiedName n.qualifiedName) (typoBound tail) ≤
      typoBound tail ↔
      nameDistance tail (unqualifiedName n.qualifiedName) ≤ (typoBound tail).toNat := by
    rw [UInt32.le_iff_toNat_le]
    refine ⟨fun hle => ?_, fun hle => (hexact hle).trans_le hle⟩
    by_contra hlt
    exact absurd (UInt32.lt_iff_toNat_lt.mp (hover (not_le.mp hlt))) (not_lt.mpr hle)
  rw [nearFunctions, mem_ranked]
  simp only [List.mem_filterMap, List.mem_filter, decide_eq_true_eq]
  constructor
  · rintro ⟨d, m, ⟨hm, hseen⟩, hsome⟩
    split_ifs at hsome with hdiff hd
    obtain ⟨-, rfl⟩ := Prod.mk.inj (Option.some_inj.mp hsome)
    exact ⟨hm, hseen, hwithin.mp hd⟩
  · rintro ⟨hm, hseen, hle⟩
    exact ⟨(typoDistance tail (unqualifiedName n.qualifiedName) (typoBound tail)).toNat, n,
      ⟨hm, hseen⟩, by rw [if_neg (by omega), if_pos (hwithin.mpr hle)]⟩

/-! ### The whole answer -/

theorem length_takeSuggestions_le {max : ℕ} {out more : List CallGraphNode}
    (hout : out.length ≤ max) : (takeSuggestions max out more).length ≤ max := by
  induction more generalizing out with
  | nil => exact hout
  | cons m more ih =>
    rw [takeSuggestions, List.foldl_cons]
    refine ih ?_
    split_ifs with hfull
    · exact hout
    · rw [List.length_append, List.length_singleton]
      omega

/-- What the two rankings put into the answer. -/
def rankedSuggestions (g : CallGraph) (name : Bytes) (max : ℕ) : List CallGraphNode :=
  let out := takeSuggestions max [] (rankFunctionMatches g name)
  let tail := unqualifiedName name
  if out.length < max ∧ tail.length ≠ name.length ∧ tail ≠ [] then
    takeSuggestions max out (rankFunctionMatches g tail)
  else out

theorem length_rankedSuggestions_le (name : Bytes) (max : ℕ) :
    (rankedSuggestions g name max).length ≤ max := by
  have hfirst := @length_takeSuggestions_le max [] (rankFunctionMatches g name) (Nat.zero_le max)
  rw [rankedSuggestions]
  split_ifs
  · exact length_takeSuggestions_le hfirst
  · exact hfirst

theorem suggestFunctions_eq {name : Bytes} {max : ℕ} (hname : name ≠ []) (hmax : max ≠ 0) :
    suggestFunctions g name max = rankedSuggestions g name max ++
      (nearFunctions g (unqualifiedName name) (rankedSuggestions g name max)).take
        (max - (rankedSuggestions g name max).length) := by
  have hrest : suggestFunctions g name max =
      if max ≤ (rankedSuggestions g name max).length then rankedSuggestions g name max
      else rankedSuggestions g name max ++
        (nearFunctions g (unqualifiedName name) (rankedSuggestions g name max)).take
          (max - (rankedSuggestions g name max).length) := by
    rw [suggestFunctions, if_neg (not_or.mpr ⟨hname, hmax⟩)]
    rfl
  rw [hrest]
  by_cases hfull : max ≤ (rankedSuggestions g name max).length
  · rw [if_pos hfull, Nat.sub_eq_zero_of_le hfull, List.take_zero, List.append_nil]
  · rw [if_neg hfull]

/-- **A near function is suggested unless the answer is full.** -/
theorem mem_suggestFunctions {name : Bytes} (hname : name ≠ []) (hsize : name.length < 2 ^ 31)
    (max : ℕ) (hn : n ∈ g.allNodes) (hnsize : n.qualifiedName.length < 2 ^ 31)
    (hnear : nameDistance (unqualifiedName name) (unqualifiedName n.qualifiedName) ≤
      (typoBound (unqualifiedName name)).toNat) :
    n ∈ suggestFunctions g name max ∨ (suggestFunctions g name max).length = max := by
  rcases Nat.eq_zero_or_pos max with rfl | hmax
  · exact .inr (by rw [suggestFunctions, if_pos (.inr rfl), List.length_nil])
  rw [suggestFunctions_eq hname (Nat.ne_of_gt hmax)]
  by_cases hranked : n ∈ rankedSuggestions g name max
  · exact .inl (List.mem_append_left _ hranked)
  have hmem := (mem_nearFunctions ((length_unqualifiedName_le name).trans_lt hsize) hnsize).mpr
    ⟨hn, hranked, hnear⟩
  have hlen := @length_rankedSuggestions_le g name max
  rcases Nat.lt_or_ge (max - (rankedSuggestions g name max).length)
    (nearFunctions g (unqualifiedName name) (rankedSuggestions g name max)).length with hcut | hall
  · right
    rw [List.length_append, List.length_take, min_eq_left hcut.le]
    omega
  · left
    rw [List.take_of_length_le hall]
    exact List.mem_append_right _ hmem

/-- **The typing-mistake distance** is the bounded optimal-string-alignment distance up to
case, and so no function within the bound is dropped. -/
theorem typoDistance_osaDistance :
    (∀ (a b : Bytes) (bound : UInt32), a.length < 2 ^ 31 → b.length < 2 ^ 31 →
      bound.toNat < 2 ^ 31 →
      (nameDistance a b ≤ bound.toNat → (typoDistance a b bound).toNat = nameDistance a b) ∧
        (bound.toNat < nameDistance a b → bound < typoDistance a b bound)) ∧
    ∀ (g : CallGraph) (name : Bytes) (max : ℕ) (n : CallGraphNode), name ≠ [] →
      name.length < 2 ^ 31 → n ∈ g.allNodes → n.qualifiedName.length < 2 ^ 31 →
      nameDistance (unqualifiedName name) (unqualifiedName n.qualifiedName) ≤
        (typoBound (unqualifiedName name)).toNat →
      n ∈ suggestFunctions g name max ∨ (suggestFunctions g name max).length = max :=
  ⟨fun _ _ _ ha hb hbound => typoDistance_spec ha hb hbound,
    fun _ _ max _ hname hsize hn hnsize hnear =>
      mem_suggestFunctions hname hsize max hn hnsize hnear⟩

/-- A function named `Main`. -/
def mainNode : CallGraphNode := { qualifiedName := text "Main", usr := text "c:@F@Main" }

/-- `mian` is one edit from `Main`, and leads to it. -/
theorem typoDistance_osaDistance_mian :
    (typoDistance (text "mian") (text "Main") 1).toNat = nameDistance (text "mian") (text "Main") ∧
      (mainNode ∈ suggestFunctions (({} : CallGraph).registerAll [.node mainNode []]) (text "mian") 5 ∨
        (suggestFunctions (({} : CallGraph).registerAll [.node mainNode []])
          (text "mian") 5).length = 5) := by
  have hlower : asciiLower (text "mian") = [109, 105, 97, 110] ∧
      asciiLower (text "Main") = [109, 97, 105, 110] := by
    decide +kernel
  have htail : unqualifiedName (text "mian") = text "mian" ∧
      unqualifiedName mainNode.qualifiedName = text "Main" ∧
      typoBound (text "mian") = 1 := by
    decide +kernel
  have hnear : nameDistance (text "mian") (text "Main") ≤ (1 : UInt32).toNat := by
    rw [nameDistance, hlower.1, hlower.2]
    exact osaDistance_le ((((Aligned.nil.keep 110).swap 105 97)).keep 109)
  refine ⟨( typoDistance_osaDistance.1 _ _ _ (by decide +kernel) (by decide +kernel)
    (by decide)).1 hnear, ?_⟩
  refine typoDistance_osaDistance.2 _ _ _ _ (by decide +kernel) (by decide +kernel)
    (by decide +kernel) (by decide +kernel) ?_
  rw [htail.1, htail.2.1, htail.2.2]
  exact hnear

end Vycor
