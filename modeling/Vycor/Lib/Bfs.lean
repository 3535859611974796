import Mathlib.Data.Finset.Card
import Mathlib.Data.List.Basic
import Mathlib.Logic.Function.Basic

/-!
# Breadth-first distances

A level-by-level search from a list of starts: every level marks the unmarked successors of
the frontier with the next distance, until a frontier is empty. Enough fuel for the nodes of
a finite universe makes the marks a `DistanceMap`: starts have distance zero, a mark `d + 1`
has a predecessor marked `d`, and the successors of a marked node are marked one further at
most.
-/

namespace Vycor

variable {α : Type*} [DecidableEq α]

/-- Mark a node unless it is marked, and collect it. -/
def markNew (dist : ℕ) (acc : (α → Option ℕ) × List α) (a : α) : (α → Option ℕ) × List α :=
  if (acc.1 a).isSome then acc else (Function.update acc.1 a (some dist), acc.2 ++ [a])

/-- The levels of a breadth-first search. -/
def bfsLoop (succ : α → List α) : ℕ → ℕ → List α → (α → Option ℕ) → α → Option ℕ
  | 0, _, _, m => m
  | fuel + 1, dist, frontier, m =>
    if frontier = [] then m
    else
      let level := (frontier.flatMap succ).foldl (markNew (dist + 1)) (m, [])
      bfsLoop succ fuel (dist + 1) level.2 level.1

/-- Fewest steps from any of `starts` to each node. -/
def bfsDist (succ : α → List α) (fuel : ℕ) (starts : List α) : α → Option ℕ :=
  bfsLoop succ fuel 0 starts fun a => if a ∈ starts then some 0 else none

/-- What the marks say once the search is over. -/
structure DistanceMap (succ : α → List α) (starts : List α) (m : α → Option ℕ) : Prop where
  zero : ∀ x, m x = some 0 ↔ x ∈ starts
  pred : ∀ x d, m x = some (d + 1) → ∃ y, m y = some d ∧ x ∈ succ y
  closed : ∀ y d, m y = some d → ∀ x ∈ succ y, ∃ d', d' ≤ d + 1 ∧ m x = some d'

/-- What the marks say between two levels: `closed` holds below the frontier. -/
structure LevelInv (succ : α → List α) (starts : List α) (dist : ℕ) (frontier : List α)
    (m : α → Option ℕ) : Prop where
  zero : ∀ x, m x = some 0 ↔ x ∈ starts
  pred : ∀ x d, m x = some (d + 1) → ∃ y, m y = some d ∧ x ∈ succ y
  closed : ∀ y d, m y = some d → d < dist → ∀ x ∈ succ y, ∃ d', d' ≤ d + 1 ∧ m x = some d'
  bound : ∀ x d, m x = some d → d ≤ dist
  front : ∀ x, x ∈ frontier ↔ m x = some dist

variable {succ : α → List α} {starts : List α}

/-- One level marks exactly the unmarked nodes among the candidates. -/
theorem foldl_markNew (dist : ℕ) (cands : List α) (m : α → Option ℕ) (out : List α) :
    (∀ x, (cands.foldl (markNew dist) (m, out)).1 x =
        if m x = none ∧ x ∈ cands then some dist else m x) ∧
      ∀ x, x ∈ (cands.foldl (markNew dist) (m, out)).2 ↔ x ∈ out ∨ (m x = none ∧ x ∈ cands) := by
  induction cands generalizing m out with
  | nil => simp
  | cons a rest ih =>
    rw [List.foldl_cons]
    by_cases ha : (m a).isSome
    · have hstep : markNew dist (m, out) a = (m, out) := by simp [markNew, ha]
      rw [hstep]
      have hne : ∀ x, m x = none → x ≠ a := by
        rintro x hx rfl
        simp [hx] at ha
      refine ⟨fun x => ?_, fun x => ?_⟩
      · rw [(ih m out).1 x]
        refine if_congr ⟨fun h => ⟨h.1, .tail _ h.2⟩, fun h => ⟨h.1, ?_⟩⟩ rfl rfl
        exact (List.mem_cons.mp h.2).resolve_left (hne x h.1)
      · rw [(ih m out).2 x]
        refine or_congr_right ⟨fun h => ⟨h.1, .tail _ h.2⟩, fun h => ⟨h.1, ?_⟩⟩
        exact (List.mem_cons.mp h.2).resolve_left (hne x h.1)
    · have hnone : m a = none := by simpa using ha
      have hstep : markNew dist (m, out) a = (Function.update m a (some dist), out ++ [a]) := by
        simp [markNew, hnone]
      rw [hstep]
      refine ⟨fun x => ?_, fun x => ?_⟩
      · rw [(ih _ _).1 x]
        by_cases hx : x = a
        · simp [hx, hnone]
        · simp [hx]
      · rw [(ih _ _).2 x]
        by_cases hx : x = a
        · simp [hx, hnone]
        · simp [hx]

/-- One level keeps the invariant. -/
theorem LevelInv.level {dist : ℕ} {frontier : List α} {m : α → Option ℕ}
    (h : LevelInv succ starts dist frontier m) :
    LevelInv succ starts (dist + 1)
      ((frontier.flatMap succ).foldl (markNew (dist + 1)) (m, [])).2
      ((frontier.flatMap succ).foldl (markNew (dist + 1)) (m, [])).1 := by
  obtain ⟨hm, hout⟩ := foldl_markNew (dist + 1) (frontier.flatMap succ) m []
  have hold : ∀ {x d}, m x = some d →
      ((frontier.flatMap succ).foldl (markNew (dist + 1)) (m, [])).1 x = some d := by
    intro x d hx
    rw [hm, if_neg (by simp [hx]), hx]
  refine ⟨fun x => ?_, fun x d hx => ?_, fun y d hy hd x hx => ?_, fun x d hx => ?_, fun x => ?_⟩
  · rw [hm, ← h.zero x]
    split_ifs with hc
    · simp [hc.1]
    · rfl
  · rw [hm] at hx
    split_ifs at hx with hc
    · obtain ⟨y, hy, hxy⟩ := List.mem_flatMap.mp hc.2
      obtain rfl : dist = d := by simpa using hx
      exact ⟨y, hold ((h.front y).mp hy), hxy⟩
    · obtain ⟨y, hy, hxy⟩ := h.pred x d hx
      exact ⟨y, hold hy, hxy⟩
  · rw [hm] at hy
    split_ifs at hy with hc
    · exact absurd hd (by simp at hy; omega)
    · rcases Nat.lt_succ_iff_lt_or_eq.mp hd with hlt | rfl
      · obtain ⟨d', hd', hx'⟩ := h.closed y d hy hlt x hx
        exact ⟨d', hd', hold hx'⟩
      · -- a successor of the frontier: marked before, or by this level
        have hcand : x ∈ frontier.flatMap succ := List.mem_flatMap.mpr ⟨y, (h.front y).mpr hy, hx⟩
        rcases hmx : m x with _ | d'
        · exact ⟨d + 1, le_rfl, by rw [hm, if_pos ⟨hmx, hcand⟩]⟩
        · exact ⟨d', (h.bound x d' hmx).trans (Nat.le_succ d), hold hmx⟩
  · rw [hm] at hx
    split_ifs at hx with hc
    · simp at hx; omega
    · have := h.bound x d hx
      omega
  · rw [hout, hm]
    simp only [List.not_mem_nil, false_or]
    split_ifs with hc
    · simp [hc]
    · simp only [hc, false_iff]
      intro hx
      have := h.bound x _ hx
      omega

omit [DecidableEq α] in
/-- With nothing left on the frontier the marks are final. -/
theorem LevelInv.distanceMap {dist : ℕ} {m : α → Option ℕ}
    (h : LevelInv succ starts dist [] m) : DistanceMap succ starts m := by
  refine ⟨h.zero, h.pred, fun y d hy => h.closed y d hy ?_⟩
  have hne : d ≠ dist := by
    rintro rfl
    exact absurd ((h.front y).mpr hy) (by simp)
  have := h.bound y d hy
  omega

/-- The loop ends with an empty frontier when every level but the last marks a node of `U`. -/
theorem LevelInv.bfsLoop {U : Finset α} (hclosed : ∀ y ∈ U, ∀ x ∈ succ y, x ∈ U) :
    ∀ {fuel dist : ℕ} {frontier : List α} {m : α → Option ℕ},
      LevelInv succ starts dist frontier m → (∀ x d, m x = some d → x ∈ U) →
      (U.filter fun x => m x = none).card < fuel →
      DistanceMap succ starts (bfsLoop succ fuel dist frontier m) := by
  intro fuel
  induction fuel with
  | zero => intro dist frontier m _ _ hf; omega
  | succ fuel ih =>
    intro dist frontier m h hU hf
    rw [Vycor.bfsLoop]
    split_ifs with hfr
    · exact (hfr ▸ h).distanceMap
    · obtain ⟨hm, hout⟩ := foldl_markNew (dist + 1) (frontier.flatMap succ) m []
      have hnext := h.level
      dsimp only
      set level := (frontier.flatMap succ).foldl (markNew (dist + 1)) (m, [])
      have hcandU : ∀ x ∈ frontier.flatMap succ, x ∈ U := by
        intro x hx
        obtain ⟨y, hy, hxy⟩ := List.mem_flatMap.mp hx
        exact hclosed y (hU y dist ((h.front y).mp hy)) x hxy
      by_cases hempty : level.2 = []
      · -- an idle level is the last one
        rw [hempty] at hnext ⊢
        have : Vycor.bfsLoop succ fuel (dist + 1) [] level.1 = level.1 := by
          cases fuel <;> simp [Vycor.bfsLoop]
        rw [this]
        exact hnext.distanceMap
      · refine ih hnext (fun x d hx => ?_) ?_
        · rw [hm] at hx
          split_ifs at hx with hc
          · exact hcandU x hc.2
          · exact hU x d hx
        · obtain ⟨a, ha⟩ := List.exists_mem_of_ne_nil _ hempty
          have hnew := (hout a).mp ha
          simp only [List.not_mem_nil, false_or] at hnew
          refine (Finset.card_lt_card (Finset.ssubset_iff_of_subset ?_ |>.mpr
            ⟨a, ?_, ?_⟩)).trans_le (Nat.lt_succ_iff.mp hf)
          · intro x hx
            rw [Finset.mem_filter, hm] at hx
            refine Finset.mem_filter.mpr ⟨hx.1, ?_⟩
            by_contra hne
            simp [hne] at hx
          · exact Finset.mem_filter.mpr ⟨hcandU a hnew.2, hnew.1⟩
          · rw [Finset.mem_filter, hm, if_pos hnew]
            simp

/-- **The marks of a breadth-first search are the distances from the starts.** -/
theorem distanceMap_bfsDist {U : Finset α} (hclosed : ∀ y ∈ U, ∀ x ∈ succ y, x ∈ U)
    (hstarts : ∀ x ∈ starts, x ∈ U) {fuel : ℕ} (hfuel : U.card < fuel) :
    DistanceMap succ starts (bfsDist succ fuel starts) := by
  have hinit : LevelInv succ starts 0 starts fun a => if a ∈ starts then some 0 else none := by
    refine ⟨fun x => by simp, fun x d hx => ?_, fun y d _ hd => absurd hd (Nat.not_lt_zero d),
      fun x d hx => ?_, fun x => by simp⟩
    · split_ifs at hx
      simp at hx
    · split_ifs at hx
      simp at hx
      omega
  refine hinit.bfsLoop hclosed (fun x d hx => ?_) ((Finset.card_filter_le _ _).trans_lt hfuel)
  split_ifs at hx with hs
  exact hstarts x hs

/-- Marks carry over to a search whose starts and steps cover those of the first, no further
from the starts. -/
theorem DistanceMap.le_of_simulates {α β : Type*} {succ : α → List α} {succ' : β → List β}
    {starts : List α} {starts' : List β} {m : α → Option ℕ} {m' : β → Option ℕ}
    (h : DistanceMap succ starts m) (h' : DistanceMap succ' starts' m') {R : α → β → Prop}
    (hstarts : ∀ {x x'}, R x x' → x ∈ starts → x' ∈ starts')
    (hsucc : ∀ {x x' y}, R x x' → x ∈ succ y → ∃ y', R y y' ∧ x' ∈ succ' y')
    {d : ℕ} {x : α} {x' : β} (hx : R x x') (hd : m x = some d) :
    ∃ d', d' ≤ d ∧ m' x' = some d' := by
  induction d generalizing x x' with
  | zero => exact ⟨0, le_rfl, (h'.zero x').mpr (hstarts hx ((h.zero x).mp hd))⟩
  | succ d ih =>
    obtain ⟨y, hy, hxy⟩ := h.pred x d hd
    obtain ⟨y', hyy', hxy'⟩ := hsucc hx hxy
    obtain ⟨e, he, hy'⟩ := ih hyy' hy
    obtain ⟨d', hd', hx'⟩ := h'.closed y' e hy' x' hxy'
    exact ⟨d', by omega, hx'⟩

/-- Searches that cover each other mark alike. -/
theorem DistanceMap.eq_of_bisimulates {α β : Type*} {succ : α → List α} {succ' : β → List β}
    {starts : List α} {starts' : List β} {m : α → Option ℕ} {m' : β → Option ℕ}
    (h : DistanceMap succ starts m) (h' : DistanceMap succ' starts' m') {R : α → β → Prop}
    (hstarts : ∀ {x x'}, R x x' → (x ∈ starts ↔ x' ∈ starts'))
    (hsucc : ∀ {x x' y}, R x x' → x ∈ succ y → ∃ y', R y y' ∧ x' ∈ succ' y')
    (hsucc' : ∀ {x x' y'}, R x x' → x' ∈ succ' y' → ∃ y, R y y' ∧ x ∈ succ y)
    {x : α} {x' : β} (hx : R x x') : m x = m' x' := by
  have hle : ∀ {d}, m x = some d → ∃ d', d' ≤ d ∧ m' x' = some d' :=
    h.le_of_simulates h' (fun hx => (hstarts hx).mp) hsucc hx
  have hle' : ∀ {d}, m' x' = some d → ∃ d', d' ≤ d ∧ m x = some d' :=
    h'.le_of_simulates h (R := fun b a => R a b) (fun hx => (hstarts hx).mpr) hsucc' hx
  rcases hm : m x with _ | d
  · rcases hm' : m' x' with _ | d'
    · rfl
    · obtain ⟨e, -, he⟩ := hle' hm'
      rw [hm] at he
      cases he
  · obtain ⟨d', hd', hm'⟩ := hle hm
    obtain ⟨e, he, hme⟩ := hle' hm'
    obtain rfl := Option.some_injective _ (hm.symm.trans hme)
    rw [hm', le_antisymm hd' he]

end Vycor
