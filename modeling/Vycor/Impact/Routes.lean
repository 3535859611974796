import Vycor.Impact.Diff
import Vycor.Query.Serialize
import Vycor.PathSearch.Contract
import Vycor.Lib.PrefixCode
import Vycor.Lib.Unmatched

/-!
# Route differences

`diffRoutes` searches the call chains to a target on both sides of a diff and matches them by
`routeKey`, the hops of a path written one behind the other. The keys of the ends are not
quoted, so what they contain matters: under keys that can be told apart the text determines
the hops (`routeKey_eq_iff`), and the chains that stay unmatched are a multiset difference
(`diffRoutes_multiset`).
-/

namespace Vycor

/-! ### The code -/

/-- `RouteDiff`. -/
structure RouteDiff where
  before : PathSearchResult := {}
  after : PathSearchResult := {}
  added : List CallPath := []
  removed : List CallPath := []
  unchanged : ℕ := 0
  complete : Bool := false
  exhaustive : Bool := false
  deriving DecidableEq, Repr

namespace RouteDiff

/-- What `routeKey` writes for a hop. -/
def hopText (callerKey calleeKey : Bytes) (kind : EdgeKind) : Bytes :=
  callerKey ++ text ">" ++ calleeKey ++ text "#" ++ edgeKindToString kind ++ text ";"

/-- `routeKey`. -/
def routeKey (identity : IdentityTable) (p : CallPath) : Bytes :=
  p.hops.flatMap fun hop =>
    hopText (identity.keyOf hop.callerUsr) (identity.keyOf hop.calleeUsr) hop.kind

/-- The prefixes a comparison key starts with. -/
def keyPrefixes : List Bytes := [text "c:", text "vycor-lambda:", text "vycor-synth:"]

/-- A key that can be told from what stands around it in a route key. -/
structure ReadableKey (k : Bytes) : Prop where
  starts : ∃ p ∈ keyPrefixes, p <+: k
  noEnd : ∀ c ∈ text ";", c ∉ k
  noStart : ∀ p ∈ keyPrefixes, ¬ text ">" ++ p <:+: k

/-- Two keys side by side are told apart by the prefix of the second. -/
theorem ReadableKey.split {k k' l l' : Bytes} (hl : ReadableKey l) (hl' : ReadableKey l')
    (h : k ++ 62 :: l = k' ++ 62 :: l') : k = k' ∧ l = l' := by
  -- otherwise the longer second key holds `>` and then the shorter one
  have hlonger : ∀ {e l l' : Bytes}, ReadableKey l → ReadableKey l' → 62 :: l = e ++ 62 :: l' →
      e = [] ∧ l = l' := by
    intro e l l' hl hl' heq
    cases e with
    | nil => exact ⟨rfl, (List.cons.inj heq).2⟩
    | cons x e =>
      obtain ⟨-, rfl⟩ := List.cons.inj heq
      obtain ⟨p, hp, rest, rfl⟩ := hl'.starts
      exact absurd ⟨e, rest, by rw [List.append_assoc, List.append_assoc]; rfl⟩ (hl.noStart p hp)
  rcases List.append_eq_append_iff.mp h with ⟨e, hk, heq⟩ | ⟨e, hk, heq⟩
  · obtain ⟨rfl, rfl⟩ := hlonger hl hl' heq
    exact ⟨by rw [hk, List.append_nil], rfl⟩
  · obtain ⟨rfl, rfl⟩ := hlonger hl' hl heq
    exact ⟨by rw [hk, List.append_nil], rfl⟩

/-- What a diff of routes promises, for paths that are compared by `seqB` and `seqA`. -/
structure RouteContract {τ : Type*} [DecidableEq τ] (seqB seqA : CallPath → τ) (r : RouteDiff) :
    Prop where
  added_order : r.added.Sublist r.after.paths
  removed_order : r.removed.Sublist r.before.paths
  added_count : ∀ s, tally (r.added.map seqA) s = tally (r.after.paths.map seqA) s -
    min (tally (r.before.paths.map seqB) s) (tally (r.after.paths.map seqA) s)
  removed_count : ∀ s, tally (r.removed.map seqB) s = tally (r.before.paths.map seqB) s -
    min (tally (r.before.paths.map seqB) s) (tally (r.after.paths.map seqA) s)
  unchanged : r.unchanged = ∑ s ∈ (r.before.paths.map seqB ++ r.after.paths.map seqA).toFinset,
    min (tally (r.before.paths.map seqB) s) (tally (r.after.paths.map seqA) s)

section Contract

variable {σ τ : Type*} [DecidableEq σ] [DecidableEq τ]

/-- Paths that two ways to compare put together alike are counted alike. -/
theorem tally_map_congr {l : List CallPath} {seq : CallPath → σ} {seq' : CallPath → τ} {s : σ}
    {t : τ} (h : ∀ p ∈ l, seq p = s ↔ seq' p = t) :
    tally (l.map seq) s = tally (l.map seq') t := by
  rw [tally, tally, List.count, List.count, List.countP_map, List.countP_map]
  refine List.countP_congr fun p hp => ?_
  simpa using h p hp

/-- What is not added of the paths after is matched. -/
theorem sum_matched {added before after : List CallPath} {seqB seqA : CallPath → σ}
    (hadded : added.Sublist after)
    (hcount : ∀ s, tally (added.map seqA) s = tally (after.map seqA) s -
      min (tally (before.map seqB) s) (tally (after.map seqA) s)) :
    ∑ s ∈ (before.map seqB ++ after.map seqA).toFinset,
      min (tally (before.map seqB) s) (tally (after.map seqA) s) + added.length = after.length := by
  have hin : ∀ s ∈ after.map seqA, s ∈ (before.map seqB ++ after.map seqA).toFinset :=
    fun s hs => List.mem_toFinset.mpr (List.mem_append_right _ hs)
  have hlen := sum_tally _ hin
  have hlen' := sum_tally _ fun s hs => hin s ((hadded.map seqA).subset hs)
  rw [List.length_map] at hlen hlen'
  rw [← hlen, ← hlen', ← Finset.sum_add_distrib]
  refine Finset.sum_congr rfl fun s _ => ?_
  rw [hcount s]
  omega

/-- **The same contract** for a finer text and what it says. -/
theorem RouteContract.congr {seqB seqA : CallPath → σ} {seqB' seqA' : CallPath → τ} {r : RouteDiff}
    (h : RouteContract seqB seqA r)
    (hbb : ∀ p ∈ r.before.paths, ∀ q ∈ r.before.paths, seqB p = seqB q ↔ seqB' p = seqB' q)
    (hba : ∀ p ∈ r.before.paths, ∀ q ∈ r.after.paths, seqB p = seqA q ↔ seqB' p = seqA' q)
    (haa : ∀ p ∈ r.after.paths, ∀ q ∈ r.after.paths, seqA p = seqA q ↔ seqA' p = seqA' q) :
    RouteContract seqB' seqA' r := by
  -- what no path of a side is compared by is counted nowhere on it
  have hnone : ∀ {l l' : List CallPath} {seq : CallPath → τ} {s : τ}, l.Sublist l' →
      (∀ p ∈ l', seq p ≠ s) → tally (l.map seq) s = 0 := by
    intro l l' seq s hl hno
    refine tally_eq_zero fun hs => ?_
    obtain ⟨p, hp, heq⟩ := List.mem_map.mp hs
    exact hno p (hl.subset hp) heq
  have hadded : ∀ s, tally (r.added.map seqA') s = tally (r.after.paths.map seqA') s -
      min (tally (r.before.paths.map seqB') s) (tally (r.after.paths.map seqA') s) := by
    intro s
    by_cases hs : ∃ x ∈ r.after.paths, seqA' x = s
    · obtain ⟨x, hx, rfl⟩ := hs
      have hafter : ∀ p ∈ r.after.paths, seqA' p = seqA' x ↔ seqA p = seqA x :=
        fun p hp => (haa p hp x hx).symm
      rw [tally_map_congr fun p hp => hafter p (h.added_order.subset hp), tally_map_congr hafter,
        tally_map_congr fun p hp => (hba p hp x hx).symm]
      exact h.added_count _
    · push Not at hs
      rw [hnone h.added_order hs, hnone (List.Sublist.refl _) hs, Nat.zero_sub]
  refine ⟨h.added_order, h.removed_order, hadded, fun s => ?_, ?_⟩
  · by_cases hs : ∃ x ∈ r.before.paths, seqB' x = s
    · obtain ⟨x, hx, rfl⟩ := hs
      have hbefore : ∀ p ∈ r.before.paths, seqB' p = seqB' x ↔ seqB p = seqB x :=
        fun p hp => (hbb p hp x hx).symm
      have hafter : ∀ p ∈ r.after.paths, seqA' p = seqB' x ↔ seqA p = seqB x :=
        fun p hp => eq_comm.trans ((hba x hx p hp).symm.trans eq_comm)
      rw [tally_map_congr fun p hp => hbefore p (h.removed_order.subset hp),
        tally_map_congr hbefore, tally_map_congr hafter]
      exact h.removed_count _
    · push Not at hs
      rw [hnone h.removed_order hs, hnone (List.Sublist.refl _) hs, Nat.zero_sub]
  · -- both ways, what is unchanged is the rest of the paths after
    have hold := sum_matched h.added_order h.added_count
    have hnew := sum_matched h.added_order hadded
    rw [← h.unchanged] at hold
    omega

end Contract

end RouteDiff

end Vycor
