import Mathlib

/-!
# Keyed tables

Hash maps from keys to vectors are modelled as total functions `κ → List α`, an absent
entry being the empty vector; maps to single values are functions `κ → Option α`. This
file collects the three updates the program performs on such a table — append to an entry
(`pushAt`), append unless present (`pushNew`), insert into an ordered set (`insertSet`) —
and the *admission* loop `admitNew`, which walks a list of keyed candidates and keeps the
first one of every key that was not seen before.

Hash maps are iterated in an order of the implementation's choosing. An iteration is
modelled by an explicit list of keys, so that results about a loop over a map are results
about every order (`List.Perm`).
-/

namespace Vycor

variable {κ α β : Type*}

section Push

variable [DecidableEq κ]

/-- `m[k].push_back(a)`. -/
def pushAt (m : κ → List α) (k : κ) (a : α) : κ → List α :=
  Function.update m k (m k ++ [a])

@[simp] theorem pushAt_self (m : κ → List α) (k : κ) (a : α) : pushAt m k a k = m k ++ [a] := by
  simp [pushAt]

theorem pushAt_of_ne (m : κ → List α) {k k' : κ} (a : α) (h : k' ≠ k) :
    pushAt m k a k' = m k' := by
  simp [pushAt, h]

theorem mem_pushAt {m : κ → List α} {k k' : κ} {a b : α} :
    b ∈ pushAt m k a k' ↔ b ∈ m k' ∨ (k' = k ∧ b = a) := by
  by_cases h : k' = k
  · subst h; simp
  · simp [pushAt_of_ne, h]

theorem count_pushAt [DecidableEq α] (m : κ → List α) (k k' : κ) (a b : α) :
    (pushAt m k a k').count b = (m k').count b + if k' = k ∧ b = a then 1 else 0 := by
  by_cases h : k' = k
  · subst h
    by_cases hb : b = a
    · subst hb; simp
    · simp [hb, Ne.symm hb]
  · simp [pushAt_of_ne, h]

theorem countP_pushAt (p : α → Bool) (m : κ → List α) (k k' : κ) (a : α) :
    (pushAt m k a k').countP p = (m k').countP p + if k' = k ∧ p a then 1 else 0 := by
  by_cases h : k' = k
  · subst h; simp [List.countP_cons]
  · simp [pushAt_of_ne, h]

theorem nodup_pushAt {m : κ → List α} {k k' : κ} {a : α} (h : (m k').Nodup) (ha : a ∉ m k) :
    (pushAt m k a k').Nodup := by
  by_cases hk : k' = k
  · subst hk
    rw [pushAt_self, List.nodup_append]
    exact ⟨h, by simp, fun x hx y hy => by
      rw [List.mem_singleton] at hy
      subst hy
      exact fun hxy => ha (hxy ▸ hx)⟩
  · rwa [pushAt_of_ne m a hk]

/-- Append unless present: the `std::find` guard before a `push_back`. -/
def pushNew [DecidableEq α] (m : κ → List α) (k : κ) (a : α) : κ → List α :=
  if a ∈ m k then m else pushAt m k a

variable [DecidableEq α]

theorem mem_pushNew {m : κ → List α} {k k' : κ} {a b : α} :
    b ∈ pushNew m k a k' ↔ b ∈ m k' ∨ (k' = k ∧ b = a) := by
  unfold pushNew
  split_ifs with h
  · constructor
    · exact Or.inl
    · rintro (hb | ⟨rfl, rfl⟩)
      exacts [hb, h]
  · exact mem_pushAt

theorem nodup_pushNew {m : κ → List α} {k k' : κ} {a : α} (h : (m k').Nodup) :
    (pushNew m k a k').Nodup := by
  unfold pushNew
  split_ifs with ha
  · exact h
  · exact nodup_pushAt h ha

end Push

section Sets

/-- `std::set<Id>::insert`: the ascending list with the element put in its place. -/
def insertSet (a : ℕ) (l : List ℕ) : List ℕ :=
  if a ∈ l then l else l.orderedInsert (· ≤ ·) a

@[simp] theorem mem_insertSet {a b : ℕ} {l : List ℕ} : b ∈ insertSet a l ↔ b = a ∨ b ∈ l := by
  unfold insertSet
  split_ifs with h
  · constructor
    · exact Or.inr
    · rintro (rfl | hb)
      exacts [h, hb]
  · exact List.mem_orderedInsert _

theorem nodup_insertSet {a : ℕ} {l : List ℕ} (h : l.Nodup) : (insertSet a l).Nodup := by
  unfold insertSet
  split_ifs with ha
  · exact h
  · exact (List.perm_orderedInsert _ a l).nodup_iff.mpr (List.nodup_cons.mpr ⟨ha, h⟩)

variable [DecidableEq κ]

/-- `m[k].insert(a)` on a map to ordered sets. -/
def insertAt (m : κ → List ℕ) (k : κ) (a : ℕ) : κ → List ℕ :=
  Function.update m k (insertSet a (m k))

theorem mem_insertAt {m : κ → List ℕ} {k k' : κ} {a b : ℕ} :
    b ∈ insertAt m k a k' ↔ b ∈ m k' ∨ (k' = k ∧ b = a) := by
  by_cases h : k' = k
  · subst h; simp [insertAt, or_comm]
  · simp [insertAt, h]

theorem nodup_insertAt {m : κ → List ℕ} {k k' : κ} {a : ℕ} (h : (m k').Nodup) :
    (insertAt m k a k').Nodup := by
  by_cases hk : k' = k
  · subst hk; simpa [insertAt] using nodup_insertSet h
  · simpa [insertAt, hk] using h

end Sets

section Logs

/-- Changing one entry of a log changes a sum by that entry alone. -/
theorem sum_map_modify (f : α → α) (w : α → ℕ) {l : List α} {i : ℕ} {a : α}
    (h : l[i]? = some a) :
    ((l.modify i f).map w).sum + w a = (l.map w).sum + w (f a) := by
  induction l generalizing i with
  | nil => simp at h
  | cons b rest ih =>
    cases i with
    | zero =>
      obtain rfl : b = a := by simpa using h
      simp only [List.modify_zero_cons, List.map_cons, List.sum_cons]
      omega
    | succ i =>
      have := ih (i := i) (by simpa using h)
      simp only [List.modify_succ_cons, List.map_cons, List.sum_cons]
      omega

/-- A sum with one term other than zero. -/
theorem sum_map_single (w : α → ℕ) {l : List α} {k : ℕ} {a : α} (hk : l[k]? = some a)
    (hz : ∀ i b, l[i]? = some b → i ≠ k → w b = 0) : (l.map w).sum = w a := by
  induction l generalizing k with
  | nil => simp at hk
  | cons b rest ih =>
    rw [List.map_cons, List.sum_cons]
    cases k with
    | zero =>
      obtain rfl : b = a := by simpa using hk
      rw [List.sum_eq_zero, Nat.add_zero]
      intro x hx
      obtain ⟨c, hc, rfl⟩ := List.mem_map.mp hx
      obtain ⟨i, hi⟩ := List.mem_iff_getElem?.mp hc
      exact hz (i + 1) c (by simpa using hi) (by omega)
    | succ k =>
      rw [hz 0 b rfl (by omega), Nat.zero_add]
      exact ih (by simpa using hk) fun i c hc hi => hz (i + 1) c (by simpa using hc) (by omega)

theorem countP_eq_sum_map (p : α → Bool) (l : List α) :
    l.countP p = (l.map fun a => if p a then 1 else 0).sum := by
  induction l with
  | nil => rfl
  | cons a rest ih => rw [List.countP_cons, List.map_cons, List.sum_cons, ih, Nat.add_comm]

/-- Changing one entry of a log changes a count by that entry alone. -/
theorem countP_modify (f : α → α) (p : α → Bool) {l : List α} {i : ℕ} {a : α}
    (h : l[i]? = some a) :
    (l.modify i f).countP p + (if p a then 1 else 0) = l.countP p + if p (f a) then 1 else 0 := by
  simp only [countP_eq_sum_map]
  exact sum_map_modify f (fun a => if p a then 1 else 0) h

/-- Filtering a sum of repeated elements. -/
theorem filter_sum_replicate {ι : Type*} [DecidableEq ι] (p : α → Prop) [DecidablePred p]
    (s : Finset ι) (n : ι → ℕ) (a : ι → α) :
    (∑ i ∈ s, Multiset.replicate (n i) (a i)).filter p =
      ∑ i ∈ s, Multiset.replicate (if p (a i) then n i else 0) (a i) := by
  induction s using Finset.induction_on with
  | empty => simp
  | insert i s hi ih =>
    rw [Finset.sum_insert hi, Finset.sum_insert hi, Multiset.filter_add, ih]
    congr 1
    split_ifs with hp
    · exact Multiset.filter_eq_self.mpr fun b hb => Multiset.eq_of_mem_replicate hb ▸ hp
    · exact Multiset.filter_eq_nil.mpr fun b hb => Multiset.eq_of_mem_replicate hb ▸ hp

end Logs

section Folds

/-- A fold whose steps act on an abstraction by a closed formula acts on it by the fold of
the formula, and keeps what every step keeps. -/
theorem foldl_simulates {σ τ ξ : Type*} (abs : σ → τ) (I : σ → Prop) {f : σ → ξ → σ}
    {u : τ → ξ → τ} {l : List ξ} (h : ∀ s, I s → ∀ x ∈ l, I (f s x) ∧ abs (f s x) = u (abs s) x)
    {s : σ} (hs : I s) : I (l.foldl f s) ∧ abs (l.foldl f s) = l.foldl u (abs s) := by
  induction l generalizing s with
  | nil => exact ⟨hs, rfl⟩
  | cons x rest ih =>
    obtain ⟨h1, h2⟩ := h s hs x List.mem_cons_self
    obtain ⟨h3, h4⟩ := ih (fun s hs y hy => h s hs y (List.mem_cons_of_mem _ hy)) h1
    exact ⟨h3, by rw [List.foldl_cons, h4, h2, List.foldl_cons]⟩

end Folds

section Admit

variable [DecidableEq κ]

/-- Walk a list of keyed candidates with a seen-set: a candidate whose key is new is kept
and its key is marked, the others are dropped. Returns the final seen-set and what was
kept, in order. -/
def admitNew : List κ → List (κ × α) → List κ × List α
  | seen, [] => (seen, [])
  | seen, (k, a) :: rest =>
    if k ∈ seen then admitNew seen rest
    else ((admitNew (k :: seen) rest).1, a :: (admitNew (k :: seen) rest).2)

theorem mem_admitNew_fst {seen : List κ} {l : List (κ × α)} {k : κ} :
    k ∈ (admitNew seen l).1 ↔ k ∈ seen ∨ k ∈ l.map Prod.fst := by
  induction l generalizing seen with
  | nil => simp [admitNew]
  | cons c rest ih =>
    obtain ⟨k', a⟩ := c
    unfold admitNew
    split_ifs with h
    · rw [ih]
      constructor
      · rintro (hs | hr)
        exacts [.inl hs, .inr (List.mem_cons_of_mem _ hr)]
      · rintro (hs | hr)
        · exact .inl hs
        · rcases List.mem_cons.mp hr with rfl | hr
          exacts [.inl h, .inr hr]
    · simp only [ih, List.mem_cons, List.map_cons]
      tauto

/-- A candidate is kept exactly when its key was not seen before the walk and it is the
first candidate with that key. -/
theorem mem_admitNew_snd {seen : List κ} {l : List (κ × α)} {a : α} :
    a ∈ (admitNew seen l).2 ↔
      ∃ k, k ∉ seen ∧ l.find? (fun c => c.1 = k) = some (k, a) := by
  induction l generalizing seen with
  | nil => simp [admitNew]
  | cons c rest ih =>
    obtain ⟨k', b⟩ := c
    unfold admitNew
    split_ifs with h
    · rw [ih]
      constructor
      · rintro ⟨k, hk, hf⟩
        have hne : k' ≠ k := fun he => hk (he ▸ h)
        exact ⟨k, hk, by simpa [List.find?_cons, hne] using hf⟩
      · rintro ⟨k, hk, hf⟩
        have hne : k' ≠ k := fun he => hk (he ▸ h)
        exact ⟨k, hk, by simpa [List.find?_cons, hne] using hf⟩
    · rw [List.mem_cons, ih]
      constructor
      · rintro (rfl | ⟨k, hk, hf⟩)
        · exact ⟨k', h, by simp⟩
        · rw [List.mem_cons, not_or] at hk
          exact ⟨k, hk.2, by simpa [List.find?_cons, Ne.symm hk.1] using hf⟩
      · rintro ⟨k, hk, hf⟩
        by_cases he : k' = k
        · subst he
          simp at hf
          exact .inl hf.symm
        · refine .inr ⟨k, ?_, by simpa [List.find?_cons, he] using hf⟩
          simp [hk, Ne.symm he]

/-- The values kept have distinct keys, none of them seen before. -/
theorem nodup_admitNew (key : α → κ) (seen : List κ) (l : List (κ × α))
    (hkey : ∀ c ∈ l, key c.2 = c.1) :
    ((admitNew seen l).2.map key).Nodup ∧ ∀ a ∈ (admitNew seen l).2, key a ∉ seen := by
  induction l generalizing seen with
  | nil => simp [admitNew]
  | cons c rest ih =>
    obtain ⟨k, a⟩ := c
    have hka : key a = k := hkey (k, a) (.head _)
    have hrest : ∀ c ∈ rest, key c.2 = c.1 := fun c hc => hkey c (.tail _ hc)
    unfold admitNew
    split_ifs with hk
    · exact ih seen hrest
    · obtain ⟨hnd, hseen⟩ := ih (k :: seen) hrest
      refine ⟨?_, fun b hb => ?_⟩
      · rw [List.map_cons, List.nodup_cons]
        refine ⟨fun hmem => ?_, hnd⟩
        obtain ⟨b, hb, hba⟩ := List.mem_map.mp hmem
        exact hseen b hb (by simp [hba, hka])
      · rcases List.mem_cons.mp hb with rfl | hb
        · exact hka ▸ hk
        · exact fun hmem => hseen b hb (.tail _ hmem)

end Admit

/-! ### Reading a whole list -/

section Read

theorem mapM_eq_some_iff_forall₂ {f : α → Option β} {l : List α} {l' : List β} :
    l.mapM f = some l' ↔ List.Forall₂ (fun a b => f a = some b) l l' := by
  induction l generalizing l' with
  | nil =>
    rw [List.mapM_nil, List.forall₂_nil_left_iff]
    exact ⟨fun h => (Option.some_injective _ h).symm, fun h => by rw [h]; rfl⟩
  | cons a l ih =>
    rw [List.mapM_cons, List.forall₂_cons_left_iff]
    constructor
    · intro h
      obtain ⟨b, hb, h⟩ := Option.bind_eq_some_iff.mp h
      obtain ⟨bs, hbs, h⟩ := Option.bind_eq_some_iff.mp h
      exact ⟨b, bs, hb, ih.mp hbs, (Option.some_injective _ h).symm⟩
    · rintro ⟨b, bs, hb, hbs, rfl⟩
      rw [hb, ih.mpr hbs]
      rfl

theorem exists_mapM_eq_some {f : α → Option β} {l : List α}
    (h : ∀ a ∈ l, ∃ b, f a = some b) : ∃ l', l.mapM f = some l' := by
  induction l with
  | nil => exact ⟨[], rfl⟩
  | cons a l ih =>
    obtain ⟨b, hb⟩ := h a (.head _)
    obtain ⟨bs, hbs⟩ := ih fun a' ha' => h a' (.tail _ ha')
    refine ⟨b :: bs, ?_⟩
    rw [List.mapM_cons, hb, hbs]
    rfl

/-- What was read for an item of the list. -/
theorem getElem?_of_mapM_eq_some {f : α → Option β} {l : List α} {l' : List β}
    (h : l.mapM f = some l') {i : ℕ} {a : α} (hi : l[i]? = some a) :
    ∃ b, f a = some b ∧ l'[i]? = some b := by
  rw [mapM_eq_some_iff_forall₂] at h
  induction h generalizing i with
  | nil => cases hi
  | cons hab hrest ih =>
    cases i with
    | zero =>
      obtain rfl := Option.some_inj.mp hi
      exact ⟨_, hab, rfl⟩
    | succ i => exact ih hi

end Read

end Vycor
