import Vycor.Lib.Positions

/-!
# Tables with one entry for a key

`Keyed κ α` is a growing list of entries with an index from keys to positions. `upsert` adds
an entry under a new key and merges it into the entry that stands under a known one. A table
grown by `upsert` is `Valid`: it has one entry for a key, and the index finds it; it is
determined by its entries, and adding them to an empty table gives it back.

`upsertIn` is the same on a list without an index, and `updateAll` folds a list of entries
into a map of such lists.
-/

namespace Vycor

variable {κ α β : Type*}

/-- Entries in the order their keys first came, and the position of each key. -/
structure Keyed (κ α : Type*) where
  entries : List α := []
  index : κ → Option ℕ := fun _ => none

namespace Keyed

variable {key : α → κ} {merge : α → α → α} {t t' : Keyed κ α}

/-- The entry under a key. -/
def find (t : Keyed κ α) (k : κ) : Option α := (t.index k).bind (t.entries[·]?)

/-- The index finds the entry of a key, and nothing else. -/
def Valid (key : α → κ) (t : Keyed κ α) : Prop :=
  ∀ k i, t.index k = some i ↔ ∃ e, t.entries[i]? = some e ∧ key e = k

theorem Valid.empty : Valid key ({} : Keyed κ α) := by
  intro k i
  simp

theorem Valid.index_of_mem (h : t.Valid key) {e : α} (he : e ∈ t.entries) :
    ∃ i, t.index (key e) = some i := by
  obtain ⟨i, hi⟩ := List.mem_iff_getElem?.mp he
  exact ⟨i, (h _ _).mpr ⟨e, hi, rfl⟩⟩

theorem Valid.nodup (h : t.Valid key) : (t.entries.map key).Nodup := by
  rw [List.nodup_iff_injective_getElem]
  rintro ⟨i, hi⟩ ⟨j, hj⟩ heq
  simp only [List.length_map] at hi hj
  simp only [List.getElem_map] at heq
  have h1 := (h (key t.entries[i]) i).mpr ⟨_, List.getElem?_eq_getElem hi, rfl⟩
  have h2 := (h (key t.entries[j]) j).mpr ⟨_, List.getElem?_eq_getElem hj, rfl⟩
  rw [heq, h2] at h1
  exact Fin.ext (Option.some.inj h1).symm

/-- The entries determine the index. -/
theorem Valid.ext (h : t.Valid key) (h' : t'.Valid key) (hent : t.entries = t'.entries) :
    t = t' := by
  obtain ⟨entries, index⟩ := t
  obtain ⟨entries', index'⟩ := t'
  obtain rfl : entries = entries' := hent
  congr 1
  funext k
  exact Option.ext fun i => (h k i).trans (h' k i).symm

variable [DecidableEq κ]

/-- Add an entry; under a key the table has, merge it into the entry there. -/
def upsert (key : α → κ) (merge : α → α → α) (t : Keyed κ α) (e : α) : Keyed κ α :=
  match t.index (key e) with
  | none =>
    { entries := t.entries ++ [e]
      index := Function.update t.index (key e) (some t.entries.length) }
  | some i => { t with entries := t.entries.modify i (merge · e) }

theorem upsert_entries_of_new {e : α} (hnew : t.index (key e) = none) :
    (t.upsert key merge e).entries = t.entries ++ [e] := by
  simp only [upsert, hnew]

theorem upsert_index_of_new {e : α} (hnew : t.index (key e) = none) :
    (t.upsert key merge e).index =
      Function.update t.index (key e) (some t.entries.length) := by
  simp only [upsert, hnew]

theorem Valid.upsert_new (h : t.Valid key) {e : α} (hnew : t.index (key e) = none) :
    (t.upsert key merge e).Valid key := by
  have hfresh : ∀ e' ∈ t.entries, key e' ≠ key e := by
    intro e' he' heq
    obtain ⟨i, hi⟩ := h.index_of_mem he'
    rw [heq, hnew] at hi
    exact Option.some_ne_none i hi.symm
  intro k i
  rw [upsert_entries_of_new hnew, upsert_index_of_new hnew]
  simp only [getElem?_concat_eq_some]
  by_cases hk : k = key e
  · subst hk
    rw [Function.update_self, Option.some.injEq]
    constructor
    · rintro rfl
      exact ⟨e, .inr ⟨rfl, rfl⟩, rfl⟩
    · rintro ⟨e', he' | ⟨hi, -⟩, hkey⟩
      · exact absurd hkey (hfresh e' (List.mem_of_getElem? he'))
      · exact hi.symm
  · rw [Function.update_of_ne hk, h k i]
    constructor
    · rintro ⟨e', he', hkey⟩
      exact ⟨e', .inl he', hkey⟩
    · rintro ⟨e', he' | ⟨-, rfl⟩, hkey⟩
      · exact ⟨e', he', hkey⟩
      · exact absurd hkey.symm hk

/-- Merging must not change the key of the entry merged into. -/
theorem Valid.upsert (h : t.Valid key) (hmerge : ∀ a b, key (merge a b) = key a) (e : α) :
    (t.upsert key merge e).Valid key := by
  cases hidx : t.index (key e) with
  | none => exact h.upsert_new hidx
  | some j =>
    intro k i
    have hup : t.upsert key merge e = { t with entries := t.entries.modify j (merge · e) } := by
      simp only [Keyed.upsert, hidx]
    rw [hup, h k i]
    simp only [List.getElem?_modify]
    constructor
    · rintro ⟨a, ha, hkey⟩
      by_cases hij : j = i
      · exact ⟨merge a e, by simp [hij, ha], (hmerge a e).trans hkey⟩
      · exact ⟨a, by simp [hij, ha], hkey⟩
    · rintro ⟨a, ha, hkey⟩
      obtain ⟨b, hb, rfl⟩ := Option.map_eq_some_iff.mp ha
      refine ⟨b, hb, ?_⟩
      by_cases hij : j = i
      · rwa [if_pos hij, hmerge] at hkey
      · rwa [if_neg hij] at hkey

/-- Entries with distinct keys are added one by one. -/
theorem foldl_upsert_of_nodup {l : List α} (hl : (l.map key).Nodup) :
    (l.foldl (Keyed.upsert key merge) {}).entries = l ∧
      (l.foldl (Keyed.upsert key merge) {}).Valid key := by
  induction l using List.reverseRecOn with
  | nil => exact ⟨rfl, .empty⟩
  | append_singleton l e ih =>
    rw [List.map_append, List.nodup_append] at hl
    obtain ⟨hent, hvalid⟩ := ih hl.1
    set s := l.foldl (Keyed.upsert key merge) {} with hs
    have hnew : s.index (key e) = none := by
      rw [Option.eq_none_iff_forall_ne_some]
      intro i hi
      obtain ⟨e', he', hkey⟩ := (hvalid _ _).mp hi
      rw [hent] at he'
      exact hl.2.2 (key e') (List.mem_map_of_mem (List.mem_of_getElem? he')) (key e) (by simp) hkey
    rw [List.foldl_append, ← hs]
    exact ⟨(upsert_entries_of_new hnew).trans (by rw [hent]), hvalid.upsert_new hnew⟩

/-- A valid table is what its entries make of an empty one. -/
theorem Valid.foldl_upsert (h : t.Valid key) : t.entries.foldl (Keyed.upsert key merge) {} = t := by
  have hbuilt : (t.entries.foldl (Keyed.upsert key merge) {}).entries = t.entries ∧
      (t.entries.foldl (Keyed.upsert key merge) {}).Valid key := foldl_upsert_of_nodup h.nodup
  exact hbuilt.2.ext h hbuilt.1

end Keyed

/-! ### Lists without an index -/

/-- Merge an entry into the first one that it matches, or add it at the end. -/
def upsertIn (same : α → α → Bool) (merge : α → α → α) : List α → α → List α
  | [], e => [e]
  | a :: l, e => if same a e then merge a e :: l else a :: upsertIn same merge l e

theorem upsertIn_of_forall {same : α → α → Bool} {merge : α → α → α} {l : List α} {e : α}
    (h : ∀ a ∈ l, same a e = false) : upsertIn same merge l e = l ++ [e] := by
  induction l with
  | nil => rfl
  | cons a l ih =>
    rw [upsertIn, h a List.mem_cons_self, ih fun b hb => h b (List.mem_cons_of_mem _ hb)]
    rfl

/-- What holds of every entry and survives merging holds after an entry is added. -/
theorem forall_mem_upsertIn {same : α → α → Bool} {merge : α → α → α} {P : α → Prop}
    {l : List α} {e : α} (hl : ∀ a ∈ l, P a) (he : P e) (hmerge : ∀ a, P a → P (merge a e)) :
    ∀ a ∈ upsertIn same merge l e, P a := by
  induction l with
  | nil => simpa [upsertIn] using he
  | cons b l ih =>
    rw [List.forall_mem_cons] at hl
    rw [upsertIn]
    split
    · exact List.forall_mem_cons.mpr ⟨hmerge b hl.1, hl.2⟩
    · exact List.forall_mem_cons.mpr ⟨hl.1, ih hl.2⟩

/-- Entries that do not match each other stay so. -/
theorem pairwise_upsertIn {same : α → α → Bool} {merge : α → α → α} {l : List α} {e : α}
    (hl : l.Pairwise fun a b => same a b = false)
    (hleft : ∀ a c, same (merge a e) c = same a c) (hright : ∀ a c, same c (merge a e) = same c a) :
    (upsertIn same merge l e).Pairwise fun a b => same a b = false := by
  induction l with
  | nil => simp [upsertIn]
  | cons b l ih =>
    rw [List.pairwise_cons] at hl
    rw [upsertIn]
    split
    · exact List.pairwise_cons.mpr ⟨fun c hc => (hleft b c).trans (hl.1 c hc), hl.2⟩
    · rename_i hne
      refine List.pairwise_cons.mpr ⟨?_, ih hl.2⟩
      exact forall_mem_upsertIn hl.1 (Bool.eq_false_iff.mpr hne) fun a ha => (hright a b).trans ha

theorem foldl_upsertIn_of_pairwise {same : α → α → Bool} {merge : α → α → α} {l : List α}
    (hl : l.Pairwise fun a b => same a b = false) : l.foldl (upsertIn same merge) [] = l := by
  induction l using List.reverseRecOn with
  | nil => rfl
  | append_singleton l e ih =>
    rw [List.pairwise_append] at hl
    rw [List.foldl_append, ih hl.1]
    exact upsertIn_of_forall fun a ha => hl.2.2 a ha e (by simp)

/-! ### Maps of lists -/

variable [DecidableEq κ]

/-- Change the value of a map at the key of each entry, one entry after the other. -/
def updateAll (key : α → κ) (f : β → α → β) (m : κ → β) (l : List α) : κ → β :=
  l.foldl (fun m e => Function.update m (key e) (f (m (key e)) e)) m

/-- Entries under a key change the value there, in order. -/
theorem updateAll_apply (key : α → κ) (f : β → α → β) (m : κ → β) (l : List α) (k : κ) :
    updateAll key f m l k = (l.filter fun e => key e = k).foldl f (m k) := by
  induction l generalizing m with
  | nil => rfl
  | cons e l ih =>
    change updateAll key f (Function.update m (key e) (f (m (key e)) e)) l k = _
    rw [ih, List.filter_cons]
    by_cases hk : key e = k
    · subst hk
      simp
    · simp [hk, Function.update_of_ne (Ne.symm hk)]

/-- The entries of a map that keeps each under its key, walked in any order of the keys that
misses none: each key sees its own entries in order. -/
theorem filter_flatMap_keys {g : κ → List α} {key : α → κ} (hg : ∀ k, ∀ e ∈ g k, key e = k)
    {order : List κ} (hnodup : order.Nodup) (hall : ∀ k, g k ≠ [] → k ∈ order) (k : κ) :
    ((order.flatMap g).filter fun e => key e = k) = g k := by
  have hother : ∀ k' ≠ k, (g k').filter (fun e => key e = k) = [] := by
    intro k' hk'
    rw [List.filter_eq_nil_iff]
    intro e he
    rw [hg k' e he]
    simpa using hk'
  have hself : (g k).filter (fun e => key e = k) = g k := by
    rw [List.filter_eq_self]
    intro e he
    simpa using hg k e he
  rw [List.filter_flatMap]
  by_cases hk : k ∈ order
  · obtain ⟨before, after, rfl⟩ := List.append_of_mem hk
    rw [List.nodup_append, List.nodup_cons] at hnodup
    have hnone : ∀ l : List κ, k ∉ l → (l.flatMap fun k' => (g k').filter fun e => key e = k) = [] := by
      intro l hl
      rw [List.flatMap_eq_nil_iff]
      intro k' hk'
      exact hother k' fun heq => hl (heq ▸ hk')
    rw [List.flatMap_append, List.flatMap_cons, hself,
      hnone before fun hmem => hnodup.2.2 k hmem k (by simp) rfl, hnone after hnodup.2.1.1]
    simp
  · have hnil : g k = [] := by
      by_contra hne
      exact hk (hall k hne)
    rw [hnil, List.flatMap_eq_nil_iff]
    intro k' hk'
    exact hother k' fun heq => hk (heq ▸ hk')

/-- Folding in a whole map: the order of the keys does not show. -/
theorem updateAll_flatMap {g : κ → List α} {key : α → κ} (hg : ∀ k, ∀ e ∈ g k, key e = k)
    {order : List κ} (horder : order.Nodup ∧ ∀ k, g k ≠ [] → k ∈ order) (f : β → α → β)
    (m : κ → β) : updateAll key f m (order.flatMap g) = fun k => (g k).foldl f (m k) := by
  funext k
  rw [updateAll_apply, filter_flatMap_keys hg horder.1 horder.2]

end Vycor
