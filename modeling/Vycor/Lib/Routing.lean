import Vycor.Lib.Tables

/-!
# Items routed to owners

A list is dealt out to owners: each item goes to the end of the list of its owner, in a form
that may depend on the place it gets there. What the owners hold together are the items of the
list, each once, up to what the place changes in them (`perm_flatMap_routeBy`).
-/

namespace Vycor

variable {ι α β γ : Type*} [DecidableEq ι]

/-- The lists of the owners. -/
def routeBy (owner : α → ι) (place : ℕ → α → β) (l : List α) : ι → List β :=
  l.foldl (fun lists a => pushAt lists (owner a) (place (lists (owner a)).length a)) fun _ => []

variable (owner : α → ι) (place : ℕ → α → β) (l : List α)

/-- An owner has its items, in their order, each at its place. -/
theorem routeBy_apply (i : ι) :
    routeBy owner place l i = (l.filter fun a => owner a = i).mapIdx place := by
  rw [routeBy]
  induction l using List.reverseRecOn with
  | nil => rfl
  | append_singleton l a ih =>
    rw [List.foldl_append, List.foldl_cons, List.foldl_nil, List.filter_append, pushAt]
    by_cases hi : owner a = i
    · subst hi
      rw [Function.update_self, ih, List.filter_cons_of_pos (by simp), List.filter_nil,
        List.mapIdx_concat, List.length_mapIdx]
    · rw [Function.update_of_ne (Ne.symm hi), ih, List.filter_cons_of_neg (by simpa using hi),
        List.filter_nil, List.append_nil]

theorem routeBy_eq_nil {i : ι} (h : ∀ a ∈ l, owner a ≠ i) : routeBy owner place l i = [] := by
  rw [routeBy_apply, List.filter_eq_nil_iff.mpr fun a ha => by simpa using h a ha, List.mapIdx_nil]

/-- Dealing a list out to owners keeps every item once. -/
theorem perm_flatMap_filter {keys : List ι} (hkeys : keys.Nodup) (howner : ∀ a ∈ l, owner a ∈ keys) :
    (keys.flatMap fun i => l.filter fun a => owner a = i).Perm l := by
  induction l with
  | nil => simp
  | cons a l ih =>
    have hl := ih fun b hb => howner b (.tail a hb)
    obtain ⟨front, back, rfl⟩ := List.append_of_mem (howner a List.mem_cons_self)
    -- the item stands in front of the list of its owner, and in no other
    have hother : ∀ keys' : List ι, owner a ∉ keys' →
        (keys'.flatMap fun i => (a :: l).filter fun b => owner b = i) =
          keys'.flatMap fun i => l.filter fun b => owner b = i := by
      intro keys' hmem
      refine List.flatMap_congr fun i hi => ?_
      exact List.filter_cons_of_neg (by simpa using fun h : owner a = i => hmem (h ▸ hi))
    rw [List.nodup_append, List.nodup_cons] at hkeys
    obtain ⟨-, ⟨hback, -⟩, hdisjoint⟩ := hkeys
    have hfront : owner a ∉ front := fun h => hdisjoint _ h _ List.mem_cons_self rfl
    rw [List.flatMap_append, List.flatMap_cons] at hl ⊢
    rw [hother front hfront, hother back hback, List.filter_cons_of_pos (by simp)]
    exact (List.perm_middle.trans (hl.cons a))

/-- The owners hold the items of the list, each once. -/
theorem perm_flatMap_routeBy {keys : List ι} (hkeys : keys.Nodup)
    (howner : ∀ a ∈ l, owner a ∈ keys) {f : β → γ} {h : α → γ} (hplace : ∀ n a, f (place n a) = h a) :
    ((keys.flatMap (routeBy owner place l)).map f).Perm (l.map h) := by
  have hlists : (keys.flatMap (routeBy owner place l)).map f =
      (keys.flatMap fun i => l.filter fun a => owner a = i).map h := by
    rw [List.map_flatMap, List.map_flatMap]
    refine List.flatMap_congr fun i _ => ?_
    rw [routeBy_apply]
    refine List.ext_getElem (by simp) fun n hn hn' => ?_
    rw [List.getElem_map, List.getElem_mapIdx, List.getElem_map, hplace]
  rw [hlists]
  exact (perm_flatMap_filter owner l hkeys howner).map h

end Vycor
