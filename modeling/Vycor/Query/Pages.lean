import Vycor.Query.Messages

/-!
# Pages

A list tool answers with a window of its records and, where some are left behind the window,
with the offset of the next one. A client that follows these offsets sees every record once
(`follows_of_pageOf`). The members that `Page` gives a payload say which page it is
(`pageOf_window`).
-/

namespace Vycor

/-! ### A page, and the pages after it -/

/-- The payload is the page at `offset` of every list, under the list's key. -/
structure PageOf (obj : JsonObject) (offset limit : ℕ) (lists : List (Bytes × List Json)) : Prop where
  records : ∀ p ∈ lists, JsonObject.getArray obj p.1 = some ((p.2.drop offset).take limit)
  truncated : JsonObject.getBoolean obj (text "truncated") =
    some (decide (∃ p ∈ lists, offset + limit < p.2.length))
  nextOffset : JsonObject.getInteger obj (text "nextOffset") =
    if ∃ p ∈ lists, offset + limit < p.2.length then some ((offset + limit : ℕ) : ℤ) else none

/-- The pages a client gets that asks for an offset and follows `nextOffset` to the end. -/
inductive Follows (answer : ℤ → Option Json) : ℤ → List JsonObject → Prop
  | last {offset : ℤ} {obj : JsonObject} (hpage : answer offset = some (.object obj))
      (hend : JsonObject.getInteger obj (text "nextOffset") = none) : Follows answer offset [obj]
  | next {offset offset' : ℤ} {obj : JsonObject} {pages : List JsonObject}
      (hpage : answer offset = some (.object obj))
      (hnext : JsonObject.getInteger obj (text "nextOffset") = some offset')
      (hrest : Follows answer offset' pages) : Follows answer offset (obj :: pages)

/-- The records of a list that a run of pages shows. -/
def shown (key : Bytes) (pages : List JsonObject) : List Json :=
  pages.flatMap fun obj => (JsonObject.getArray obj key).getD []

/-- **Pages tile the lists**: from any offset on, the pages show the rest of every list. -/
theorem follows_of_pageOf (answer : ℤ → Option Json) {limit : ℕ} (hlimit : 0 < limit)
    {lists : List (Bytes × List Json)} {bound : ℕ} (hbound : ∀ p ∈ lists, p.2.length < bound)
    (hpages : ∀ offset : ℕ, offset < bound → ∃ obj, answer offset = some (.object obj) ∧
      PageOf obj offset limit lists) :
    ∀ offset : ℕ, offset < bound → ∃ pages, Follows answer offset pages ∧
      ∀ p ∈ lists, shown p.1 pages = p.2.drop offset := by
  -- the window moves towards the bound
  suffices h : ∀ k offset : ℕ, offset < bound → bound - offset ≤ k → ∃ pages,
      Follows answer offset pages ∧ ∀ p ∈ lists, shown p.1 pages = p.2.drop offset from
    fun offset hoffset => h (bound - offset) offset hoffset le_rfl
  intro k
  induction k with
  | zero => intro offset hoffset hk; omega
  | succ k ih =>
    intro offset hoffset hk
    obtain ⟨obj, hobj, hpage⟩ := hpages offset hoffset
    have hrecords : ∀ p ∈ lists, (JsonObject.getArray obj p.1).getD [] =
        (p.2.drop offset).take limit := fun p hp => by rw [hpage.records p hp, Option.getD_some]
    by_cases hmore : ∃ p ∈ lists, offset + limit < p.2.length
    · obtain ⟨p, hp, hlt⟩ := hmore
      have hnext := hpage.nextOffset
      rw [if_pos ⟨p, hp, hlt⟩] at hnext
      have hp' := hbound p hp
      obtain ⟨pages, hfollows, hshown⟩ := ih (offset + limit) (by omega) (by omega)
      refine ⟨obj :: pages, .next hobj hnext hfollows, fun q hq => ?_⟩
      rw [shown, List.flatMap_cons, hrecords q hq]
      change _ ++ shown q.1 pages = _
      rw [hshown q hq, ← List.drop_drop, List.take_append_drop]
    · have hend := hpage.nextOffset
      rw [if_neg hmore] at hend
      refine ⟨[obj], .last hobj hend, fun p hp => ?_⟩
      rw [shown, List.flatMap_singleton, hrecords p hp]
      refine List.take_of_length_le ?_
      have hle : ¬ offset + limit < p.2.length := fun hlt => hmore ⟨p, hp, hlt⟩
      rw [List.length_drop]
      omega

/-! ### The window of `Page` -/

namespace Page

variable (page : Page)

theorem truncated_iff (total : ℕ) :
    page.truncated total = decide (page.offset + page.limit < total) := by
  rw [truncated, last, first, decide_eq_decide]
  omega

theorem window_eq {α : Type*} (l : List α) :
    page.window l = (l.drop page.offset).take page.limit := by
  rw [window, last, first]
  rcases Nat.le_total page.offset l.length with hle | hle
  · rw [Nat.min_eq_left hle, Nat.add_sub_cancel_left, ← List.length_drop]
    exact List.take_eq_take_min.symm
  · rw [Nat.min_eq_right hle, List.drop_of_length_le hle, List.drop_of_length_le le_rfl,
      List.take_nil, List.take_nil]

theorem window_map {α β : Type*} (f : α → β) (l : List α) :
    page.window (l.map f) = (page.window l).map f := by
  rw [window_eq, window_eq, List.map_take, List.map_drop]

end Page

/-! ### Payloads -/

/-- No member of a payload has one of some names. -/
def Lacks (obj : JsonObject) (names : List Bytes) : Prop := ∀ m ∈ obj, m.1 ∉ names

theorem Lacks.get_append {obj obj' : JsonObject} {names : List Bytes} (h : Lacks obj names)
    {key : Bytes} (hkey : key ∈ names) :
    JsonObject.get (obj ++ obj') key = JsonObject.get obj' key := by
  rw [JsonObject.get, JsonObject.get, List.find?_append, List.find?_eq_none.mpr, Option.none_or]
  intro m hm hmk
  rw [decide_eq_true_eq] at hmk
  exact h m hm (hmk ▸ hkey)

theorem Lacks.get {obj : JsonObject} {names : List Bytes} (h : Lacks obj names) {key : Bytes}
    (hkey : key ∈ names) : JsonObject.get obj key = none := by
  have hget : JsonObject.get (obj ++ []) key = JsonObject.get [] key := h.get_append hkey
  rwa [List.append_nil] at hget

/-- The members that say where a window stands. -/
def windowNames : List Bytes := [text "truncated", text "nextOffset"]

/-- The lists of a window, under their names. -/
def windowArrays (page : Page) (lists : List (Bytes × List Json)) : JsonObject :=
  lists.map fun p => (p.1, .array (page.window p.2))

theorem get_windowArrays {page : Page} {lists : List (Bytes × List Json)}
    (hnodup : (lists.map Prod.fst).Nodup) {p : Bytes × List Json} (hp : p ∈ lists)
    (rest : JsonObject) :
    JsonObject.get (windowArrays page lists ++ rest) p.1 = some (.array (page.window p.2)) := by
  induction lists with
  | nil => cases hp
  | cons q lists ih =>
    rw [List.map_cons, List.nodup_cons] at hnodup
    rw [windowArrays, List.map_cons, List.cons_append, JsonObject.get, List.find?_cons]
    by_cases hq : q.1 = p.1
    · have hpq : p = q := by
        rcases List.mem_cons.mp hp with rfl | hp
        · rfl
        · exact absurd (hq ▸ List.mem_map_of_mem hp) hnodup.1
      subst hpq
      rw [decide_eq_true rfl]
      rfl
    · rw [decide_eq_false hq]
      exact ih hnodup.2 ((List.mem_cons.mp hp).resolve_left fun heq => hq (heq ▸ rfl))

/-- A payload with the members of a window and the records in it is the page. -/
theorem pageOf_window {front back : JsonObject} (page : Page) (lists : List (Bytes × List Json))
    (hfront : Lacks front (windowNames ++ lists.map Prod.fst)) (hback : Lacks back windowNames)
    (hnodup : (windowNames ++ lists.map Prod.fst).Nodup)
    (hother : ∀ p ∈ lists, p.1 ≠ text "offset" ∧ p.1 ≠ text "limit") :
    PageOf (front ++ (page.windowMembers (lists.any fun p => page.truncated p.2.length) ++
      (windowArrays page lists ++ back))) page.offset page.limit lists := by
  have hany : (lists.any fun p => page.truncated p.2.length) =
      decide (∃ p ∈ lists, page.offset + page.limit < p.2.length) := by
    rw [Bool.eq_iff_iff, List.any_eq_true, decide_eq_true_eq]
    simp only [page.truncated_iff, decide_eq_true_eq]
  rw [hany]
  obtain ⟨hnames, hlists, hdisjoint⟩ := List.nodup_append.mp hnodup
  have hin : ∀ {key}, key ∈ windowNames → key ∈ windowNames ++ lists.map Prod.fst :=
    fun h => List.mem_append_left _ h
  have hnext : text "nextOffset" ∈ windowNames := by simp [windowNames]
  refine ⟨fun p hp => ?_, ?_, ?_⟩
  · have hkey : p.1 ∈ lists.map Prod.fst := List.mem_map_of_mem hp
    have hmembers : Lacks (page.windowMembers
        (decide (∃ p ∈ lists, page.offset + page.limit < p.2.length))) [p.1] := by
      have hne : ∀ key ∈ windowNames, key ≠ p.1 := fun key hk => hdisjoint key hk p.1 hkey
      intro m hm hmk
      rw [List.mem_singleton] at hmk
      rw [Page.windowMembers, List.mem_append] at hm
      rcases hm with hm | hm
      · simp only [List.mem_cons, List.not_mem_nil, or_false] at hm
        rcases hm with rfl | rfl | rfl
        exacts [(hother p hp).1 hmk.symm, (hother p hp).2 hmk.symm,
          hne _ (by simp [windowNames]) hmk]
      · split_ifs at hm
        · rw [List.mem_singleton.mp hm] at hmk
          exact hne _ hnext hmk
        · cases hm
    rw [JsonObject.getArray, hfront.get_append (List.mem_append_right _ hkey),
      hmembers.get_append (List.mem_singleton_self _), get_windowArrays hlists hp, page.window_eq]
  · rw [JsonObject.getBoolean, hfront.get_append (hin (by simp [windowNames]))]
    simp [Page.windowMembers, JsonObject.get]
  · rw [JsonObject.getInteger, hfront.get_append (hin hnext)]
    by_cases hmore : ∃ p ∈ lists, page.offset + page.limit < p.2.length
    · rw [if_pos hmore, decide_eq_true hmore]
      simp [Page.windowMembers, JsonObject.get, Json.count, Json.integer]
    · have harrays : Lacks (windowArrays page lists) windowNames := by
        intro m hm hmk
        obtain ⟨p, hp, rfl⟩ := List.mem_map.mp hm
        exact hdisjoint _ hmk _ (List.mem_map_of_mem hp) rfl
      have hmembers : Lacks (page.windowMembers false) [text "nextOffset"] := by
        intro m hm hmk
        simp only [Page.windowMembers, List.mem_append, List.mem_cons, List.not_mem_nil, or_false,
          Bool.false_eq_true, if_false] at hm
        rcases hm with rfl | rfl | rfl <;> simp at hmk
      rw [if_neg hmore, decide_eq_false hmore, hmembers.get_append (List.mem_singleton_self _),
        harrays.get_append hnext, hback.get hnext]

/-- The names that `attachPage` gives. -/
def pageNames : List Bytes :=
  [text "total", text "returned", text "offset", text "limit", text "truncated", text "nextOffset"]

/-- The payload of a tool that pages one list. -/
theorem pageOf_one {front back : JsonObject} (page : Page) {key : Bytes} {l : List Json} {n : ℕ}
    (hn : n = l.length) (hfront : Lacks front (key :: windowNames)) (hback : Lacks back windowNames)
    (hkey : key ∉ pageNames) :
    PageOf (front ++ page.members n ++ [(key, .array (page.window l))] ++ back) page.offset
      page.limit [(key, l)] := by
  subst hn
  have hne : ∀ name ∈ pageNames, name ≠ key := fun name hname heq => hkey (heq ▸ hname)
  have hwindow : ∀ name ∈ windowNames, name ≠ key := fun name hname =>
    hne name (by simp only [windowNames, pageNames, List.mem_cons, List.not_mem_nil] at hname ⊢; tauto)
  have hcounts : Lacks (front ++ [(text "total", .count l.length),
      (text "returned", .count (page.last l.length - page.first l.length))])
      (windowNames ++ [key]) := by
    intro m hm hmk
    rcases List.mem_append.mp hm with hm | hm
    · exact hfront m hm (by simp only [List.mem_append, List.mem_cons, List.not_mem_nil, or_false] at hmk ⊢; tauto)
    · simp only [List.mem_cons, List.not_mem_nil, or_false] at hm
      rcases hm with rfl | rfl <;> rcases List.mem_append.mp hmk with hmk | hmk
      · simp [windowNames] at hmk
      · exact hne _ (by simp [pageNames]) (List.mem_singleton.mp hmk)
      · simp [windowNames] at hmk
      · exact hne _ (by simp [pageNames]) (List.mem_singleton.mp hmk)
  have hpage := pageOf_window page [(key, l)] hcounts hback
    (List.nodup_append.mpr ⟨by simp [windowNames], List.nodup_singleton _, fun name hname k hk =>
      List.mem_singleton.mp hk ▸ hwindow name hname⟩)
    fun p hp => by
      rw [List.mem_singleton.mp hp]
      exact ⟨(hne _ (by simp [pageNames])).symm, (hne _ (by simp [pageNames])).symm⟩
  simpa only [Page.members, windowArrays, List.any_cons, List.any_nil, Bool.or_false, List.map_cons,
    List.map_nil, List.append_assoc] using hpage

theorem lacks_nil (names : List Bytes) : Lacks [] names := fun _ hm => absurd hm List.not_mem_nil

/-- The payload of a tool that ends with the list it pages. -/
theorem pageOf_last {front : JsonObject} (page : Page) {key : Bytes} {l : List Json} {n : ℕ}
    (hn : n = l.length) (hfront : Lacks front (key :: windowNames)) (hkey : key ∉ pageNames) :
    PageOf (front ++ page.members n ++ [(key, .array (page.window l))]) page.offset page.limit
      [(key, l)] := by
  have hpage := pageOf_one page hn hfront (lacks_nil windowNames) hkey
  rwa [List.append_nil] at hpage

end Vycor
