import Vycor.ControlFlow.Entries

/-!
# Removing TUs and compacting

`removeTUs` marks the contexts of the removed TUs dead and takes their positions out of
every lookup map in one pass per map; `compact` inserts the live contexts anew. What is left
are the entries of the other TUs (`Inv.removeTUs`), and compacting keeps them
(`Inv.compact`). The two differ in the usrs they leave seen.
-/

namespace Vycor

/-- The TU of a context is among the removed ones; a context without one counts as removed
when its call site starts with a removed path and a colon. -/
def CallSiteContext.removedBy (tuPaths : List Bytes) (c : CallSiteContext) : Bool :=
  if c.tuPath = [] then
    (tuPaths.map toIndexText).any fun tu => (tu ++ [58]).isPrefixOf c.callSite
  else decide (c.tuPath ∈ tuPaths.map toIndexText)

namespace ControlFlowIndex

variable {cf : ControlFlowIndex} {seen : Seen}

theorem mem_tuTexts {tuPaths : List Bytes} {t : Bytes} :
    t ∈ tuTexts tuPaths ↔ t ∈ tuPaths.map toIndexText := by
  rw [tuTexts, List.mem_dedup, List.mem_mergeSort]

/-! ### The loop over the candidates -/

/-- The usrs of a side whose entries are scrubbed. -/
def Removal.affectedUsrs : Side → Removal → List SId
  | .caller, r => r.affectedCallers
  | .callee, r => r.affectedCallees

/-- The display names of a side whose entries are scrubbed. -/
def Removal.affectedDisplays : Side → Removal → List SId
  | .caller, r => r.affectedCallerDisplays
  | .callee, r => r.affectedCalleeDisplays

/-- The names of the records that died. -/
def DeadHave (l : List StoredContext) (dead : List ℕ) (p : StoredContext → Prop) : Prop :=
  ∃ i ∈ dead, ∃ se, l[i]? = some se ∧ p se

theorem deadHave_cons {l : List StoredContext} {dead : List ℕ} {i : ℕ} {se : StoredContext}
    (hi : l[i]? = some se) {p : StoredContext → Prop} :
    DeadHave l (i :: dead) p ↔ p se ∨ DeadHave l dead p := by
  constructor
  · rintro ⟨j, hj, se', hse', hp⟩
    rcases List.mem_cons.mp hj with rfl | hj
    · rw [hi, Option.some_inj] at hse'
      exact .inl (hse' ▸ hp)
    · exact .inr ⟨j, hj, se', hse', hp⟩
  · rintro (hp | ⟨j, hj, se', hse', hp⟩)
    · exact ⟨i, .head _, se, hi, hp⟩
    · exact ⟨j, .tail _ hj, se', hse', hp⟩

/-- What the loop has done so far to the log `l`: the records in `dead` are dead, and their
names are recorded. -/
structure RemovalSpec (l : List StoredContext) (r : Removal) : Prop where
  length : r.contexts.length = l.length
  contexts : ∀ (i : ℕ) (se : StoredContext), l[i]? = some se →
    r.contexts[i]? = some { se with live := se.live && decide (i ∉ r.dead) }
  dead_live : ∀ i ∈ r.dead, ∃ se, l[i]? = some se ∧ se.live = true
  usrs : ∀ (side : Side) id,
    id ∈ r.affectedUsrs side ↔ DeadHave l r.dead fun se => side.usr se = id
  displays : ∀ (side : Side) id, id ∈ r.affectedDisplays side ↔
    DeadHave l r.dead fun se => side.display se = id ∧ side.display se ≠ side.usr se
  sites : ∀ id, id ∈ r.affectedSites ↔ DeadHave l r.dead fun se => se.site = id
  liveCount : r.liveCount = r.contexts.countP (·.live)
  removed : r.removed + r.liveCount = l.countP (·.live)

theorem RemovalSpec.start (l : List StoredContext) :
    RemovalSpec l { contexts := l, liveCount := l.countP (·.live) } where
  length := rfl
  contexts i se hi := by simp [hi]
  dead_live := by simp
  usrs side id := by cases side <;> simp [Removal.affectedUsrs, DeadHave]
  displays side id := by cases side <;> simp [Removal.affectedDisplays, DeadHave]
  sites id := by simp [DeadHave]
  liveCount := rfl
  removed := by simp

/-- One candidate. -/
theorem RemovalSpec.candidate {l : List StoredContext} {r : Removal} (h : RemovalSpec l r)
    {dies : StoredContext → Bool} (hdies : ∀ se b, dies { se with live := b } = dies se) (i : ℕ) :
    RemovalSpec l (r.candidate dies i) ∧ ∀ j, j ∈ (r.candidate dies i).dead ↔
      j ∈ r.dead ∨ (j = i ∧ ∃ se, l[i]? = some se ∧ se.live = true ∧ dies se = true) := by
  rcases hi : l[i]? with _ | se
  · have hnone : r.contexts[i]? = none := by
      rw [List.getElem?_eq_none_iff, h.length]
      exact List.getElem?_eq_none_iff.mp hi
    rw [Removal.candidate, hnone]
    exact ⟨h, by simp⟩
  · have hget := h.contexts i se hi
    rw [Removal.candidate, hget]
    dsimp only
    by_cases hlive : (se.live && decide (i ∉ r.dead)) = true
    · have hboth := hlive
      rw [Bool.and_eq_true, decide_eq_true_eq] at hboth
      by_cases hd : dies se = true
      · -- the record dies
        simp only [hlive, hdies, hd, Bool.not_true, Bool.false_eq_true, if_false]
        refine ⟨⟨by simp [h.length], fun j sj hj => ?_, fun j hj => ?_, fun side id => ?_,
          fun side id => ?_, fun id => ?_, ?_, ?_⟩, fun j => ?_⟩
        · by_cases hji : j = i
          · subst hji
            rw [hi, Option.some_inj] at hj
            subst hj
            have hlt := (List.getElem?_eq_some_iff.mp hget).1
            simp [hlt]
          · rw [List.getElem?_set_ne (Ne.symm hji), h.contexts j sj hj]
            simp [hji]
        · rcases List.mem_cons.mp hj with rfl | hj
          exacts [⟨se, hi, hboth.1⟩, h.dead_live j hj]
        · rw [deadHave_cons hi, ← h.usrs]
          cases side <;> simp [Removal.affectedUsrs, Side.usr, eq_comm]
        · rw [deadHave_cons hi, ← h.displays]
          cases side
          · by_cases hne : se.callerDisplay = se.caller
            · simp [Removal.affectedDisplays, Side.usr, Side.display, hne]
            · simp [Removal.affectedDisplays, Side.usr, Side.display, hne, eq_comm]
          · by_cases hne : se.calleeDisplay = se.callee
            · simp [Removal.affectedDisplays, Side.usr, Side.display, hne]
            · simp [Removal.affectedDisplays, Side.usr, Side.display, hne, eq_comm]
        · rw [deadHave_cons hi, ← h.sites]
          simp [eq_comm]
        · have hcount := countP_set (·.live) hget
            { se with live := false }
          simp only [hlive, if_true, Bool.false_eq_true, if_false] at hcount
          dsimp only
          rw [h.liveCount]
          omega
        · have hpos : 0 < r.liveCount := by
            rw [h.liveCount, List.countP_pos_iff]
            exact ⟨_, List.mem_of_getElem? hget, hlive⟩
          have := h.removed
          dsimp only
          omega
        · rw [List.mem_cons]
          constructor
          · rintro (rfl | hj)
            exacts [.inr ⟨rfl, se, rfl, hboth.1, hd⟩, .inl hj]
          · rintro (hj | ⟨rfl, -⟩)
            exacts [.inr hj, .inl rfl]
      · have hd' : dies se = false := by simpa using hd
        simp only [hlive, hdies, hd', Bool.not_true, Bool.not_false, Bool.false_eq_true, if_false,
          if_true]
        refine ⟨h, fun j => ⟨.inl, ?_⟩⟩
        rintro (hj | ⟨-, se', hse', -, hd⟩)
        · exact hj
        · rw [Option.some_inj] at hse'
          rw [← hse', hd'] at hd
          cases hd
    · have hlive' : (se.live && decide (i ∉ r.dead)) = false := by simpa using hlive
      simp only [hlive', Bool.not_false, if_true]
      refine ⟨h, fun j => ⟨.inl, ?_⟩⟩
      rintro (hj | ⟨rfl, se', hse', hl, -⟩)
      · exact hj
      · rw [Option.some_inj] at hse'
        subst hse'
        by_contra hj
        simp [hl, hj] at hlive'

/-- The whole loop. -/
theorem RemovalSpec.candidates {l : List StoredContext} {r : Removal} (h : RemovalSpec l r)
    {dies : StoredContext → Bool} (hdies : ∀ se b, dies { se with live := b } = dies se)
    (cs : List ℕ) :
    RemovalSpec l (cs.foldl (Removal.candidate dies) r) ∧
      ∀ j, j ∈ (cs.foldl (Removal.candidate dies) r).dead ↔ j ∈ r.dead ∨
        (j ∈ cs ∧ ∃ se, l[j]? = some se ∧ se.live = true ∧ dies se = true) := by
  induction cs generalizing r with
  | nil => exact ⟨h, by simp⟩
  | cons i cs ih =>
    obtain ⟨h1, hd1⟩ := h.candidate hdies i
    obtain ⟨h2, hd2⟩ := ih h1
    refine ⟨h2, fun j => ?_⟩
    rw [List.foldl_cons, hd2, hd1, List.mem_cons, or_assoc]
    refine or_congr_right ?_
    constructor
    · rintro (⟨rfl, hse⟩ | ⟨hj, hse⟩)
      exacts [⟨.inl rfl, hse⟩, ⟨.inr hj, hse⟩]
    · rintro ⟨rfl | hj, hse⟩
      exacts [.inl ⟨rfl, hse⟩, .inr ⟨hj, hse⟩]

/-! ### The maps after the loop -/

section Scrub

variable {l : List StoredContext} {r : Removal}

/-- The positions of the live records with a property, after the loop. -/
theorem RemovalSpec.positions (h : RemovalSpec l r) {p : StoredContext → Bool}
    (hp : ∀ se b, p { se with live := b } = p se) :
    positions (fun se => se.live && p se) r.contexts =
      (positions (fun se => se.live && p se) l).filter (· ∉ r.dead) := by
  refine positions_filter h.length fun i a b ha hb => ?_
  rw [h.contexts i a ha, Option.some_inj] at hb
  subst hb
  rw [hp]
  simp only [Bool.and_assoc, Bool.and_comm (p a)]

/-- Scrubbing the affected entries takes the dead positions out of every entry, when the
entries list records by a name and the affected names are those of the dead. -/
theorem getD_scrubEntries {p : SId → StoredContext → Bool} {ids : List SId} {dead : List ℕ}
    {m : SId → Option (List ℕ)}
    (hm : ∀ id, (m id).getD [] = Vycor.positions (fun se => se.live && p id se) l)
    (hids : ∀ id, id ∈ ids ↔ DeadHave l dead fun se => p id se = true) (id : SId) :
    (scrubEntries dead ids m id).getD [] = ((m id).getD []).filter (· ∉ dead) := by
  rw [scrubEntries]
  split_ifs with hid
  · rfl
  · rw [eq_comm, List.filter_eq_self]
    intro i hi
    rw [hm, mem_positions] at hi
    obtain ⟨se, hse, hlive⟩ := hi
    rw [Bool.and_eq_true] at hlive
    rw [decide_eq_true_eq]
    exact fun hdead => hid ((hids id).mpr ⟨i, hdead, se, hse, hlive.2⟩)

/-- Scrubbing keeps the entries there are. -/
theorem isSome_scrubEntries {ids : List SId} {dead : List ℕ} {m : SId → Option (List ℕ)}
    (hids : ∀ id ∈ ids, (m id).isSome) (id : SId) :
    (scrubEntries dead ids m id).isSome ↔ (m id).isSome := by
  rw [scrubEntries]
  split_ifs with hid
  · simp [hids id hid]
  · rfl

theorem getD_scrubSites (dead ids : List ℕ) (m : SId → Option (List ℕ)) (id : SId) :
    (scrubSites dead ids m id).getD [] = (scrubEntries dead ids m id).getD [] := by
  rw [scrubSites, scrubEntries]
  split_ifs with hid
  · rcases m id with _ | v
    · rfl
    · by_cases hv : v.filter (· ∉ dead) = []
      · simp only [hv, if_true, Option.getD_none, Option.getD_some]
      · simp only [hv, if_false, Option.getD_some]
  · rfl

end Scrub

/-- A record of a removed TU. -/
def gone (cf : ControlFlowIndex) (tuPaths : List Bytes) (se : StoredContext) : Bool :=
  match se.tuPath with
  | some tu => decide (tu ∈ (tuTexts tuPaths).filterMap cf.interner.find)
  | none => cf.fromRemovedTu (tuTexts tuPaths) se

/-- A record of a removed TU stands for a removed context. -/
theorem Inv.gone_eq (h : cf.Inv seen) (tuPaths : List Bytes) {se : StoredContext}
    (hse : se ∈ cf.contexts) : cf.gone tuPaths se = (cf.view se).removedBy tuPaths := by
  have hr := h.inRange se hse
  rw [gone, CallSiteContext.removedBy]
  rcases htu : se.tuPath with _ | tu
  · have htext : (cf.view se).tuPath = [] := by simp [view, tuText, htu]
    rw [if_pos htext]
    rw [Bool.eq_iff_iff]
    change (fromRemovedTu cf _ se = true) ↔ _
    rw [fromRemovedTu, List.any_eq_true, List.any_eq_true]
    simp only [mem_tuTexts]
    rfl
  · obtain ⟨hlt, hne⟩ := hr.tuPath tu htu
    have htext : (cf.view se).tuPath = cf.interner.resolve tu := by simp [view, tuText, htu]
    rw [htext, if_neg hne]
    simp only [decide_eq_decide, List.mem_filterMap, mem_tuTexts]
    constructor
    · rintro ⟨t, ht, hfind⟩
      rwa [StringInterner.resolve_of_find hfind]
    · exact fun ht => ⟨_, ht, StringInterner.find_resolve h.nodup hlt⟩

/-- The loop of `removeTUs` kills exactly the live records of the removed TUs. -/
theorem Inv.removal (h : cf.Inv seen) (tuPaths : List Bytes) {r : Removal}
    (hr : r = cf.noProvenance.foldl
      (Removal.candidate (cf.fromRemovedTu (tuTexts tuPaths)))
      ((((tuTexts tuPaths).filterMap cf.interner.find).flatMap cf.byTu).foldl
        (Removal.candidate fun _ => true)
        { contexts := cf.contexts, liveCount := cf.liveCount })) :
    RemovalSpec cf.contexts r ∧ ∀ i, i ∈ r.dead ↔
      ∃ se, cf.contexts[i]? = some se ∧ se.live = true ∧ cf.gone tuPaths se = true := by
  have hstart : RemovalSpec cf.contexts { contexts := cf.contexts, liveCount := cf.liveCount } :=
    h.liveCount ▸ .start cf.contexts
  obtain ⟨h1, hd1⟩ := @RemovalSpec.candidates _ _ hstart (fun _ => true) (fun _ _ => rfl)
    (((tuTexts tuPaths).filterMap cf.interner.find).flatMap cf.byTu)
  obtain ⟨h2, hd2⟩ := @RemovalSpec.candidates _ _ h1 (cf.fromRemovedTu (tuTexts tuPaths))
    (fun _ _ => rfl) cf.noProvenance
  subst hr
  refine ⟨h2, fun i => ?_⟩
  rw [hd2, hd1, h.noProvenance_pos, livePos, mem_positions]
  simp only [List.mem_flatMap, h.tu_pos, livePos, mem_positions, List.not_mem_nil, false_or,
    Bool.and_eq_true, decide_eq_true_eq]
  constructor
  · rintro (⟨⟨tu, htu, se, hse, hlive, hsetu⟩, -⟩ | ⟨⟨se, hse, hlive, hsetu⟩, se', hse', -, hd⟩)
    · exact ⟨se, hse, hlive, by simpa [gone, hsetu] using htu⟩
    · rw [hse, Option.some_inj] at hse'
      subst hse'
      exact ⟨se, hse, hlive, by simpa [gone, hsetu] using hd⟩
  · rintro ⟨se, hse, hlive, hgone⟩
    rcases htu : se.tuPath with _ | tu
    · simp only [gone, htu] at hgone
      exact .inr ⟨⟨se, hse, hlive, htu⟩, se, hse, hlive, hgone⟩
    · simp only [gone, htu, decide_eq_true_eq] at hgone
      exact .inl ⟨⟨tu, hgone, se, hse, hlive, htu⟩, se, hse, hlive, trivial⟩

/-- The log after the loop: the live records of the removed TUs are dead. -/
theorem RemovalSpec.contexts_eq {l : List StoredContext} {r : Removal} (h : RemovalSpec l r)
    {dies : StoredContext → Bool}
    (hdead : ∀ i, i ∈ r.dead ↔ ∃ se, l[i]? = some se ∧ se.live = true ∧ dies se = true) :
    r.contexts = l.map fun se => { se with live := se.live && !dies se } := by
  refine List.ext_getElem? fun i => ?_
  rw [List.getElem?_map]
  rcases hi : l[i]? with _ | se
  · rw [Option.map_none, List.getElem?_eq_none_iff, h.length]
    exact List.getElem?_eq_none_iff.mp hi
  · rw [h.contexts i se hi, Option.map_some, Option.some_inj]
    have hd : se.live = true → (i ∈ r.dead ↔ dies se = true) := by
      intro hl
      rw [hdead]
      constructor
      · rintro ⟨se', hse', -, hd⟩
        rw [hi, Option.some_inj] at hse'
        exact hse' ▸ hd
      · exact fun hd => ⟨se, hi, hl, hd⟩
    cases hl : se.live with
    | false => rfl
    | true => cases hds : dies se <;> simp [hd hl, hds]

/-- **Removing TUs filters the entries.** The usrs seen stay seen. -/
theorem Inv.removeTUs (h : cf.Inv seen) (tuPaths : List Bytes) :
    (cf.removeTUs tuPaths).1.Inv seen ∧
      (cf.removeTUs tuPaths).1.entries = cf.entries.filter (fun c => !c.removedBy tuPaths) ∧
        (cf.removeTUs tuPaths).2 = (cf.entries.filter (·.removedBy tuPaths)).length := by
  rw [ControlFlowIndex.removeTUs, if_neg h.not_mapped]
  extract_lets texts tuIds r0 r1 r
  obtain ⟨hspec, hdead⟩ := h.removal tuPaths (r := r) rfl
  clear_value r
  have hctx := hspec.contexts_eq hdead
  have hpos : ∀ p : StoredContext → Bool, (∀ se b, p { se with live := b } = p se) →
      positions (fun se => se.live && p se) r.contexts =
        (cf.livePos p).filter (· ∉ r.dead) := fun p hp => hspec.positions hp
  have hentries : (r.contexts.filter (·.live)).map cf.view =
      cf.entries.filter fun c => !c.removedBy tuPaths := by
    rw [hctx, entries, List.filter_map, List.filter_map, List.map_map, List.filter_filter]
    have hfil : cf.contexts.filter ((fun se : StoredContext => se.live) ∘ fun se =>
        { se with live := se.live && !cf.gone tuPaths se }) =
        cf.contexts.filter fun se => ((fun c => !c.removedBy tuPaths) ∘ cf.view) se && se.live := by
      refine List.filter_congr fun se hse => ?_
      simp only [Function.comp_apply, h.gone_eq tuPaths hse, Bool.and_comm]
    rw [hfil]
    rfl
  refine ⟨{ toTablesInv := { h.toTablesInv with }, inRange := ?_, seen_known := h.seen_known,
            usr_isSome := ?_, usr_pos := ?_, display_pos := ?_, site_pos := ?_, tu_pos := ?_,
            noProvenance_pos := ?_, liveCount := hspec.liveCount, resident := h.resident },
    hentries, ?_⟩
  · intro se hse
    rw [hctx] at hse
    obtain ⟨se', hse', rfl⟩ := List.mem_map.mp hse
    exact { h.inRange se' hse' with }
  · intro side id
    rw [← h.usr_isSome]
    have haff : ∀ id ∈ r.affectedUsrs side, (side.usrMap cf id).isSome := by
      intro id hid
      obtain ⟨i, hi, se, hse, husr⟩ := (hspec.usrs side id).mp hid
      have hr := h.inRange se (List.mem_of_getElem? hse)
      obtain ⟨se', hse', hlive⟩ := hspec.dead_live i hi
      rw [hse, Option.some_inj] at hse'
      subst hse'
      -- the dead record is still listed, so its entry is there
      have hmem : i ∈ (side.usrMap cf id).getD [] := by
        rw [h.usr_pos, livePos, mem_positions]
        exact ⟨se, hse, by simp [hlive, husr]⟩
      cases hm : side.usrMap cf id with
      | none => rw [hm] at hmem; cases hmem
      | some v => rfl
    cases side
    · exact isSome_scrubEntries haff id
    · exact isSome_scrubEntries haff id
  · intro side id
    rw [livePos, hpos _ (by cases side <;> exact fun _ _ => rfl), ← h.usr_pos]
    have haff : ∀ id, id ∈ r.affectedUsrs side ↔
        DeadHave cf.contexts r.dead fun se => decide (side.usr se = id) = true := by
      simpa using hspec.usrs side
    cases side
    · exact getD_scrubEntries (h.usr_pos .caller) haff id
    · exact getD_scrubEntries (h.usr_pos .callee) haff id
  · intro side id
    rw [livePos, hpos _ (by cases side <;> exact fun _ _ => rfl), ← h.display_pos]
    have haff : ∀ id, id ∈ r.affectedDisplays side ↔ DeadHave cf.contexts r.dead fun se =>
        decide (side.display se = id ∧ side.display se ≠ side.usr se) = true := by
      simpa using hspec.displays side
    cases side
    · exact getD_scrubEntries (h.display_pos .caller) haff id
    · exact getD_scrubEntries (h.display_pos .callee) haff id
  · intro id
    rw [livePos, hpos _ fun _ _ => rfl, ← h.site_pos, getD_scrubSites]
    have haff : ∀ id, id ∈ r.affectedSites ↔
        DeadHave cf.contexts r.dead fun se => decide (se.site = id) = true := by
      simpa using hspec.sites
    exact getD_scrubEntries h.site_pos haff id
  · intro id
    rw [livePos, hpos _ fun _ _ => rfl, ← h.tu_pos]
    dsimp only
    split_ifs with hid
    · -- every record of a removed TU is dead
      rw [eq_comm, List.filter_eq_nil_iff]
      intro i hi
      rw [h.tu_pos, livePos, mem_positions] at hi
      obtain ⟨se, hse, hlive⟩ := hi
      rw [Bool.and_eq_true, decide_eq_true_eq] at hlive
      rw [decide_eq_true_eq, not_not, hdead]
      exact ⟨se, hse, hlive.1, by rw [gone, hlive.2]; exact decide_eq_true hid⟩
    · rw [eq_comm, List.filter_eq_self]
      intro i hi
      rw [h.tu_pos, livePos, mem_positions] at hi
      obtain ⟨se, hse, hlive⟩ := hi
      rw [Bool.and_eq_true, decide_eq_true_eq] at hlive
      rw [decide_eq_true_eq, hdead]
      rintro ⟨se', hse', -, hgone⟩
      rw [hse, Option.some_inj] at hse'
      subst hse'
      rw [gone, hlive.2] at hgone
      exact hid (of_decide_eq_true hgone)
  · rw [livePos, hpos _ fun _ _ => rfl, ← h.noProvenance_pos]
  · have hlen : ∀ q : CallSiteContext → Bool, (cf.entries.filter q).length =
        cf.entries.countP q := fun q => List.countP_eq_length_filter.symm
    have hsplit := List.length_eq_countP_add_countP (l := cf.entries) (·.removedBy tuPaths)
    have htotal : cf.entries.length = cf.contexts.countP (·.live) := by
      rw [entries, List.length_map, List.countP_eq_length_filter]
    have hleft : cf.entries.countP (fun c => !c.removedBy tuPaths) = r.liveCount := by
      rw [hspec.liveCount, List.countP_eq_length_filter, ← hentries, List.length_map,
        List.countP_eq_length_filter]
    have hnot : cf.entries.countP (fun c => decide ¬ c.removedBy tuPaths = true) =
        cf.entries.countP (fun c => !c.removedBy tuPaths) := by
      simp
    have := hspec.removed
    dsimp only
    rw [hlen]
    omega

/-! ### Compacting -/

/-- Records in range inserted one after another. -/
theorem Inv.insertAll (h : cf.Inv seen) (l : List StoredContext)
    (hl : ∀ se ∈ l, cf.InRange se) :
    (l.foldl (fun cf se => cf.insertStored se) cf).Inv (seen.add (l.map cf.view)) ∧
      (l.foldl (fun cf se => cf.insertStored se) cf).entries = cf.entries ++ l.map cf.view ∧
        (l.foldl (fun cf se => cf.insertStored se) cf).contexts =
          cf.contexts ++ l.map fun se => { se with live := true } := by
  induction l generalizing cf seen with
  | nil => simpa [Seen.add_nil] using h
  | cons se l ih =>
    obtain ⟨hinv, hent⟩ := h.insertStored (hl se (.head _))
    obtain ⟨hinv', hent', hctx'⟩ := ih hinv fun se' hse' => { hl se' (.tail _ hse') with }
    have hview : (cf.insertStored se).view = cf.view := rfl
    rw [List.foldl_cons, List.map_cons, List.map_cons]
    refine ⟨?_, ?_, ?_⟩
    · rw [← List.singleton_append, Seen.add_append]
      exact hinv'
    · rw [hent', hent, hview, List.append_assoc, List.singleton_append]
    · have hone : (cf.insertStored se).contexts = cf.contexts ++ [{ se with live := true }] := rfl
      rw [hctx', hone, List.append_assoc, List.singleton_append]

/-- **Compacting keeps the entries** and forgets the usrs of no entry. -/
theorem Inv.compact (h : cf.Inv seen) :
    cf.compact.Inv (Seen.none.add cf.entries) ∧ cf.compact.entries = cf.entries := by
  rw [ControlFlowIndex.compact, if_neg h.not_mapped]
  have hbase : Inv { cf with contexts := [], byCallee := fun _ => none, byCaller := fun _ => none,
                             byCalleeDisplay := fun _ => none, byCallerDisplay := fun _ => none,
                             bySite := fun _ => none, byTu := fun _ => [], noProvenance := [],
                             liveCount := 0 } Seen.none :=
    { Inv.empty with
      toTablesInv := { h.toTablesInv with }
      inRange := fun se hse => by cases hse
      seen_known := fun _ _ hs => hs.elim
      usr_isSome := fun side id => by
        constructor
        · intro hs
          cases side <;> cases hs
        · rintro ⟨n, hs, -⟩
          exact hs.elim
      usr_pos := fun side id => by cases side <;> rfl
      display_pos := fun side id => by cases side <;> rfl
      resident := h.resident }
  obtain ⟨hinv, hent, hctx⟩ := hbase.insertAll (cf.contexts.filter (·.live))
    fun se hse => { h.inRange se (List.mem_of_mem_filter hse) with }
  -- the live records were counted all along
  have hcount : (cf.contexts.filter (·.live)).length = cf.liveCount := by
    rw [h.liveCount, List.countP_eq_length_filter]
  have hsame := hinv.liveCount
  rw [hctx, List.nil_append, List.countP_map] at hsame
  rw [← hsame.trans ((List.countP_eq_length.mpr fun _ _ => rfl).trans hcount)]
  exact ⟨hinv, hent⟩

end ControlFlowIndex

end Vycor
