import Vycor.Channels.Runs

/-!
# What a channel index answers

A query looks positions up under a name and reads the sites there. On an index that any run of
operations has built it answers what a scan of the live sites gives, in their order
(`Built.answers`), so neither compacting nor a restart changes an answer.
-/

namespace Vycor

namespace ChannelIndex

variable {ll : Llvm} {ch ch' shard : ChannelIndex} {regs regs' : List SiteRegistration}

/-! ### The keys of the map of channels -/

/-- The map of channels has each of its keys once. -/
structure KeysListed (ch : ChannelIndex) : Prop where
  nodup : ch.channelKeys.Nodup
  listed : ∀ id, ch.byChannel id ≠ [] → id ∈ ch.channelKeys

theorem KeysListed.empty : KeysListed {} := ⟨List.nodup_nil, fun _ h => absurd rfl h⟩

/-- A position is listed under a channel, whose key is added if it is new. -/
theorem KeysListed.push (h : ch.KeysListed) {id : Bytes} {idx : ℕ}
    (hmap : ch'.byChannel = pushAt ch.byChannel id idx)
    (hkeys : ch'.channelKeys = if id ∈ ch.channelKeys then ch.channelKeys else ch.channelKeys ++ [id]) :
    ch'.KeysListed := by
  refine ⟨?_, fun name hname => ?_⟩
  · rw [hkeys]
    split_ifs with hmem
    · exact h.nodup
    · rw [← List.concat_eq_append]
      exact h.nodup.concat hmem
  · rw [hkeys]
    by_cases hid : name = id
    · subst hid
      split_ifs with hmem
      · exact hmem
      · exact List.mem_append_right _ (List.mem_singleton.mpr rfl)
    · rw [hmap, pushAt_of_ne _ _ hid] at hname
      have hold := h.listed name hname
      split_ifs
      · exact hold
      · exact List.mem_append_left _ hold

theorem KeysListed.of_eq (h : ch.KeysListed) (hmap : ch'.byChannel = ch.byChannel)
    (hkeys : ch'.channelKeys = ch.channelKeys) : ch'.KeysListed := by
  refine ⟨hkeys ▸ h.nodup, ?_⟩
  rw [hmap, hkeys]
  exact h.listed

theorem KeysListed.recordTu (h : ch.KeysListed) (tuPath : Bytes) (count idx : ℕ) :
    (ch.recordTu tuPath count idx).KeysListed := by
  rw [ChannelIndex.recordTu]
  split_ifs
  · exact h
  · exact h.of_eq rfl rfl

theorem KeysListed.addSiteRefs (h : ch.KeysListed) (site : ChannelSite) (count : ℕ) :
    (ch.addSiteRefs site count).KeysListed := by
  rw [ChannelIndex.addSiteRefs]
  by_cases hcount : count = 0
  · rw [if_pos hcount]
    exact h
  · rw [if_neg hcount]
    cases ch.index site.key with
    | some idx =>
      have hsame : ({ ch with
          sites := ch.sites.modify idx fun s => s.again site.tuPath count } :
          ChannelIndex).KeysListed := h.of_eq rfl rfl
      exact hsame.recordTu _ _ _
    | none => exact (h.push rfl rfl).recordTu _ _ _

theorem KeysListed.replay (site : ChannelSite) (refs : ℕ) (tus : List Bytes) (replayed : ℕ)
    (h : ch.KeysListed) : (ChannelIndex.replay site refs tus replayed ch).1.KeysListed := by
  fun_induction ChannelIndex.replay site refs tus replayed ch with
  | case1 => exact h
  | case2 _ _ _ _ _ _ ih => exact ih (h.addSiteRefs _ _)
  | case3 => exact h

theorem KeysListed.absorb (h : ch.KeysListed) (shard : ChannelIndex) (tuOrder : List Bytes) :
    (ch.absorb shard tuOrder).KeysListed := by
  have hsite (ch : ChannelIndex) (stored : StoredSite) (tus : List Bytes) (h : ch.KeysListed) :
      (ch.absorbSite stored tus).KeysListed := (h.replay _ _ _ _).addSiteRefs _ _
  rw [ChannelIndex.absorb]
  generalize shard.sites.zipIdx.filter _ = sites
  induction sites generalizing ch with
  | nil => exact h
  | cons p rest ih => exact ih (hsite _ _ _ h)

theorem KeysListed.compact (h : ch.KeysListed) : ch.compact.KeysListed := by
  refine ⟨h.nodup.filter _, fun id hid => List.mem_filter.mpr ⟨h.listed id fun hnil => hid ?_, ?_⟩⟩
  · change ch.remap ch.byChannel id = []
    rw [remap, hnil]
    rfl
  · exact decide_eq_true hid

/-- The loops over the TUs leave the map of channels alone. -/
theorem byChannel_releaseTu (tuPaths : List Bytes) (r : SiteRemoval) :
    (tuPaths.foldl SiteRemoval.releaseTu r).ch.byChannel = r.ch.byChannel ∧
      (tuPaths.foldl SiteRemoval.releaseTu r).ch.channelKeys = r.ch.channelKeys := by
  have hrelease (tu : Bytes) (r : SiteRemoval) (idx : ℕ) :
      (r.release tu idx).ch.byChannel = r.ch.byChannel ∧
        (r.release tu idx).ch.channelKeys = r.ch.channelKeys := by
    rw [SiteRemoval.release]
    cases r.ch.sites[idx]? with
    | none => exact ⟨rfl, rfl⟩
    | some se =>
      dsimp only
      by_cases hzero : se.refs = 0
      · rw [if_pos hzero]
        exact ⟨rfl, rfl⟩
      · rw [if_neg hzero]
        by_cases hpos : 0 < se.refs - 1
        · rw [if_pos hpos]
          exact ⟨rfl, rfl⟩
        · rw [if_neg hpos]
          exact ⟨rfl, rfl⟩
  have hfold (tu : Bytes) (idxs : List ℕ) (r : SiteRemoval) :
      (idxs.foldl (SiteRemoval.release tu) r).ch.byChannel = r.ch.byChannel ∧
        (idxs.foldl (SiteRemoval.release tu) r).ch.channelKeys = r.ch.channelKeys := by
    induction idxs generalizing r with
    | nil => exact ⟨rfl, rfl⟩
    | cons idx rest ih =>
      rw [List.foldl_cons, (ih _).1, (ih _).2]
      exact hrelease tu r idx
  induction tuPaths generalizing r with
  | nil => exact ⟨rfl, rfl⟩
  | cons tu rest ih =>
    rw [List.foldl_cons, (ih _).1, (ih _).2]
    exact hfold (toIndexText tu) _ r

theorem KeysListed.removeTUs (h : ch.KeysListed) (order tuPaths : List Bytes) :
    (ch.removeTUs order tuPaths).1.KeysListed := by
  set r := tuPaths.foldl SiteRemoval.releaseTu { ch := ch } with hr
  obtain ⟨hmap, hkeys⟩ := byChannel_releaseTu tuPaths { ch := ch }
  rw [← hr] at hmap hkeys
  have hleft : (ch.removeTUs order tuPaths).1.channelKeys = r.ch.channelKeys.filter fun c =>
      ¬ (c ∈ r.affectedChannels ∧ r.scrub r.affectedChannels r.ch.byChannel c = []) := rfl
  refine ⟨?_, fun id hid => ?_⟩
  · rw [hleft, hkeys]
    exact h.nodup.filter _
  · change r.scrub r.affectedChannels r.ch.byChannel id ≠ [] at hid
    rw [hleft, List.mem_filter, hkeys]
    refine ⟨h.listed id fun hnil => hid ?_, decide_eq_true fun hgone => hid hgone.2⟩
    rw [SiteRemoval.scrub, hmap]
    change ch.byChannel id = [] at hnil
    rw [hnil]
    exact ite_self _

theorem KeysListed.loadSite (h : ch.KeysListed) (r : ChannelRecord) : (ch.loadSite r).KeysListed :=
  h.push rfl rfl

theorem keysListed_of_loadChannels {bytes : Bytes} (hload : loadChannels ll bytes = some ch) :
    ch.KeysListed := by
  obtain ⟨records, -, rfl⟩ := Option.map_eq_some_iff.mp hload
  have hfold (records : List ChannelRecord) {ch : ChannelIndex} (h : ch.KeysListed) :
      (records.foldl ChannelIndex.loadSite ch).KeysListed := by
    induction records generalizing ch with
    | nil => exact h
    | cons r rest ih => exact ih (h.loadSite r)
  exact hfold records .empty

theorem Built.keysListed (h : Built ll ch regs) : ch.KeysListed := by
  induction h with
  | empty => exact .empty
  | addSite _ site ih => exact ih.addSiteRefs _ _
  | absorb _ _ _ ih _ => exact ih.absorb _ _
  | removeTUs _ order tuPaths _ ih => exact ih.removeTUs order tuPaths
  | compact _ ih => exact ih.compact
  | load _ _ _ hload _ => exact keysListed_of_loadChannels hload

/-! ### Queries -/

/-- What a query reads under a name is what a scan of the live sites finds. -/
theorem Inv.sitesAt_lists (h : ch.Inv regs) (m : SiteMap) (name : Bytes) :
    ch.sitesAt (SiteMap.lists ch m name) = ch.allSites.filter (SiteMap.holds name · m) := by
  rw [h.listed, sitesAt, filterMap_positions, allSites, List.filter_map, List.filter_filter,
    List.filter_filter]
  congr 1
  refine List.filter_congr fun s _ => ?_
  rw [← Bool.and_assoc, Bool.and_self, Bool.and_comm]
  rfl

/-- The answers of an index with a ledger, by scans of the live sites. -/
structure Answers (ch : ChannelIndex) (ll : Llvm) (regs : List SiteRegistration) : Prop where
  once : (ch.allSites.map ChannelSite.key).Nodup
  registered : ∀ key, (∃ s ∈ ch.allSites, s.key = key) ↔ ∃ tu, (key, tu) ∈ regs
  producersOf : ∀ id, ch.producersOf ll id =
    ch.allSites.filter fun s => s.channelId = lookupText ll id ∧ s.op = .produce
  consumersOf : ∀ id, ch.consumersOf ll id =
    ch.allSites.filter fun s => s.channelId = lookupText ll id ∧ s.op = .consume
  sitesForFunction : ∀ name, (ch.sitesForFunction ll name).Perm (ch.allSites.filter fun s =>
    s.siteFunctionUsr = lookupText ll name ∨ s.siteFunctionDisplay = lookupText ll name)
  channelIds : ch.allChannelIds.Nodup
  mem_channelIds : ∀ id, id ∈ ch.allChannelIds ↔ ∃ r ∈ regs, r.1.channelId = id

/-- Who looks a function up by usr or by display name finds each of its sites once. -/
theorem perm_functionSites (name : Bytes) (sites : List ChannelSite) :
    (sites.filter (SiteMap.holds name · .functionUsr) ++
      sites.filter (SiteMap.holds name · .functionDisplay)).Perm
        (sites.filter fun s => s.siteFunctionUsr = name ∨ s.siteFunctionDisplay = name) := by
  have hdisplay (s : ChannelSite) : SiteMap.holds name s .functionDisplay =
      (decide (s.siteFunctionUsr = name ∨ s.siteFunctionDisplay = name) &&
        !SiteMap.holds name s .functionUsr) := by
    rw [Bool.eq_iff_iff]
    simp only [SiteMap.holds, Bool.and_eq_true, decide_eq_true_eq, Bool.not_eq_true',
      decide_eq_false_iff_not]
    constructor
    · rintro ⟨hne, rfl⟩
      exact ⟨.inr rfl, fun heq => hne heq.symm⟩
    · rintro ⟨heq | heq, hne⟩
      · exact absurd heq hne
      · exact ⟨fun hsame => hne (hsame ▸ heq), heq⟩
  have husr (s : ChannelSite) : SiteMap.holds name s .functionUsr =
      (decide (s.siteFunctionUsr = name ∨ s.siteFunctionDisplay = name) &&
        SiteMap.holds name s .functionUsr) := by
    rw [Bool.eq_iff_iff]
    simp only [SiteMap.holds, Bool.and_eq_true, decide_eq_true_eq]
    exact ⟨fun h => ⟨.inl h, h⟩, fun h => h.2⟩
  rw [List.filter_congr fun s _ => husr s, List.filter_congr fun s _ => hdisplay s,
    ← List.filter_filter, ← List.filter_filter, ← List.filter_append]
  exact (List.filter_append_perm _ sites).filter _

theorem map_key_allSites (ch : ChannelIndex) :
    ch.allSites.map ChannelSite.key = ch.liveSites.map fun p => p.1.site.key := by
  have hsites : ch.sites.filter (·.live) = ch.liveSites.map Prod.fst := by
    rw [liveSites, ← List.zipIdx_map_fst 0 ch.sites, List.filter_map]
    congr 1
    rw [List.zipIdx_map_fst]
    rfl
  rw [allSites, hsites, List.map_map, List.map_map]
  rfl

theorem Inv.mem_allSites (h : ch.Inv regs) {key : SiteKey} :
    (∃ s ∈ ch.allSites, s.key = key) ↔ ∃ tu, (key, tu) ∈ regs := by
  rw [← List.mem_map, map_key_allSites, h.mem_keys]
  exact ⟨fun ⟨r, hr, hkey⟩ => ⟨r.2, hkey ▸ hr⟩, fun ⟨tu, hr⟩ => ⟨_, hr, rfl⟩⟩

theorem Inv.onChannel (h : ch.Inv regs) (id : Bytes) (op : ChannelOperation) :
    (ch.sitesAt (ch.byChannel (lookupText ll id))).filter (·.op = op) =
      ch.allSites.filter fun s => s.channelId = lookupText ll id ∧ s.op = op := by
  have hread : ch.sitesAt (ch.byChannel (lookupText ll id)) = _ := h.sitesAt_lists .channel _
  rw [hread, List.filter_filter]
  refine List.filter_congr fun s _ => ?_
  rw [SiteMap.holds, Bool.and_comm, Bool.decide_and]

theorem Inv.answersByScan (ll : Llvm) (h : ch.Inv regs) (hkeys : ch.KeysListed) : ch.Answers ll regs where
  once := by
    rw [map_key_allSites]
    exact h.nodup_keys
  registered _ := h.mem_allSites
  producersOf id := h.onChannel id .produce
  consumersOf id := h.onChannel id .consume
  sitesForFunction name := by
    have husr : ch.sitesAt (ch.byFunctionUsr (lookupText ll name)) = _ :=
      h.sitesAt_lists .functionUsr _
    have hdisplay : ch.sitesAt (ch.byFunctionDisplay (lookupText ll name)) = _ :=
      h.sitesAt_lists .functionDisplay _
    rw [ChannelIndex.sitesForFunction, husr, hdisplay]
    exact perm_functionSites _ _
  channelIds := hkeys.nodup.filter _
  mem_channelIds id := by
    have hread : ch.sitesAt (ch.byChannel id) = _ := h.sitesAt_lists .channel id
    rw [allChannelIds, List.mem_filter, decide_eq_true_eq]
    constructor
    · rintro ⟨-, hne⟩
      obtain ⟨s, hs⟩ := List.exists_mem_of_ne_nil _ hne
      rw [hread, List.mem_filter] at hs
      obtain ⟨tu, hr⟩ := h.mem_allSites.mp ⟨s, hs.1, rfl⟩
      exact ⟨_, hr, of_decide_eq_true hs.2⟩
    · rintro ⟨r, hr, hid⟩
      obtain ⟨s, hs, hkey⟩ := h.mem_allSites.mpr ⟨r.2, hr⟩
      have hmem : s ∈ ch.sitesAt (ch.byChannel id) := by
        rw [hread, List.mem_filter]
        exact ⟨hs, decide_eq_true ((congrArg SiteKey.channelId hkey).trans hid)⟩
      have hne := List.ne_nil_of_mem hmem
      exact ⟨hkeys.listed id fun hnil => hne (by rw [hnil]; rfl), hne⟩

/-! ### Indexes that answer alike -/

/-- Two indexes answer every query alike, the ids of the channels in any order. -/
structure SameAnswers (ll : Llvm) (ch ch' : ChannelIndex) : Prop where
  allSites : ch.allSites = ch'.allSites
  producersOf : ∀ id, ch.producersOf ll id = ch'.producersOf ll id
  consumersOf : ∀ id, ch.consumersOf ll id = ch'.consumersOf ll id
  sitesForFunction : ∀ name, ch.sitesForFunction ll name = ch'.sitesForFunction ll name
  allChannelIds : ch.allChannelIds.Perm ch'.allChannelIds

/-- The live sites decide the answers. -/
theorem Inv.sameAnswers (h : ch.Inv regs) (h' : ch'.Inv regs) (hkeys : ch.KeysListed)
    (hkeys' : ch'.KeysListed) (hsites : ch.allSites = ch'.allSites) : ch.SameAnswers ll ch' := by
  have hread (m : SiteMap) (name : Bytes) :
      ch.sitesAt (SiteMap.lists ch m name) = ch'.sitesAt (SiteMap.lists ch' m name) := by
    rw [h.sitesAt_lists, h'.sitesAt_lists, hsites]
  refine ⟨hsites, fun id => ?_, fun id => ?_, fun name => ?_, ?_⟩
  · exact congrArg _ (hread .channel _)
  · exact congrArg _ (hread .channel _)
  · exact congrArg₂ (· ++ ·) (hread .functionUsr _) (hread .functionDisplay _)
  · have hans := h.answersByScan ll hkeys
    have hans' := h'.answersByScan ll hkeys'
    refine (List.perm_ext_iff_of_nodup hans.channelIds hans'.channelIds).mpr fun id => ?_
    rw [hans.mem_channelIds, hans'.mem_channelIds]

theorem allSites_compact (ch : ChannelIndex) : ch.compact.allSites = ch.allSites := by
  have hsites : ch.compact.sites = ch.sites.filter (·.live) := rfl
  rw [allSites, hsites, List.filter_filter, allSites]
  simp only [Bool.and_self]

/-- **Every query answers from the sites that are registered**, after any run of operations, and
compacting changes no answer. -/
theorem Built.answers (hll : ll.AcceptsUtf8) (h : Built ll ch regs) :
    ch.Answers ll regs ∧ ch.compact.SameAnswers ll ch := by
  have hinv := (h.spec hll).1
  exact ⟨hinv.answersByScan ll h.keysListed,
    hinv.compact.sameAnswers hinv h.keysListed.compact h.keysListed ch.allSites_compact⟩

/-- One of the two TUs of a site is removed. -/
theorem Built.answers_shared :
    ∃ ch, Built utf8Llvm ch [((sharedSite (text "b")).stored.key, text "b")] ∧
      ch.Answers utf8Llvm [((sharedSite (text "b")).stored.key, text "b")] ∧
        ch.compact.SameAnswers utf8Llvm ch := by
  have hbuilt : Built utf8Llvm _ _ :=
    .addSite (.addSite .empty (sharedSite (text "a"))) (sharedSite (text "b"))
  have horder : ∀ tu, tu ∉ [text "a"].map toIndexText →
      ((({} : ChannelIndex).addSite (sharedSite (text "a"))).addSite
        (sharedSite (text "b"))).byTu tu ≠ [] → tu ∈ [text "b"] := by
    intro tu ha hne
    by_contra hb
    have hother : tu ≠ (sharedSite (text "b")).stored.tuPath := fun heq =>
      hb (List.mem_singleton.mpr (heq.trans (by decide +kernel)))
    have hother' : tu ≠ (sharedSite (text "a")).stored.tuPath := fun heq =>
      ha (List.mem_singleton.mpr (heq.trans (by decide +kernel)))
    exact hne ((Function.update_of_ne hother _ _).trans (Function.update_of_ne hother' _ _))
  have hrun := hbuilt.removeTUs [text "b"] [text "a"] horder
  have hleft : keptRegs ([text "a"].map toIndexText)
      ([] ++ [((sharedSite (text "a")).stored.key, (sharedSite (text "a")).stored.tuPath)] ++
        [((sharedSite (text "b")).stored.key, (sharedSite (text "b")).stored.tuPath)]) =
      [((sharedSite (text "b")).stored.key, text "b")] := by decide +kernel
  rw [hleft] at hrun
  exact ⟨_, hrun, Built.answers acceptsUtf8_utf8Llvm hrun⟩

end ChannelIndex

end Vycor
