import Vycor.Channels.Ledger

/-!
# Removing TUs from a channel index

`removeTUs` releases the registrations of some TUs one by one, tombstones the sites that have
none left, names the least TU anew for sites that lost theirs, and takes the dead sites out of
the lookup maps. `compact` drops the tombstones and renumbers the rest. What is left is the
ledger without the removed TUs (`Inv.removeTUs`), and compacting keeps it (`Inv.compact`).
-/

namespace Vycor

/-- A registration of the site is released. -/
def StoredSite.released (s : StoredSite) (n : ℕ) : StoredSite :=
  { s with refs := s.refs - n, live := s.live && decide (n < s.refs) }

/-- The site with the TU `tu`. -/
def StoredSite.named (tu : Bytes) (s : StoredSite) : StoredSite :=
  { s with site := { s.site with tuPath := tu } }

/-- The TU of a site, when another TU is offered: the lesser of the two. -/
def StoredSite.offered (tu : Bytes) (s : StoredSite) : StoredSite :=
  if s.site.tuPath = [] ∨ tu < s.site.tuPath then s.named tu else s

/-- `site.tuPath.clear()`. -/
def StoredSite.cleared (s : StoredSite) : StoredSite := s.named []

/-- The locals of the loops of `removeTUs`, and the index they change. -/
structure SiteRemoval where
  ch : ChannelIndex
  dead : List ℕ := []
  survivingNeedTuRefresh : List ℕ := []
  affectedChannels : List Bytes := []
  affectedFuncUsr : List Bytes := []
  affectedFuncDisplay : List Bytes := []
  removed : ℕ := 0

namespace SiteRemoval

/-- The body of the loop over the sites of a TU. -/
def release (tuText : Bytes) (r : SiteRemoval) (idx : ℕ) : SiteRemoval :=
  match r.ch.sites[idx]? with
  | none => r
  | some se =>
    -- already tombstoned
    if se.refs = 0 then r
    else if 0 < se.refs - 1 then
      { r with
        ch := { r.ch with sites := r.ch.sites.set idx { se with refs := se.refs - 1 } }
        survivingNeedTuRefresh :=
          if se.site.tuPath = tuText then insertSet idx r.survivingNeedTuRefresh
          else r.survivingNeedTuRefresh }
    else
      { ch := { r.ch with
          sites := r.ch.sites.set idx { se with refs := se.refs - 1, live := false }
          index := Function.update r.ch.index se.site.key none
          liveCount := r.ch.liveCount - 1 }
        dead := idx :: r.dead
        survivingNeedTuRefresh := r.survivingNeedTuRefresh.filter (· ≠ idx)
        affectedChannels := se.site.channelId :: r.affectedChannels
        affectedFuncUsr := se.site.siteFunctionUsr :: r.affectedFuncUsr
        affectedFuncDisplay :=
          if se.site.siteFunctionDisplay ≠ se.site.siteFunctionUsr then
            se.site.siteFunctionDisplay :: r.affectedFuncDisplay
          else r.affectedFuncDisplay
        removed := r.removed + 1 }

/-- The body of the loop over the TUs. -/
def releaseTu (r : SiteRemoval) (rawPath : Bytes) : SiteRemoval :=
  let tuText := toIndexText rawPath
  let r := (r.ch.byTu tuText).foldl (release tuText) r
  { r with ch := { r.ch with byTu := Function.update r.ch.byTu tuText [] } }

/-- The sites after the TUs of the survivors are named anew. `tuOrder` are the keys of `byTu` in
the order the map yields them. -/
def refreshed (r : SiteRemoval) (tuOrder : List Bytes) : List StoredSite :=
  tuOrder.foldl (fun sites remTu =>
    (r.ch.byTu remTu).foldl (fun sites idx =>
      if idx ∈ r.survivingNeedTuRefresh then sites.modify idx (StoredSite.offered remTu)
      else sites) sites)
    (r.survivingNeedTuRefresh.foldl (fun sites idx => sites.modify idx StoredSite.cleared)
      r.ch.sites)

/-- `scrub` of the affected entries of a map. -/
def scrub (r : SiteRemoval) (affected : List Bytes) (m : Bytes → List ℕ) : Bytes → List ℕ :=
  fun name => if name ∈ affected then (m name).filter (· ∉ r.dead) else m name

end SiteRemoval

namespace ChannelIndex

/-- `removeTUs`: the index and the number of sites removed. -/
def removeTUs (ch : ChannelIndex) (tuOrder tuPaths : List Bytes) : ChannelIndex × ℕ :=
  let r := tuPaths.foldl SiteRemoval.releaseTu { ch := ch }
  let byChannel := r.scrub r.affectedChannels r.ch.byChannel
  ({ r.ch with
      sites := r.refreshed tuOrder
      byChannel := byChannel
      channelKeys := r.ch.channelKeys.filter fun c => ¬ (c ∈ r.affectedChannels ∧ byChannel c = [])
      byFunctionUsr := r.scrub r.affectedFuncUsr r.ch.byFunctionUsr
      byFunctionDisplay := r.scrub r.affectedFuncDisplay r.ch.byFunctionDisplay },
    r.removed)

end ChannelIndex

/-! ### Releasing registrations -/

/-- The names of a map whose entries are scrubbed. -/
def SiteRemoval.affected (r : SiteRemoval) : SiteMap → List Bytes
  | .channel => r.affectedChannels
  | .functionUsr => r.affectedFuncUsr
  | .functionDisplay => r.affectedFuncDisplay

namespace ChannelIndex

variable {ch : ChannelIndex} {regs : List SiteRegistration}

/-- What the release of some registrations, a TU and the position of a site each, has done. -/
structure Released (ch : ChannelIndex) (events : List (Bytes × ℕ)) (r : SiteRemoval) : Prop where
  sites : ∀ i : ℕ, r.ch.sites[i]? = ch.sites[i]?.map (·.released (events.countP (·.2 = i)))
  dead : ∀ i, i ∈ r.dead ↔ ∃ s, ch.LiveAt i s ∧ s.refs ≤ events.countP (·.2 = i)
  refresh : ∀ i, i ∈ r.survivingNeedTuRefresh ↔ ∃ s, ch.LiveAt i s ∧
    events.countP (·.2 = i) < s.refs ∧ (s.site.tuPath, i) ∈ events
  affected : ∀ m name, name ∈ r.affected m ↔
    ∃ i ∈ r.dead, ∃ s, ch.LiveAt i s ∧ SiteMap.holds name s.site m = true
  index : ∀ key, r.ch.index key = (ch.index key).filter (· ∉ r.dead)
  lists : ∀ m, SiteMap.lists r.ch m = SiteMap.lists ch m
  liveCount : r.ch.liveCount = r.ch.sites.countP (·.live)
  removed : r.removed + r.ch.liveCount = ch.liveCount

theorem Inv.released (h : ch.Inv regs) : ch.Released [] { ch := ch } where
  sites i := by
    rw [List.countP_nil]
    cases hs : ch.sites[i]? with
    | none => rfl
    | some s =>
      have hlive : (s.live && decide (0 < s.refs)) = s.live := by
        rw [Bool.and_eq_left_iff_imp, decide_eq_true_eq]
        exact fun hlive => h.positive i s ⟨hs, hlive⟩
      simp only [Option.map_some, StoredSite.released, hlive, Nat.sub_zero]
  dead i := by
    simp only [List.not_mem_nil, List.countP_nil, false_iff, not_exists, not_and, not_le]
    exact fun s hs => h.positive i s hs
  refresh i := by simp
  affected m name := by cases m <;> simp [SiteRemoval.affected]
  index key := by cases ch.index key <;> simp [Option.filter]
  lists m := rfl
  liveCount := h.liveCount
  removed := Nat.zero_add _

section Release

variable {events : List (Bytes × ℕ)} {r : SiteRemoval} {tu : Bytes} {idx : ℕ} {s : StoredSite}

theorem countP_event_self : (events ++ [(tu, idx)]).countP (·.2 = idx) =
    events.countP (·.2 = idx) + 1 := by
  simp [List.countP_append]

theorem countP_event_of_ne {i : ℕ} (hi : i ≠ idx) :
    (events ++ [(tu, idx)]).countP (·.2 = i) = events.countP (·.2 = i) := by
  simp [List.countP_append, Ne.symm hi]

theorem mem_event_of_ne {t : Bytes} {i : ℕ} (hi : i ≠ idx) :
    (t, i) ∈ events ++ [(tu, idx)] ↔ (t, i) ∈ events := by
  simp [hi]

theorem LiveAt.eq {i : ℕ} {s' : StoredSite} (hi : ch.LiveAt i s') (hs : ch.sites[i]? = some s) :
    s' = s :=
  Option.some_inj.mp (hi.1.symm.trans hs)

/-- The release at a position where no site stands, or a dead one, changes nothing. -/
theorem Released.release_same (hr : ch.Released events r)
    (hsame : r.release tu idx = r)
    (hdead : ∀ s, ch.sites[idx]? = some s → s.refs ≤ events.countP (·.2 = idx)) :
    ch.Released (events ++ [(tu, idx)]) (r.release tu idx) := by
  rw [hsame]
  refine { hr with
    sites := fun i => ?_
    dead := fun i => ?_
    refresh := fun i => ?_ }
  · rw [hr.sites i]
    by_cases hi : i = idx
    · subst hi
      cases hs : ch.sites[i]? with
      | none => rfl
      | some s =>
        have hgone := hdead s hs
        have hgone' : s.refs ≤ events.countP (·.2 = i) + 1 := hgone.trans (Nat.le_succ _)
        rw [countP_event_self, Option.map_some, Option.map_some]
        simp only [StoredSite.released, Nat.sub_eq_zero_of_le hgone, Nat.sub_eq_zero_of_le hgone',
          decide_eq_false (not_lt.mpr hgone), decide_eq_false (not_lt.mpr hgone')]
    · rw [countP_event_of_ne hi]
  · rw [hr.dead i]
    refine exists_congr fun s => and_congr_right fun hi => ?_
    by_cases heq : i = idx
    · subst heq
      rw [countP_event_self]
      exact iff_of_true (hdead s hi.1) ((hdead s hi.1).trans (Nat.le_succ _))
    · rw [countP_event_of_ne heq]
  · rw [hr.refresh i]
    refine exists_congr fun s => and_congr_right fun hi => ?_
    by_cases heq : i = idx
    · subst heq
      rw [countP_event_self]
      exact iff_of_false (fun hand => hand.1.not_ge (hdead s hi.1))
        fun hand => hand.1.not_ge ((hdead s hi.1).trans (Nat.le_succ _))
    · rw [countP_event_of_ne heq, mem_event_of_ne heq]

/-- A site that keeps other registrations. -/
theorem Released.release_again (hr : ch.Released events r) (hat : ch.LiveAt idx s)
    (hlast : events.countP (·.2 = idx) + 1 < s.refs) :
    ch.Released (events ++ [(tu, idx)]) (r.release tu idx) := by
  set n := events.countP (·.2 = idx) with hn
  have hmore : n < s.refs := Nat.lt_of_succ_lt hlast
  have hsite : r.ch.sites[idx]? = some (s.released n) := by rw [hr.sites, hat.1]; rfl
  have hlt : idx < r.ch.sites.length := (List.getElem?_eq_some_iff.mp hsite).1
  have hse : s.released n = { s with refs := s.refs - n } := by
    simp only [StoredSite.released, hat.2, decide_eq_true hmore, Bool.and_self]
  have hnew : s.released (n + 1) = { s with refs := s.refs - n - 1 } := by
    simp only [StoredSite.released, hat.2, decide_eq_true hlast, Bool.and_self, Nat.sub_sub]
  have hstep : r.release tu idx = { r with
      ch := { r.ch with sites := r.ch.sites.set idx (s.released (n + 1)) }
      survivingNeedTuRefresh :=
        if s.site.tuPath = tu then insertSet idx r.survivingNeedTuRefresh
        else r.survivingNeedTuRefresh } := by
    rw [SiteRemoval.release, hsite, hse, hnew]
    simp only [if_neg (by omega : ¬ s.refs - n = 0), if_pos (by omega : 0 < s.refs - n - 1)]
  rw [hstep]
  refine ⟨fun i => ?_, fun i => ?_, fun i => ?_, hr.affected, hr.index, hr.lists, ?_, hr.removed⟩
  · by_cases hi : i = idx
    · subst hi
      rw [List.getElem?_set_self hlt, hat.1, countP_event_self, Option.map_some]
    · rw [List.getElem?_set_ne (Ne.symm hi), hr.sites, countP_event_of_ne hi]
  · rw [hr.dead i]
    refine exists_congr fun s' => and_congr_right fun hi => ?_
    by_cases heq : i = idx
    · subst heq
      rw [hi.eq hat.1, countP_event_self]
      exact iff_of_false (not_le.mpr hmore) (not_le.mpr hlast)
    · rw [countP_event_of_ne heq]
  · have hset : i ∈ (if s.site.tuPath = tu then insertSet idx r.survivingNeedTuRefresh
        else r.survivingNeedTuRefresh) ↔
          i ∈ r.survivingNeedTuRefresh ∨ s.site.tuPath = tu ∧ i = idx := by
      by_cases htu : s.site.tuPath = tu
      · simp [htu, or_comm]
      · simp [htu]
    rw [hset, hr.refresh i]
    by_cases heq : i = idx
    · subst heq
      simp only [countP_event_self, List.mem_append, List.mem_singleton, Prod.mk.injEq, and_true]
      constructor
      · rintro (⟨s', hi, -, hin⟩ | htu)
        · exact ⟨s', hi, by rw [hi.eq hat.1]; exact hlast, .inl hin⟩
        · exact ⟨s, hat, hlast, .inr htu⟩
      · rintro ⟨s', hi, -, hin | htu⟩
        · exact .inl ⟨s', hi, by rw [hi.eq hat.1]; exact hmore, hin⟩
        · exact .inr (hi.eq hat.1 ▸ htu)
    · simp only [heq, and_false, or_false]
      refine exists_congr fun s' => and_congr_right fun _ => ?_
      rw [countP_event_of_ne heq, mem_event_of_ne heq]
  · have hcount := countP_set (·.live) hsite (s.released (n + 1))
    have hsame : (s.released n).live = (s.released (n + 1)).live := by rw [hse, hnew]
    rw [hsame] at hcount
    have hlive := hr.liveCount
    change r.ch.liveCount = (r.ch.sites.set idx (s.released (n + 1))).countP (·.live)
    omega

/-- The last registration of a site: it dies. -/
theorem Released.release_last (h : ch.Inv regs) (hr : ch.Released events r)
    (hat : ch.LiveAt idx s) (hlast : events.countP (·.2 = idx) + 1 = s.refs) :
    ch.Released (events ++ [(tu, idx)]) (r.release tu idx) := by
  set n := events.countP (·.2 = idx) with hn
  have hmore : n < s.refs := by omega
  have hsite : r.ch.sites[idx]? = some (s.released n) := by rw [hr.sites, hat.1]; rfl
  have hlt : idx < r.ch.sites.length := (List.getElem?_eq_some_iff.mp hsite).1
  have hse : s.released n = { s with refs := s.refs - n } := by
    simp only [StoredSite.released, hat.2, decide_eq_true hmore, Bool.and_self]
  have hnew : s.released (n + 1) = { s with refs := s.refs - n - 1, live := false } := by
    simp only [StoredSite.released, hat.2, decide_eq_false hlast.not_lt, Bool.and_false,
      Nat.sub_sub]
  -- a live site is counted
  have hcount := countP_set (·.live) hsite (s.released (n + 1))
  rw [hse, hnew] at hcount
  simp only [hat.2, if_true, Bool.false_eq_true, if_false, Nat.add_zero] at hcount
  rw [hse] at hsite
  set r' : SiteRemoval :=
    { ch := { r.ch with
        sites := r.ch.sites.set idx { s with refs := s.refs - n - 1, live := false }
        index := Function.update r.ch.index s.site.key none
        liveCount := r.ch.liveCount - 1 }
      dead := idx :: r.dead
      survivingNeedTuRefresh := r.survivingNeedTuRefresh.filter (· ≠ idx)
      affectedChannels := s.site.channelId :: r.affectedChannels
      affectedFuncUsr := s.site.siteFunctionUsr :: r.affectedFuncUsr
      affectedFuncDisplay :=
        if s.site.siteFunctionDisplay ≠ s.site.siteFunctionUsr then
          s.site.siteFunctionDisplay :: r.affectedFuncDisplay
        else r.affectedFuncDisplay
      removed := r.removed + 1 } with hr'
  have hstep : r.release tu idx = r' := by
    rw [SiteRemoval.release, hsite]
    simp only [if_neg (by omega : ¬ s.refs - n = 0), if_neg (by omega : ¬ 0 < s.refs - n - 1)]
    rfl
  rw [hstep]
  refine ⟨fun i => ?_, fun i => ?_, fun i => ?_, fun m name => ?_, fun key => ?_, hr.lists, ?_, ?_⟩
  · by_cases hi : i = idx
    · subst hi
      rw [List.getElem?_set_self hlt, hat.1, countP_event_self, Option.map_some, ← hnew]
    · rw [List.getElem?_set_ne (Ne.symm hi), hr.sites, countP_event_of_ne hi]
  · rw [List.mem_cons, hr.dead i]
    by_cases heq : i = idx
    · subst heq
      exact iff_of_true (.inl rfl) ⟨s, hat, by rw [countP_event_self]; exact hlast.ge⟩
    · simp only [heq, false_or, countP_event_of_ne heq]
  · rw [List.mem_filter, hr.refresh i]
    by_cases heq : i = idx
    · subst heq
      refine iff_of_false (fun hand => by simpa using hand.2) ?_
      rintro ⟨s', hi, hfew, -⟩
      rw [countP_event_self, hi.eq hat.1] at hfew
      exact hlast.not_lt hfew
    · rw [and_iff_left (by simpa using heq)]
      refine exists_congr fun s' => and_congr_right fun _ => ?_
      rw [countP_event_of_ne heq, mem_event_of_ne heq]
  · have hnames : name ∈ r'.affected m ↔
        SiteMap.holds name s.site m = true ∨ name ∈ r.affected m := by
      cases m
      · simp [hr', SiteRemoval.affected, SiteMap.holds, eq_comm]
      · simp [hr', SiteRemoval.affected, SiteMap.holds, eq_comm]
      · by_cases hsame : s.site.siteFunctionDisplay = s.site.siteFunctionUsr
        · simp [hr', SiteRemoval.affected, SiteMap.holds, hsame]
        · simp [hr', SiteRemoval.affected, SiteMap.holds, hsame, eq_comm]
    rw [hnames, hr.affected]
    constructor
    · rintro (hholds | ⟨i, hi, s', hs', hholds⟩)
      · exact ⟨idx, List.mem_cons_self, s, hat, hholds⟩
      · exact ⟨i, .tail _ hi, s', hs', hholds⟩
    · rintro ⟨i, hi, s', hs', hholds⟩
      rcases List.mem_cons.mp hi with rfl | hi
      · exact .inl (hs'.eq hat.1 ▸ hholds)
      · exact .inr ⟨i, hi, s', hs', hholds⟩
  · change Function.update r.ch.index s.site.key none key = _
    by_cases hkey : key = s.site.key
    · have hindex : ch.index s.site.key = some idx := (h.index_iff _ _).mpr ⟨s, hat, rfl⟩
      rw [hkey, Function.update_self, hindex]
      simp [hr', Option.filter]
    · rw [Function.update_of_ne hkey, hr.index]
      cases hindex : ch.index key with
      | none => rfl
      | some i =>
        have hne : i ≠ idx := by
          rintro rfl
          obtain ⟨s', hs', hk⟩ := (h.index_iff key i).mp hindex
          exact hkey (hk.symm.trans (by rw [hs'.eq hat.1]))
        simp [hr', Option.filter, hne]
  · have hlive := hr.liveCount
    change r.ch.liveCount - 1 = (r.ch.sites.set idx _).countP (·.live)
    omega
  · have hlive := hr.liveCount
    have hremoved := hr.removed
    change r.removed + 1 + (r.ch.liveCount - 1) = ch.liveCount
    omega

/-- **One registration released.** -/
theorem Released.release (h : ch.Inv regs) (hr : ch.Released events r) (tu : Bytes) (idx : ℕ) :
    ch.Released (events ++ [(tu, idx)]) (r.release tu idx) := by
  have hsite := hr.sites idx
  cases hs : ch.sites[idx]? with
  | none =>
    refine hr.release_same ?_ fun s hs' => by cases hs.symm.trans hs'
    rw [hs] at hsite
    rw [SiteRemoval.release, hsite]
    rfl
  | some s =>
    by_cases hgone : s.refs ≤ events.countP (·.2 = idx)
    · refine hr.release_same ?_ fun s' hs' => Option.some_inj.mp (hs.symm.trans hs') ▸ hgone
      rw [hs] at hsite
      rw [SiteRemoval.release, hsite]
      simp only [Option.map_some, StoredSite.released, Nat.sub_eq_zero_of_le hgone, if_pos]
    · have hlive : s.live = true := by
        by_contra hdead
        rw [Bool.not_eq_true] at hdead
        rw [h.dead idx s hs hdead] at hgone
        exact hgone (Nat.zero_le _)
      rcases (Nat.succ_le_of_lt (not_le.mp hgone)).lt_or_eq with hlast | hlast
      · exact hr.release_again ⟨hs, hlive⟩ hlast
      · exact hr.release_last h ⟨hs, hlive⟩ hlast

end Release

/-- What the loop over the TUs has done: the registrations of the TUs `ts` are released. -/
structure ReleasedTus (ch : ChannelIndex) (regs : List SiteRegistration) (ts : List Bytes)
    (events : List (Bytes × ℕ)) (r : SiteRemoval) : Prop extends Released ch events r where
  byTu : r.ch.byTu = fun tu => if tu ∈ ts then [] else ch.byTu tu
  count : ∀ i s, ch.LiveAt i s → events.countP (·.2 = i) =
    regs.countP fun x => x.1 = s.site.key ∧ x.2 ≠ [] ∧ x.2 ∈ ts
  mem_events : ∀ tu i, (tu, i) ∈ events ↔ tu ∈ ts ∧ i ∈ ch.byTu tu

theorem byTu_release (tu : Bytes) (r : SiteRemoval) (idx : ℕ) :
    (r.release tu idx).ch.byTu = r.ch.byTu := by
  rw [SiteRemoval.release]
  split
  · rfl
  · split
    · rfl
    · split <;> rfl

theorem Released.foldl_release (h : ch.Inv regs) {events : List (Bytes × ℕ)} {r : SiteRemoval}
    (hr : ch.Released events r) (tu : Bytes) (l : List ℕ) :
    ch.Released (events ++ l.map (tu, ·)) (l.foldl (SiteRemoval.release tu) r) ∧
      (l.foldl (SiteRemoval.release tu) r).ch.byTu = r.ch.byTu := by
  induction l generalizing events r with
  | nil => exact ⟨by simpa using hr, rfl⟩
  | cons idx l ih =>
    obtain ⟨hrest, hbyTu⟩ := ih (hr.release h tu idx)
    refine ⟨by simpa using hrest, hbyTu.trans (byTu_release tu r idx)⟩

/-- **One TU released.** -/
theorem ReleasedTus.releaseTu (h : ch.Inv regs) {ts : List Bytes} {events : List (Bytes × ℕ)}
    {r : SiteRemoval} (hr : ch.ReleasedTus regs ts events r) (rawPath : Bytes) :
    ∃ events', ch.ReleasedTus regs (ts ++ [toIndexText rawPath]) events' (r.releaseTu rawPath) := by
  set tu := toIndexText rawPath with htu
  obtain ⟨hrest, hbyTu⟩ := hr.toReleased.foldl_release h tu (r.ch.byTu tu)
  have hat : r.ch.byTu tu = if tu ∈ ts then [] else ch.byTu tu := congrFun hr.byTu tu
  refine ⟨events ++ (r.ch.byTu tu).map (tu, ·),
    { sites := hrest.sites, dead := hrest.dead, refresh := hrest.refresh
      affected := hrest.affected, index := hrest.index, lists := hrest.lists
      liveCount := hrest.liveCount, removed := hrest.removed
      byTu := ?_, count := fun i s hs => ?_, mem_events := fun t i => ?_ }⟩
  · change Function.update ((r.ch.byTu tu).foldl (SiteRemoval.release tu) r).ch.byTu tu [] = _
    rw [hbyTu, hr.byTu]
    funext t
    by_cases ht : t = tu
    · simp [ht]
    · simp [ht, List.mem_append]
  · rw [List.countP_append, hr.count i s hs, List.countP_map, hat]
    have hbefore : ((fun x : Bytes × ℕ => decide (x.2 = i)) ∘ fun idx => (tu, idx)) =
        fun idx => decide (idx = i) := rfl
    by_cases hin : tu ∈ ts
    · -- the TU was named before: nothing is left of it
      have hsame : ∀ t : Bytes, t ∈ ts ++ [tu] ↔ t ∈ ts := fun t => by
        simp only [List.mem_append, List.mem_singleton, or_iff_left_iff_imp]
        rintro rfl
        exact hin
      simp only [hsame, if_pos hin, List.countP_nil, Nat.add_zero]
    · have hsplit : regs.countP (fun x => x.1 = s.site.key ∧ x.2 ≠ [] ∧ x.2 ∈ ts ++ [tu]) =
          regs.countP (fun x => x.1 = s.site.key ∧ x.2 ≠ [] ∧ x.2 ∈ ts) +
            regs.countP fun x => x.1 = s.site.key ∧ x.2 ≠ [] ∧ x.2 = tu := by
        refine countP_add fun x => ?_
        by_cases hx : x.2 = tu
        · simp [hx, hin]
        · simp [hx]
      rw [hsplit, if_neg hin, hbefore]
      congr 1
      by_cases hnil : tu = []
      · have hnone : ch.byTu tu = [] := List.eq_nil_iff_forall_not_mem.mpr fun j hj =>
          (h.byTu_live tu j hj).1 hnil
        rw [hnone, List.countP_nil]
        exact (List.countP_eq_zero.mpr fun x _ => by simp [hnil]).symm
      · have hcount := h.byTu tu i s hs hnil
        rw [List.count_eq_countP, List.count_eq_countP] at hcount
        have heq : (fun idx : ℕ => decide (idx = i)) = fun idx => idx == i := by
          funext idx
          rw [Bool.beq_eq_decide_eq]
        rw [heq, hcount]
        refine List.countP_congr fun x _ => ?_
        obtain ⟨key, t⟩ := x
        simp only [beq_iff_eq, Prod.mk.injEq, decide_eq_true_eq]
        constructor
        · rintro ⟨rfl, rfl⟩
          exact ⟨rfl, hnil, rfl⟩
        · rintro ⟨rfl, -, rfl⟩
          exact ⟨rfl, rfl⟩
  · rw [List.mem_append, hr.mem_events, hat]
    by_cases hin : tu ∈ ts
    · simp only [if_pos hin, List.map_nil, List.not_mem_nil, or_false, List.mem_append,
        List.mem_singleton]
      refine and_congr_left fun _ => ⟨.inl, ?_⟩
      rintro (ht | rfl)
      · exact ht
      · exact hin
    · simp only [if_neg hin, List.mem_map, Prod.mk.injEq, List.mem_append, List.mem_singleton]
      constructor
      · rintro (⟨ht, hi⟩ | ⟨j, hj, rfl, rfl⟩)
        · exact ⟨.inl ht, hi⟩
        · exact ⟨.inr rfl, hj⟩
      · rintro ⟨ht | rfl, hi⟩
        · exact .inl ⟨ht, hi⟩
        · exact .inr ⟨i, hi, rfl, rfl⟩

theorem Inv.releasedTus (h : ch.Inv regs) (tuPaths : List Bytes) :
    ∃ events, ch.ReleasedTus regs (tuPaths.map toIndexText) events
      (tuPaths.foldl SiteRemoval.releaseTu { ch := ch }) := by
  have hrun (paths : List Bytes) (ts : List Bytes) (events : List (Bytes × ℕ)) (r : SiteRemoval)
      (hr : ch.ReleasedTus regs ts events r) :
      ∃ events, ch.ReleasedTus regs (ts ++ paths.map toIndexText) events
        (paths.foldl SiteRemoval.releaseTu r) := by
    induction paths generalizing ts events r with
    | nil => exact ⟨events, by simpa using hr⟩
    | cons path paths ih =>
      obtain ⟨events', hr'⟩ := hr.releaseTu h path
      obtain ⟨events'', hr''⟩ := ih _ _ _ hr'
      exact ⟨events'', by simpa using hr''⟩
  refine hrun tuPaths [] [] { ch := ch } { h.released with byTu := ?_, count := ?_, mem_events := ?_ }
  · simp
  · simp
  · simp

/-! ### The TUs of the survivors -/

/-- Entries changed in place, some of them repeatedly, by a change that once is enough for. -/
theorem getElem?_foldl_modify {α : Type*} {f : α → α} (hf : ∀ a, f (f a) = f a) (p : ℕ → Prop)
    [DecidablePred p] (positions : List ℕ) (l : List α) (i : ℕ) :
    (positions.foldl (fun l idx => if p idx then l.modify idx f else l) l)[i]? =
      if i ∈ positions ∧ p i then l[i]?.map f else l[i]? := by
  induction positions generalizing l with
  | nil => simp
  | cons j positions ih =>
    rw [List.foldl_cons, ih]
    by_cases hj : p j
    · rw [if_pos hj, List.getElem?_modify]
      by_cases hij : j = i
      · subst hij
        have hff : f ∘ f = f := funext hf
        by_cases hmem : j ∈ positions
        · simp [hj, hmem, hff]
        · simp [hj, hmem]
      · simp [hij, Ne.symm hij]
    · rw [if_neg hj]
      by_cases hij : i = j
      · simp [hij, hj]
      · simp [hij]

theorem offered_offered (tu : Bytes) (s : StoredSite) :
    (s.offered tu).offered tu = s.offered tu := by
  by_cases h : s.site.tuPath = [] ∨ tu < s.site.tuPath
  · have hnew : s.offered tu = s.named tu := if_pos h
    rw [hnew, StoredSite.offered]
    split <;> rfl
  · have hold : s.offered tu = s := if_neg h
    rw [hold, hold]

theorem cleared_cleared (s : StoredSite) : s.cleared.cleared = s.cleared := rfl

/-- The least of the offered TUs remains, and nothing else of the site changes. -/
theorem foldl_offered (p : Bytes → Prop) [DecidablePred p] (order : List Bytes) (s : StoredSite)
    (hne : ∀ tu, p tu → tu ≠ []) :
    ∃ tu, order.foldl (fun s tu => if p tu then s.offered tu else s) s.cleared = s.named tu ∧
      ((tu = [] ∧ ∀ t ∈ order, ¬ p t) ∨
        (tu ∈ order ∧ p tu ∧ ∀ t ∈ order, p t → tu ≤ t)) := by
  induction order using List.reverseRecOn with
  | nil => exact ⟨[], rfl, .inl ⟨rfl, by simp⟩⟩
  | append_singleton order t ih =>
    obtain ⟨tu, hfold, hleast⟩ := ih
    rw [List.foldl_append, hfold, List.foldl_cons, List.foldl_nil]
    by_cases ht : p t
    · rw [if_pos ht]
      by_cases hless : tu = [] ∨ t < tu
      · refine ⟨t, if_pos hless, .inr ⟨by simp, ht, fun t' ht' hp => ?_⟩⟩
        rcases List.mem_append.mp ht' with ht' | ht'
        · rcases hleast with ⟨-, hnone⟩ | ⟨-, hptu, hle⟩
          · exact absurd hp (hnone t' ht')
          · exact (hless.resolve_left (hne tu hptu)).le.trans (hle t' ht' hp)
        · exact (List.mem_singleton.mp ht').ge
      · rw [not_or] at hless
        refine ⟨tu, if_neg (not_or.mpr hless), .inr ?_⟩
        rcases hleast with ⟨hnil, -⟩ | ⟨hin, hptu, hle⟩
        · exact absurd hnil hless.1
        · refine ⟨List.mem_append_left _ hin, hptu, fun t' ht' hp => ?_⟩
          rcases List.mem_append.mp ht' with ht' | ht'
          · exact hle t' ht' hp
          · exact List.mem_singleton.mp ht' ▸ not_lt.mp hless.2
    · rw [if_neg ht]
      refine ⟨tu, rfl, hleast.imp (fun h => ⟨h.1, fun t' ht' => ?_⟩)
        fun h => ⟨List.mem_append_left _ h.1, h.2.1, fun t' ht' hp => ?_⟩⟩
      · rcases List.mem_append.mp ht' with ht' | ht'
        · exact h.2 t' ht'
        · exact List.mem_singleton.mp ht' ▸ ht
      · rcases List.mem_append.mp ht' with ht' | ht'
        · exact h.2.2 t' ht' hp
        · exact absurd (List.mem_singleton.mp ht' ▸ hp) ht

/-- The sites after the TUs are named anew. -/
theorem getElem?_refreshed (r : SiteRemoval) (order : List Bytes) (i : ℕ) :
    (r.refreshed order)[i]? = r.ch.sites[i]?.map fun s =>
      if i ∈ r.survivingNeedTuRefresh then
        order.foldl (fun s tu => if i ∈ r.ch.byTu tu then s.offered tu else s) s.cleared
      else s := by
  have houter (sites : List StoredSite) :
      (order.foldl (fun sites remTu =>
        (r.ch.byTu remTu).foldl (fun sites idx =>
          if idx ∈ r.survivingNeedTuRefresh then sites.modify idx (StoredSite.offered remTu)
          else sites) sites) sites)[i]? =
        sites[i]?.map fun s => if i ∈ r.survivingNeedTuRefresh then
          order.foldl (fun s tu => if i ∈ r.ch.byTu tu then s.offered tu else s) s else s := by
    induction order generalizing sites with
    | nil => simp
    | cons tu order ih =>
      rw [List.foldl_cons, ih, getElem?_foldl_modify (offered_offered tu)]
      by_cases hi : i ∈ r.survivingNeedTuRefresh
      · by_cases htu : i ∈ r.ch.byTu tu
        · simp only [hi, htu, and_self, if_true, Option.map_map, List.foldl_cons]
          rfl
        · simp only [hi, htu, and_true, if_false, if_true, List.foldl_cons]
      · simp only [hi, and_false, if_false]
  have hclear : (r.survivingNeedTuRefresh.foldl
      (fun sites idx => sites.modify idx StoredSite.cleared) r.ch.sites)[i]? =
        if i ∈ r.survivingNeedTuRefresh then r.ch.sites[i]?.map StoredSite.cleared
        else r.ch.sites[i]? := by
    have := getElem?_foldl_modify cleared_cleared (fun _ => True) r.survivingNeedTuRefresh
      r.ch.sites i
    simpa using this
  rw [SiteRemoval.refreshed, houter, hclear]
  by_cases hi : i ∈ r.survivingNeedTuRefresh
  · simp only [hi, if_true, Option.map_map]
    rfl
  · simp only [hi, if_false]

/-! ### What is left -/

/-- The registrations that stay when the TUs `ts` go. -/
def keptRegs (ts : List Bytes) (regs : List SiteRegistration) : List SiteRegistration :=
  regs.filter fun x => x.2 = [] ∨ x.2 ∉ ts

section Kept

variable {ts : List Bytes} {key : SiteKey} {tu : Bytes}

theorem mem_keptRegs {x : SiteRegistration} :
    x ∈ keptRegs ts regs ↔ x ∈ regs ∧ (x.2 = [] ∨ x.2 ∉ ts) := by
  rw [keptRegs, List.mem_filter, decide_eq_true_eq]

theorem countP_keptRegs (ts : List Bytes) : regs.countP (·.1 = key) = (keptRegs ts regs).countP (·.1 = key) +
    regs.countP fun x => x.1 = key ∧ x.2 ≠ [] ∧ x.2 ∈ ts := by
  rw [keptRegs, List.countP_filter]
  refine countP_add fun x => ?_
  by_cases hgone : x.2 ≠ [] ∧ x.2 ∈ ts
  · simp [hgone]
  · have hstays : x.2 = [] ∨ x.2 ∉ ts := by
      rw [not_and_or, not_not] at hgone
      exact hgone
    have hnot : ¬ (x.1 = key ∧ x.2 ≠ [] ∧ x.2 ∈ ts) := fun hall => hgone hall.2
    simp [hstays, hnot]

theorem count_keptRegs_of_notMem (hin : tu ∉ ts) :
    (keptRegs ts regs).count (key, tu) = regs.count (key, tu) := by
  rw [keptRegs]
  exact List.count_filter (by simp [hin])

theorem count_keptRegs_of_mem (hne : tu ≠ []) (hin : tu ∈ ts) :
    (keptRegs ts regs).count (key, tu) = 0 :=
  List.count_eq_zero.mpr fun hmem => (mem_keptRegs.mp hmem).2.elim hne fun h => h hin

end Kept

section After

variable {ts : List Bytes} {events : List (Bytes × ℕ)} {r : SiteRemoval} {i : ℕ} {s : StoredSite}

theorem ReleasedTus.mem_byTu (h : ch.Inv regs) (hr : ch.ReleasedTus regs ts events r)
    (hs : ch.LiveAt i s) {tu : Bytes} :
    i ∈ r.ch.byTu tu ↔ tu ≠ [] ∧ (s.site.key, tu) ∈ keptRegs ts regs := by
  rw [congrFun hr.byTu tu, mem_keptRegs]
  by_cases hin : tu ∈ ts
  · rw [if_pos hin]
    refine iff_of_false List.not_mem_nil ?_
    rintro ⟨hne, -, hnil | hout⟩
    · exact hne hnil
    · exact hout hin
  · rw [if_neg hin]
    constructor
    · intro hi
      have hne := (h.byTu_live tu i hi).1
      exact ⟨hne, (h.mem_byTu hs hne).mp hi, .inr hin⟩
    · exact fun hand => (h.mem_byTu hs hand.1).mpr hand.2.1

/-- How many registrations of a site stay. -/
theorem ReleasedTus.left (h : ch.Inv regs) (hr : ch.ReleasedTus regs ts events r)
    (hs : ch.LiveAt i s) :
    (keptRegs ts regs).countP (·.1 = s.site.key) = s.refs - events.countP (·.2 = i) := by
  have hrefs := h.refs i s hs
  rw [countP_keptRegs ts] at hrefs
  rw [hr.count i s hs]
  omega

/-- **A site after the release**, with the least of the TUs that are left. -/
theorem ReleasedTus.refreshed (h : ch.Inv regs) (hr : ch.ReleasedTus regs ts events r)
    {order : List Bytes} (horder : ∀ tu, r.ch.byTu tu ≠ [] → tu ∈ order)
    (hs : ch.sites[i]? = some s) :
    ∃ tu, (r.refreshed order)[i]? = some ((s.released (events.countP (·.2 = i))).named tu) ∧
      (s.live = true → events.countP (·.2 = i) < s.refs →
        LeastTu (keptRegs ts regs) s.site.key tu) := by
  set n := events.countP (·.2 = i)
  rw [getElem?_refreshed, hr.sites, hs]
  by_cases hi : i ∈ r.survivingNeedTuRefresh
  · have hne (tu : Bytes) (htu : i ∈ r.ch.byTu tu) : tu ≠ [] := by
      obtain ⟨s', hs', -⟩ := (hr.refresh i).mp hi
      exact ((hr.mem_byTu h hs').mp htu).1
    obtain ⟨tu, hfold, hleast⟩ := foldl_offered (i ∈ r.ch.byTu ·) order (s.released n) hne
    refine ⟨tu, ?_, fun hlive _ => ?_⟩
    · simp only [Option.map_some, if_pos hi]
      rw [hfold]
    · have hoffered (t : Bytes) (ht : t ≠ []) (hreg : (s.site.key, t) ∈ keptRegs ts regs) :
          i ∈ r.ch.byTu t ∧ t ∈ order := by
        have hmem := (hr.mem_byTu h ⟨hs, hlive⟩).mpr ⟨ht, hreg⟩
        exact ⟨hmem, horder t (List.ne_nil_of_mem hmem)⟩
      rcases hleast with ⟨hnil, hnone⟩ | ⟨-, hp, hle⟩
      · refine .inl ⟨hnil, fun t ht hreg => ?_⟩
        exact hnone t (hoffered t ht hreg).2 (hoffered t ht hreg).1
      · refine .inr ⟨hne tu hp, ((hr.mem_byTu h ⟨hs, hlive⟩).mp hp).2, fun t ht hreg => ?_⟩
        exact hle t (hoffered t ht hreg).2 (hoffered t ht hreg).1
  · refine ⟨s.site.tuPath, ?_, fun hlive hn => ?_⟩
    · simp only [Option.map_some, if_neg hi]
      rfl
    · -- the TU of the site was not released
      have hnot : (s.site.tuPath, i) ∉ events := fun hev =>
        hi ((hr.refresh i).mpr ⟨s, ⟨hs, hlive⟩, hn, hev⟩)
      rcases h.least i s ⟨hs, hlive⟩ with ⟨hnil, hnone⟩ | ⟨hne, hin, hle⟩
      · exact .inl ⟨hnil, fun t ht hreg => hnone t ht (mem_keptRegs.mp hreg).1⟩
      · have hstays : s.site.tuPath ∉ ts := fun hts =>
          hnot ((hr.mem_events _ _).mpr ⟨hts, (h.mem_byTu ⟨hs, hlive⟩ hne).mpr hin⟩)
        exact .inr ⟨hne, mem_keptRegs.mpr ⟨hin, .inr hstays⟩,
          fun t ht hreg => hle t ht (mem_keptRegs.mp hreg).1⟩

/-- A site that is live after the release. -/
theorem ReleasedTus.exists_of_live (h : ch.Inv regs) (hr : ch.ReleasedTus regs ts events r)
    {order : List Bytes} (horder : ∀ tu, r.ch.byTu tu ≠ [] → tu ∈ order) {s' : StoredSite}
    (hs' : (r.refreshed order)[i]? = some s') (hlive : s'.live = true) :
    ∃ s tu, ch.LiveAt i s ∧ events.countP (·.2 = i) < s.refs ∧
      s' = (s.released (events.countP (·.2 = i))).named tu ∧
      LeastTu (keptRegs ts regs) s.site.key tu := by
  cases hs : ch.sites[i]? with
  | none =>
    rw [getElem?_refreshed, hr.sites, hs] at hs'
    cases hs'
  | some s =>
    obtain ⟨tu, heq, hleast⟩ := hr.refreshed h horder hs
    obtain rfl := Option.some_inj.mp (heq.symm.trans hs')
    obtain ⟨hwas, hn⟩ := Bool.and_eq_true_iff.mp hlive
    rw [decide_eq_true_eq] at hn
    exact ⟨s, tu, ⟨hs, hwas⟩, hn, rfl, hleast hwas hn⟩

/-- A site that keeps a registration is live after the release. -/
theorem ReleasedTus.live_of_mem (h : ch.Inv regs) (hr : ch.ReleasedTus regs ts events r)
    (hs : ch.LiveAt i s) {tu : Bytes} (hreg : (s.site.key, tu) ∈ keptRegs ts regs) :
    events.countP (·.2 = i) < s.refs := by
  have hpos : 0 < (keptRegs ts regs).countP (·.1 = s.site.key) :=
    List.countP_pos_iff.mpr ⟨_, hreg, by simp⟩
  rw [hr.left h hs] at hpos
  omega

theorem Released.notMem_dead (hr : ch.Released events r) (hs : ch.LiveAt i s) :
    i ∉ r.dead ↔ events.countP (·.2 = i) < s.refs := by
  rw [hr.dead, ← not_iff_not, not_not, not_lt]
  constructor
  · rintro ⟨s', hs', hle⟩
    rwa [hs'.eq hs.1] at hle
  · exact fun hle => ⟨s, hs, hle⟩

theorem Released.length_refreshed (hr : ch.Released events r) (order : List Bytes) :
    (r.refreshed order).length = ch.sites.length := by
  have hrefreshed : r.refreshed order = r.ch.sites.mapIdx fun i s =>
      if i ∈ r.survivingNeedTuRefresh then
        order.foldl (fun s tu => if i ∈ r.ch.byTu tu then s.offered tu else s) s.cleared
      else s :=
    List.ext_getElem? fun i => by rw [getElem?_refreshed, List.getElem?_mapIdx]
  have hsites : r.ch.sites = ch.sites.mapIdx fun i s => s.released (events.countP (·.2 = i)) :=
    List.ext_getElem? fun i => by rw [hr.sites, List.getElem?_mapIdx]
  rw [hrefreshed, hsites, List.length_mapIdx, List.length_mapIdx]

end After

theorem ReleasedTus.covers {ts : List Bytes} {events : List (Bytes × ℕ)} {r : SiteRemoval}
    (hr : ch.ReleasedTus regs ts events r) {order : List Bytes}
    (horder : ∀ tu, tu ∉ ts → ch.byTu tu ≠ [] → tu ∈ order) :
    ∀ tu, r.ch.byTu tu ≠ [] → tu ∈ order := fun tu hne => by
  rw [congrFun hr.byTu tu] at hne
  by_cases hin : tu ∈ ts
  · exact absurd (if_pos hin) hne
  · exact horder tu hin (by rwa [if_neg hin] at hne)

/-- Of a site that stays only the TU may change. -/
theorem Inv.exists_of_liveAt_removeTUs (h : ch.Inv regs) {order tuPaths : List Bytes}
    (horder : ∀ tu, tu ∉ tuPaths.map toIndexText → ch.byTu tu ≠ [] → tu ∈ order) {i : ℕ}
    {s' : StoredSite} (hs' : (ch.removeTUs order tuPaths).1.LiveAt i s') :
    ∃ s tu, ch.LiveAt i s ∧ s'.site = { s.site with tuPath := tu } := by
  obtain ⟨events, hr⟩ := h.releasedTus tuPaths
  obtain ⟨s, tu, hs, -, rfl, -⟩ := hr.exists_of_live h (hr.covers horder) hs'.1 hs'.2
  exact ⟨s, tu, hs, rfl⟩

/-- **Removing TUs leaves the registrations of the others.** `order` lists the TUs that are left,
in the order in which the map yields them. -/
theorem Inv.removeTUs (h : ch.Inv regs) (order tuPaths : List Bytes)
    (horder : ∀ tu, tu ∉ tuPaths.map toIndexText → ch.byTu tu ≠ [] → tu ∈ order) :
    (ch.removeTUs order tuPaths).1.Inv (keptRegs (tuPaths.map toIndexText) regs) := by
  obtain ⟨events, hr⟩ := h.releasedTus tuPaths
  set ts := tuPaths.map toIndexText
  set r := tuPaths.foldl SiteRemoval.releaseTu { ch := ch } with hrdef
  have hleft : ∀ tu, r.ch.byTu tu ≠ [] → tu ∈ order := hr.covers horder
  have hsites : (ch.removeTUs order tuPaths).1.sites = r.refreshed order := rfl
  have hindex : (ch.removeTUs order tuPaths).1.index = r.ch.index := rfl
  have hbyTu : (ch.removeTUs order tuPaths).1.byTu = r.ch.byTu := rfl
  have hlive {i : ℕ} {s : StoredSite} (hs : (ch.removeTUs order tuPaths).1.LiveAt i s) :=
    hr.exists_of_live h hleft hs.1 hs.2
  have hstays {i : ℕ} {s : StoredSite} (hs : ch.LiveAt i s)
      (hn : events.countP (·.2 = i) < s.refs) :
      ∃ s', (ch.removeTUs order tuPaths).1.LiveAt i s' ∧ s'.site.key = s.site.key := by
    obtain ⟨tu, heq, -⟩ := hr.refreshed h hleft hs.1
    refine ⟨_, ⟨heq, ?_⟩, rfl⟩
    change (s.live && decide _) = true
    rw [hs.2, decide_eq_true hn, Bool.and_true]
  refine ⟨fun key i => ?_, fun x hx => ?_, fun i s' hs' => ?_, fun i s' hs' => ?_,
    fun i s' hs' hdead => ?_, fun tu i s' hs' htu => ?_, fun tu i hi => ?_, fun i s' hs' => ?_,
    fun m name => ?_, ?_⟩
  · rw [hindex, hr.index, Option.filter_eq_some_iff, h.index_iff, decide_eq_true_eq]
    constructor
    · rintro ⟨⟨s, hs, rfl⟩, hdead⟩
      exact hstays hs ((hr.notMem_dead hs).mp hdead)
    · rintro ⟨s', hs', hkey⟩
      obtain ⟨s, tu, hs, hn, rfl, -⟩ := hlive hs'
      exact ⟨⟨s, hs, hkey⟩, (hr.notMem_dead hs).mpr hn⟩
  · obtain ⟨i, hi⟩ := h.held x (mem_keptRegs.mp hx).1
    obtain ⟨s, hs, hkey⟩ := (h.index_iff _ _).mp hi
    have hx' : (s.site.key, x.2) ∈ keptRegs ts regs := by rwa [hkey]
    refine ⟨i, ?_⟩
    rw [hindex, hr.index, Option.filter_eq_some_iff, decide_eq_true_eq]
    exact ⟨hi, (hr.notMem_dead hs).mpr (hr.live_of_mem h hs hx')⟩
  · obtain ⟨s, tu, hs, -, rfl, -⟩ := hlive hs'
    exact (hr.left h hs).symm
  · obtain ⟨s, tu, -, hn, rfl, -⟩ := hlive hs'
    exact Nat.sub_pos_of_lt hn
  · rw [hsites] at hs'
    cases hold : ch.sites[i]? with
    | none =>
      rw [getElem?_refreshed, hr.sites, hold] at hs'
      cases hs'
    | some s₀ =>
      obtain ⟨tu, heq, -⟩ := hr.refreshed h hleft hold
      obtain rfl := Option.some_inj.mp (heq.symm.trans hs')
      change s₀.refs - _ = 0
      cases hwas : s₀.live with
      | false => rw [h.dead i s₀ hold hwas, Nat.zero_sub]
      | true =>
        have hgone : (s₀.live && decide (events.countP (·.2 = i) < s₀.refs)) = false := hdead
        rw [hwas, Bool.true_and, decide_eq_false_iff_not, not_lt] at hgone
        exact Nat.sub_eq_zero_of_le hgone
  · obtain ⟨s, t, hs, -, rfl, -⟩ := hlive hs'
    change ((ch.removeTUs order tuPaths).1.byTu tu).count i = (keptRegs ts regs).count (s.site.key, tu)
    rw [hbyTu, congrFun hr.byTu tu]
    by_cases hin : tu ∈ ts
    · rw [if_pos hin, count_keptRegs_of_mem htu hin, List.count_nil]
    · rw [if_neg hin, count_keptRegs_of_notMem hin, h.byTu tu i s hs htu]
  · rw [hbyTu] at hi
    have hi' := hi
    rw [congrFun hr.byTu tu] at hi'
    have hin : i ∈ ch.byTu tu := by
      by_cases hts : tu ∈ ts
      · rw [if_pos hts] at hi'
        cases hi'
      · rwa [if_neg hts] at hi'
    obtain ⟨htu, s, hs⟩ := h.byTu_live tu i hin
    obtain ⟨s', hs', -⟩ := hstays hs (hr.live_of_mem h hs ((hr.mem_byTu h hs).mp hi).2)
    exact ⟨htu, s', hs'⟩
  · obtain ⟨s, tu, -, -, rfl, hleast⟩ := hlive hs'
    exact hleast
  · have hlists : SiteMap.lists (ch.removeTUs order tuPaths).1 m name =
        (SiteMap.lists ch m name).filter (· ∉ r.dead) := by
      have hscrub : SiteMap.lists (ch.removeTUs order tuPaths).1 m =
          r.scrub (r.affected m) (SiteMap.lists r.ch m) := by cases m <;> rfl
      rw [hscrub, hr.lists, SiteRemoval.scrub]
      by_cases hname : name ∈ r.affected m
      · rw [if_pos hname]
      · -- no dead site belongs under a name that is not affected
        rw [if_neg hname, List.filter_eq_self.mpr]
        intro i hi
        rw [decide_eq_true_eq]
        rw [h.listed, mem_positions] at hi
        obtain ⟨s, hs, hholds⟩ := hi
        obtain ⟨hwas, hholds⟩ := Bool.and_eq_true_iff.mp hholds
        exact fun hdead => hname ((hr.affected m name).mpr ⟨i, hdead, s, ⟨hs, hwas⟩, hholds⟩)
    rw [hlists, h.listed, hsites]
    symm
    refine positions_filter (hr.length_refreshed order) fun i s s' hs hs' => ?_
    obtain ⟨tu, heq, -⟩ := hr.refreshed h hleft hs
    obtain rfl := Option.some_inj.mp (heq.symm.trans hs')
    have hholds : m.holds name ((s.released (events.countP (·.2 = i))).named tu).site =
        m.holds name s.site := by cases m <;> rfl
    change ((s.live && decide (events.countP (·.2 = i) < s.refs)) && _) = _
    rw [hholds]
    cases hwas : s.live with
    | false => rfl
    | true =>
      simp only [Bool.true_and, ← hr.notMem_dead ⟨hs, hwas⟩]
      exact Bool.and_comm _ _
  · have hsame : (r.refreshed order).map (·.live) = r.ch.sites.map (·.live) := by
      refine List.ext_getElem? fun i => ?_
      rw [List.getElem?_map, List.getElem?_map]
      cases hs : ch.sites[i]? with
      | none => rw [getElem?_refreshed, hr.sites, hs]; rfl
      | some s =>
        obtain ⟨tu, heq, -⟩ := hr.refreshed h hleft hs
        rw [heq, hr.sites, hs]
        rfl
    have hcount (l : List StoredSite) : l.countP (·.live) = (l.map (·.live)).countP id := by
      rw [List.countP_map]
      rfl
    rw [hsites, hcount, hsame, ← hcount]
    exact hr.liveCount

end ChannelIndex

end Vycor
