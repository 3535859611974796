import Vycor.Channels.Remove
import Vycor.Channels.Section

/-!
# Channel indexes built by any sequence of operations

`Built ch regs`: the index comes from an empty one by adding sites, absorbing other indexes,
removing TUs, compacting and going through a snapshot, and `regs` are the registrations that
were made and not removed. The counts, the TUs and the lookup maps are those of the ledger
(`Built.accounts`), so two indexes with one ledger agree whatever their histories
(`Built.agree_of_perm`), and saving and loading changes nothing (`Built.load_save`).
-/

namespace Vycor

namespace ChannelIndex

variable {ll : Llvm} {ch ch' shard : ChannelIndex} {regs regs' : List SiteRegistration}
  {tuOrder : List Bytes}

/-! ### What the sites keep -/

/-- Every live site has a property. -/
def Holds (P : ChannelSite → Prop) (ch : ChannelIndex) : Prop := ∀ i s, ch.LiveAt i s → P s.site

section Holds

variable {P : ChannelSite → Prop} (hP : ∀ s t, P s → P { s with tuPath := t })

include hP

theorem Holds.addSiteRefs (h : ch.Holds P) {site : ChannelSite} (hsite : P site) (count : ℕ) :
    (ch.addSiteRefs site count).Holds P := by
  intro i s hs
  rw [ChannelIndex.addSiteRefs] at hs
  by_cases hcount : count = 0
  · rw [if_pos hcount] at hs
    exact h i s hs
  · rw [if_neg hcount] at hs
    cases hidx : ch.index site.key with
    | some idx =>
      rw [hidx] at hs
      obtain ⟨s₀, hs₀, rfl⟩ := liveAt_registerAgain.mp hs
      have hold := h i s₀ hs₀
      split
      · simp only [StoredSite.again]
        split
        · exact hP _ _ hold
        · exact hold
      · exact hold
    | none =>
      rw [hidx] at hs
      have hnew : ch.sites ++ [⟨site, count, true⟩] = (ch.insertSite site count []).sites := rfl
      have hlive : (ch.insertSite site count []).LiveAt i s := by
        refine ⟨?_, hs.2⟩
        rw [← hnew]
        have := hs.1
        simp only [recordTu] at this
        split at this
        · exact this
        · exact this
      rcases liveAt_insertSite.mp hlive with hold | ⟨-, rfl⟩
      · exact h i s hold
      · exact hsite

theorem Holds.replay {site : ChannelSite} (hsite : P site) (refs : ℕ) (tus : List Bytes)
    (replayed : ℕ) (h : ch.Holds P) : (ChannelIndex.replay site refs tus replayed ch).1.Holds P := by
  induction hlen : tus.length using Nat.strong_induction_on generalizing tus replayed ch with
  | h len ih =>
    cases tus with
    | nil =>
      rw [ChannelIndex.replay]
      exact h
    | cons tu tus =>
      rw [ChannelIndex.replay]
      split
      · refine ih (tus.dropWhile (· = tu)).length ?_ _ _ (h.addSiteRefs hP (hP _ _ hsite) _) rfl
        rw [← hlen]
        exact Nat.lt_succ_of_le (List.dropWhile_suffix _).length_le
      · exact h

theorem Holds.absorb (h : ch.Holds P) (h' : shard.Holds P) : (ch.absorb shard tuOrder).Holds P := by
  have hfold (l : List (StoredSite × ℕ)) (hl : ∀ p ∈ l, P p.1.site) (ch : ChannelIndex)
      (h : ch.Holds P) :
      (l.foldl (fun ch p => ch.absorbSite p.1 (shard.siteTus tuOrder p.2)) ch).Holds P := by
    induction l generalizing ch with
    | nil => exact h
    | cons p l ih =>
      have hsite := hl p (.head _)
      exact ih (fun q hq => hl q (.tail _ hq)) _
        ((h.replay hP hsite _ _ _).addSiteRefs hP (hP _ _ hsite) _)
  refine hfold _ (fun p hp => ?_) ch h
  obtain ⟨hmem, hlive⟩ := List.mem_filter.mp hp
  exact h' p.2 p.1 ⟨List.mem_zipIdx_iff_getElem?.mp hmem, (Bool.and_eq_true_iff.mp hlive).1⟩

theorem Holds.removeTUs (h : ch.Holds P) (hinv : ch.Inv regs) (order tuPaths : List Bytes)
    (horder : ∀ tu, tu ∉ tuPaths.map toIndexText → ch.byTu tu ≠ [] → tu ∈ order) :
    (ch.removeTUs order tuPaths).1.Holds P := by
  intro i s hs
  obtain ⟨s₀, tu, hs₀, hsite⟩ := hinv.exists_of_liveAt_removeTUs horder hs
  rw [hsite]
  exact hP _ _ (h i s₀ hs₀)

omit hP in
theorem Holds.compact (h : ch.Holds P) : ch.compact.Holds P := fun j s hs => by
  obtain ⟨i, hs, -⟩ := liveAt_compact.mp hs
  exact h i s hs

end Holds

/-! ### Runs -/

/-- The index is built by a run of operations, `regs` being the registrations that were made and
not removed. A load reads what was saved, within the limits of the format. -/
inductive Built (ll : Llvm) : ChannelIndex → List SiteRegistration → Prop
  | empty : Built ll {} []
  | addSite {ch : ChannelIndex} {regs : List SiteRegistration} (h : Built ll ch regs)
      (site : ChannelSite) :
      Built ll (ch.addSite site) (regs ++ [(site.stored.key, site.stored.tuPath)])
  | absorb {ch shard : ChannelIndex} {regs regs' : List SiteRegistration} {tuOrder : List Bytes}
      (h : Built ll ch regs) (h' : Built ll shard regs') (horder : shard.ListsTus tuOrder) :
      Built ll (ch.absorb shard tuOrder) (regs ++ regs')
  | removeTUs {ch : ChannelIndex} {regs : List SiteRegistration} (h : Built ll ch regs)
      (order tuPaths : List Bytes)
      (horder : ∀ tu, tu ∉ tuPaths.map toIndexText → ch.byTu tu ≠ [] → tu ∈ order) :
      Built ll (ch.removeTUs order tuPaths).1 (keptRegs (tuPaths.map toIndexText) regs)
  | compact {ch : ChannelIndex} {regs : List SiteRegistration} (h : Built ll ch regs) :
      Built ll ch.compact regs
  | load {ch ch' : ChannelIndex} {regs : List SiteRegistration} {tuOrder : List Bytes}
      (h : Built ll ch regs) (horder : ch.ListsTus tuOrder) (hfits : ch.SectionFits tuOrder)
      (hload : loadChannels ll (ch.saveChannels tuOrder) = some ch') : Built ll ch' regs

/-- **Every operation keeps the ledger and the texts.** -/
theorem Built.spec (hll : ll.AcceptsUtf8) (h : Built ll ch regs) : ch.Inv regs ∧ ch.IsText regs := by
  have hP : ∀ (s : ChannelSite) (t : Bytes), s.IsText → ({ s with tuPath := t } : ChannelSite).IsText :=
    fun s t hs => hs
  induction h with
  | empty => exact ⟨Inv.empty, fun i s hs => by simp [LiveAt] at hs, fun r hr => by cases hr⟩
  | addSite _ site ih =>
    refine ⟨ih.1.addSite site, Holds.addSiteRefs hP ih.2.site site.isText_stored 1, fun r hr => ?_⟩
    rcases List.mem_append.mp hr with hr | hr
    · exact ih.2.tu r hr
    · rw [List.mem_singleton.mp hr]
      exact utf8Text_toIndexText _
  | absorb _ _ horder ih ih' =>
    refine ⟨ih.1.absorb ih'.1 horder, Holds.absorb hP ih.2.site ih'.2.site, fun r hr => ?_⟩
    rcases List.mem_append.mp hr with hr | hr
    · exact ih.2.tu r hr
    · exact ih'.2.tu r hr
  | removeTUs _ order tuPaths horder ih =>
    exact ⟨ih.1.removeTUs order tuPaths horder, Holds.removeTUs hP ih.2.site ih.1 order tuPaths horder,
      fun r hr => ih.2.tu r (mem_keptRegs.mp hr).1⟩
  | compact _ ih => exact ⟨ih.1.compact, Holds.compact ih.2.site, ih.2.tu⟩
  | load _ horder hfits hload ih =>
    obtain ⟨ch', heq, hinv, hsites⟩ := ih.1.loadChannels hll ih.2 horder hfits
    obtain rfl := Option.some_inj.mp (heq.symm.trans hload)
    refine ⟨hinv, fun i s hs => ?_, ih.2.tu⟩
    exact Holds.compact ih.2.site i s ⟨hsites ▸ hs.1, hs.2⟩

/-! ### The ledger accounts for the index -/

/-- **What the index says about its registrations.** -/
structure Accounts (ch : ChannelIndex) (regs : List SiteRegistration) : Prop where
  refs : ∀ i s, ch.LiveAt i s → 0 < s.refs ∧ ∀ order, ch.ListsTus order →
    s.refs = regs.count (s.site.key, []) + (order.map fun tu => (ch.byTu tu).count i).sum
  registrations : ∀ i s, ch.LiveAt i s → ∀ tu, tu ≠ [] →
    (ch.byTu tu).count i = regs.count (s.site.key, tu)
  tuPath : ∀ i s, ch.LiveAt i s → (s.site.tuPath = [] ∧ ∀ tu, i ∉ ch.byTu tu) ∨
    (i ∈ ch.byTu s.site.tuPath ∧ ∀ tu, i ∈ ch.byTu tu → s.site.tuPath ≤ tu)
  byTu : ∀ tu, ∀ i ∈ ch.byTu tu, tu ≠ [] ∧ ∃ s, ch.LiveAt i s
  index : ∀ key i, ch.index key = some i ↔ ∃ s, ch.LiveAt i s ∧ s.site.key = key
  lists : ∀ m name, (SiteMap.lists ch m name).Nodup ∧ ∀ i, i ∈ SiteMap.lists ch m name ↔
    ∃ s, ch.LiveAt i s ∧ SiteMap.holds name s.site m = true
  liveCount : ch.liveCount = ch.liveSites.length

/-- A site of a header that TUs share. -/
def sharedSite (tu : Bytes) : ChannelSite where
  channelId := text "q"
  siteFunctionUsr := text "f"
  siteFunctionDisplay := text "f()"
  callSite := text "q.h:3:5"
  tuPath := tu

/-- The keys of the live sites are those of the ledger. -/
theorem Inv.mem_keys (h : ch.Inv regs) {key : SiteKey} :
    key ∈ ch.liveSites.map (fun p => p.1.site.key) ↔ ∃ r ∈ regs, r.1 = key := by
  constructor
  · intro hkey
    obtain ⟨p, hp, rfl⟩ := List.mem_map.mp hkey
    have hpos := h.positive _ _ (mem_liveSites.mp hp)
    rw [h.refs _ _ (mem_liveSites.mp hp), List.countP_pos_iff] at hpos
    obtain ⟨r, hr, heq⟩ := hpos
    exact ⟨r, hr, by simpa using heq⟩
  · rintro ⟨r, hr, rfl⟩
    obtain ⟨i, hi⟩ := h.held r hr
    obtain ⟨s, hs, hkey⟩ := (h.index_iff _ _).mp hi
    exact List.mem_map.mpr ⟨(s, i), mem_liveSites.mpr hs, hkey⟩

/-- **Two indexes with the same ledger agree**, whatever their histories. -/
theorem Built.agree_of_perm (hll : ll.AcceptsUtf8) (h : Built ll ch regs) (h' : Built ll ch' regs')
    (hperm : regs.Perm regs') :
    ch.liveCount = ch'.liveCount ∧ ∀ i s, ch.LiveAt i s → ∃ j s', ch'.LiveAt j s' ∧
      s'.site.key = s.site.key ∧ s'.refs = s.refs ∧ s'.site.tuPath = s.site.tuPath ∧
        ∀ tu, (ch'.byTu tu).count j = (ch.byTu tu).count i := by
  have hinv := (h.spec hll).1
  have hinv' := ((h'.spec hll).1).perm hperm.symm
  constructor
  · have hkeys := (List.perm_ext_iff_of_nodup hinv.nodup_keys hinv'.nodup_keys).mpr fun key => by
      rw [hinv.mem_keys, hinv'.mem_keys]
    rw [← hinv.length_liveSites, ← hinv'.length_liveSites]
    simpa using hkeys.length_eq
  · intro i s hs
    have hkey : s.site.key ∈ ch'.liveSites.map fun p => p.1.site.key := by
      rw [hinv'.mem_keys, ← hinv.mem_keys]
      exact List.mem_map.mpr ⟨(s, i), mem_liveSites.mpr hs, rfl⟩
    obtain ⟨⟨s', j⟩, hp, heq⟩ := List.mem_map.mp hkey
    have hs' : ch'.LiveAt j s' := mem_liveSites.mp hp
    have heq : s'.site.key = s.site.key := heq
    refine ⟨j, s', hs', heq, ?_, ?_, fun tu => ?_⟩
    · rw [hinv'.refs j s' hs', hinv.refs i s hs, heq]
    · exact leastTu_unique (heq ▸ hinv'.least j s' hs') (hinv.least i s hs)
    · by_cases htu : tu = []
      · rw [List.count_eq_zero.mpr fun hmem => (hinv'.byTu_live tu j hmem).1 htu,
          List.count_eq_zero.mpr fun hmem => (hinv.byTu_live tu i hmem).1 htu]
      · rw [hinv'.byTu tu j s' hs' htu, hinv.byTu tu i s hs htu, heq]

theorem Built.agree_of_perm_shared :
    ((({} : ChannelIndex).addSite (sharedSite (text "a"))).addSite (sharedSite (text "b"))).liveCount =
      ((({} : ChannelIndex).addSite (sharedSite (text "b"))).addSite
        (sharedSite (text "a"))).liveCount :=
  (Built.agree_of_perm acceptsUtf8_utf8Llvm
    (.addSite (.addSite .empty (sharedSite (text "a"))) (sharedSite (text "b")))
    (.addSite (.addSite .empty (sharedSite (text "b"))) (sharedSite (text "a")))
    (List.Perm.swap _ _ [])).1

/-! ### Saving and loading -/

/-- The sites and the ledger determine the rest of the index, but for the order within a TU. -/
theorem Inv.eq_of_sites (h : ch.Inv regs) (h' : ch'.Inv regs) (hsites : ch'.sites = ch.sites) :
    ch'.index = ch.index ∧ SiteMap.lists ch' = SiteMap.lists ch ∧
      ch'.liveCount = ch.liveCount ∧ ∀ tu, (ch'.byTu tu).Perm (ch.byTu tu) := by
  have hlive (i : ℕ) (s : StoredSite) : ch'.LiveAt i s ↔ ch.LiveAt i s := by
    rw [LiveAt, LiveAt, hsites]
  refine ⟨funext fun key => Option.ext fun i => ?_, funext fun m => funext fun name => ?_, ?_,
    fun tu => List.perm_iff_count.mpr fun i => ?_⟩
  · rw [h.index_iff, h'.index_iff]
    simp only [hlive]
  · rw [h.listed, h'.listed, hsites]
  · rw [h.liveCount, h'.liveCount, hsites]
  · by_cases hat : ∃ s, ch.LiveAt i s
    · obtain ⟨s, hs⟩ := hat
      by_cases htu : tu = []
      · rw [List.count_eq_zero.mpr fun hmem => (h'.byTu_live tu i hmem).1 htu,
          List.count_eq_zero.mpr fun hmem => (h.byTu_live tu i hmem).1 htu]
      · rw [h.byTu tu i s hs htu, h'.byTu tu i s ((hlive i s).mpr hs) htu]
    · have hnone : ∀ s, ¬ ch'.LiveAt i s := fun s hs => hat ⟨s, (hlive i s).mp hs⟩
      rw [List.count_eq_zero.mpr fun hmem => hat (h.byTu_live tu i hmem).2,
        List.count_eq_zero.mpr fun hmem => (h'.byTu_live tu i hmem).2.elim hnone]

/-- **A snapshot gives back the compacted index.** -/
theorem Built.load_save (hll : ll.AcceptsUtf8) (h : Built ll ch regs) (horder : ch.ListsTus tuOrder)
    (hfits : ch.SectionFits tuOrder) :
    ∃ ch', loadChannels ll (ch.saveChannels tuOrder) = some ch' ∧
      ch'.sites = ch.compact.sites ∧ ch'.index = ch.compact.index ∧
      SiteMap.lists ch' = SiteMap.lists ch.compact ∧ ch'.liveCount = ch.compact.liveCount ∧
      ∀ tu, (ch'.byTu tu).Perm (ch.compact.byTu tu) := by
  obtain ⟨hinv, htext⟩ := h.spec hll
  obtain ⟨ch', hload, hinv', hsites⟩ := hinv.loadChannels hll htext horder hfits
  obtain ⟨hindex, hlists, hcount, hbyTu⟩ := hinv.compact.eq_of_sites hinv' hsites
  exact ⟨ch', hload, hsites, hindex, hlists, hcount, hbyTu⟩

theorem sites_sharedSite : (({} : ChannelIndex).addSite (sharedSite (text "a"))).sites =
    [⟨(sharedSite (text "a")).stored, 1, true⟩] := by decide +kernel

theorem listsTus_sharedSite :
    (({} : ChannelIndex).addSite (sharedSite (text "a"))).ListsTus [text "a"] := by
  refine ⟨by decide, fun tu htu => ?_⟩
  by_contra hne
  have hother : tu ≠ (sharedSite (text "a")).stored.tuPath := fun heq =>
    hne (List.mem_singleton.mpr (heq.trans (by decide +kernel)))
  exact htu (Function.update_of_ne hother _ _)

theorem sectionFits_sharedSite :
    (({} : ChannelIndex).addSite (sharedSite (text "a"))).SectionFits [text "a"] := by
  refine ⟨by decide +kernel, fun i s hs => ?_⟩
  have hat := hs.1
  rw [sites_sharedSite] at hat
  cases i with
  | zero =>
    obtain rfl := Option.some_inj.mp hat
    exact ⟨⟨by decide +kernel, by decide +kernel⟩, by decide, by decide +kernel⟩
  | succ i => cases hat

theorem Built.load_save_shared :
    ∃ ch', loadChannels utf8Llvm
        ((({} : ChannelIndex).addSite (sharedSite (text "a"))).saveChannels [text "a"]) = some ch' ∧
      ch'.sites = (({} : ChannelIndex).addSite (sharedSite (text "a"))).compact.sites := by
  obtain ⟨ch', hload, hsame, -⟩ := Built.load_save acceptsUtf8_utf8Llvm
    (.addSite .empty (sharedSite (text "a"))) listsTus_sharedSite sectionFits_sharedSite
  exact ⟨ch', hload, hsame⟩

end ChannelIndex

end Vycor
