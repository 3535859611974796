import Vycor.Channels.Ledger

/-!
# Compacting a channel index

`compact` drops the tombstones and renumbers the sites that are left. The ledger stays
(`Inv.compact`).
-/

namespace Vycor

namespace ChannelIndex

/-- `oldToNew` of a live site: how many live sites stand before it. -/
def oldToNew (ch : ChannelIndex) (i : ℕ) : ℕ := rank (·.live) ch.sites i

/-- `remapInto`: the positions that are live, renumbered. -/
def remap (ch : ChannelIndex) (m : Bytes → List ℕ) : Bytes → List ℕ := fun k =>
  ((m k).filter fun i => ch.sites[i]?.any (·.live)).map ch.oldToNew

/-- `compact`. -/
def compact (ch : ChannelIndex) : ChannelIndex :=
  { ch with
    sites := ch.sites.filter (·.live)
    index := fun key => ((ch.index key).filter fun i => ch.sites[i]?.any (·.live)).map ch.oldToNew
    byChannel := ch.remap ch.byChannel
    channelKeys := ch.channelKeys.filter fun c => ch.remap ch.byChannel c ≠ []
    byFunctionUsr := ch.remap ch.byFunctionUsr
    byFunctionDisplay := ch.remap ch.byFunctionDisplay
    byTu := ch.remap ch.byTu }

variable {ch : ChannelIndex} {regs : List SiteRegistration}

/-- A site that is live after compacting was live before, where `oldToNew` says. -/
theorem liveAt_compact {j : ℕ} {s : StoredSite} :
    ch.compact.LiveAt j s ↔ ∃ i, ch.LiveAt i s ∧ ch.oldToNew i = j := by
  have hsites : ch.compact.sites = ch.sites.filter (·.live) := rfl
  simp only [LiveAt, hsites, getElem?_filter_iff, oldToNew]
  constructor
  · rintro ⟨⟨i, hi, hlive, hj⟩, -⟩
    exact ⟨i, ⟨hi, hlive⟩, hj⟩
  · rintro ⟨i, ⟨hi, hlive⟩, hj⟩
    exact ⟨⟨i, hi, hlive, hj⟩, hlive⟩

theorem LiveAt.any {i : ℕ} {s : StoredSite} (hs : ch.LiveAt i s) :
    ch.sites[i]?.any (·.live) = true := by
  rw [hs.1]
  exact hs.2

theorem LiveAt.oldToNew_inj {i j : ℕ} {s t : StoredSite} (hi : ch.LiveAt i s)
    (hj : ch.LiveAt j t) : ch.oldToNew i = ch.oldToNew j ↔ i = j :=
  ⟨rank_inj hi.1 hi.2 hj.1 hj.2, fun h => by rw [h]⟩

/-- The positions of live sites are only renumbered. -/
theorem remap_of_live {m : Bytes → List ℕ} {k : Bytes} (hm : ∀ i ∈ m k, ∃ s, ch.LiveAt i s) :
    ch.remap m k = (m k).map ch.oldToNew := by
  rw [remap, List.filter_eq_self.mpr]
  intro i hi
  obtain ⟨s, hs⟩ := hm i hi
  exact hs.any

/-- **Compacting keeps the ledger.** -/
theorem Inv.compact (h : ch.Inv regs) : ch.compact.Inv regs := by
  have hindex (key : SiteKey) : ch.compact.index key = (ch.index key).map ch.oldToNew := by
    cases hkey : ch.index key with
    | none =>
      change ((ch.index key).filter _).map _ = _
      rw [hkey]
      rfl
    | some i =>
      obtain ⟨s, hs, -⟩ := (h.index_iff key i).mp hkey
      change ((ch.index key).filter _).map _ = _
      rw [hkey, Option.filter_some, if_pos hs.any]
  have hbyTu (tu : Bytes) : ch.compact.byTu tu = (ch.byTu tu).map ch.oldToNew :=
    remap_of_live fun i hi => (h.byTu_live tu i hi).2
  refine ⟨fun key j => ?_, fun r hr => ?_, fun j s hs => ?_, fun j s hs => ?_,
    fun j s hs hdead => ?_, fun tu j s hs htu => ?_, fun tu j hj => ?_, fun j s hs => ?_,
    fun m name => ?_, ?_⟩
  · rw [hindex, Option.map_eq_some_iff]
    constructor
    · rintro ⟨i, hi, rfl⟩
      obtain ⟨s, hs, hkey⟩ := (h.index_iff key i).mp hi
      exact ⟨s, liveAt_compact.mpr ⟨i, hs, rfl⟩, hkey⟩
    · rintro ⟨s, hs, hkey⟩
      obtain ⟨i, hs, hj⟩ := liveAt_compact.mp hs
      exact ⟨i, (h.index_iff key i).mpr ⟨s, hs, hkey⟩, hj⟩
  · obtain ⟨i, hi⟩ := h.held r hr
    exact ⟨_, by rw [hindex, hi, Option.map_some]⟩
  · obtain ⟨i, hs, -⟩ := liveAt_compact.mp hs
    exact h.refs i s hs
  · obtain ⟨i, hs, -⟩ := liveAt_compact.mp hs
    exact h.positive i s hs
  · obtain ⟨i, -, hlive, -⟩ := getElem?_filter_iff.mp hs
    exact absurd (hlive.symm.trans hdead) (by decide)
  · obtain ⟨i, hi, rfl⟩ := liveAt_compact.mp hs
    rw [hbyTu, ← h.byTu tu i s hi htu, List.count_eq_countP, List.count_eq_countP, List.countP_map]
    refine List.countP_congr fun k hk => ?_
    obtain ⟨-, t, ht⟩ := h.byTu_live tu k hk
    simp only [Function.comp_apply, beq_iff_eq, ht.oldToNew_inj hi]
  · rw [hbyTu] at hj
    obtain ⟨i, hi, rfl⟩ := List.mem_map.mp hj
    obtain ⟨htu, s, hs⟩ := h.byTu_live tu i hi
    exact ⟨htu, s, liveAt_compact.mpr ⟨i, hs, rfl⟩⟩
  · obtain ⟨i, hs, -⟩ := liveAt_compact.mp hs
    exact h.least i s hs
  · have hlists : SiteMap.lists ch.compact m name = ch.remap (SiteMap.lists ch m) name := by
      cases m <;> rfl
    have hsites : ch.compact.sites = ch.sites.filter (·.live) := rfl
    have hboth (s : StoredSite) :
        (s.live && (s.live && m.holds name s.site)) = (s.live && m.holds name s.site) := by
      rw [← Bool.and_assoc, Bool.and_self]
    rw [hlists, hsites, positions_filter_map, remap_of_live]
    · simp only [hboth, h.listed]
      rfl
    · intro i hi
      rw [h.listed, mem_positions] at hi
      obtain ⟨s, hs, hlive⟩ := hi
      exact ⟨s, hs, (Bool.and_eq_true_iff.mp hlive).1⟩
  · have hsites : ch.compact.sites = ch.sites.filter (·.live) := rfl
    rw [hsites, List.countP_filter]
    simp only [Bool.and_self]
    exact h.liveCount

end ChannelIndex

end Vycor
