import Vycor.Channels.Ledger
import Vycor.Lib.Keyed

/-!
# Absorbing a shard of channel sites

`absorb` replays the registrations of a shard, those of each TU under that TU and the others
without one. The index ends up with the ledger it would have had if they had been made on it
directly (`Inv.absorb`).
-/

namespace Vycor

namespace ChannelIndex

/-! ### The code -/

/-- The TUs of the registrations of a site: an entry of `siteTus`, sorted. `tuOrder` are the keys
of `byTu` in the order the map yields them. -/
def siteTus (ch : ChannelIndex) (tuOrder : List Bytes) (i : ℕ) : List Bytes :=
  (tuOrder.flatMap fun tu => ((ch.byTu tu).filter (· = i)).map fun _ => tu).insertionSort (· ≤ ·)

/-- The loop over the TUs of a site, runs of the same TU in one call; the second component is
`replayed`. -/
def replay (site : ChannelSite) (refs : ℕ) :
    List Bytes → ℕ → ChannelIndex → ChannelIndex × ℕ
  | [], replayed, ch => (ch, replayed)
  | tu :: tus, replayed, ch =>
    if replayed < refs then
      let n := min (1 + (tus.takeWhile (· = tu)).length) (refs - replayed)
      replay site refs (tus.dropWhile (· = tu)) (replayed + n)
        (ch.addSiteRefs { site with tuPath := tu } n)
    else (ch, replayed)
termination_by tus => tus.length
decreasing_by exact Nat.lt_succ_of_le (List.dropWhile_suffix _).length_le

/-- The registrations of one site of the shard. -/
def absorbSite (ch : ChannelIndex) (stored : StoredSite) (tus : List Bytes) : ChannelIndex :=
  let r := replay stored.site stored.refs tus 0 ch
  r.1.addSiteRefs { stored.site with tuPath := [] } (stored.refs - r.2)

/-- `absorb` of another index. -/
def absorb (ch shard : ChannelIndex) (tuOrder : List Bytes) : ChannelIndex :=
  (shard.sites.zipIdx.filter fun p => p.1.live && p.1.refs ≠ 0).foldl
    (fun ch p => ch.absorbSite p.1 (shard.siteTus tuOrder p.2)) ch

/-- The keys of `byTu` in some order. -/
def ListsTus (ch : ChannelIndex) (tuOrder : List Bytes) : Prop :=
  tuOrder.Nodup ∧ ∀ tu, ch.byTu tu ≠ [] → tu ∈ tuOrder

variable {ch shard : ChannelIndex} {regs regs' : List SiteRegistration} {tuOrder : List Bytes}

/-! ### One site -/

section Site

variable {site : ChannelSite} {refs : ℕ}

/-- **The loop replays every registration.** -/
theorem Inv.replay (h : ch.Inv regs) (site : ChannelSite) {tus : List Bytes} (replayed : ℕ)
    (hrefs : replayed + tus.length ≤ refs) :
    (ChannelIndex.replay site refs tus replayed ch).1.Inv (regs ++ tus.map (site.key, ·)) ∧
      (ChannelIndex.replay site refs tus replayed ch).2 = replayed + tus.length := by
  induction hlen : tus.length using Nat.strong_induction_on generalizing tus replayed ch regs with
  | h len ih =>
    cases tus with
    | nil =>
      subst hlen
      rw [ChannelIndex.replay]
      exact ⟨by simpa using h, rfl⟩
    | cons tu tus =>
      have hsplit : tus = tus.takeWhile (· = tu) ++ tus.dropWhile (· = tu) :=
        List.takeWhile_append_dropWhile.symm
      have hlength := congrArg List.length hsplit
      rw [List.length_append] at hlength
      rw [List.length_cons] at hlen hrefs
      set run := tus.takeWhile (· = tu) with hrun
      set rest := tus.dropWhile (· = tu) with hrest
      have hall : run = List.replicate run.length tu :=
        List.eq_replicate_iff.mpr ⟨rfl, fun t ht => by simpa using List.mem_takeWhile_imp ht⟩
      have hn : min (1 + run.length) (refs - replayed) = run.length + 1 := by omega
      have hstep := h.addSiteRefs { site with tuPath := tu } (run.length + 1)
      obtain ⟨hinv, hcount⟩ := ih rest.length (by omega) hstep
        (replayed + (run.length + 1)) (by omega) rfl
      have hregs : regs ++ List.replicate (run.length + 1) (site.key, tu) ++
          rest.map (site.key, ·) = regs ++ (tu :: tus).map (site.key, ·) := by
        rw [hsplit, hall, List.append_assoc, List.map_cons, List.map_append, List.map_replicate,
          List.replicate_succ, List.length_replicate]
        rfl
      have heq : ChannelIndex.replay site refs (tu :: tus) replayed ch =
          ChannelIndex.replay site refs rest (replayed + (run.length + 1))
            (ch.addSiteRefs { site with tuPath := tu } (run.length + 1)) := by
        rw [ChannelIndex.replay, if_pos (by omega), ← hrun, ← hrest, hn]
      rw [heq]
      refine ⟨hregs ▸ hinv, ?_⟩
      rw [hcount]
      omega

theorem Inv.absorbSite (h : ch.Inv regs) {stored : StoredSite} {tus : List Bytes}
    (hrefs : tus.length ≤ stored.refs) :
    (ch.absorbSite stored tus).Inv (regs ++ siteRegs stored.site.key tus stored.refs) := by
  have hfits : 0 + tus.length ≤ stored.refs := by rwa [Nat.zero_add]
  obtain ⟨hinv, hcount⟩ := h.replay stored.site 0 hfits
  have hrest := hinv.addSiteRefs { stored.site with tuPath := [] } (stored.refs - (0 + tus.length))
  rw [List.append_assoc, Nat.zero_add] at hrest
  rw [ChannelIndex.absorbSite, hcount, Nat.zero_add]
  exact hrest

end Site

/-! ### The whole shard -/

/-- A list split by a key that tells the items of another apart. -/
theorem perm_flatMap_filter {α ι κ : Type*} [DecidableEq κ] {f : α → κ} {key : ι → κ}
    {items : List ι} (hnodup : (items.map key).Nodup) {l : List α}
    (hl : ∀ x ∈ l, f x ∈ items.map key) :
    l.Perm (items.flatMap fun p => l.filter fun x => f x = key p) := by
  induction items generalizing l with
  | nil =>
    rw [List.eq_nil_iff_forall_not_mem.mpr fun x hx => List.not_mem_nil (hl x hx)]
    rfl
  | cons p items ih =>
    rw [List.map_cons, List.nodup_cons] at hnodup
    have hrest := ih hnodup.2 (l := l.filter fun x => !decide (f x = key p)) fun x hx => by
      obtain ⟨hx, hne⟩ := List.mem_filter.mp hx
      have hmem := hl x hx
      rw [List.map_cons, List.mem_cons] at hmem
      exact hmem.resolve_left (by simpa using hne)
    have hsame : (items.flatMap fun q =>
        (l.filter fun x => !decide (f x = key p)).filter fun x => f x = key q) =
          items.flatMap fun q => l.filter fun x => f x = key q := by
      refine List.flatMap_congr fun q hq => ?_
      rw [List.filter_filter]
      refine List.filter_congr fun x _ => ?_
      have hne : key q ≠ key p := fun heq => hnodup.1 (heq ▸ List.mem_map_of_mem hq)
      by_cases hx : f x = key q
      · simp [hx, hne]
      · simp [hx]
    rw [List.flatMap_cons, ← hsame]
    exact (List.filter_append_perm (fun x => decide (f x = key p)) l).symm.trans
      (List.Perm.append_left _ hrest)

/-- The registrations of a site are known by those its TUs made. -/
theorem perm_siteRegs (key : SiteKey) (tus : List Bytes) {l : List SiteRegistration}
    (hkey : ∀ x ∈ l, x.1 = key) (htus : ∀ tu ∈ tus, tu ≠ [])
    (hcount : ∀ tu, tu ≠ [] → l.count (key, tu) = tus.count tu) :
    tus.length ≤ l.length ∧ l.Perm (siteRegs key tus l.length) := by
  have hsplit := List.filter_append_perm (fun x : SiteRegistration => decide (x.2 ≠ [])) l
  have hby : (l.filter fun x => decide (x.2 ≠ [])).Perm (tus.map (key, ·)) := by
    refine List.perm_iff_count.mpr fun x => ?_
    obtain ⟨k, t⟩ := x
    by_cases hin : k = key ∧ t ≠ []
    · obtain ⟨rfl, ht⟩ := hin
      have hinj : Function.Injective fun t : Bytes => (k, t) := fun _ _ h => (Prod.mk.inj h).2
      rw [List.count_map_of_injective _ _ hinj, ← hcount t ht]
      exact List.count_filter (by simpa using ht)
    · have hleft : (k, t) ∉ l.filter fun x => decide (x.2 ≠ []) := fun hmem =>
        hin ⟨hkey _ (List.mem_filter.mp hmem).1, by simpa using (List.mem_filter.mp hmem).2⟩
      have hright : (k, t) ∉ tus.map (key, ·) := fun hmem => by
        obtain ⟨t', ht', heq⟩ := List.mem_map.mp hmem
        cases heq
        exact hin ⟨rfl, htus t ht'⟩
      rw [List.count_eq_zero.mpr hleft, List.count_eq_zero.mpr hright]
  have hrest : (l.filter fun x => !decide (x.2 ≠ [])) =
      List.replicate (l.filter fun x => !decide (x.2 ≠ [])).length (key, []) :=
    List.eq_replicate_iff.mpr ⟨rfl, fun x hx => by
      obtain ⟨hx, hnil⟩ := List.mem_filter.mp hx
      exact Prod.ext (hkey x hx) (by simpa using hnil)⟩
  have hlength := hsplit.length_eq
  rw [List.length_append, hby.length_eq, List.length_map] at hlength
  refine ⟨by omega, ?_⟩
  rw [siteRegs, ← hlength, Nat.add_sub_cancel_left, ← hrest]
  exact hsplit.symm.trans (hby.append_right _)

/-- How often a TU is among those of a site. -/
theorem count_siteTus (horder : ch.ListsTus tuOrder) (i : ℕ) (tu : Bytes) :
    (ch.siteTus tuOrder i).count tu = (ch.byTu tu).count i := by
  have hkey : ∀ k, ∀ e ∈ ((ch.byTu k).filter (· = i)).map fun _ => k, id e = k := fun k e he => by
    obtain ⟨-, -, rfl⟩ := List.mem_map.mp he
    rfl
  have hkeys := filter_flatMap_keys hkey horder.1
    (fun k hne => horder.2 k fun hnil => hne (by simp [hnil])) tu
  rw [siteTus, (List.perm_insertionSort _ _).count_eq, List.count_eq_length_filter,
    List.count_eq_length_filter]
  have heq : (fun t : Bytes => t == tu) = fun t => decide (id t = tu) := by
    funext t
    rw [Bool.beq_eq_decide_eq]
    rfl
  rw [heq, hkeys, List.length_map]
  congr 1

/-- The live sites, each with its position. -/
def liveSites (ch : ChannelIndex) : List (StoredSite × ℕ) := ch.sites.zipIdx.filter (·.1.live)

theorem mem_liveSites {p : StoredSite × ℕ} : p ∈ ch.liveSites ↔ ch.LiveAt p.2 p.1 := by
  rw [liveSites, List.mem_filter, List.mem_zipIdx_iff_getElem?, LiveAt]

/-- The keys of the live sites are distinct. -/
theorem Inv.nodup_keys (h : ch.Inv regs) : (ch.liveSites.map fun p => p.1.site.key).Nodup := by
  refine List.Nodup.map_on ?_ ?_
  · intro p hp q hq heq
    have hi := (h.index_iff p.1.site.key p.2).mpr ⟨_, mem_liveSites.mp hp, rfl⟩
    have hj := (h.index_iff p.1.site.key q.2).mpr ⟨_, mem_liveSites.mp hq, heq.symm⟩
    have hpos : p.2 = q.2 := Option.some_inj.mp (hi.symm.trans hj)
    refine Prod.ext ?_ hpos
    exact Option.some_inj.mp ((hpos ▸ (mem_liveSites.mp hp).1).symm.trans (mem_liveSites.mp hq).1)
  · refine List.Nodup.filter _ (List.Nodup.of_map Prod.snd ?_)
    rw [List.zipIdx_map_snd]
    exact List.nodup_range'

/-- The registrations of a live site. -/
theorem Inv.siteRegs_of_live (h : ch.Inv regs) (horder : ch.ListsTus tuOrder) {i : ℕ}
    {s : StoredSite} (hs : ch.LiveAt i s) :
    (ch.siteTus tuOrder i).length ≤ s.refs ∧
      (regs.filter fun x => x.1 = s.site.key).Perm
        (siteRegs s.site.key (ch.siteTus tuOrder i) s.refs) := by
  have hlen : (regs.filter fun x => x.1 = s.site.key).length = s.refs := by
    rw [h.refs i s hs, List.countP_eq_length_filter]
  have hregs := perm_siteRegs s.site.key (ch.siteTus tuOrder i)
    (l := regs.filter fun x => x.1 = s.site.key) (fun x hx => by simpa using (List.mem_filter.mp hx).2)
    (fun tu htu => by
      rw [← List.count_pos_iff, count_siteTus horder, List.count_pos_iff] at htu
      exact (h.byTu_live tu i htu).1)
    fun tu htu => by
      rw [count_siteTus horder, h.byTu tu i s hs htu]
      exact List.count_filter (by simp)
  rwa [hlen] at hregs

/-- **The ledger is read off the live sites.** -/
theorem Inv.perm_liveSites (h : ch.Inv regs) (horder : ch.ListsTus tuOrder) :
    regs.Perm (ch.liveSites.flatMap fun p =>
      siteRegs p.1.site.key (ch.siteTus tuOrder p.2) p.1.refs) := by
  refine (perm_flatMap_filter (f := Prod.fst) h.nodup_keys fun x hx => ?_).trans
    (List.Perm.flatMap_left _ fun p hp => (h.siteRegs_of_live horder (mem_liveSites.mp hp)).2)
  obtain ⟨i, hi⟩ := h.held x hx
  obtain ⟨s, hs, hkey⟩ := (h.index_iff _ _).mp hi
  exact List.mem_map.mpr ⟨(s, i), mem_liveSites.mpr hs, hkey⟩

/-- **Absorbing a shard adds its ledger.** -/
theorem Inv.absorb (h : ch.Inv regs) (h' : shard.Inv regs') (horder : shard.ListsTus tuOrder) :
    (ch.absorb shard tuOrder).Inv (regs ++ regs') := by
  have hsites : (shard.sites.zipIdx.filter fun p => p.1.live && p.1.refs ≠ 0) = shard.liveSites := by
    refine List.filter_congr fun p hp => ?_
    rw [Bool.and_eq_left_iff_imp, decide_eq_true_eq]
    intro hlive
    exact (h'.positive p.2 p.1 ⟨List.mem_zipIdx_iff_getElem?.mp hp, hlive⟩).ne'
  have hfold (l : List (StoredSite × ℕ)) (hl : ∀ p ∈ l, shard.LiveAt p.2 p.1)
      (ch : ChannelIndex) (regs : List SiteRegistration) (h : ch.Inv regs) :
      (l.foldl (fun ch p => ch.absorbSite p.1 (shard.siteTus tuOrder p.2)) ch).Inv
        (regs ++ l.flatMap fun p => siteRegs p.1.site.key (shard.siteTus tuOrder p.2) p.1.refs) := by
    induction l generalizing ch regs with
    | nil => simpa using h
    | cons p l ih =>
      have hsite := h.absorbSite (h'.siteRegs_of_live horder (hl p (.head _))).1
      have hrest := ih (fun q hq => hl q (.tail _ hq)) _ _ hsite
      rwa [List.append_assoc] at hrest
  rw [ChannelIndex.absorb, hsites]
  exact (hfold _ (fun p hp => mem_liveSites.mp hp) _ _ h).perm
    ((h'.perm_liveSites horder).symm.append_left _)

end ChannelIndex

end Vycor
