import Vycor.Channels.Index
import Vycor.Lib.Positions

/-!
# What a channel index accounts for

The ledger of an index is the list of its registrations, a site and a TU each. `Inv` ties the
counts, the TUs and the lookup maps of the index to the ledger. A site stored anew and a site
registered again keep it.
-/

namespace Vycor

/-! ### Ledgers -/

/-- A registration: the key of the site and the TU, empty where none is recorded. -/
abbrev SiteRegistration := SiteKey × Bytes

/-- The least TU that registered a site; empty where no TU did. -/
def LeastTu (regs : List SiteRegistration) (key : SiteKey) (tu : Bytes) : Prop :=
  (tu = [] ∧ ∀ t, t ≠ [] → (key, t) ∉ regs) ∨
    (tu ≠ [] ∧ (key, tu) ∈ regs ∧ ∀ t, t ≠ [] → (key, t) ∈ regs → tu ≤ t)

/-- The registrations of one site: some by TUs, the others without one. -/
def siteRegs (key : SiteKey) (tus : List Bytes) (refs : ℕ) : List SiteRegistration :=
  tus.map (key, ·) ++ List.replicate (refs - tus.length) (key, [])

/-- The maps of an index from names to the positions of sites. -/
inductive SiteMap where
  | channel | functionUsr | functionDisplay

def SiteMap.lists (ch : ChannelIndex) : SiteMap → Bytes → List ℕ
  | .channel => ch.byChannel
  | .functionUsr => ch.byFunctionUsr
  | .functionDisplay => ch.byFunctionDisplay

/-- The site belongs under the name. -/
def SiteMap.holds (name : Bytes) (s : ChannelSite) : SiteMap → Bool
  | .channel => s.channelId = name
  | .functionUsr => s.siteFunctionUsr = name
  | .functionDisplay => s.siteFunctionDisplay ≠ s.siteFunctionUsr && s.siteFunctionDisplay = name

namespace ChannelIndex

/-- The site at a position is live. -/
def LiveAt (ch : ChannelIndex) (i : ℕ) (s : StoredSite) : Prop :=
  ch.sites[i]? = some s ∧ s.live = true

/-- **The invariant of a channel index with a ledger.** -/
structure Inv (ch : ChannelIndex) (regs : List SiteRegistration) : Prop where
  index_iff : ∀ key i, ch.index key = some i ↔ ∃ s, ch.LiveAt i s ∧ s.site.key = key
  held : ∀ r ∈ regs, ∃ i, ch.index r.1 = some i
  refs : ∀ i s, ch.LiveAt i s → s.refs = regs.countP (·.1 = s.site.key)
  positive : ∀ i s, ch.LiveAt i s → 0 < s.refs
  dead : ∀ (i : ℕ) (s : StoredSite), ch.sites[i]? = some s → s.live = false → s.refs = 0
  byTu : ∀ tu i s, ch.LiveAt i s → tu ≠ [] → (ch.byTu tu).count i = regs.count (s.site.key, tu)
  byTu_live : ∀ tu, ∀ i ∈ ch.byTu tu, tu ≠ [] ∧ ∃ s, ch.LiveAt i s
  least : ∀ i s, ch.LiveAt i s → LeastTu regs s.site.key s.site.tuPath
  listed : ∀ m name, SiteMap.lists ch m name = positions (fun s => s.live && m.holds name s.site) ch.sites
  liveCount : ch.liveCount = ch.sites.countP (·.live)

theorem Inv.empty : Inv {} [] where
  index_iff key i := by simp [LiveAt]
  held r hr := by cases hr
  refs i s hs := by simp [LiveAt] at hs
  positive i s hs := by simp [LiveAt] at hs
  dead i s hs := by simp at hs
  byTu tu i s hs := by simp [LiveAt] at hs
  byTu_live tu i hi := by cases hi
  least i s hs := by simp [LiveAt] at hs
  listed m name := by cases m <;> rfl
  liveCount := rfl

variable {ch : ChannelIndex} {regs regs' : List SiteRegistration}

/-- Only how often a registration is in the ledger matters. -/
theorem Inv.perm (h : ch.Inv regs) (hperm : regs.Perm regs') : ch.Inv regs' :=
  { h with
    held := fun r hr => h.held r (hperm.mem_iff.mpr hr)
    refs := fun i s hs => (h.refs i s hs).trans (hperm.countP_eq _)
    byTu := fun tu i s hs htu => (h.byTu tu i s hs htu).trans (hperm.count_eq _)
    least := fun i s hs => by
      have := h.least i s hs
      simpa only [LeastTu, hperm.mem_iff] using this }

/-- A site that is not indexed has no registration. -/
theorem Inv.notMem_of_index_eq_none (h : ch.Inv regs) {key : SiteKey} (hkey : ch.index key = none) :
    ∀ r ∈ regs, r.1 ≠ key := by
  intro r hr heq
  obtain ⟨i, hi⟩ := h.held r hr
  rw [heq, hkey] at hi
  cases hi

theorem Inv.mem_byTu (h : ch.Inv regs) {tu : Bytes} {i : ℕ} {s : StoredSite} (hs : ch.LiveAt i s)
    (htu : tu ≠ []) : i ∈ ch.byTu tu ↔ (s.site.key, tu) ∈ regs := by
  rw [← List.count_pos_iff, h.byTu tu i s hs htu, List.count_pos_iff]

/-! ### Counting the registrations of a site -/

section Counts

variable {key : SiteKey} {tus : List Bytes} {refs : ℕ}

theorem fst_of_mem_siteRegs {r : SiteRegistration} (hr : r ∈ siteRegs key tus refs) : r.1 = key := by
  rcases List.mem_append.mp hr with hr | hr
  · obtain ⟨tu, -, rfl⟩ := List.mem_map.mp hr
    rfl
  · rw [List.eq_of_mem_replicate hr]

theorem countP_siteRegs (hrefs : tus.length ≤ refs) :
    (siteRegs key tus refs).countP (·.1 = key) = refs := by
  have hlength : (siteRegs key tus refs).length = refs := by
    rw [siteRegs, List.length_append, List.length_map, List.length_replicate]
    omega
  rw [List.countP_eq_length.mpr fun r hr => by simpa using fst_of_mem_siteRegs hr, hlength]

theorem count_siteRegs {tu : Bytes} (htu : tu ≠ []) :
    (siteRegs key tus refs).count (key, tu) = tus.count tu := by
  have hinj : Function.Injective fun t : Bytes => (key, t) := fun _ _ h => (Prod.mk.inj h).2
  rw [siteRegs, List.count_append, List.count_map_of_injective _ _ hinj, List.count_replicate]
  simp [Ne.symm htu]

theorem mem_siteRegs {tu : Bytes} (htu : tu ≠ []) :
    (key, tu) ∈ siteRegs key tus refs ↔ tu ∈ tus := by
  rw [← List.count_pos_iff, count_siteRegs htu, List.count_pos_iff]

theorem count_foldl_pushAt (m : Bytes → List ℕ) (tus : List Bytes) (idx : ℕ) (tu : Bytes) (i : ℕ) :
    ((tus.foldl (fun m tu => pushAt m tu idx) m) tu).count i =
      (m tu).count i + if i = idx then tus.count tu else 0 := by
  induction tus generalizing m with
  | nil => simp
  | cons t tus ih =>
    rw [List.foldl_cons, ih, count_pushAt, List.count_cons]
    by_cases hi : i = idx
    · by_cases ht : tu = t
      · simp [hi, ht]
        omega
      · simp [hi, ht, Ne.symm ht]
    · simp [hi]

theorem foldl_pushAt_replicate (m : Bytes → List ℕ) (tu : Bytes) (n idx : ℕ) :
    (List.replicate n tu).foldl (fun m tu => pushAt m tu idx) m =
      Function.update m tu (m tu ++ List.replicate n idx) := by
  induction n generalizing m with
  | zero => simp
  | succ n ih =>
    rw [List.replicate_succ, List.foldl_cons, ih, pushAt_self, pushAt, Function.update_idem,
      List.append_assoc, List.singleton_append, ← List.replicate_succ]

end Counts

/-! ### A new site -/

/-- A site is stored with its registrations. -/
def insertSite (ch : ChannelIndex) (site : ChannelSite) (refs : ℕ) (tus : List Bytes) :
    ChannelIndex :=
  { ch with
    sites := ch.sites ++ [⟨site, refs, true⟩]
    index := Function.update ch.index site.key (some ch.sites.length)
    byChannel := pushAt ch.byChannel site.channelId ch.sites.length
    channelKeys :=
      if site.channelId ∈ ch.channelKeys then ch.channelKeys
      else ch.channelKeys ++ [site.channelId]
    byFunctionUsr := pushAt ch.byFunctionUsr site.siteFunctionUsr ch.sites.length
    byFunctionDisplay :=
      if site.siteFunctionDisplay ≠ site.siteFunctionUsr then
        pushAt ch.byFunctionDisplay site.siteFunctionDisplay ch.sites.length
      else ch.byFunctionDisplay
    byTu := tus.foldl (fun m tu => pushAt m tu ch.sites.length) ch.byTu
    liveCount := ch.liveCount + 1 }

theorem liveAt_insertSite {site : ChannelSite} {refs i : ℕ} {tus : List Bytes} {s : StoredSite} :
    (ch.insertSite site refs tus).LiveAt i s ↔
      ch.LiveAt i s ∨ i = ch.sites.length ∧ s = ⟨site, refs, true⟩ := by
  rw [LiveAt, LiveAt, insertSite, getElem?_concat_eq_some]
  constructor
  · rintro ⟨hs | ⟨hi, rfl⟩, hlive⟩
    · exact .inl ⟨hs, hlive⟩
    · exact .inr ⟨hi, rfl⟩
  · rintro (⟨hs, hlive⟩ | ⟨hi, rfl⟩)
    · exact ⟨.inl hs, hlive⟩
    · exact ⟨.inr ⟨hi, rfl⟩, rfl⟩

theorem LiveAt.lt {i : ℕ} {s : StoredSite} (h : ch.LiveAt i s) : i < ch.sites.length :=
  (List.getElem?_eq_some_iff.mp h.1).1

/-- **A site stored anew.** -/
theorem Inv.insertSite (h : ch.Inv regs) (site : ChannelSite) (refs : ℕ) (tus : List Bytes)
    (hnew : ch.index site.key = none) (htus : ∀ tu ∈ tus, tu ≠ []) (hrefs : tus.length ≤ refs)
    (hpos : 0 < refs) (hleast : LeastTu (siteRegs site.key tus refs) site.key site.tuPath) :
    (ch.insertSite site refs tus).Inv (regs ++ siteRegs site.key tus refs) := by
  have hunseen := h.notMem_of_index_eq_none hnew
  have hother {i : ℕ} {s : StoredSite} (hs : ch.LiveAt i s) : s.site.key ≠ site.key := fun heq => by
    have := (h.index_iff s.site.key i).mpr ⟨s, hs, rfl⟩
    rw [heq, hnew] at this
    cases this
  have hold {i : ℕ} {s : StoredSite} (hs : ch.LiveAt i s) (t : Bytes) :
      (s.site.key, t) ∉ siteRegs site.key tus refs := fun hmem =>
    hother hs (fst_of_mem_siteRegs hmem)
  have hfresh (t : Bytes) : (site.key, t) ∉ regs := fun hmem => hunseen _ hmem rfl
  refine ⟨fun key i => ?_, fun r hr => ?_, fun i s hs => ?_, fun i s hs => ?_, fun i s hs hlive => ?_,
    fun tu i s hs htu => ?_, fun tu i hi => ?_, fun i s hs => ?_, fun m name => ?_, ?_⟩
  · have hindex : (ch.insertSite site refs tus).index =
        Function.update ch.index site.key (some ch.sites.length) := rfl
    rw [hindex]
    by_cases hkey : key = site.key
    · subst hkey
      rw [Function.update_self, Option.some_inj]
      constructor
      · rintro rfl
        exact ⟨_, liveAt_insertSite.mpr (.inr ⟨rfl, rfl⟩), rfl⟩
      · rintro ⟨s, hs, hkey⟩
        rcases liveAt_insertSite.mp hs with hs | ⟨hi, -⟩
        · exact absurd hkey (hother hs)
        · exact hi.symm
    · rw [Function.update_of_ne hkey, h.index_iff]
      constructor
      · rintro ⟨s, hs, hk⟩
        exact ⟨s, liveAt_insertSite.mpr (.inl hs), hk⟩
      · rintro ⟨s, hs, hk⟩
        rcases liveAt_insertSite.mp hs with hs | ⟨-, rfl⟩
        · exact ⟨s, hs, hk⟩
        · exact absurd hk.symm hkey
  · have hindex : (ch.insertSite site refs tus).index =
        Function.update ch.index site.key (some ch.sites.length) := rfl
    rw [hindex]
    by_cases hkey : r.1 = site.key
    · exact ⟨_, by rw [hkey, Function.update_self]⟩
    · rw [Function.update_of_ne hkey]
      rcases List.mem_append.mp hr with hr | hr
      · exact h.held r hr
      · exact absurd (fst_of_mem_siteRegs hr) hkey
  · rw [List.countP_append]
    rcases liveAt_insertSite.mp hs with hs | ⟨-, rfl⟩
    · have hnone : (siteRegs site.key tus refs).countP (·.1 = s.site.key) = 0 :=
        List.countP_eq_zero.mpr fun r hr => by
          simp [fst_of_mem_siteRegs hr, Ne.symm (hother hs)]
      rw [hnone, Nat.add_zero, h.refs i s hs]
    · have hnone : regs.countP (·.1 = site.key) = 0 :=
        List.countP_eq_zero.mpr fun r hr => by simp [hunseen r hr]
      rw [hnone, Nat.zero_add, countP_siteRegs hrefs]
  · rcases liveAt_insertSite.mp hs with hs | ⟨-, rfl⟩
    · exact h.positive i s hs
    · exact hpos
  · rcases getElem?_concat_eq_some.mp hs with hs | ⟨-, rfl⟩
    · exact h.dead i s hs hlive
    · cases hlive
  · have hcount : ((ch.insertSite site refs tus).byTu tu).count i =
        (ch.byTu tu).count i + if i = ch.sites.length then tus.count tu else 0 :=
      count_foldl_pushAt _ _ _ _ _
    rw [hcount, List.count_append]
    rcases liveAt_insertSite.mp hs with hs | ⟨rfl, rfl⟩
    · rw [if_neg hs.lt.ne, h.byTu tu i s hs htu, List.count_eq_zero.mpr (hold hs tu)]
    · have hnone : (ch.byTu tu).count ch.sites.length = 0 := List.count_eq_zero.mpr fun hmem => by
        obtain ⟨-, s, hs⟩ := h.byTu_live tu _ hmem
        exact hs.lt.false
      rw [if_pos rfl, hnone, List.count_eq_zero.mpr (hfresh tu), count_siteRegs htu]
  · rw [← List.count_pos_iff] at hi
    have hcount : ((ch.insertSite site refs tus).byTu tu).count i =
        (ch.byTu tu).count i + if i = ch.sites.length then tus.count tu else 0 :=
      count_foldl_pushAt _ _ _ _ _
    rw [hcount] at hi
    by_cases hold : i ∈ ch.byTu tu
    · obtain ⟨htu, s, hs⟩ := h.byTu_live tu i hold
      exact ⟨htu, s, liveAt_insertSite.mpr (.inl hs)⟩
    · rw [List.count_eq_zero.mpr hold, Nat.zero_add] at hi
      by_cases hidx : i = ch.sites.length
      · rw [if_pos hidx, List.count_pos_iff] at hi
        exact ⟨htus tu hi, _, liveAt_insertSite.mpr (.inr ⟨hidx, rfl⟩)⟩
      · simp [hidx] at hi
  · rcases liveAt_insertSite.mp hs with hs | ⟨-, rfl⟩
    · have := h.least i s hs
      simpa only [LeastTu, List.mem_append, hold hs, or_false] using this
    · simpa only [LeastTu, List.mem_append, hfresh, false_or] using hleast
  · have hsites : (ch.insertSite site refs tus).sites = ch.sites ++ [⟨site, refs, true⟩] := rfl
    rw [hsites, positions_concat, ← h.listed m name]
    cases m
    · by_cases hname : name = site.channelId
      · simp [SiteMap.lists, ChannelIndex.insertSite, SiteMap.holds, hname]
      · simp [SiteMap.lists, ChannelIndex.insertSite, SiteMap.holds, pushAt_of_ne _ _ hname,
          Ne.symm hname]
    · by_cases hname : name = site.siteFunctionUsr
      · simp [SiteMap.lists, ChannelIndex.insertSite, SiteMap.holds, hname]
      · simp [SiteMap.lists, ChannelIndex.insertSite, SiteMap.holds, pushAt_of_ne _ _ hname,
          Ne.symm hname]
    · by_cases hsame : site.siteFunctionDisplay = site.siteFunctionUsr
      · simp [SiteMap.lists, ChannelIndex.insertSite, SiteMap.holds, hsame]
      · by_cases hname : name = site.siteFunctionDisplay
        · simp [SiteMap.lists, ChannelIndex.insertSite, SiteMap.holds, hsame, hname]
        · simp [SiteMap.lists, ChannelIndex.insertSite, SiteMap.holds, hsame,
            pushAt_of_ne _ _ hname, Ne.symm hname]
  · have hsites : (ch.insertSite site refs tus).sites = ch.sites ++ [⟨site, refs, true⟩] := rfl
    have hcount : (ch.insertSite site refs tus).liveCount = ch.liveCount + 1 := rfl
    rw [hsites, hcount, List.countP_append, h.liveCount]
    rfl

/-! ### A site registered again -/

/-- A site that is stored is registered again. -/
def registerAgain (ch : ChannelIndex) (idx : ℕ) (tuPath : Bytes) (count : ℕ) : ChannelIndex :=
  ({ ch with sites := ch.sites.modify idx fun s => s.again tuPath count } :
    ChannelIndex).recordTu tuPath count idx

section Again

variable {idx count : ℕ} {tuPath : Bytes}

theorem sites_registerAgain : (ch.registerAgain idx tuPath count).sites =
    ch.sites.modify idx fun s => s.again tuPath count := by
  rw [registerAgain, recordTu]
  split <;> rfl

theorem index_registerAgain : (ch.registerAgain idx tuPath count).index = ch.index := by
  rw [registerAgain, recordTu]
  split <;> rfl

theorem key_again (s : StoredSite) : (s.again tuPath count).site.key = s.site.key := by
  simp only [StoredSite.again]
  split <;> rfl

theorem holds_again (m : SiteMap) (name : Bytes) (s : StoredSite) :
    m.holds name (s.again tuPath count).site = m.holds name s.site := by
  simp only [StoredSite.again]
  split <;> cases m <;> rfl

theorem getElem?_registerAgain {i : ℕ} {s : StoredSite} :
    (ch.registerAgain idx tuPath count).sites[i]? = some s ↔
      ∃ s₀, ch.sites[i]? = some s₀ ∧ s = if i = idx then s₀.again tuPath count else s₀ := by
  rw [sites_registerAgain, List.getElem?_modify]
  constructor
  · intro h
    obtain ⟨s₀, hs₀, rfl⟩ := Option.map_eq_some_iff.mp h
    refine ⟨s₀, hs₀, ?_⟩
    by_cases hi : idx = i
    · simp [hi]
    · simp [hi, Ne.symm hi]
  · rintro ⟨s₀, hs₀, rfl⟩
    rw [hs₀]
    by_cases hi : idx = i
    · simp [hi]
    · simp [hi, Ne.symm hi]

theorem liveAt_registerAgain {i : ℕ} {s : StoredSite} :
    (ch.registerAgain idx tuPath count).LiveAt i s ↔
      ∃ s₀, ch.LiveAt i s₀ ∧ s = if i = idx then s₀.again tuPath count else s₀ := by
  rw [LiveAt, getElem?_registerAgain]
  constructor
  · rintro ⟨⟨s₀, hs₀, rfl⟩, hlive⟩
    refine ⟨s₀, ⟨hs₀, ?_⟩, rfl⟩
    split at hlive
    · exact hlive
    · exact hlive
  · rintro ⟨s₀, ⟨hs₀, hlive⟩, rfl⟩
    refine ⟨⟨s₀, hs₀, rfl⟩, ?_⟩
    split
    · exact hlive
    · exact hlive

/-- The least TU after one more. -/
theorem leastTu_again {s : StoredSite} {key : SiteKey} (hcount : count ≠ 0)
    (h : LeastTu regs key s.site.tuPath) :
    LeastTu (regs ++ List.replicate count (key, tuPath)) key
      (s.again tuPath count).site.tuPath := by
  have hmem (t : Bytes) : (key, t) ∈ regs ++ List.replicate count (key, tuPath) ↔
      (key, t) ∈ regs ∨ t = tuPath := by
    rw [List.mem_append, List.mem_replicate, Prod.mk.injEq]
    simp [hcount]
  simp only [LeastTu, hmem]
  by_cases hless : tuPath ≠ [] ∧ (s.site.tuPath = [] ∨ tuPath < s.site.tuPath)
  · have hnew : (s.again tuPath count).site.tuPath = tuPath := by
      simp only [StoredSite.again, if_pos hless]
    rw [hnew]
    refine .inr ⟨hless.1, .inr rfl, fun t ht hreg => ?_⟩
    rcases hreg with hreg | rfl
    · rcases h with ⟨-, hnone⟩ | ⟨hne, -, hleast⟩
      · exact absurd hreg (hnone t ht)
      · exact (hless.2.resolve_left hne).le.trans (hleast t ht hreg)
    · exact le_rfl
  · have hold : (s.again tuPath count).site.tuPath = s.site.tuPath := by
      simp only [StoredSite.again, if_neg hless]
    rw [hold]
    rcases h with ⟨hnil, hnone⟩ | ⟨hne, hin, hleast⟩
    · have htu : tuPath = [] := by
        by_contra htu
        exact hless ⟨htu, .inl hnil⟩
      refine .inl ⟨hnil, fun t ht hreg => ?_⟩
      rcases hreg with hreg | rfl
      · exact hnone t ht hreg
      · exact ht htu
    · refine .inr ⟨hne, .inl hin, fun t ht hreg => ?_⟩
      rcases hreg with hreg | rfl
      · exact hleast t ht hreg
      · exact not_lt.mp fun hlt => hless ⟨ht, .inr hlt⟩

/-- **A site registered again.** -/
theorem Inv.registerAgain (h : ch.Inv regs) {key : SiteKey} (hidx : ch.index key = some idx)
    (hcount : count ≠ 0) :
    (ch.registerAgain idx tuPath count).Inv (regs ++ List.replicate count (key, tuPath)) := by
  obtain ⟨s₁, hs₁, hkey⟩ := (h.index_iff key idx).mp hidx
  have hat {i : ℕ} {s : StoredSite} (hs : ch.LiveAt i s) : s.site.key = key ↔ i = idx := by
    constructor
    · intro heq
      have := (h.index_iff key i).mpr ⟨s, hs, heq⟩
      rw [hidx, Option.some_inj] at this
      exact this.symm
    · rintro rfl
      rw [← hkey, Option.some_inj.mp (hs.1.symm.trans hs₁.1)]
  have hsame {i : ℕ} (s : StoredSite) :
      (if i = idx then s.again tuPath count else s).site.key = s.site.key := by
    split
    · exact key_again s
    · rfl
  have hbyTu (tu : Bytes) (i : ℕ) (htu : tu ≠ []) :
      ((ch.registerAgain idx tuPath count).byTu tu).count i =
        (ch.byTu tu).count i + if i = idx ∧ tu = tuPath then count else 0 := by
    rw [ChannelIndex.registerAgain, recordTu]
    by_cases hnil : tuPath = []
    · rw [if_pos hnil, if_neg fun hand => htu (hand.2.trans hnil), Nat.add_zero]
    · rw [if_neg hnil]
      by_cases heq : tu = tuPath
      · subst heq
        by_cases hi : i = idx
        · simp [hi]
        · simp [hi, List.count_replicate, Ne.symm hi]
      · simp [heq]
  refine ⟨fun key' i => ?_, fun r hr => ?_, fun i s hs => ?_, fun i s hs => ?_, fun i s hs hlive => ?_,
    fun tu i s hs htu => ?_, fun tu i hi => ?_, fun i s hs => ?_, fun m name => ?_, ?_⟩
  · rw [index_registerAgain, h.index_iff]
    constructor
    · rintro ⟨s, hs, hk⟩
      exact ⟨_, liveAt_registerAgain.mpr ⟨s, hs, rfl⟩, by rw [hsame, hk]⟩
    · rintro ⟨s, hs, hk⟩
      obtain ⟨s₀, hs₀, rfl⟩ := liveAt_registerAgain.mp hs
      exact ⟨s₀, hs₀, by rw [← hk, hsame]⟩
  · rw [index_registerAgain]
    rcases List.mem_append.mp hr with hr | hr
    · exact h.held r hr
    · rw [List.eq_of_mem_replicate hr]
      exact ⟨idx, hidx⟩
  · obtain ⟨s₀, hs₀, rfl⟩ := liveAt_registerAgain.mp hs
    rw [hsame, List.countP_append, List.countP_replicate, ← h.refs i s₀ hs₀]
    by_cases hi : i = idx
    · simp [hi, StoredSite.again, (hat hs₀).mpr hi]
    · simp [hi, Ne.symm (mt (hat hs₀).mp hi)]
  · obtain ⟨s₀, hs₀, rfl⟩ := liveAt_registerAgain.mp hs
    have hpos := h.positive i s₀ hs₀
    split
    · exact Nat.add_pos_left hpos _
    · exact hpos
  · obtain ⟨s₀, hs₀, rfl⟩ := getElem?_registerAgain.mp hs
    by_cases hi : i = idx
    · -- the site registered again is live
      subst hi
      rw [if_pos rfl, Option.some_inj.mp (hs₀.symm.trans hs₁.1)] at hlive
      exact absurd (hs₁.2.symm.trans hlive) (by decide)
    · rw [if_neg hi] at hlive ⊢
      exact h.dead i s₀ hs₀ hlive
  · obtain ⟨s₀, hs₀, rfl⟩ := liveAt_registerAgain.mp hs
    rw [hsame, hbyTu tu i htu, List.count_append, h.byTu tu i s₀ hs₀ htu, List.count_replicate]
    have hpair : ((key, tuPath) == (s₀.site.key, tu)) = true ↔ i = idx ∧ tu = tuPath := by
      rw [beq_iff_eq, Prod.mk.injEq, ← hat hs₀, eq_comm, @eq_comm _ tuPath]
    simp only [hpair]
  · have hpos := List.count_pos_iff.mpr hi
    by_cases htu : tu = []
    · exfalso
      have hnil : (ch.registerAgain idx tuPath count).byTu [] = ch.byTu [] := by
        rw [ChannelIndex.registerAgain, recordTu]
        split
        · rfl
        · rename_i hne
          exact Function.update_of_ne (Ne.symm hne) _ _
      rw [htu, hnil] at hi
      exact (h.byTu_live [] i hi).1 rfl
    · refine ⟨htu, ?_⟩
      rw [hbyTu tu i htu] at hpos
      by_cases hold : i ∈ ch.byTu tu
      · obtain ⟨-, s, hs⟩ := h.byTu_live tu i hold
        exact ⟨_, liveAt_registerAgain.mpr ⟨s, hs, rfl⟩⟩
      · rw [List.count_eq_zero.mpr hold, Nat.zero_add] at hpos
        by_cases hi' : i = idx
        · exact ⟨_, liveAt_registerAgain.mpr ⟨s₁, hi' ▸ hs₁, rfl⟩⟩
        · simp [hi'] at hpos
  · obtain ⟨s₀, hs₀, rfl⟩ := liveAt_registerAgain.mp hs
    rw [hsame]
    by_cases hi : i = idx
    · rw [if_pos hi, (hat hs₀).mpr hi]
      exact leastTu_again hcount ((hat hs₀).mpr hi ▸ h.least i s₀ hs₀)
    · have hne : s₀.site.key ≠ key := mt (hat hs₀).mp hi
      have hnot (t : Bytes) : (s₀.site.key, t) ∉ List.replicate count (key, tuPath) := fun hmem =>
        hne (Prod.mk.inj (List.eq_of_mem_replicate hmem)).1
      rw [if_neg hi]
      have := h.least i s₀ hs₀
      simpa only [LeastTu, List.mem_append, hnot, or_false] using this
  · have hlists : SiteMap.lists (ch.registerAgain idx tuPath count) m name =
        SiteMap.lists ch m name := by
      rw [ChannelIndex.registerAgain, recordTu]
      cases m <;> simp only [SiteMap.lists] <;> split <;> rfl
    rw [hlists, h.listed, sites_registerAgain]
    symm
    refine (positions_filter (q := fun _ => true) (List.length_modify _ _ _) ?_).trans
      (List.filter_true _)
    intro i a b ha hb
    rw [← sites_registerAgain] at hb
    obtain ⟨s₀, hs₀, rfl⟩ := getElem?_registerAgain.mp hb
    obtain rfl := Option.some_inj.mp (ha.symm.trans hs₀)
    rw [Bool.and_true]
    split
    · rw [holds_again]
      rfl
    · rfl
  · have hcountLive : (ch.registerAgain idx tuPath count).liveCount = ch.liveCount := by
      rw [ChannelIndex.registerAgain, recordTu]
      split <;> rfl
    have hmodify := countP_modify (fun s => s.again tuPath count) (·.live) hs₁.1
    have hlive : (s₁.again tuPath count).live = s₁.live := rfl
    rw [hlive] at hmodify
    rw [hcountLive, sites_registerAgain, h.liveCount]
    omega

end Again

/-! ### Registrations -/

/-- **Registering a site adds its registrations to the ledger.** -/
theorem Inv.addSiteRefs (h : ch.Inv regs) (site : ChannelSite) (count : ℕ) :
    (ch.addSiteRefs site count).Inv (regs ++ List.replicate count (site.key, site.tuPath)) := by
  rw [ChannelIndex.addSiteRefs]
  by_cases hcount : count = 0
  · rw [if_pos hcount, hcount, List.replicate_zero, List.append_nil]
    exact h
  rw [if_neg hcount]
  cases hidx : ch.index site.key with
  | some idx => exact h.registerAgain hidx hcount
  | none =>
    by_cases htu : site.tuPath = []
    · have hnew := h.insertSite site count [] hidx (by simp) (by simp)
        (Nat.pos_of_ne_zero hcount) (.inl ⟨htu, fun t ht hmem => by simp [mem_siteRegs ht] at hmem⟩)
      have hregs : siteRegs site.key [] count = List.replicate count (site.key, site.tuPath) := by
        rw [siteRegs, htu]
        rfl
      rw [hregs] at hnew
      simp only [recordTu, if_pos htu]
      exact hnew
    · have hmem {t : Bytes} (ht : t ≠ []) :
          (site.key, t) ∈ siteRegs site.key (List.replicate count site.tuPath) count ↔
            t = site.tuPath := by
        rw [mem_siteRegs ht, List.mem_replicate]
        simp [hcount]
      have hnew := h.insertSite site count (List.replicate count site.tuPath) hidx
        (fun tu htu' => by rwa [List.eq_of_mem_replicate htu']) (by simp)
        (Nat.pos_of_ne_zero hcount)
        (.inr ⟨htu, (hmem htu).mpr rfl, fun t ht hreg => ((hmem ht).mp hreg).ge⟩)
      have hregs : siteRegs site.key (List.replicate count site.tuPath) count =
          List.replicate count (site.key, site.tuPath) := by
        simp [siteRegs]
      rw [hregs, ChannelIndex.insertSite, foldl_pushAt_replicate] at hnew
      simp only [recordTu, if_neg htu]
      exact hnew

theorem Inv.addSite (h : ch.Inv regs) (site : ChannelSite) :
    (ch.addSite site).Inv (regs ++ [(site.stored.key, site.stored.tuPath)]) :=
  h.addSiteRefs site.stored 1

end ChannelIndex

end Vycor
