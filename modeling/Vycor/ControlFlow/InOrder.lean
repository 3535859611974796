import Vycor.ControlFlow.Records
import Vycor.CallGraph.Answers

/-!
# A mapped index in order

The queries of a mapped index bisect the strings and the records; that the file has them in
order is what the format says and nothing checks. In order, the contexts at a call site are
those that a pass over all records finds there (`InOrder.contextsAtSite`).
-/

namespace Vycor

namespace MappedStore

variable {m : MappedStore}

/-- The id at a position of the string order. -/
def idAt (m : MappedStore) (i : ℕ) : Option SId := m.sortedIds.fetchLe m.buffer (i * 4) 4

/-- The call site of the record at a position. -/
def siteAt (m : MappedStore) (i : ℕ) : Option SId :=
  m.records.fetchLe m.buffer (i * kRecordBytes + 16) 4

/-- The file has the layout of the format: the strings are index text, every id is listed in
string order, and the records are sorted by call site. -/
structure InOrder (m : MappedStore) : Prop where
  attached : m.Attached
  utf8 : ∀ id s, id < m.stringCount → m.mappedString id = some s → Utf8Text s
  listed : ∀ id < m.stringCount, ∃ i < m.stringCount, m.idAt i = some id
  ascending : ∀ i j id id' s s', i < j → j < m.stringCount → m.idAt i = some id →
    m.idAt j = some id' → m.mappedString id = some s → m.mappedString id' = some s' → s < s'
  sites : ∀ i j v v', i ≤ j → j < m.recordCount → m.siteAt i = some v → m.siteAt j = some v' →
    v ≤ v'

/-- The bisection of the strings finds the one with the text. -/
theorem InOrder.searchId_eq_some_iff (h : m.InOrder) {key : Bytes} {lo hi : ℕ}
    {found : Option SId} (hfound : m.searchId key lo hi = some found)
    (hlo : ∀ i < lo, ∀ id s, m.idAt i = some id → m.mappedString id = some s → s < key)
    (hhi : ∀ i, hi ≤ i → i < m.stringCount → ∀ id s, m.idAt i = some id →
      m.mappedString id = some s → key < s) (hle : hi ≤ m.stringCount) :
    ∀ i < m.stringCount, ∀ id s, m.idAt i = some id → m.mappedString id = some s →
      (found = some id ↔ s = key) := by
  induction lo, hi using searchId.induct m key with
  | case1 lo hi hlt hnone =>
    rw [searchId, if_pos hlt, hnone] at hfound
    cases hfound
  | case2 lo hi hlt id hid hnone =>
    simp [searchId, if_pos hlt, hid, hnone] at hfound
  | case3 lo hi hlt mid hmid hs =>
    rw [searchId, if_pos hlt] at hfound
    simp only [hmid, hs, if_true, Option.some_inj] at hfound
    subst hfound
    intro i hi' id s hid hstr
    rw [Option.some_inj]
    -- the strings before and behind the middle are less and greater
    rcases lt_trichotomy i (lo + (hi - lo) / 2) with hlt' | rfl | hgt
    · have hless := h.ascending _ _ _ _ _ _ hlt' (by omega) hid hmid hstr hs
      exact ⟨fun heq => absurd (heq ▸ hstr) (by rw [hs]; simpa using hless.ne'),
        fun heq => absurd heq hless.ne⟩
    · obtain rfl := Option.some_inj.mp (hid.symm.trans hmid)
      exact ⟨fun _ => Option.some_inj.mp (hstr.symm.trans hs), fun _ => rfl⟩
    · have hless := h.ascending _ _ _ _ _ _ hgt hi' hmid hid hs hstr
      exact ⟨fun heq => absurd (heq ▸ hstr) (by rw [hs]; simpa using hless.ne),
        fun heq => absurd heq hless.ne'⟩
  | case4 lo hi hlt mid hmid t ht hne hless ih =>
    rw [searchId, if_pos hlt] at hfound
    simp only [hmid, ht, if_neg hne, if_pos hless] at hfound
    refine ih hfound (fun i hi' id s hid hstr => ?_) hhi hle
    rcases lt_or_eq_of_le (Nat.lt_succ_iff.mp hi') with hlt' | rfl
    · exact (h.ascending _ _ _ _ _ _ hlt' (by omega) hid hmid hstr ht).trans hless
    · obtain rfl := Option.some_inj.mp (hid.symm.trans hmid)
      rwa [← Option.some_inj.mp (hstr.symm.trans ht)] at hless
  | case5 lo hi hlt mid hmid t ht hne hless ih =>
    rw [searchId, if_pos hlt] at hfound
    simp only [hmid, ht, if_neg hne, if_neg hless] at hfound
    have hgreater : key < t := lt_of_le_of_ne (not_lt.mp hless) (Ne.symm hne)
    refine ih hfound hlo (fun i hge hi' id s hid hstr => ?_) (by omega)
    rcases lt_or_eq_of_le hge with hlt' | rfl
    · exact hgreater.trans (h.ascending _ _ _ _ _ _ hlt' hi' hmid hid ht hstr)
    · obtain rfl := Option.some_inj.mp (hid.symm.trans hmid)
      rwa [← Option.some_inj.mp (hstr.symm.trans ht)] at hgreater
  | case6 lo hi hge =>
    rw [searchId, if_neg hge, Option.some_inj] at hfound
    subst hfound
    intro i hi' id s hid hstr
    refine ⟨fun heq => (by cases heq), fun heq => ?_⟩
    rcases lt_or_ge i lo with hlt | hge'
    · exact absurd heq (hlo i hlt id s hid hstr).ne
    · exact absurd heq (hhi i (by omega) hi' id s hid hstr).ne'

/-- The bisection of the records finds those with the id. -/
theorem InOrder.exists_mappedRange (h : m.InOrder) (id : SId) :
    ∃ first last, m.mappedRange none m.recordCount 16 id = some (first, last) ∧ first ≤ last ∧
      last ≤ m.recordCount ∧
        ∀ i < m.recordCount, (first ≤ i ∧ i < last ↔ m.siteAt i = some id) := by
  have hsite : ∀ i < m.recordCount, ∃ v, m.siteAt i = some v := fun i hi =>
    exists_fetchLe h.attached.records hi (by decide)
  have hfield : ∀ i < m.recordCount, m.fieldAt none 16 i = (m.siteAt i).map some := by
    intro i hi
    simp only [fieldAt, orderAt, Option.bind_eq_bind, Option.bind_some, if_neg (not_le.mpr hi),
      siteAt]
  -- a test that holds of the small ids holds of a prefix of the records
  have htest : ∀ p : ℕ → Bool, ∀ i < m.recordCount,
      (m.fieldAt none 16 i).map (fun v => v.any p) = some ((m.siteAt i).any p) := by
    intro p i hi
    obtain ⟨v, hv⟩ := hsite i hi
    rw [hfield i hi, hv]
    rfl
  have hanti : ∀ p : ℕ → Bool, (∀ v v', v ≤ v' → p v' = true → p v = true) →
      ∀ i j, i ≤ j → j < m.recordCount → (m.siteAt j).any p = true → (m.siteAt i).any p = true := by
    intro p hp i j hij hj hb
    obtain ⟨v, hv⟩ := hsite i (by omega)
    obtain ⟨v', hv'⟩ := hsite j hj
    rw [hv'] at hb
    rw [hv]
    exact hp v v' (h.sites i j v v' hij hj hv hv') hb
  obtain ⟨first, hfirst, -, hle, hiff⟩ := exists_partitionPoint_of_antitone
    (Nat.zero_le m.recordCount) (fun i _ hi => htest (· < id) i hi) fun i j _ hij hj =>
      hanti _ (fun v v' hv hlt => by simpa using hv.trans_lt (of_decide_eq_true hlt)) i j hij hj
  obtain ⟨last, hlast, hfl, hle', hiff'⟩ := exists_partitionPoint_of_antitone hle
    (fun i _ hi => htest (· ≤ id) i hi) fun i j _ hij hj =>
      hanti _ (fun v v' hv hlt => by simpa using hv.trans (of_decide_eq_true hlt)) i j hij hj
  refine ⟨first, last, ?_, hfl, hle', fun i hi => ?_⟩
  · rw [mappedRange, hfirst, Option.bind_eq_bind, Option.bind_some, hlast]
    rfl
  · obtain ⟨v, hv⟩ := hsite i hi
    have hlt := hiff i (Nat.zero_le i) hi
    rw [hv, Option.any_some, decide_eq_true_eq] at hlt
    rw [hv, Option.some_inj]
    constructor
    · rintro ⟨hge, hlt'⟩
      have hle := (hiff' i hge hi).mpr hlt'
      rw [hv, Option.any_some, decide_eq_true_eq] at hle
      exact le_antisymm hle (not_lt.mp (mt hlt.mp (not_lt.mpr hge)))
    · rintro rfl
      have hge : first ≤ i := by
        by_contra hcon
        exact absurd (hlt.mpr (not_le.mp hcon)) (lt_irrefl _)
      exact ⟨hge, (hiff' i hge hi).mp (by rw [hv]; simp)⟩

/-- A live record has the call site that the bisection reads, an id of the file. -/
theorem siteAt_of_live {scopes guards raiis pos : ℕ} {se : StoredContext}
    (h : m.mappedRecord scopes guards raiis pos = some se) (hlive : se.live = true) :
    pos < m.recordCount ∧ m.siteAt pos = some se.site ∧ se.site < m.stringCount := by
  rw [mappedRecord] at h
  split_ifs at h with hpos
  · obtain rfl := Option.some_inj.mp h
    cases hlive
  · simp only [Option.bind_eq_bind, Option.bind_eq_some_iff] at h
    obtain ⟨v₀, -, v₁, -, v₂, -, v₃, -, site, hsite, v₅, -, v₆, -, v₇, -, v₈, -, v₉, -, v₁₀, -,
      heq⟩ := h
    obtain rfl := Option.some_inj.mp heq
    simp only [validRecord, Bool.and_eq_true, decide_eq_true_eq] at hlive
    exact ⟨not_le.mp hpos, hsite, hlive.1.1.1.1.2⟩

end MappedStore

namespace ControlFlowIndex

variable {ll : Llvm} {cf : ControlFlowIndex} {m : MappedStore}

theorem collect_append {keep : StoredContext → Bool} {ps qs : List ℕ}
    {out : List CallSiteContext} (h : cf.collect ll keep (ps ++ qs) = some out) :
    ∃ a b, cf.collect ll keep ps = some a ∧ cf.collect ll keep qs = some b ∧ out = a ++ b := by
  induction ps generalizing out with
  | nil => exact ⟨[], out, rfl, h, rfl⟩
  | cons pos ps ih =>
    rw [List.cons_append, collect] at h
    simp only [Option.bind_eq_bind, Option.bind_eq_some_iff] at h
    obtain ⟨se, hse, h⟩ := h
    rw [collect, hse, Option.bind_eq_bind, Option.bind_some]
    split_ifs at h ⊢ with hkeep
    · simp only [Option.bind_eq_some_iff] at h
      obtain ⟨ctx, hctx, more, hmore, heq⟩ := h
      obtain rfl := Option.some_inj.mp heq
      obtain ⟨a, b, ha, hb, rfl⟩ := ih hmore
      exact ⟨ctx :: a, b, by rw [hctx, ha]; rfl, hb, rfl⟩
    · exact ih h

theorem mem_of_collect {keep : StoredContext → Bool} {ps : List ℕ} {out : List CallSiteContext}
    (h : cf.collect ll keep ps = some out) {c : CallSiteContext} (hc : c ∈ out) :
    ∃ pos ∈ ps, ∃ se, cf.storedAt pos = some se ∧ se.live = true ∧
      cf.materialize ll se = some c := by
  induction ps generalizing out with
  | nil =>
    obtain rfl := Option.some_inj.mp h
    cases hc
  | cons pos ps ih =>
    rw [collect] at h
    simp only [Option.bind_eq_bind, Option.bind_eq_some_iff] at h
    obtain ⟨se, hse, h⟩ := h
    split_ifs at h with hkeep
    · simp only [Option.bind_eq_some_iff] at h
      obtain ⟨ctx, hctx, more, hmore, heq⟩ := h
      obtain rfl := Option.some_inj.mp heq
      rcases List.mem_cons.mp hc with rfl | hc
      · exact ⟨pos, .head _, se, hse, (Bool.and_eq_true_iff.mp hkeep).1, hctx⟩
      · obtain ⟨pos', hpos', hrest⟩ := ih hmore hc
        exact ⟨pos', .tail _ hpos', hrest⟩
    · obtain ⟨pos', hpos', hrest⟩ := ih h hc
      exact ⟨pos', .tail _ hpos', hrest⟩

/-- The call site of a context is the text asked for exactly when its id is the one found. -/
theorem callSite_eq_iff (hm : cf.mapped = some m) (h : m.InOrder) (hll : ll.AcceptsUtf8)
    {key : Bytes} {found : Option SId} (hfound : m.searchId key 0 m.stringCount = some found)
    {ps : List ℕ} {out : List CallSiteContext} (hout : cf.collect ll (fun _ => true) ps = some out)
    {c : CallSiteContext} (hc : c ∈ out) :
    ∃ pos ∈ ps, pos < m.recordCount ∧ ∃ id, m.siteAt pos = some id ∧
      (c.callSite = key ↔ found = some id) := by
  obtain ⟨pos, hpos, se, hse, hlive, hmat⟩ := mem_of_collect hout hc
  simp only [storedAt, hm] at hse
  obtain ⟨hlt, hsite, hid⟩ := MappedStore.siteAt_of_live hse hlive
  obtain ⟨i, hi, hat⟩ := h.listed se.site hid
  obtain ⟨s, hs⟩ := h.attached.exists_mappedString se.site
  have htext : c.callSite = s := by
    have hdesc := (describes_of_materialize hmat).callSite
    rw [StoredContext.record, stringOf, hm] at hdesc
    simp only [hs, Option.map_some, Option.some_inj] at hdesc
    rw [← hdesc, CallGraph.lookupText_eq ll hll (h.utf8 _ _ hid hs)]
  refine ⟨pos, hpos, hlt, se.site, hsite, ?_⟩
  rw [htext, h.searchId_eq_some_iff hfound (by simp) (fun i hge hlt => by omega) le_rfl i hi _ _
    hat hs]

/-- **In order, a call site has the contexts that a pass over the records finds there.** -/
theorem exists_contextsAtSite (hm : cf.mapped = some m) (h : m.InOrder) (hll : ll.AcceptsUtf8) :
    ∃ contexts, cf.forEachContext ll = some contexts ∧ ∀ site, cf.contextsAtSite ll site =
      some (contexts.filter (·.callSite = lookupText ll site)) := by
  obtain ⟨contexts, hall⟩ := exists_collect ll hm h.attached (fun _ => true)
    (List.range m.recordCount)
  refine ⟨contexts, by rw [forEachContext, hm]; exact hall, fun site => ?_⟩
  obtain ⟨found, hfound⟩ := h.attached.exists_searchId (lookupText ll site) 0 m.stringCount le_rfl
  rcases found with _ | id
  · have hnil : contexts.filter (fun c => decide (c.callSite = lookupText ll site)) = [] := by
      refine List.filter_eq_nil_iff.mpr fun c hc heq => ?_
      obtain ⟨pos, -, -, id, -, hiff⟩ := callSite_eq_iff hm h hll hfound hall hc
      cases hiff.mp (of_decide_eq_true heq)
    rw [contextsAtSite, sitePositions, findId, hm]
    simp only [hfound, Option.bind_eq_bind, Option.bind_some, hnil]
    rfl
  · obtain ⟨first, last, hrange, hfl, hln, hmem⟩ := h.exists_mappedRange id
    -- the records before the range, in it and behind it
    have hsplit : List.range m.recordCount = List.range' 0 first ++
        (List.range' first (last - first) ++ List.range' last (m.recordCount - last)) := by
      have hin : List.range' first (last - first) ++ List.range' last (m.recordCount - last) =
          List.range' first (m.recordCount - first) := by
        obtain ⟨k, rfl⟩ := Nat.exists_eq_add_of_le hfl
        rw [Nat.add_sub_cancel_left, List.range'_append_1]
        congr 1
        omega
      obtain ⟨k, hk⟩ := Nat.exists_eq_add_of_le (hfl.trans hln)
      rw [hin, List.range_eq_range', hk, Nat.add_sub_cancel_left]
      simpa using (List.range'_append_1 (s := 0) (m := first) (n := k)).symm
    rw [hsplit] at hall
    obtain ⟨before, rest, hbefore, hrest, rfl⟩ := collect_append hall
    obtain ⟨inside, behind, hinside, hbehind, rfl⟩ := collect_append hrest
    have houtside : ∀ {ps out}, cf.collect ll (fun _ => true) ps = some out →
        (∀ pos ∈ ps, ¬ (first ≤ pos ∧ pos < last)) →
          out.filter (fun c => decide (c.callSite = lookupText ll site)) = [] := by
      intro ps out hout hps
      refine List.filter_eq_nil_iff.mpr fun c hc heq => ?_
      obtain ⟨pos, hpos, hlt, id', hsite, hiff⟩ := callSite_eq_iff hm h hll hfound hout hc
      obtain rfl := Option.some_inj.mp (hiff.mp (of_decide_eq_true heq))
      exact hps pos hpos ((hmem pos hlt).mpr hsite)
    have hkept : inside.filter (fun c => decide (c.callSite = lookupText ll site)) = inside := by
      refine List.filter_eq_self.mpr fun c hc => ?_
      obtain ⟨pos, hpos, hlt, id', hsite, hiff⟩ := callSite_eq_iff hm h hll hfound hinside hc
      have hin : first ≤ pos ∧ pos < last := by
        have := List.mem_range'_1.mp hpos
        omega
      rw [(hmem pos hlt).mp hin] at hsite
      exact decide_eq_true (hiff.mpr hsite)
    have hfirst := houtside hbefore fun pos hpos => by
      have := List.mem_range'_1.mp hpos
      omega
    have hlast := houtside hbehind fun pos hpos => by
      have := List.mem_range'_1.mp hpos
      omega
    rw [contextsAtSite, sitePositions, findId, hm]
    simp only [hfound, hrange, Option.bind_eq_bind, Option.bind_some, List.filter_append, hfirst,
      hlast, hkept, List.append_nil, List.nil_append]
    exact hinside

end ControlFlowIndex

end Vycor
