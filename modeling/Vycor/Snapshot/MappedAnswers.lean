import Vycor.Snapshot.MappedLoad

/-!
# Mapped and resident answers

A read-only load attaches the section, a load for changes installs its records. Each read of the
file finds what the record lists say (`Stores.mappedRecord`, `Stores.searchId`,
`Stores.mappedRange`), so the two indexes list the same positions for a name or a call site and
answer every query alike (`sameAnswers_mapped`).
-/

namespace Vycor

theorem putId_eq {v : ℕ} (hv : v < 2 ^ 32) : putId v = toLe 4 v := by
  rw [putId, putU32, UInt32.toNat_ofNat_of_lt' hv]

theorem stringOffsets_getElem? (start : ℕ) {l : List Bytes} {i : ℕ} (hi : i < l.length) :
    (stringOffsets start l)[i]? = some (start + ((l.take i).flatMap putStr).length) := by
  induction l generalizing start i with
  | nil => cases hi
  | cons s rest ih =>
    cases i with
    | zero => rfl
    | succ i =>
      rw [stringOffsets, List.getElem?_cons_succ, ih _ (Nat.lt_of_succ_lt_succ hi),
        List.take_succ_cons, List.flatMap_cons, List.length_append, Nat.add_assoc]

/-- The ids of a context, as they are stored. -/
def StoredContext.ids (se : StoredContext) : List ℕ :=
  [se.caller, se.callee, se.callerDisplay, se.calleeDisplay, se.site, tuCode se.tuPath, se.scopeSet,
    se.guardSet, se.raiiSet]

theorem putContext_eq (se : StoredContext) : putContext se =
    se.ids.flatMap putId ++ (putU8 se.callerNoexcept.code ++ putFlag se.insideCatchBlock) := by
  simp only [putContext, StoredContext.ids, List.flatMap_cons, List.flatMap_nil, List.flatten_cons,
    List.flatten_nil, List.append_nil, List.append_assoc]

namespace ControlFlowRecords

/-- The records are those of an index: they can be stored, no string is listed twice and the
contexts stand by call site. -/
structure Indexed (r : ControlFlowRecords) : Prop extends r.Storable where
  nodup : r.strings.Nodup
  sorted : r.contexts.Pairwise fun a b => a.site ≤ b.site

variable {r : ControlFlowRecords}

theorem Storable.ids_lt (h : r.Storable) {se : StoredContext} (hse : se ∈ r.contexts) :
    ∀ v ∈ se.ids, v < 2 ^ 32 := by
  have hk := h.contexts se hse
  have hn : r.strings.length < 2 ^ 32 := h.string_count.trans (by decide)
  have htu : tuCode se.tuPath < 2 ^ 32 := by
    cases ht : se.tuPath with
    | none => decide
    | some tu => exact (hk.tuPath tu ht).trans hn
  simp only [StoredContext.ids, List.forall_mem_cons, List.not_mem_nil, IsEmpty.forall_iff,
    implies_true, and_true]
  exact ⟨hk.caller.trans hn, hk.callee.trans hn, hk.callerDisplay.trans hn,
    hk.calleeDisplay.trans hn, hk.site.trans hn, htu, hk.scopeSet.trans h.scopes.count,
    hk.guardSet.trans h.guards.count, hk.raiiSet.trans h.raiis.count⟩

theorem recordAt_eq {pos : ℕ} {se : StoredContext} (h : r.contexts[pos]? = some se) :
    r.recordAt pos = se := by
  rw [recordAt, List.getD_eq_getElem?_getD, h, Option.getD_some]

end ControlFlowRecords

namespace MappedStore

variable {m : MappedStore} {r : ControlFlowRecords} {sort : Sorter r.idBefore}

/-! ### Reading the arrays -/

/-- An item of an array of numbers. -/
theorem fetchLe_array {buf : Bytes} {region : Region} {l : List ℕ}
    (h : region.Spans buf (putArray l)) (hl : ∀ v ∈ l, v < 2 ^ 32) {i v : ℕ} (hi : l[i]? = some v) :
    region.fetchLe buf (i * 4) 4 = some v :=
  h.number (fun v hv => ⟨putId_eq (hl v hv), hl v hv⟩) hi

/-- The id at a place of a record. -/
theorem Stores.id_at (hm : m.Stores r sort) (h : r.Storable) {pos : ℕ} {se : StoredContext}
    (hse : r.contexts[pos]? = some se) {k v : ℕ} (hk : se.ids[k]? = some v) :
    m.records.fetchLe m.buffer (pos * kRecordBytes + k * 4) 4 = some v := by
  have hids := h.ids_lt (List.mem_of_getElem? hse)
  have hv := hids v (List.mem_of_getElem? hk)
  have hfront : ((se.ids.take k).flatMap putId).length = k * 4 := by
    rw [Region.length_flatMap_of_size fun v _ => length_putId v, List.length_take,
      Nat.min_eq_left (List.getElem?_eq_some_iff.mp hk).1.le]
  have hput : putContext se = (se.ids.take k).flatMap putId ++ (toLe 4 v ++
      ((se.ids.drop (k + 1)).flatMap putId ++
        (putU8 se.callerNoexcept.code ++ putFlag se.insideCatchBlock))) := by
    rw [putContext_eq, Region.flatMap_around putId hk, putId_eq hv]
    simp only [List.append_assoc]
  rw [← hfront]
  exact hm.records.item (fun se _ => length_putContext se) hse _ _ hput hv

theorem Stores.noexcept_at (hm : m.Stores r sort) {pos : ℕ} {se : StoredContext}
    (hse : r.contexts[pos]? = some se) :
    m.records.fetchLe m.buffer (pos * kRecordBytes + 36) 1 =
      some se.callerNoexcept.code.toNat := by
  have hput : putContext se = se.ids.flatMap putId ++
      (toLe 1 se.callerNoexcept.code.toNat ++ putFlag se.insideCatchBlock) := by
    rw [putContext_eq, putU8, toLe, toLe, UInt8.ofNat_toNat]
  exact hm.records.item (fun se _ => length_putContext se) hse _ _ hput (UInt8.toNat_lt _)

theorem Stores.inside_at (hm : m.Stores r sort) {pos : ℕ} {se : StoredContext}
    (hse : r.contexts[pos]? = some se) :
    m.records.fetchLe m.buffer (pos * kRecordBytes + 37) 1 =
      some (if se.insideCatchBlock then 1 else 0) := by
  have hput : putContext se = (se.ids.flatMap putId ++ putU8 se.callerNoexcept.code) ++
      (toLe 1 (if se.insideCatchBlock then 1 else 0) ++ []) := by
    rw [putContext_eq, List.append_nil, List.append_assoc]
    cases se.insideCatchBlock <;> rfl
  refine hm.records.item (fun se _ => length_putContext se) hse _ _ hput ?_
  split_ifs <;> decide

/-- A record is read as it was written. -/
theorem Stores.mappedRecord (hm : m.Stores r sort) (h : r.Storable) {pos : ℕ} {se : StoredContext}
    (hse : r.contexts[pos]? = some se) :
    m.mappedRecord r.scopeSets.length r.guardSets.length r.raiiSets.length pos = some se := by
  have hpos : ¬ m.recordCount ≤ pos := by
    rw [hm.recordCount]
    exact not_le.mpr (List.getElem?_eq_some_iff.mp hse).1
  have hk := h.contexts se (List.mem_of_getElem? hse)
  have hid {k v : ℕ} (hv : se.ids[k]? = some v) := hm.id_at h hse hv
  have h₀ := hid (k := 0) rfl
  have h₁ := hid (k := 1) rfl
  have h₂ := hid (k := 2) rfl
  have h₃ := hid (k := 3) rfl
  have h₄ := hid (k := 4) rfl
  have h₅ := hid (k := 5) rfl
  have h₆ := hid (k := 6) rfl
  have h₇ := hid (k := 7) rfl
  have h₈ := hid (k := 8) rfl
  simp only [Nat.reduceMul] at h₀ h₁ h₂ h₃ h₄ h₅ h₆ h₇ h₈
  have htu : (if tuCode se.tuPath = kNoString then none else some (tuCode se.tuPath)) =
      se.tuPath := by
    cases ht : se.tuPath with
    | none => rfl
    | some tu => exact if_neg ((hk.tuPath tu ht).trans h.string_count).ne
  have hinside : ((if se.insideCatchBlock then 1 else 0 : ℕ) != 0) = se.insideCatchBlock := by
    cases se.insideCatchBlock <;> rfl
  have hvalid : m.validRecord r.scopeSets.length r.guardSets.length r.raiiSets.length se = true := by
    have htu' : se.tuPath.all (fun tu => decide (tu < r.strings.length)) = true := by
      cases ht : se.tuPath with
      | none => rfl
      | some tu => exact decide_eq_true (hk.tuPath tu ht)
    simp only [validRecord, hm.stringCount, htu', hk.caller, hk.callee, hk.callerDisplay,
      hk.calleeDisplay, hk.site, hk.scopeSet, hk.guardSet, hk.raiiSet, decide_true, Bool.and_true]
  have hlive : { se with live := true } = se := by
    cases se
    exact congrArg _ hk.live.symm
  rw [MappedStore.mappedRecord, if_neg hpos]
  simp only [h₀, h₁, h₂, h₃, h₄, h₅, h₆, h₇, h₈, hm.noexcept_at hse, hm.inside_at hse,
    Option.bind_eq_bind, Option.bind_some, htu, hinside, UInt8.ofNat_toNat, NoexceptSpec.ofCode_code]
  change some { se with live := m.validRecord _ _ _ se } = _
  rw [hvalid, hlive]

/-- A string is read as it was written. -/
theorem Stores.mappedString (hm : m.Stores r sort) (h : r.Storable) {id : SId} {s : Bytes}
    (hs : r.strings[id]? = some s) : m.mappedString id = some s := by
  have hlt := (List.getElem?_eq_some_iff.mp hs).1
  have hmem := List.mem_of_getElem? hs
  have hsplit := Region.flatMap_around putStr hs
  have hput : putStr s = toLe 4 s.length ++ s := by
    rw [putStr, putU32, UInt32.toNat_ofNat_of_lt' (h.strings s hmem).2]
  -- the offset of the entry
  have hroom : ∀ t i, r.strings[i]? = some t → ((r.strings.take i).flatMap putStr).length < 2 ^ 32 := by
    intro t i hi
    have htable := h.table
    rw [putTable, putCounted, List.length_append, Region.flatMap_around putStr hi,
      List.length_append] at htable
    omega
  have hoffsets : ∀ v ∈ Vycor.stringOffsets 0 r.strings, v < 2 ^ 32 := by
    intro v hv
    obtain ⟨i, hi, rfl⟩ := List.getElem_of_mem hv
    rw [length_stringOffsets] at hi
    have hget := stringOffsets_getElem? 0 hi
    rw [List.getElem?_eq_getElem (by rwa [length_stringOffsets]), Option.some_inj] at hget
    rw [hget, Nat.zero_add]
    exact hroom _ i (List.getElem?_eq_getElem hi)
  have hoff := fetchLe_array hm.stringOffsets hoffsets (stringOffsets_getElem? 0 hlt)
  rw [Nat.zero_add] at hoff
  -- the entry
  have hspan := hm.strings
  rw [hsplit, hput, List.append_assoc] at hspan
  have hlen := hspan.fetchLe (h.strings s hmem).2
  have hregion := hspan.length_eq
  simp only [List.length_append, length_toLe] at hregion
  rw [← List.append_assoc] at hspan
  have htext := hspan.fetch
  rw [List.length_append, length_toLe] at htext
  rw [MappedStore.mappedString, if_neg (by rw [hm.stringCount]; exact not_le.mpr hlt), hoff]
  simp only [Option.bind_eq_bind, Option.bind_some]
  rw [if_neg (by omega), hlen]
  simp only [Option.bind_some]
  rw [if_neg (by omega), htext]

/-- The sort lists every id. -/
theorem Stores.idAt (hm : m.Stores r sort) (h : r.Storable) {i : ℕ}
    (hi : i < r.strings.length) : ∃ id, (sort.run (List.range r.strings.length))[i]? = some id ∧
      id < r.strings.length ∧ m.idAt i = some id := by
  have hlen : (sort.run (List.range r.strings.length)).length = r.strings.length :=
    (sort.perm _).length_eq.trans List.length_range
  have hlt : ∀ v ∈ sort.run (List.range r.strings.length), v < r.strings.length := fun v hv =>
    List.mem_range.mp ((sort.perm _).mem_iff.mp hv)
  have hget := List.getElem?_eq_getElem (hlen.symm ▸ hi)
  refine ⟨_, hget, hlt _ (List.getElem_mem _), ?_⟩
  exact fetchLe_array hm.sortedIds
    (fun v hv => (hlt v hv).trans (h.string_count.trans (by decide))) hget

/-- The queries of the site may read the store. -/
theorem Stores.attached (hm : m.Stores r sort) : m.Attached where
  strings := hm.strings.inside
  stringOffsets := by
    refine ⟨hm.stringOffsets.inside, ?_⟩
    rw [← hm.stringOffsets.length_eq, length_putArray, length_stringOffsets, hm.stringCount,
      Nat.mul_comm]
  sortedIds := by
    refine ⟨hm.sortedIds.inside, ?_⟩
    rw [← hm.sortedIds.length_eq, length_putArray, (sort.perm _).length_eq, List.length_range,
      hm.stringCount, Nat.mul_comm]
  records := by
    refine ⟨hm.records.inside, ?_⟩
    rw [← hm.records.length_eq, length_records, hm.recordCount]

/-- **A saved section has the layout of the format.** -/
theorem Stores.inOrder (hm : m.Stores r sort) (h : r.Indexed) : m.InOrder where
  attached := hm.attached
  utf8 id s hid hs := by
    rw [hm.stringCount] at hid
    rw [hm.mappedString h.toStorable (List.getElem?_eq_getElem hid), Option.some_inj] at hs
    subst hs
    exact (h.strings _ (List.getElem_mem hid)).1
  listed id hid := by
    rw [hm.stringCount] at hid ⊢
    have hmem := (sort.perm (List.range r.strings.length)).mem_iff.mpr (List.mem_range.mpr hid)
    obtain ⟨i, hlt, hget⟩ := List.getElem_of_mem hmem
    have hi := hlt
    rw [(sort.perm _).length_eq, List.length_range] at hi
    obtain ⟨id', hid', -, hat⟩ := hm.idAt h.toStorable hi
    rw [List.getElem?_eq_getElem hlt, Option.some_inj, hget] at hid'
    exact ⟨i, hi, by rw [hat, hid']⟩
  ascending i j id id' s s' hij hj hid hid' hs hs' := by
    rw [hm.stringCount] at hj
    obtain ⟨a, ha, hlta, hata⟩ := hm.idAt h.toStorable (hij.trans hj)
    obtain ⟨b, hb, hltb, hatb⟩ := hm.idAt h.toStorable hj
    obtain rfl := Option.some_inj.mp (hid.symm.trans hata)
    obtain rfl := Option.some_inj.mp (hid'.symm.trans hatb)
    have hne : id ≠ id' := by
      intro heq
      have hnodup : (sort.run (List.range r.strings.length)).Nodup :=
        (sort.perm _).nodup_iff.mpr List.nodup_range
      obtain ⟨hi', hai⟩ := List.getElem?_eq_some_iff.mp ha
      obtain ⟨hj', hbj⟩ := List.getElem?_eq_some_iff.mp hb
      exact hij.ne ((hnodup.getElem_inj_iff).mp (hai.trans (heq.trans hbj.symm)))
    have hsorted : r.idBefore id' id = false := by
      obtain ⟨hi', hai⟩ := List.getElem?_eq_some_iff.mp ha
      obtain ⟨hj', hbj⟩ := List.getElem?_eq_some_iff.mp hb
      have hpair := List.pairwise_iff_getElem.mp (sort.sorted _) i j hi' hj' hij
      rwa [hai, hbj] at hpair
    have hstr : ∀ {k t}, k < r.strings.length → m.mappedString k = some t → r.stringAt k = t := by
      intro k t hk ht
      rw [hm.mappedString h.toStorable (List.getElem?_eq_getElem hk), Option.some_inj] at ht
      rw [ControlFlowRecords.stringAt, List.getD_eq_getElem _ _ hk, ht]
    rw [ControlFlowRecords.idBefore, decide_eq_false_iff_not, not_lt, hstr hlta hs,
      hstr hltb hs'] at hsorted
    refine lt_of_le_of_ne hsorted fun heq => hne ?_
    rw [← hstr hlta hs, ← hstr hltb hs', ControlFlowRecords.stringAt, ControlFlowRecords.stringAt,
      List.getD_eq_getElem _ _ hlta, List.getD_eq_getElem _ _ hltb] at heq
    exact (h.nodup.getElem_inj_iff).mp heq
  sites i j v v' hij hj hv hv' := by
    rw [hm.recordCount] at hj
    have hsite : ∀ {k w}, (hk : k < r.contexts.length) → m.siteAt k = some w →
        w = r.contexts[k].site := by
      intro k w hk hw
      have hat := hm.id_at h.toStorable (List.getElem?_eq_getElem hk) (k := 4) rfl
      exact Option.some_inj.mp (hw.symm.trans hat)
    rw [hsite (hij.trans_lt hj) hv, hsite hj hv']
    rcases Nat.lt_or_eq_of_le hij with hlt | rfl
    · exact List.pairwise_iff_getElem.mp h.sorted i j (hij.trans_lt hj) hj hlt
    · rfl

/-! ### Finding ids and ranges -/

/-- The bisection finds an id of the order. -/
theorem mem_of_searchId {key : Bytes} {lo hi : ℕ} {id : SId}
    (h : m.searchId key lo hi = some (some id)) : ∃ i, i < hi ∧ m.idAt i = some id := by
  induction lo, hi using searchId.induct m key with
  | case1 lo hi hlt hnone =>
    rw [searchId, if_pos hlt, hnone] at h
    cases h
  | case2 lo hi hlt mid hmid hnone => simp [searchId, if_pos hlt, hmid, hnone] at h
  | case3 lo hi hlt mid hmid hs =>
    rw [searchId, if_pos hlt] at h
    simp only [hmid, hs, if_true, Option.some_inj] at h
    subst h
    exact ⟨_, by omega, hmid⟩
  | case4 lo hi hlt mid hmid t ht hne hless ih =>
    rw [searchId, if_pos hlt] at h
    simp only [hmid, ht, if_neg hne, if_pos hless] at h
    exact ih h
  | case5 lo hi hlt mid hmid t ht hne hless ih =>
    rw [searchId, if_pos hlt] at h
    simp only [hmid, ht, if_neg hne, if_neg hless] at h
    obtain ⟨i, hi', hat⟩ := ih h
    exact ⟨i, by omega, hat⟩
  | case6 lo hi hge =>
    rw [searchId, if_neg hge] at h
    cases h

/-- A string has the id that the interner gives it. -/
theorem Stores.searchId (hm : m.Stores r sort) (h : r.Indexed) (key : Bytes) :
    m.searchId key 0 m.stringCount = some ((⟨r.strings⟩ : StringInterner).find key) := by
  obtain ⟨found, hfound⟩ := hm.attached.exists_searchId key 0 m.stringCount le_rfl
  -- the ids of the order are found by their strings
  have hiff : ∀ i < r.strings.length, ∀ id, m.idAt i = some id → ∃ s, r.strings[id]? = some s ∧
      (found = some id ↔ s = key) := by
    intro i hi id hid
    obtain ⟨id', -, hlt, hat⟩ := hm.idAt h.toStorable hi
    obtain rfl := Option.some_inj.mp (hid.symm.trans hat)
    have hget := List.getElem?_eq_getElem hlt
    refine ⟨_, hget, (hm.inOrder h).searchId_eq_some_iff hfound (by simp)
      (fun i hge hlt => absurd hlt (not_lt.mpr hge)) le_rfl i ?_ id _ hid
        (hm.mappedString h.toStorable hget)⟩
    rwa [hm.stringCount]
  rw [hfound]
  congr 1
  cases hkey : (⟨r.strings⟩ : StringInterner).find key with
  | none =>
    cases found with
    | none => rfl
    | some id =>
      obtain ⟨i, hi, hat⟩ := mem_of_searchId hfound
      rw [hm.stringCount] at hi
      obtain ⟨s, hs, hsome⟩ := hiff i hi id hat
      have hmem := List.mem_of_getElem? hs
      rw [hsome.mp rfl] at hmem
      exact absurd hmem (StringInterner.find_eq_none.mp hkey)
  | some id =>
    have hlt : id < m.stringCount := by
      rw [hm.stringCount]
      exact StringInterner.lt_of_find hkey
    obtain ⟨i, hi, hat⟩ := (hm.inOrder h).listed id hlt
    rw [hm.stringCount] at hi
    obtain ⟨s, hs, hsome⟩ := hiff i hi id hat
    obtain ⟨hlt', heq⟩ := StringInterner.find_eq_some hkey
    rw [List.getElem?_eq_getElem hlt', Option.some_inj] at hs
    exact hsome.mpr (hs.symm.trans heq)

/-- An order array, or the records themselves, list these positions. -/
def Lists (m : MappedStore) (order : Option Region) (l : List ℕ) : Prop :=
  ∀ i p : ℕ, l[i]? = some p → m.orderAt order i = some p

theorem lists_of_spans {region : Region} {l : List ℕ} (h : region.Spans m.buffer (putArray l))
    (hl : ∀ v ∈ l, v < 2 ^ 32) : m.Lists (some region) l := fun _ _ hi => fetchLe_array h hl hi

theorem lists_records (m : MappedStore) (n : ℕ) : m.Lists none (List.range n) := by
  intro i p hi
  obtain ⟨hlt, heq⟩ := List.getElem?_eq_some_iff.mp hi
  rw [List.getElem_range] at heq
  rw [orderAt, heq]

/-- **The range of an id holds the positions of the records with it.** -/
theorem Stores.exists_mappedRange (hm : m.Stores r sort) (h : r.Storable) {order : Option Region}
    {l : List ℕ} (horder : m.Lists order l) (hl : ∀ p ∈ l, p < r.contexts.length) {k : ℕ}
    (key : StoredContext → ℕ) (hkey : ∀ se : StoredContext, se.ids[k]? = some (key se))
    (hsorted : l.Pairwise fun p q => key (r.recordAt p) ≤ key (r.recordAt q)) (id : SId) :
    ∃ first last, m.mappedRange order l.length (k * 4) id = some (first, last) ∧ first ≤ last ∧
      last ≤ l.length ∧
        (l.drop first).take (last - first) = l.filter fun p => decide (key (r.recordAt p) = id) := by
  have hfield : ∀ (i : ℕ) p, l[i]? = some p →
      m.fieldAt order (k * 4) i = some (some (key (r.recordAt p))) := by
    intro i p hi
    have hp := hl p (List.mem_of_getElem? hi)
    have hat := hm.id_at h (List.getElem?_eq_getElem hp) (hkey _)
    rw [fieldAt, horder i p hi, Option.bind_eq_bind, Option.bind_some,
      if_neg (by rw [hm.recordCount]; exact not_le.mpr hp), hat,
      ControlFlowRecords.recordAt_eq (List.getElem?_eq_getElem hp)]
    rfl
  obtain ⟨first, last, hfirst, hlast, hle, hlen, hslice⟩ := exists_equalRange hsorted id
    (fun i => (m.fieldAt order (k * 4) i).map fun v => v.any (· < id))
    (fun i => (m.fieldAt order (k * 4) i).map fun v => v.any (· ≤ id))
    (fun i p hi => by rw [hfield i p hi]; rfl) fun i p hi => by rw [hfield i p hi]; rfl
  refine ⟨first, last, ?_, hle, hlen, hslice⟩
  rw [mappedRange, hfirst, Option.bind_eq_bind, Option.bind_some, hlast]
  rfl

/-- The positions of a range are read. -/
theorem positionsIn_eq {order : Region} {l : List ℕ} (horder : m.Lists (some order) l)
    {first last : ℕ} (hle : first ≤ last) (hlen : last ≤ l.length) :
    ControlFlowIndex.MappedStore.positionsIn m order (first, last) =
      some ((l.drop first).take (last - first)) := by
  obtain ⟨n, rfl⟩ := Nat.exists_eq_add_of_le hle
  rw [ControlFlowIndex.MappedStore.positionsIn, Nat.add_sub_cancel_left]
  induction n generalizing first with
  | zero => simp
  | succ n ih =>
    have hlt : first < l.length := by omega
    have hfirst := horder first _ (List.getElem?_eq_getElem hlt)
    rw [List.range'_succ, List.mapM_cons, hfirst, List.drop_eq_getElem_cons hlt,
      List.take_succ_cons, Option.bind_eq_bind, Option.bind_some,
      ih (Nat.le_add_right _ _) (by omega)]
    rfl

/-- **An order array lists the records with an id in their order.** -/
theorem Stores.exists_listed (hm : m.Stores r sort) (h : r.Storable) {region : Region}
    {l base : List ℕ} {k : ℕ} {key : StoredContext → ℕ}
    (hkey : ∀ se : StoredContext, se.ids[k]? = some (key se))
    (hbase : ∀ p ∈ base, p < r.contexts.length)
    (hl : l = byKey r.strings.length (fun p => key (r.recordAt p)) base)
    (hspan : region.Spans m.buffer (putArray l)) {id : SId} (hid : id < r.strings.length) :
    ∃ first last, m.mappedRange (some region) l.length (k * 4) id = some (first, last) ∧
      (first = last ↔ base.filter (fun p => decide (key (r.recordAt p) = id)) = []) ∧
        ControlFlowIndex.MappedStore.positionsIn m region (first, last) =
          some (base.filter fun p => decide (key (r.recordAt p) = id)) := by
  have hmem : ∀ p ∈ l, p < r.contexts.length := fun p hp => hbase p (mem_byKey.mp (hl ▸ hp)).1
  have hlists := lists_of_spans hspan fun p hp => (hmem p hp).trans h.context_count
  have hsorted := sorted_byKey r.strings.length (fun p => key (r.recordAt p)) base
  rw [← hl] at hsorted
  obtain ⟨first, last, hrange, hle, hlen, hslice⟩ :=
    hm.exists_mappedRange h hlists hmem key hkey hsorted id
  rw [hl, filter_byKey, if_pos hid, ← hl] at hslice
  have hlength := congrArg List.length hslice
  rw [List.length_take, List.length_drop, Nat.min_eq_left (by omega)] at hlength
  refine ⟨first, last, hrange, ?_, by rw [positionsIn_eq hlists hle hlen, hslice]⟩
  rw [← List.length_eq_zero_iff, ← hlength]
  omega

end MappedStore

namespace ControlFlowIndex

/-- A mapped index of a section and a resident one of the same records. -/
structure Twins (mapped resident : ControlFlowIndex) (m : MappedStore) (r : ControlFlowRecords)
    (sort : Sorter r.idBefore) : Prop where
  indexed : r.Indexed
  stores : m.Stores r sort
  attached : mapped.mapped = some m
  mapped_sets : mapped.scopeSets = r.scopeSets ∧ mapped.guardSets = r.guardSets ∧
    mapped.raiiSets = r.raiiSets
  inv : resident.Inv (Seen.none.add resident.entries)
  contexts : resident.contexts = r.contexts
  interner : resident.interner = ⟨r.strings⟩
  resident_sets : resident.scopeSets = r.scopeSets ∧ resident.guardSets = r.guardSets ∧
    resident.raiiSets = r.raiiSets

namespace Twins

variable {mcf cf : ControlFlowIndex} {m : MappedStore} {r : ControlFlowRecords}
  {sort : Sorter r.idBefore} {ll : Llvm}

/-! ### The same records -/

theorem stringOf (h : Twins mcf cf m r sort) (hll : ll.AcceptsUtf8) {id : SId}
    (hid : id < r.strings.length) : mcf.stringOf ll id = cf.stringOf ll id := by
  have hs := List.getElem?_eq_getElem hid
  have htext := (h.indexed.strings _ (List.getElem_mem hid)).1
  have hres : cf.interner.resolve id = r.strings[id] := by
    rw [h.interner, StringInterner.resolve, List.getD_eq_getElem _ _ hid]
  rw [ControlFlowIndex.stringOf, ControlFlowIndex.stringOf, h.attached, h.inv.resident]
  dsimp only
  rw [h.stores.mappedString h.indexed.toStorable hs, Option.map_some,
    CallGraph.lookupText_eq ll hll htext, hres]

theorem localsOf (h : Twins mcf cf m r sort) (hll : ll.AcceptsUtf8) {set : List (RaiiLocal SId)}
    (hset : set ∈ r.raiiSets) : mcf.localsOf ll set = cf.localsOf ll set := by
  have hrange := h.indexed.raiis.good set hset
  clear hset
  induction set with
  | nil => rfl
  | cons l rest ih =>
    obtain ⟨ht, hv, hd⟩ := hrange l (.head _)
    rw [ControlFlowIndex.localsOf, ControlFlowIndex.localsOf, h.stringOf hll ht, h.stringOf hll hv,
      h.stringOf hll hd, ih fun l hl => hrange l (.tail _ hl)]

theorem tuOf (h : Twins mcf cf m r sort) (hll : ll.AcceptsUtf8) {se : StoredContext}
    (hse : se ∈ r.contexts) : mcf.tuOf ll se = cf.tuOf ll se := by
  rw [ControlFlowIndex.tuOf, ControlFlowIndex.tuOf]
  cases htu : se.tuPath with
  | none => rfl
  | some tu => exact h.stringOf hll ((h.indexed.contexts se hse).tuPath tu htu)

theorem materialize (h : Twins mcf cf m r sort) (hll : ll.AcceptsUtf8) {se : StoredContext}
    (hse : se ∈ r.contexts) : mcf.materialize ll se = cf.materialize ll se := by
  have hk := h.indexed.contexts se hse
  obtain ⟨hscopes, hguards, hraiis⟩ := h.mapped_sets
  obtain ⟨hscopes', hguards', hraiis'⟩ := h.resident_sets
  have hset := List.getElem?_eq_getElem hk.raiiSet
  rw [ControlFlowIndex.materialize, ControlFlowIndex.materialize, h.stringOf hll hk.callerDisplay,
    h.stringOf hll hk.calleeDisplay, h.stringOf hll hk.caller, h.stringOf hll hk.callee,
    h.stringOf hll hk.site, h.tuOf hll hse, hscopes, hguards, hraiis, hscopes', hguards', hraiis',
    hset]
  simp only [Option.bind_eq_bind, Option.bind_some, h.localsOf hll (List.getElem_mem hk.raiiSet)]

theorem storedAt (h : Twins mcf cf m r sort) {pos : ℕ} (hpos : pos < r.contexts.length) :
    mcf.storedAt pos = some r.contexts[pos] ∧ cf.storedAt pos = some r.contexts[pos] := by
  have hget := List.getElem?_eq_getElem hpos
  obtain ⟨hscopes, hguards, hraiis⟩ := h.mapped_sets
  constructor
  · rw [ControlFlowIndex.storedAt, h.attached, hscopes, hguards, hraiis]
    exact h.stores.mappedRecord h.indexed.toStorable hget
  · rw [ControlFlowIndex.storedAt, h.inv.resident, h.contexts]
    exact hget

theorem collect (h : Twins mcf cf m r sort) (hll : ll.AcceptsUtf8) (keep : StoredContext → Bool)
    {positions : List ℕ} (hpos : ∀ p ∈ positions, p < r.contexts.length) :
    mcf.collect ll keep positions = cf.collect ll keep positions := by
  induction positions with
  | nil => rfl
  | cons p rest ih =>
    obtain ⟨hmapped, hresident⟩ := h.storedAt (hpos p (.head _))
    rw [ControlFlowIndex.collect, ControlFlowIndex.collect, hmapped, hresident,
      ih fun q hq => hpos q (.tail _ hq)]
    simp only [Option.bind_eq_bind, Option.bind_some, h.materialize hll (List.getElem_mem _)]

theorem firstStored (h : Twins mcf cf m r sort) (keep : StoredContext → Bool) {positions : List ℕ}
    (hpos : ∀ p ∈ positions, p < r.contexts.length) :
    ∃ found, mcf.firstStored keep positions = some found ∧
      cf.firstStored keep positions = some found ∧ ∀ se, found = some se → se ∈ r.contexts := by
  induction positions with
  | nil => exact ⟨none, rfl, rfl, fun se hse => by cases hse⟩
  | cons p rest ih =>
    obtain ⟨hmapped, hresident⟩ := h.storedAt (hpos p (.head _))
    rw [ControlFlowIndex.firstStored, ControlFlowIndex.firstStored, hmapped, hresident]
    simp only [Option.bind_eq_bind, Option.bind_some]
    split_ifs with hkeep
    · refine ⟨_, rfl, rfl, fun se hse => ?_⟩
      obtain rfl := Option.some_inj.mp hse
      exact List.getElem_mem _
    · exact ih fun q hq => hpos q (.tail _ hq)

theorem materializeFound (h : Twins mcf cf m r sort) (hll : ll.AcceptsUtf8)
    {found : Option StoredContext} (hfound : ∀ se, found = some se → se ∈ r.contexts) :
    mcf.materializeFound ll found = cf.materializeFound ll found := by
  cases found with
  | none => rfl
  | some se =>
    rw [ControlFlowIndex.materializeFound, ControlFlowIndex.materializeFound,
      h.materialize hll (hfound se rfl)]

/-! ### The same positions -/

theorem findId (h : Twins mcf cf m r sort) (raw : Bytes) : mcf.findId ll raw = cf.findId ll raw := by
  rw [ControlFlowIndex.findId, ControlFlowIndex.findId, h.attached, h.inv.resident, h.interner]
  exact h.stores.searchId h.indexed _

/-- The live positions with a property, all records being live. -/
theorem livePos (h : Twins mcf cf m r sort) (p : StoredContext → Bool) :
    cf.livePos p = (List.range r.contexts.length).filter fun i => p (r.recordAt i) := by
  rw [ControlFlowIndex.livePos, positions, h.contexts]
  refine List.filter_congr fun i hi => ?_
  have hlt := List.mem_range.mp hi
  have hget := List.getElem?_eq_getElem hlt
  have hlive := (h.indexed.contexts _ (List.getElem_mem hlt)).live
  rw [hget, Option.any_some, hlive, Bool.true_and, ControlFlowRecords.recordAt_eq hget]

theorem sitePositions (ll : Llvm) (h : Twins mcf cf m r sort) (site : Bytes) :
    ∃ p, mcf.sitePositions ll site = some (cf.livePos p) ∧
      cf.sitePositions ll site = some (cf.livePos p) := by
  rw [ControlFlowIndex.sitePositions, ControlFlowIndex.sitePositions, h.findId,
    findId_resident ll h.inv]
  cases cf.interner.find (lookupText ll site) with
  | none =>
    refine ⟨fun _ => false, ?_⟩
    simp [ControlFlowIndex.livePos, positions]
  | some id =>
    refine ⟨fun se => se.site = id, ?_⟩
    simp only [Option.bind_eq_bind, Option.bind_some, h.attached, h.inv.resident, h.inv.site_pos,
      and_true]
    have hsorted : (List.range r.contexts.length).Pairwise fun p q =>
        (r.recordAt p).site ≤ (r.recordAt q).site := by
      refine List.pairwise_iff_getElem.mpr fun i j hi hj hij => ?_
      rw [List.length_range] at hi hj
      rw [List.getElem_range, List.getElem_range,
        ControlFlowRecords.recordAt_eq (List.getElem?_eq_getElem hi),
        ControlFlowRecords.recordAt_eq (List.getElem?_eq_getElem hj)]
      exact List.pairwise_iff_getElem.mp h.indexed.sorted i j hi hj hij
    obtain ⟨first, last, hrange, hle, hlen, hslice⟩ := h.stores.exists_mappedRange
      h.indexed.toStorable (m.lists_records r.contexts.length) (fun p hp => List.mem_range.mp hp)
      (k := 4) (·.site) (fun _ => rfl) hsorted id
    rw [List.length_range] at hrange hlen
    have hcount : m.recordCount = r.contexts.length := h.stores.recordCount
    rw [hcount, hrange, h.livePos, ← hslice]
    have hslice' : ((List.range r.contexts.length).drop first).take (last - first) =
        List.range' first (last - first) := by
      refine List.ext_getElem (by simp; omega) fun i hi hi' => ?_
      simp
    rw [hslice']
    rfl

/-- A usr without records has no entry in the map. -/
theorem usrMap_eq_none (h : Twins mcf cf m r sort) {side : Side} {id : SId}
    (hnil : cf.livePos (fun se => side.usr se = id) = []) : side.usrMap cf id = none := by
  by_contra hne
  obtain ⟨n, hseen, hfind⟩ := (h.inv.usr_isSome side id).mp (Option.isSome_iff_ne_none.mpr hne)
  obtain ⟨c, hc, rfl⟩ := hseen.resolve_left fun hf => hf
  obtain ⟨se, hse, rfl⟩ := List.mem_map.mp hc
  obtain ⟨hmem, hlive⟩ := List.mem_filter.mp hse
  rw [usrOf_view] at hfind
  have hid := (h.inv.id_iff hfind ((h.inv.inRange se hmem).usr side)).mpr rfl
  obtain ⟨i, hi⟩ := List.mem_iff_getElem?.mp hmem
  have hpos : i ∈ cf.livePos fun se => side.usr se = id :=
    mem_positions.mpr ⟨se, hi, by simp [hlive, hid]⟩
  rw [hnil] at hpos
  cases hpos

theorem namePositions (ll : Llvm) (h : Twins mcf cf m r sort) (side : Side) (name : Bytes) :
    ∃ p, mcf.namePositions ll side name = some (cf.livePos p) ∧
      cf.namePositions ll side name = some (cf.livePos p) := by
  have hcount : m.recordCount = r.contexts.length := h.stores.recordCount
  have hrange : ∀ p ∈ List.range r.contexts.length, p < r.contexts.length := fun p hp =>
    List.mem_range.mp hp
  have hcontexts := h.indexed.contexts
  rw [ControlFlowIndex.namePositions, ControlFlowIndex.namePositions, h.findId,
    findId_resident ll h.inv]
  cases hfind : cf.interner.find (lookupText ll name) with
  | none =>
    refine ⟨fun _ => false, ?_⟩
    simp [ControlFlowIndex.livePos, positions]
  | some id =>
    have hid : id < r.strings.length := by
      have hlt := StringInterner.lt_of_find hfind
      rwa [h.interner] at hlt
    -- the arrays of the side
    have husr : ∃ first last, m.mappedRange (some (side.order m).1) m.recordCount (side.order m).2 id =
        some (first, last) ∧ (first = last ↔ cf.livePos (fun se => side.usr se = id) = []) ∧
          MappedStore.positionsIn m (side.order m).1 (first, last) =
            some (cf.livePos fun se => side.usr se = id) := by
      rw [h.livePos, hcount]
      cases side with
      | caller =>
        have hlisted := h.stores.exists_listed h.indexed.toStorable (k := 0) (fun _ => rfl) hrange
          (ControlFlowRecords.orderBy_eq fun se hse => (hcontexts se hse).caller)
          h.stores.byCaller hid
        rwa [ControlFlowRecords.length_orderBy fun se hse => (hcontexts se hse).caller] at hlisted
      | callee =>
        have hlisted := h.stores.exists_listed h.indexed.toStorable (k := 1) (fun _ => rfl) hrange
          (ControlFlowRecords.orderBy_eq fun se hse => (hcontexts se hse).callee)
          h.stores.byCallee hid
        rwa [ControlFlowRecords.length_orderBy fun se hse => (hcontexts se hse).callee] at hlisted
    have hdisplay : ∃ first last, m.mappedRange (some (side.displayOrder m).1)
        (side.displayOrder m).2.1 (side.displayOrder m).2.2 id = some (first, last) ∧
          MappedStore.positionsIn m (side.displayOrder m).1 (first, last) = some (cf.livePos
            fun se => side.display se = id ∧ side.display se ≠ side.usr se) := by
      have hfilter (usr display : StoredContext → ℕ) :
          (r.displayPositions usr display).filter (fun p => decide (display (r.recordAt p) = id)) =
            (List.range r.contexts.length).filter fun p =>
              decide (display (r.recordAt p) = id ∧ display (r.recordAt p) ≠ usr (r.recordAt p)) := by
        rw [ControlFlowRecords.displayPositions, List.filter_filter]
        exact List.filter_congr fun p _ => (Bool.decide_and _ _).symm
      have hpositions {usr display : StoredContext → ℕ} :
          ∀ p ∈ r.displayPositions usr display, p < r.contexts.length := fun p hp =>
        hrange p (List.mem_of_mem_filter hp)
      rw [h.livePos]
      cases side with
      | caller =>
        obtain ⟨first, last, hr, -, hp⟩ := h.stores.exists_listed h.indexed.toStorable (k := 2)
          (fun _ => rfl) hpositions
          (ControlFlowRecords.displayOrder_eq fun se hse => (hcontexts se hse).callerDisplay)
          h.stores.byCallerDisplay hid
        rw [hfilter] at hp
        rw [← h.stores.callerDisplayCount] at hr
        exact ⟨first, last, hr, hp⟩
      | callee =>
        obtain ⟨first, last, hr, -, hp⟩ := h.stores.exists_listed h.indexed.toStorable (k := 3)
          (fun _ => rfl) hpositions
          (ControlFlowRecords.displayOrder_eq fun se hse => (hcontexts se hse).calleeDisplay)
          h.stores.byCalleeDisplay hid
        rw [hfilter] at hp
        rw [← h.stores.calleeDisplayCount] at hr
        exact ⟨first, last, hr, hp⟩
    obtain ⟨first, last, hr, hempty, hp⟩ := husr
    obtain ⟨first', last', hr', hp'⟩ := hdisplay
    simp only [Option.bind_eq_bind, Option.bind_some, h.attached, h.inv.resident, hr]
    by_cases hnil : cf.livePos (fun se => side.usr se = id) = []
    · refine ⟨fun se => side.display se = id ∧ side.display se ≠ side.usr se, ?_, ?_⟩
      · rw [if_pos (hempty.mpr hnil), hr']
        exact hp'
      · rw [h.usrMap_eq_none hnil]
        dsimp only
        rw [h.inv.display_pos]
    · refine ⟨fun se => side.usr se = id, ?_, ?_⟩
      · rw [if_neg (mt hempty.mp hnil)]
        exact hp
      · have hpos := h.inv.usr_pos side id
        cases hmap : side.usrMap cf id with
        | none =>
          rw [hmap] at hpos
          exact absurd hpos.symm hnil
        | some v =>
          rw [hmap] at hpos
          exact congrArg some hpos

/-! ### The same answers -/

theorem collect_positions (h : Twins mcf cf m r sort) (hll : ll.AcceptsUtf8)
    (keep : StoredContext → Bool) (p : StoredContext → Bool) :
    mcf.collect ll keep (cf.livePos p) = cf.collect ll keep (cf.livePos p) := by
  refine h.collect hll keep fun i hi => ?_
  rw [← h.contexts]
  exact lt_of_mem_livePos i hi

theorem firstStored_positions (h : Twins mcf cf m r sort) (keep p : StoredContext → Bool) :
    ∃ found, mcf.firstStored keep (cf.livePos p) = some found ∧
      cf.firstStored keep (cf.livePos p) = some found ∧
        ∀ se, found = some se → se ∈ r.contexts := by
  refine h.firstStored keep fun i hi => ?_
  rw [← h.contexts]
  exact lt_of_mem_livePos i hi

theorem collect_named (h : Twins mcf cf m r sort) (hll : ll.AcceptsUtf8) (side : Side)
    (name : Bytes) (keep : StoredContext → Bool) :
    (do let positions ← mcf.namePositions ll side name
        mcf.collect ll keep positions) =
      (do let positions ← cf.namePositions ll side name
          cf.collect ll keep positions) := by
  obtain ⟨p, hmapped, hresident⟩ := h.namePositions ll side name
  rw [hmapped, hresident]
  exact h.collect_positions hll keep p

/-- **The mapped index answers every query as the resident one.** -/
theorem sameAnswers (h : Twins mcf cf m r sort) (hll : ll.AcceptsUtf8) :
    SameAnswers ll mcf cf where
  contextAtSite site := by
    obtain ⟨p, hmapped, hresident⟩ := h.sitePositions ll site
    obtain ⟨found, hfirst, hfirst', hmem⟩ := h.firstStored_positions (fun _ => true) p
    rw [ControlFlowIndex.contextAtSite, ControlFlowIndex.contextAtSite, hmapped, hresident]
    simp only [Option.bind_eq_bind, Option.bind_some, hfirst, hfirst', h.materializeFound hll hmem]
  contextAtSiteOf site caller := by
    obtain ⟨p, hmapped, hresident⟩ := h.sitePositions ll site
    rw [ControlFlowIndex.contextAtSiteOf, ControlFlowIndex.contextAtSiteOf, hmapped, hresident,
      h.findId]
    cases cf.findId ll caller with
    | none => simp only [Option.bind_eq_bind, Option.bind_none]
    | some found =>
      cases found with
      | none => simp only [Option.bind_eq_bind, Option.bind_some]
      | some callerId =>
        obtain ⟨found, hfirst, hfirst', hmem⟩ := h.firstStored_positions
          (fun se => se.caller = callerId || se.callerDisplay = callerId) p
        simp only [Option.bind_eq_bind, Option.bind_some, hfirst, hfirst',
          h.materializeFound hll hmem]
  contextsAtSite site := by
    obtain ⟨p, hmapped, hresident⟩ := h.sitePositions ll site
    rw [ControlFlowIndex.contextsAtSite, ControlFlowIndex.contextsAtSite, hmapped, hresident]
    exact h.collect_positions hll _ p
  contextForEdge site caller callee := by
    obtain ⟨p, hmapped, hresident⟩ := h.sitePositions ll site
    rw [ControlFlowIndex.contextForEdge, ControlFlowIndex.contextForEdge,
      ControlFlowIndex.contextsAtSite, ControlFlowIndex.contextsAtSite, hmapped, hresident]
    simp only [Option.bind_eq_bind, Option.bind_some, h.collect_positions hll]
  contextsForCaller name := by
    rw [ControlFlowIndex.contextsForCaller, ControlFlowIndex.contextsForCaller]
    exact h.collect_named hll .caller name _
  contextsForCallee name := by
    rw [ControlFlowIndex.contextsForCallee, ControlFlowIndex.contextsForCallee]
    exact h.collect_named hll .callee name _
  callerNoexceptOf name := by
    obtain ⟨p, hmapped, hresident⟩ := h.namePositions ll .caller name
    obtain ⟨found, hfirst, hfirst', -⟩ := h.firstStored_positions (fun _ => true) p
    rw [ControlFlowIndex.callerNoexceptOf, ControlFlowIndex.callerNoexceptOf, hmapped, hresident]
    simp only [Option.bind_eq_bind, Option.bind_some, hfirst, hfirst']
  protectedCallsTo name := by
    rw [ControlFlowIndex.protectedCallsTo, ControlFlowIndex.protectedCallsTo]
    exact h.collect_named hll .callee name _
  unprotectedCallsTo name := by
    rw [ControlFlowIndex.unprotectedCallsTo, ControlFlowIndex.unprotectedCallsTo]
    exact h.collect_named hll .callee name _
  forEachContext := by
    rw [ControlFlowIndex.forEachContext, ControlFlowIndex.forEachContext, h.attached,
      h.inv.resident, h.contexts]
    dsimp only
    rw [h.stores.recordCount]
    exact h.collect hll _ fun p hp => List.mem_range.mp hp

end Twins

/-! ### Loading a saved index -/

variable {cf : ControlFlowIndex} {seen : Seen}

theorem Inv.indexed_records (h : cf.Inv seen) (hfits : cf.FitsSection) : cf.records.Indexed where
  toStorable := h.storable_records hfits
  nodup := h.nodup
  sorted := by
    rw [h.records_contexts]
    exact sorted_byKey _ _ _

/-- Attached or installed, the records of an index answer alike. -/
theorem Inv.sameAnswers_attach {ll : Llvm} (hll : ll.AcceptsUtf8) (h : cf.Inv seen)
    (hfits : cf.FitsSection) {sort : Sorter cf.records.idBefore} {m : MappedStore}
    (hm : m.Stores cf.records sort) : SameAnswers ll (cf.records.attach m) cf.records.install := by
  obtain ⟨hinv, hctx, -⟩ := h.install_records
  obtain ⟨hinterner, hsets⟩ := cf.records.install_tables
  have htwins : Twins (cf.records.attach m) cf.records.install m cf.records sort :=
    { indexed := h.indexed_records hfits
      stores := hm
      attached := rfl
      mapped_sets := ⟨rfl, rfl, rfl⟩
      inv := hinv
      contexts := hctx
      interner := hinterner
      resident_sets := hsets }
  exact htwins.sameAnswers hll

end ControlFlowIndex

end Vycor
