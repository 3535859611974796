import Vycor.ControlFlow.Answers

/-!
# Reads of a mapped index stay inside the file

`attachMapped` takes the arrays of a section from the file and checks that each is there in
full; nothing else of the file is looked at. That is enough: every query of an attached index
answers, whatever the bytes of the file are (`Held.exists_contextForEdge`).
-/

namespace Vycor

/-- An array of `n` items of `size` bytes lies inside the buffer. -/
def Region.Holds (r : Region) (buf : Bytes) (n size : ℕ) : Prop :=
  r.Inside buf ∧ r.length = n * size

/-- What `attachMapped` has checked of the arrays the queries by call site read, and the loader
of the strings before it. -/
structure MappedStore.Attached (m : MappedStore) : Prop where
  strings : m.strings.Inside m.buffer
  stringOffsets : m.stringOffsets.Holds m.buffer m.stringCount 4
  sortedIds : m.sortedIds.Holds m.buffer m.stringCount 4
  records : m.records.Holds m.buffer m.recordCount kRecordBytes

namespace MappedStore

variable {m : MappedStore}

/-- An item of an array can be read, and a part of it. -/
theorem exists_fetchLe {r : Region} {buf : Bytes} {n size i off k : ℕ} (h : r.Holds buf n size)
    (hi : i < n) (hk : off + k ≤ size) : ∃ v, r.fetchLe buf (i * size + off) k = some v := by
  have hle : (i + 1) * size ≤ n * size := Nat.mul_le_mul_right _ hi
  rw [Nat.succ_mul] at hle
  have hread : i * size + off + k ≤ r.length := by
    rw [h.2]
    omega
  obtain ⟨v, -, hv⟩ := Region.isSome_fetchLe hread h.1
  exact ⟨v, hv⟩

theorem Attached.exists_mappedString (h : m.Attached) (id : SId) :
    ∃ s, m.mappedString id = some s := by
  rw [mappedString]
  split_ifs with hid
  · exact ⟨_, rfl⟩
  · obtain ⟨off, hoff⟩ := exists_fetchLe h.stringOffsets (not_le.mp hid) (by omega : 0 + 4 ≤ 4)
    rw [Nat.add_zero] at hoff
    simp only [hoff, Option.bind_eq_bind, Option.bind_some]
    split_ifs with hshort
    · exact ⟨_, rfl⟩
    · obtain ⟨len, -, hlen⟩ := Region.isSome_fetchLe (by omega : off + 4 ≤ m.strings.length) h.strings
      simp only [hlen, Option.bind_some]
      split_ifs with hrest
      · exact ⟨_, rfl⟩
      · exact ⟨_, Region.fetch_of_le (by omega) h.strings⟩

theorem Attached.exists_mappedRecord (h : m.Attached) (scopes guards raiis pos : ℕ) :
    ∃ se, m.mappedRecord scopes guards raiis pos = some se ∧
      (se.live = true → se.scopeSet < scopes ∧ se.guardSet < guards ∧ se.raiiSet < raiis) := by
  rw [mappedRecord]
  split_ifs with hpos
  · exact ⟨_, rfl, by simp⟩
  · have hfield : ∀ off ≤ 34, ∃ v, m.records.fetchLe m.buffer (pos * kRecordBytes + off) 4 =
        some v := fun off hoff => exists_fetchLe h.records (not_le.mp hpos) (by rw [kRecordBytes]; omega)
    have hbyte : ∀ off ≤ 37, ∃ v, m.records.fetchLe m.buffer (pos * kRecordBytes + off) 1 =
        some v := fun off hoff => exists_fetchLe h.records (not_le.mp hpos) (by rw [kRecordBytes]; omega)
    obtain ⟨v₀, h₀⟩ := hfield 0 (by omega)
    obtain ⟨v₁, h₁⟩ := hfield 4 (by omega)
    obtain ⟨v₂, h₂⟩ := hfield 8 (by omega)
    obtain ⟨v₃, h₃⟩ := hfield 12 (by omega)
    obtain ⟨v₄, h₄⟩ := hfield 16 (by omega)
    obtain ⟨v₅, h₅⟩ := hfield 20 (by omega)
    obtain ⟨v₆, h₆⟩ := hfield 24 (by omega)
    obtain ⟨v₇, h₇⟩ := hfield 28 (by omega)
    obtain ⟨v₈, h₈⟩ := hfield 32 (by omega)
    obtain ⟨v₉, h₉⟩ := hbyte 36 (by omega)
    obtain ⟨v₁₀, h₁₀⟩ := hbyte 37 (by omega)
    simp only [h₀, h₁, h₂, h₃, h₄, h₅, h₆, h₇, h₈, h₉, h₁₀, Option.bind_eq_bind, Option.bind_some]
    refine ⟨_, rfl, fun hlive => ?_⟩
    simp only [validRecord, Bool.and_eq_true, decide_eq_true_eq] at hlive
    exact ⟨hlive.1.1.2, hlive.1.2, hlive.2⟩

theorem Attached.exists_searchId (h : m.Attached) (key : Bytes) (lo hi : ℕ)
    (hhi : hi ≤ m.stringCount) : ∃ id, m.searchId key lo hi = some id := by
  induction lo, hi using searchId.induct m key with
  | case1 lo hi hlt hnone =>
    obtain ⟨v, hv⟩ := exists_fetchLe h.sortedIds (by omega : lo + (hi - lo) / 2 < m.stringCount)
      (by omega : 0 + 4 ≤ 4)
    rw [Nat.add_zero, hnone] at hv
    cases hv
  | case2 lo hi hlt id hid hnone =>
    obtain ⟨s, hs⟩ := h.exists_mappedString id
    rw [hnone] at hs
    cases hs
  | case3 lo hi hlt id hid hs => exact ⟨some id, by rw [searchId, if_pos hlt]; simp [hid, hs]⟩
  | case4 lo hi hlt id hid s hs hne hless ih =>
    obtain ⟨v, hv⟩ := ih hhi
    exact ⟨v, by rw [searchId, if_pos hlt]; simp [hid, hs, hne, hless, hv]⟩
  | case5 lo hi hlt id hid s hs hne hless ih =>
    obtain ⟨v, hv⟩ := ih (by omega)
    exact ⟨v, by rw [searchId, if_pos hlt]; simp [hid, hs, hne, hless, hv]⟩
  | case6 lo hi hge => exact ⟨_, by rw [searchId, if_neg hge]⟩

/-- The records are read in their own order. -/
theorem Attached.exists_mappedRange (h : m.Attached) (id : SId) :
    ∃ range, m.mappedRange none m.recordCount 16 id = some range := by
  have hprobe : ∀ i < m.recordCount, ∃ v, m.fieldAt none 16 i = some v := by
    intro i hi
    obtain ⟨v, hv⟩ := exists_fetchLe h.records hi (by decide : 16 + 4 ≤ kRecordBytes)
    refine ⟨some v, ?_⟩
    simp only [fieldAt, orderAt, Option.bind_eq_bind, Option.bind_some, if_neg (not_le.mpr hi), hv]
    rfl
  have htest : ∀ (p : ℕ → Bool) lo, ∀ i, lo ≤ i → i < m.recordCount →
      ∃ b, (m.fieldAt none 16 i).map (fun v => v.any p) = some b := by
    intro p lo i _ hi
    obtain ⟨v, hv⟩ := hprobe i hi
    exact ⟨_, by rw [hv]; rfl⟩
  obtain ⟨first, hfirst, -, hle⟩ := exists_partitionPoint (Nat.zero_le m.recordCount)
    (htest (· < id) 0)
  obtain ⟨last, hlast, -⟩ := exists_partitionPoint hle (htest (· ≤ id) first)
  exact ⟨(first, last), by rw [mappedRange, hfirst, Option.bind_eq_bind, Option.bind_some, hlast]; rfl⟩

end MappedStore

namespace ControlFlowIndex

variable (ll : Llvm) {cf : ControlFlowIndex} {m : MappedStore}

/-- An index the program can hold: one the mutators built, or one attached to a file. -/
def Held (cf : ControlFlowIndex) : Prop :=
  (∃ seen, cf.Inv seen) ∨ ∃ m, cf.mapped = some m ∧ m.Attached

section Mapped

variable (hm : cf.mapped = some m) (h : m.Attached)

include hm h

theorem exists_stringOf (id : SId) : ∃ s, cf.stringOf ll id = some s := by
  obtain ⟨s, hs⟩ := h.exists_mappedString id
  exact ⟨lookupText ll s, by simp only [stringOf, hm, hs, Option.map_some]⟩

theorem exists_localsOf (locals : List (RaiiLocal SId)) :
    ∃ out, cf.localsOf ll locals = some out := by
  induction locals with
  | nil => exact ⟨_, rfl⟩
  | cons l rest ih =>
    obtain ⟨more, hmore⟩ := ih
    obtain ⟨t, ht⟩ := exists_stringOf ll hm h l.typeName
    obtain ⟨v, hv⟩ := exists_stringOf ll hm h l.varName
    obtain ⟨d, hd⟩ := exists_stringOf ll hm h l.declLocation
    exact ⟨_, by rw [localsOf, ht, hv, hd, hmore]; rfl⟩

/-- A record that passed the validation has its sets. -/
theorem exists_materialize {se : StoredContext} (hscope : se.scopeSet < cf.scopeSets.length)
    (hguard : se.guardSet < cf.guardSets.length) (hraii : se.raiiSet < cf.raiiSets.length) :
    ∃ ctx, cf.materialize ll se = some ctx := by
  obtain ⟨s₀, h₀⟩ := exists_stringOf ll hm h se.callerDisplay
  obtain ⟨s₁, h₁⟩ := exists_stringOf ll hm h se.calleeDisplay
  obtain ⟨s₂, h₂⟩ := exists_stringOf ll hm h se.caller
  obtain ⟨s₃, h₃⟩ := exists_stringOf ll hm h se.callee
  obtain ⟨s₄, h₄⟩ := exists_stringOf ll hm h se.site
  obtain ⟨tu, htu⟩ : ∃ tu, cf.tuOf ll se = some tu := by
    rw [tuOf]
    cases se.tuPath with
    | none => exact ⟨_, rfl⟩
    | some tu => exact exists_stringOf ll hm h tu
  obtain ⟨locals, hlocals⟩ := exists_localsOf ll hm h cf.raiiSets[se.raiiSet]
  simp only [materialize, h₀, h₁, h₂, h₃, h₄, htu, List.getElem?_eq_getElem hscope,
    List.getElem?_eq_getElem hguard, List.getElem?_eq_getElem hraii, hlocals, Option.bind_eq_bind,
    Option.bind_some]
  exact ⟨_, rfl⟩

theorem exists_collect (keep : StoredContext → Bool) (positions : List ℕ) :
    ∃ out, cf.collect ll keep positions = some out := by
  induction positions with
  | nil => exact ⟨_, rfl⟩
  | cons pos rest ih =>
    obtain ⟨more, hmore⟩ := ih
    obtain ⟨se, hse, hvalid⟩ := h.exists_mappedRecord cf.scopeSets.length cf.guardSets.length
      cf.raiiSets.length pos
    have hat : cf.storedAt pos = some se := by
      simp only [storedAt, hm]
      exact hse
    rw [collect, hat]
    simp only [Option.bind_eq_bind, Option.bind_some, hmore]
    split_ifs with hlive
    · obtain ⟨hscope, hguard, hraii⟩ := hvalid (Bool.and_eq_true_iff.mp hlive).1
      obtain ⟨ctx, hctx⟩ := exists_materialize ll hm h hscope hguard hraii
      exact ⟨_, by rw [hctx]; rfl⟩
    · exact ⟨_, rfl⟩

theorem exists_sitePositions (callSite : Bytes) :
    ∃ positions, cf.sitePositions ll callSite = some positions := by
  obtain ⟨id, hid⟩ := h.exists_searchId (lookupText ll callSite) 0 m.stringCount le_rfl
  rw [sitePositions, findId, hm]
  simp only [hid, Option.bind_eq_bind, Option.bind_some]
  cases id with
  | none => exact ⟨_, rfl⟩
  | some id =>
    obtain ⟨range, hrange⟩ := h.exists_mappedRange id
    simp only [hrange, Option.bind_some]
    exact ⟨_, rfl⟩

end Mapped

/-- The contexts at a site are always read. -/
theorem Held.exists_contextsAtSite (h : cf.Held) (site : Bytes) :
    ∃ contexts, cf.contextsAtSite ll site = some contexts := by
  obtain ⟨seen, hinv⟩ | ⟨m, hm, hatt⟩ := h
  · exact ⟨_, hinv.contextsAtSite site⟩
  · obtain ⟨positions, hpos⟩ := exists_sitePositions ll hm hatt site
    obtain ⟨contexts, hcontexts⟩ := exists_collect ll hm hatt (fun _ => true) positions
    refine ⟨contexts, ?_⟩
    simp only [contextsAtSite, hpos, hcontexts, Option.bind_eq_bind, Option.bind_some]

/-- **The lookup for an edge always answers.** -/
theorem Held.exists_contextForEdge (h : cf.Held) (site caller callee : Bytes) :
    ∃ ctx, cf.contextForEdge ll site caller callee = some ctx := by
  obtain ⟨contexts, hcontexts⟩ := h.exists_contextsAtSite ll site
  refine ⟨pickForEdge caller callee contexts, ?_⟩
  simp only [contextForEdge, hcontexts, Option.bind_eq_bind, Option.bind_some]

end ControlFlowIndex

end Vycor
