import Vycor.Snapshot.Meta
import Vycor.Lib.Positions

/-!
# What a clean TU has seen

All TUs share one dependency table with one stamp for each path. `DepTable.Holds` says what
the table keeps of the stamps recorded so far: for each path the first of the oldest ones.
A TU whose parse saw another stamp is protected by a stamp that is not its own;
`sawCurrentFiles_iff` says exactly when every TU reported clean has seen the current files.
-/

namespace Vycor

/-! ### The stamp kept for a path -/

/-- Of the stamps recorded for a path, `d` is the first of the oldest. -/
def FileStamp.FirstOldest (regs : List FileStamp) (d : FileStamp) : Prop :=
  (∀ e ∈ regs, e.path = d.path → d.mtimeNs ≤ e.mtimeNs) ∧
    regs.find? (fun e => e.path == d.path && e.mtimeNs == d.mtimeNs) = some d

namespace FileStamp

variable {regs : List FileStamp} {d e k : FileStamp}

theorem FirstOldest.mem (h : FirstOldest regs d) : d ∈ regs := List.mem_of_find?_eq_some h.2

/-- At most one stamp of a path is the first of the oldest. -/
theorem FirstOldest.eq (hd : FirstOldest regs d) (he : FirstOldest regs e)
    (hpath : d.path = e.path) : d = e := by
  have htime : d.mtimeNs = e.mtimeNs :=
    UInt64.le_antisymm (hd.1 e he.mem hpath.symm) (he.1 d hd.mem hpath)
  have hfind := he.2
  rw [← hpath, ← htime, hd.2] at hfind
  exact Option.some.inj hfind

/-- A stamp of another path changes nothing. -/
theorem FirstOldest.concat_other (h : FirstOldest regs k) (hpath : d.path ≠ k.path) :
    FirstOldest (regs ++ [d]) k := by
  constructor
  · intro e he hek
    rcases List.mem_append.mp he with he | he
    · exact h.1 e he hek
    · exact absurd (List.mem_singleton.mp he ▸ hek) hpath
  · rw [List.find?_append, h.2, Option.some_or]

/-- A stamp that is not older than the one kept leaves it. -/
theorem FirstOldest.concat_of_le (h : FirstOldest regs k) (hle : k.mtimeNs ≤ d.mtimeNs) :
    FirstOldest (regs ++ [d]) k := by
  constructor
  · intro e he hek
    rcases List.mem_append.mp he with he | he
    · exact h.1 e he hek
    · exact List.mem_singleton.mp he ▸ hle
  · rw [List.find?_append, h.2, Option.some_or]

/-- A stamp older than all others of its path is kept. -/
theorem firstOldest_concat (hlt : ∀ e ∈ regs, e.path = d.path → d.mtimeNs < e.mtimeNs) :
    FirstOldest (regs ++ [d]) d := by
  have hnone : regs.find? (fun e => e.path == d.path && e.mtimeNs == d.mtimeNs) = none := by
    rw [List.find?_eq_none]
    intro e he hmatch
    simp only [Bool.and_eq_true, beq_iff_eq] at hmatch
    exact UInt64.lt_irrefl _ (hmatch.2 ▸ hlt e he hmatch.1)
  constructor
  · intro e he hpath
    rcases List.mem_append.mp he with he | he
    · exact UInt64.le_of_lt (hlt e he hpath)
    · rw [List.mem_singleton.mp he]
      exact UInt64.le_refl _
  · rw [List.find?_append, hnone, Option.none_or]
    simp

end FileStamp

open FileStamp

namespace SnapshotMeta

/-! ### The table -/

namespace DepTable

variable {t : DepTable} {regs : List FileStamp}

/-- The table after the stamps `regs`: an id stands for one path, every recorded path has
an id, and the stamp at it is the first of the oldest. -/
structure Holds (t : DepTable) (regs : List FileStamp) : Prop where
  ids_iff : ∀ p id, t.ids p = some id ↔ ∃ d, t.deps[id]? = some d ∧ d.path = p
  recorded : ∀ d ∈ regs, ∃ id, t.ids d.path = some id
  kept : ∀ (id : ℕ) (k : FileStamp), t.deps[id]? = some k → FirstOldest regs k

theorem Holds.empty : Holds {} [] := by
  constructor <;> simp

/-- A path already in the table: the stamp is replaced by an older one only. -/
theorem Holds.record_known (h : t.Holds regs) {d : FileStamp} {id : ℕ}
    (hid : t.ids d.path = some id) :
    (t.record d).2 = id ∧ (t.record d).1.ids = t.ids ∧
      (t.record d).1.Holds (regs ++ [d]) := by
  obtain ⟨k, hk, hkpath⟩ := (h.ids_iff _ _).mp hid
  have hlt : id < t.deps.length := (List.getElem?_eq_some_iff.mp hk).1
  have hgetD : t.deps.getD id default = k := by
    rw [List.getD_eq_getElem?_getD, hk, Option.getD_some]
  have hrec : t.record d =
      ({ t with deps := if d.mtimeNs < k.mtimeNs then t.deps.set id d else t.deps }, id) := by
    simp only [record, hid, hgetD]
  have hall : ∀ e ∈ regs ++ [d], ∃ id, t.ids e.path = some id := by
    intro e he
    rcases List.mem_append.mp he with he | he
    · exact h.recorded e he
    · exact ⟨id, List.mem_singleton.mp he ▸ hid⟩
  -- Other ids hold other paths, so `d` does not bear on their stamps.
  have hother : ∀ id' k', id' ≠ id → t.deps[id']? = some k' → d.path ≠ k'.path := by
    intro id' k' hne hk' hpath
    have := (h.ids_iff d.path id').mpr ⟨k', hk', hpath.symm⟩
    exact hne (Option.some.inj (this.symm.trans hid))
  rw [hrec]
  refine ⟨rfl, rfl, ?_, hall, ?_⟩
  · intro p id'
    rw [h.ids_iff]
    by_cases holder : d.mtimeNs < k.mtimeNs
    · simp only [if_pos holder]
      by_cases hid' : id' = id
      · subst hid'
        rw [hk, List.getElem?_set_self hlt]
        simp [hkpath]
      · rw [List.getElem?_set_ne (Ne.symm hid')]
    · simp only [if_neg holder]
  · intro id' k' hk'
    by_cases holder : d.mtimeNs < k.mtimeNs
    · simp only [if_pos holder] at hk'
      by_cases hid' : id' = id
      · subst hid'
        rw [List.getElem?_set_self hlt] at hk'
        obtain rfl := Option.some.inj hk'
        apply firstOldest_concat
        intro e he hpath
        exact UInt64.lt_of_lt_of_le holder ((h.kept _ _ hk).1 e he (hpath.trans hkpath.symm))
      · rw [List.getElem?_set_ne (Ne.symm hid')] at hk'
        exact (h.kept _ _ hk').concat_other (hother _ _ hid' hk')
    · simp only [if_neg holder] at hk'
      by_cases hid' : id' = id
      · subst hid'
        obtain rfl := Option.some.inj (hk.symm.trans hk')
        exact (h.kept _ _ hk).concat_of_le (UInt64.not_lt.mp holder)
      · exact (h.kept _ _ hk').concat_other (hother _ _ hid' hk')

/-- A new path gets the next id. -/
theorem Holds.record_new (h : t.Holds regs) {d : FileStamp} (hid : t.ids d.path = none) :
    (t.record d).1.ids d.path = some (t.record d).2 ∧
      (∀ p id, t.ids p = some id → (t.record d).1.ids p = some id) ∧
      (t.record d).1.Holds (regs ++ [d]) := by
  have hne : ∀ p id, t.ids p = some id → p ≠ d.path := by
    rintro p id hp rfl
    rw [hid] at hp
    exact Option.some_ne_none _ hp.symm
  have hfresh : ∀ e ∈ regs, e.path ≠ d.path := by
    intro e he
    obtain ⟨id, hid'⟩ := h.recorded e he
    exact hne _ _ hid'
  have hids : (t.record d).1.ids = Function.update t.ids d.path (some t.deps.length) := by
    simp only [record, hid]
  have hdeps : (t.record d).1.deps = t.deps ++ [d] := by simp only [record, hid]
  have hsnd : (t.record d).2 = t.deps.length := by simp only [record, hid]
  have hold : ∀ p id, t.ids p = some id → (t.record d).1.ids p = some id := by
    intro p id hp
    rw [hids, Function.update_of_ne (hne p id hp), hp]
  have hnew : (t.record d).1.ids d.path = some (t.record d).2 := by
    rw [hids, hsnd, Function.update_self]
  refine ⟨hnew, hold, ?_, ?_, ?_⟩
  · intro p id
    simp only [hids, hdeps, getElem?_concat_eq_some]
    by_cases hp : p = d.path
    · subst hp
      rw [Function.update_self, Option.some.injEq]
      constructor
      · rintro rfl
        exact ⟨d, .inr ⟨rfl, rfl⟩, rfl⟩
      · rintro ⟨k, hk | ⟨hk, -⟩, hkpath⟩
        · exact absurd hkpath (hfresh k (h.kept _ _ hk).mem)
        · exact hk.symm
    · rw [Function.update_of_ne hp, h.ids_iff]
      constructor
      · rintro ⟨k, hk, hkpath⟩
        exact ⟨k, .inl hk, hkpath⟩
      · rintro ⟨k, hk | ⟨-, rfl⟩, hkpath⟩
        · exact ⟨k, hk, hkpath⟩
        · exact absurd hkpath.symm hp
  · intro e he
    rcases List.mem_append.mp he with he | he
    · obtain ⟨id, hid'⟩ := h.recorded e he
      exact ⟨id, hold _ _ hid'⟩
    · rw [List.mem_singleton.mp he]
      exact ⟨_, hnew⟩
  · intro id k hk
    rw [hdeps, getElem?_concat_eq_some] at hk
    rcases hk with hk | ⟨-, rfl⟩
    · have hkept := h.kept _ _ hk
      exact hkept.concat_other (hfresh k hkept.mem).symm
    · exact firstOldest_concat fun e he hpath => absurd hpath (hfresh e he)

/-- One dependency: its path has an id from now on, and the ids given before stay. -/
theorem Holds.record (h : t.Holds regs) (d : FileStamp) :
    (t.record d).1.ids d.path = some (t.record d).2 ∧
      (∀ p id, t.ids p = some id → (t.record d).1.ids p = some id) ∧
      (t.record d).1.Holds (regs ++ [d]) := by
  cases hid : t.ids d.path with
  | none => exact h.record_new hid
  | some id =>
    obtain ⟨hsnd, hids, hholds⟩ := h.record_known hid
    rw [hids, hsnd]
    exact ⟨hid, fun _ _ hp => hp, hholds⟩

/-- The dependencies of one TU: its id list holds the ids of their paths. -/
theorem Holds.recordTU (h : t.Holds regs) (ds : List FileStamp) :
    (t.recordTU ds).2.map some = ds.map (fun d => (t.recordTU ds).1.ids d.path) ∧
      (∀ p id, t.ids p = some id → (t.recordTU ds).1.ids p = some id) ∧
      (t.recordTU ds).1.Holds (regs ++ ds) := by
  induction ds generalizing t regs with
  | nil => exact ⟨rfl, fun _ _ hp => hp, by rwa [List.append_nil]⟩
  | cons d ds ih =>
    obtain ⟨hid, hold, hholds⟩ := h.record d
    obtain ⟨hids, hold', hholds'⟩ := ih hholds
    refine ⟨?_, fun p id hp => hold' _ _ (hold _ _ hp), ?_⟩
    · simp only [DepTable.recordTU, List.map_cons, hids, hold' _ _ hid]
    · rw [List.append_cons]
      exact hholds'

/-- All TUs: the id list of each holds the ids its paths have in the final table. -/
theorem Holds.recordTUs (h : t.Holds regs) (deps : TuDependencies) (files : List FileStamp) :
    (t.recordTUs deps files).2.map (List.map some) =
        files.map (fun f =>
          (deps.of f.path).map fun d => (t.recordTUs deps files).1.ids d.path) ∧
      (∀ p id, t.ids p = some id → (t.recordTUs deps files).1.ids p = some id) ∧
      (t.recordTUs deps files).1.Holds (regs ++ files.flatMap fun f => deps.of f.path) := by
  induction files generalizing t regs with
  | nil => exact ⟨rfl, fun _ _ hp => hp, by rwa [List.flatMap_nil, List.append_nil]⟩
  | cons f files ih =>
    obtain ⟨hids, hold, hholds⟩ := h.recordTU (deps.of f.path)
    obtain ⟨hids', hold', hholds'⟩ := ih hholds
    refine ⟨?_, fun p id hp => hold' _ _ (hold _ _ hp), ?_⟩
    · simp only [DepTable.recordTUs, List.map_cons, hids', List.cons.injEq, and_true]
      rw [hids]
      refine List.map_congr_left fun d hd => ?_
      obtain ⟨id, hid⟩ := hholds.recorded d (List.mem_append_right _ hd)
      rw [hid, hold' _ _ hid]
    · rw [List.flatMap_cons, ← List.append_assoc]
      exact hholds'

end DepTable

/-! ### The clean verdict -/

variable {m : SnapshotMeta} {deps : TuDependencies} {bakeStart : Option UInt64}

theorem recordedIndex_concat (files : List FileStamp) (f : FileStamp) :
    recordedIndex (files ++ [f]) =
      Function.update (recordedIndex files) f.path (some files.length) := by
  simp [recordedIndex, List.zipIdx_append, List.foldl_append]

/-- The map of recorded paths points at entries of these paths. -/
theorem getElem?_of_recordedIndex {files : List FileStamp} {p : Bytes} {r : ℕ}
    (h : recordedIndex files p = some r) : ∃ f, files[r]? = some f ∧ f.path = p := by
  induction files using List.reverseRecOn with
  | nil => simp [recordedIndex] at h
  | append_singleton files f ih =>
    rw [recordedIndex_concat] at h
    by_cases hp : p = f.path
    · rw [hp, Function.update_self] at h
      exact ⟨f, getElem?_concat_eq_some.mpr (.inr ⟨(Option.some.inj h).symm, rfl⟩), hp.symm⟩
    · rw [Function.update_of_ne hp] at h
      obtain ⟨g, hg, hgp⟩ := ih h
      exact ⟨g, getElem?_concat_eq_some.mpr (.inl hg), hgp⟩

/-- Only the paths of the recorded stamps bear on the map. -/
theorem recordedIndex_map (files : List FileStamp) {f : FileStamp → FileStamp}
    (hf : ∀ d, (f d).path = d.path) : recordedIndex (files.map f) = recordedIndex files := by
  induction files using List.reverseRecOn with
  | nil => rfl
  | append_singleton files g ih =>
    rw [List.map_append, List.map_singleton, recordedIndex_concat, recordedIndex_concat, ih, hf,
      List.length_map]

/-- The fingerprint test passes when both sides carry the same fingerprint. -/
theorem fingerprint_agrees_iff {recorded fps : List Bytes} {r i : ℕ} :
    (recorded.length ≤ r || fps.length ≤ i || recorded[r]? != fps[i]?) = false ↔
      ∃ fp, recorded[r]? = some fp ∧ fps[i]? = some fp := by
  simp only [Bool.or_eq_false_iff, decide_eq_false_iff_not, not_le, bne_eq_false_iff_eq]
  constructor
  · rintro ⟨⟨hr, -⟩, heq⟩
    have hget := List.getElem?_eq_getElem hr
    exact ⟨_, hget, heq ▸ hget⟩
  · rintro ⟨fp, hr, hi⟩
    exact ⟨⟨(List.getElem?_eq_some_iff.mp hr).1, (List.getElem?_eq_some_iff.mp hi).1⟩,
      hr.trans hi.symm⟩

/-- When the loop of `dirtyTUs` finds nothing against a TU. -/
theorem dirtyReason_clean_iff {fingerprints : Option (List Bytes)} {fs : FileSystem} {i : ℕ}
    {current : FileStamp} :
    (m.dirtyReason fingerprints fs i current).1 = .clean ↔
      ∃ r, recordedIndex m.files current.path = some r ∧
        sameTuVersion (m.files.getD r default) current = true ∧
        (∀ fps ∈ fingerprints, ∃ fp, m.fingerprints[r]? = some fp ∧ fps[i]? = some fp) ∧
        (∀ id ∈ m.tuDeps.getD r [], m.depChanged fs id = false) ∧
        (m.outcomes = [] ∨ (m.outcomes[r]?).map TuOutcome.status = some .indexed) := by
  rw [dirtyReason]
  cases hr : recordedIndex m.files current.path with
  | none => simp
  | some r =>
    simp only [Option.some.injEq, exists_eq_left', ← fingerprint_agrees_iff]
    -- The four tests in the order of the source; each one that fails ends with its reason.
    cases hown : sameTuVersion (m.files.getD r default) current with
    | false => simp
    | true =>
      cases hfp : fingerprints.any fun fps =>
          m.fingerprints.length ≤ r || fps.length ≤ i || m.fingerprints[r]? != fps[i]? with
      | true =>
        obtain ⟨fps, hmem, hdiff⟩ := (Option.any_eq_true _ _).mp hfp
        simp only [Bool.not_true, Bool.false_eq_true, if_false, if_true, reduceCtorEq, false_iff]
        rintro ⟨-, hall, -⟩
        exact Bool.false_ne_true ((hall fps hmem).symm.trans hdiff)
      | false =>
        have hall := (Option.any_eq_false _ _).mp hfp
        cases hfind : (m.tuDeps.getD r []).find? (m.depChanged fs) with
        | some id =>
          have hid := List.mem_of_find?_eq_some hfind
          have hch := List.find?_some hfind
          simp only [Bool.not_true, Bool.false_eq_true, if_false, reduceCtorEq, false_iff]
          rintro ⟨-, -, hdeps, -⟩
          exact Bool.false_ne_true ((hdeps id hid).symm.trans hch)
        | none =>
          have hdeps : ∀ id ∈ m.tuDeps.getD r [], m.depChanged fs id = false :=
            fun id hid => Bool.eq_false_iff.mpr (List.find?_eq_none.mp hfind id hid)
          have hout : (!m.outcomes.isEmpty &&
              (m.outcomes[r]?).map TuOutcome.status != some .indexed) = false ↔
              m.outcomes = [] ∨ (m.outcomes[r]?).map TuOutcome.status = some .indexed := by
            rw [Bool.and_eq_false_iff, Bool.not_eq_false', List.isEmpty_iff, bne_eq_false_iff_eq]
          rw [← hout]
          cases hretry : (!m.outcomes.isEmpty &&
              (m.outcomes[r]?).map TuOutcome.status != some .indexed) with
          | true => simp
          | false => simpa using ⟨fun fps hmem => by simpa using hall fps hmem, hdeps⟩

/-- The flags of `dirtyTUs`, one by one. -/
theorem getElem?_dirtyTUs {current : List FileStamp} {fingerprints : Option (List Bytes)}
    {fs : FileSystem} {i : ℕ} {cur : FileStamp} (hcur : current[i]? = some cur) :
    (m.dirtyTUs current fingerprints fs).1[i]? = some false ↔
      (m.dirtyReason fingerprints fs i cur).1 = .clean := by
  simp [dirtyTUs, hcur]

/-! ### The recorded meta -/

/-- The stamp a bake records: `markUnstableStamps` where the bake has a start time. -/
def markStamp (bakeStart : Option UInt64) (fs : FileStamp) : FileStamp :=
  match bakeStart with
  | none => fs
  | some b => markUnstable b fs

/-- The meta of a bake: the dependencies recorded, then the unstable stamps marked. -/
def bakedMeta (m : SnapshotMeta) (deps : TuDependencies) (bakeStart : Option UInt64) : SnapshotMeta :=
  match bakeStart with
  | none => m.recordDependencies deps
  | some b => ((m.recordDependencies deps).markUnstableStamps b).1

/-- All stamps the parses of the listed TUs saw, in the order they are recorded. -/
def recordedStamps (m : SnapshotMeta) (deps : TuDependencies) : List FileStamp :=
  m.files.flatMap fun f => deps.of f.path

@[simp] theorem markStamp_path (b : Option UInt64) (fs : FileStamp) :
    (markStamp b fs).path = fs.path := by
  cases b with
  | none => rfl
  | some b => simp only [markStamp, markUnstable]; split <;> rfl

@[simp] theorem markStamp_size (b : Option UInt64) (fs : FileStamp) :
    (markStamp b fs).size = fs.size := by
  cases b with
  | none => rfl
  | some b => simp only [markStamp, markUnstable]; split <;> rfl

/-- A stamp that is not voided is recorded as it is. -/
theorem markStamp_of_ne_zero {b : Option UInt64} {fs : FileStamp} (h : (markStamp b fs).mtimeNs ≠ 0) :
    markStamp b fs = fs := by
  cases b with
  | none => rfl
  | some b =>
    simp only [markStamp, markUnstable] at h ⊢
    split at h
    · exact absurd rfl h
    · exact if_neg ‹_›

theorem bakedMeta_files : (m.bakedMeta deps bakeStart).files = m.files.map (markStamp bakeStart) := by
  cases bakeStart with
  | none => exact (List.map_id _).symm
  | some b => rfl

theorem bakedMeta_deps : (m.bakedMeta deps bakeStart).deps =
    (({} : DepTable).recordTUs deps m.files).1.deps.map (markStamp bakeStart) := by
  cases bakeStart with
  | none => exact (List.map_id _).symm
  | some b => rfl

theorem bakedMeta_tuDeps : (m.bakedMeta deps bakeStart).tuDeps =
    (({} : DepTable).recordTUs deps m.files).2 := by
  cases bakeStart <;> rfl

theorem bakedMeta_fingerprints : (m.bakedMeta deps bakeStart).fingerprints = m.fingerprints := by
  cases bakeStart <;> rfl

theorem bakedMeta_outcomes : (m.bakedMeta deps bakeStart).outcomes = m.outcomes := by
  cases bakeStart <;> rfl

/-- The dependency test of a listed TU compares, for each file its parse opened, the first of
the oldest stamps recorded for the file. -/
theorem bakedMeta_depChanged {r : ℕ} {own : FileStamp} (hr : m.files[r]? = some own)
    (fs : FileSystem) :
    (∀ id ∈ (m.bakedMeta deps bakeStart).tuDeps.getD r [],
        (m.bakedMeta deps bakeStart).depChanged fs id = false) ↔
      ∀ d ∈ deps.of own.path, ∃ k, FirstOldest (m.recordedStamps deps) k ∧ k.path = d.path ∧
        sameParsedVersion (markStamp bakeStart k) (stampFile fs d.path) = true := by
  obtain ⟨hids, -, hholds⟩ := DepTable.Holds.empty.recordTUs deps m.files
  rw [List.nil_append] at hholds
  set t := (({} : DepTable).recordTUs deps m.files).1 with ht
  -- The id list of the TU, as the ids of the paths its parse opened.
  have hrow : ((m.bakedMeta deps bakeStart).tuDeps.getD r []).map some =
      (deps.of own.path).map fun d => t.ids d.path := by
    have hget := congrArg (·[r]?) hids
    simp only [List.getElem?_map, hr, Option.map_some] at hget
    obtain ⟨ids, hids', heq⟩ := Option.map_eq_some_iff.mp hget
    rw [bakedMeta_tuDeps, List.getD_eq_getElem?_getD, hids', Option.getD_some, heq]
  have hchanged : ∀ id k, t.deps[id]? = some k →
      ((m.bakedMeta deps bakeStart).depChanged fs id = false ↔
        sameParsedVersion (markStamp bakeStart k) (stampFile fs k.path) = true) := by
    intro id k hk
    rw [depChanged, bakedMeta_deps, List.getElem?_map, ← ht, hk, Option.map_some]
    simp only [markStamp_path, Bool.not_eq_false']
  constructor
  · intro h d hd
    have hmem : t.ids d.path ∈ (deps.of own.path).map fun d => t.ids d.path :=
      List.mem_map_of_mem hd
    rw [← hrow] at hmem
    obtain ⟨id, hid, heq⟩ := List.mem_map.mp hmem
    obtain ⟨k, hk, hpath⟩ := (hholds.ids_iff _ _).mp heq.symm
    exact ⟨k, hholds.kept _ _ hk, hpath, hpath ▸ (hchanged id k hk).mp (h id hid)⟩
  · intro h id hid
    have hmem : some id ∈ ((m.bakedMeta deps bakeStart).tuDeps.getD r []).map some :=
      List.mem_map_of_mem hid
    rw [hrow] at hmem
    obtain ⟨d, hd, heq⟩ := List.mem_map.mp hmem
    obtain ⟨k, hk, hpath⟩ := (hholds.ids_iff _ _).mp heq
    obtain ⟨k', hk', hpath', hsame⟩ := h d hd
    obtain rfl := (hholds.kept _ _ hk).eq hk' (hpath.trans hpath'.symm)
    exact (hchanged id k hk).mpr (hpath ▸ hsame)

/-! ### Clean TUs and the current files -/

/-- A TU reported clean has seen the current files: its own stamp and fingerprint are the
recorded ones, and each file its parse opened still has the stamp that this parse saw. -/
def SawCurrentFiles (m : SnapshotMeta) (deps : TuDependencies) (bakeStart : Option UInt64) : Prop :=
  ∀ (fs : FileSystem) (current : List FileStamp) (fingerprints : Option (List Bytes)) (i : ℕ)
    (cur : FileStamp), current[i]? = some cur →
    ((m.bakedMeta deps bakeStart).dirtyTUs current fingerprints fs).1[i]? = some false →
    ∃ (r : ℕ) (own : FileStamp), m.files[r]? = some own ∧ own = cur ∧
      (markStamp bakeStart own).mtimeNs ≠ 0 ∧
      (∀ fps ∈ fingerprints, ∃ fp, m.fingerprints[r]? = some fp ∧ fps[i]? = some fp) ∧
      ∀ d ∈ deps.of cur.path,
        sameParsedVersion (markStamp bakeStart d) (stampFile fs d.path) = true

/-- Some state of the file system lets `dirtyTUs` report the TU clean: its own stamp is
stable, its last parse ended indexed, and for every file its parse opened the first of the
oldest stamps recorded is stable and a whole second. -/
structure MayBeClean (m : SnapshotMeta) (deps : TuDependencies) (bakeStart : Option UInt64) (r : ℕ)
    (own : FileStamp) : Prop where
  listed : m.files[r]? = some own
  recorded : recordedIndex m.files own.path = some r
  own_stable : (markStamp bakeStart own).mtimeNs ≠ 0
  indexed : m.outcomes = [] ∨ (m.outcomes[r]?).map TuOutcome.status = some .indexed
  deps_stable : ∀ d ∈ deps.of own.path, ∃ k, FirstOldest (m.recordedStamps deps) k ∧
    k.path = d.path ∧ (markStamp bakeStart k).mtimeNs ≠ 0 ∧ k.mtimeNs % kNsPerSecond = 0

theorem sameParsedVersion_iff {recorded now : FileStamp} :
    sameParsedVersion recorded now = true ↔ recorded.mtimeNs ≠ 0 ∧ recorded.size = now.size ∧
      recorded.mtimeNs = now.mtimeNs - now.mtimeNs % kNsPerSecond := by
  simp [sameParsedVersion, and_assoc]

/-- Two stamps of a path that both match the file are one stamp. -/
theorem eq_of_sameParsedVersion {d k now : FileStamp} (hpath : d.path = k.path)
    (hd : sameParsedVersion (markStamp bakeStart d) now = true)
    (hk : sameParsedVersion (markStamp bakeStart k) now = true) : d = k := by
  obtain ⟨hd0, hdsize, hdtime⟩ := sameParsedVersion_iff.mp hd
  obtain ⟨hk0, hksize, hktime⟩ := sameParsedVersion_iff.mp hk
  rw [markStamp_of_ne_zero hd0] at hdsize hdtime
  rw [markStamp_of_ne_zero hk0] at hksize hktime
  obtain ⟨dp, dt, ds⟩ := d
  obtain ⟨kp, kt, ks⟩ := k
  simp_all

theorem sub_mod_kNsPerSecond (t : UInt64) : (t - t % kNsPerSecond) % kNsPerSecond = 0 := by
  have hle : t % kNsPerSecond ≤ t := by
    rw [UInt64.le_iff_toNat_le, UInt64.toNat_mod]
    exact Nat.mod_le _ _
  rw [← UInt64.toNat_inj, UInt64.toNat_mod, UInt64.toNat_sub_of_le _ _ hle, UInt64.toNat_mod]
  exact Nat.sub_mod_eq_zero_of_mod_eq (Nat.mod_mod _ _).symm

/-- A TU reported clean is one that may be, and the kept stamps of its files match. -/
theorem mayBeClean_of_clean {fs : FileSystem} {fingerprints : Option (List Bytes)} {i : ℕ}
    {cur : FileStamp}
    (h : ((m.bakedMeta deps bakeStart).dirtyReason fingerprints fs i cur).1 = .clean) :
    ∃ r, m.MayBeClean deps bakeStart r cur ∧
      (∀ fps ∈ fingerprints, ∃ fp, m.fingerprints[r]? = some fp ∧ fps[i]? = some fp) ∧
      ∀ d ∈ deps.of cur.path, ∃ k, FirstOldest (m.recordedStamps deps) k ∧ k.path = d.path ∧
        sameParsedVersion (markStamp bakeStart k) (stampFile fs d.path) = true := by
  obtain ⟨r, hr, hown, hfp, hdeps, hout⟩ := dirtyReason_clean_iff.mp h
  rw [bakedMeta_files, recordedIndex_map _ (markStamp_path bakeStart)] at hr
  rw [bakedMeta_fingerprints] at hfp
  rw [bakedMeta_outcomes] at hout
  obtain ⟨own, hget, -⟩ := getElem?_of_recordedIndex hr
  simp only [bakedMeta_files, List.getD_eq_getElem?_getD, List.getElem?_map, hget,
    Option.map_some, Option.getD_some, sameTuVersion, Bool.and_eq_true, bne_iff_ne, ne_eq,
    beq_iff_eq] at hown
  obtain rfl : own = cur := (markStamp_of_ne_zero hown.1).symm.trans hown.2
  have hkept := (bakedMeta_depChanged hget fs).mp hdeps
  refine ⟨r, ⟨hget, hr, hown.1, hout, fun d hd => ?_⟩, hfp, hkept⟩
  obtain ⟨k, hk, hpath, hsame⟩ := hkept d hd
  obtain ⟨hk0, -, htime⟩ := sameParsedVersion_iff.mp hsame
  refine ⟨k, hk, hpath, hk0, ?_⟩
  rw [← markStamp_of_ne_zero hk0, htime]
  exact sub_mod_kNsPerSecond _

open Classical in
/-- The file system in which every file has the stamp the table keeps for it. -/
noncomputable def keptFiles (m : SnapshotMeta) (deps : TuDependencies) : FileSystem := fun p =>
  if h : ∃ k, FirstOldest (m.recordedStamps deps) k ∧ k.path = p then
    some (h.choose.mtimeNs, h.choose.size)
  else none

theorem stampFile_keptFiles {k : FileStamp} (hk : FirstOldest (m.recordedStamps deps) k) :
    stampFile (m.keptFiles deps) k.path = k := by
  have hex : ∃ k', FirstOldest (m.recordedStamps deps) k' ∧ k'.path = k.path := ⟨k, hk, rfl⟩
  have hchoose : hex.choose = k := hex.choose_spec.1.eq hk hex.choose_spec.2
  rw [stampFile, keptFiles, dif_pos hex, hchoose]

/-- In that file system every TU that may be clean is reported clean. -/
theorem clean_of_mayBeClean {r : ℕ} {own : FileStamp} (h : m.MayBeClean deps bakeStart r own) :
    ((m.bakedMeta deps bakeStart).dirtyReason none (m.keptFiles deps) 0 own).1 = .clean := by
  refine dirtyReason_clean_iff.mpr ⟨r, ?_, ?_, by simp, ?_, ?_⟩
  · rw [bakedMeta_files, recordedIndex_map _ (markStamp_path bakeStart), h.recorded]
  · simp only [bakedMeta_files, List.getD_eq_getElem?_getD, List.getElem?_map, h.listed,
      Option.map_some, Option.getD_some, sameTuVersion, Bool.and_eq_true, bne_iff_ne, ne_eq,
      beq_iff_eq]
    exact ⟨h.own_stable, markStamp_of_ne_zero h.own_stable⟩
  · refine (bakedMeta_depChanged h.listed _).mpr fun d hd => ?_
    obtain ⟨k, hk, hpath, hk0, hsec⟩ := h.deps_stable d hd
    refine ⟨k, hk, hpath, ?_⟩
    rw [← hpath, stampFile_keptFiles hk, sameParsedVersion_iff]
    refine ⟨hk0, markStamp_size .., ?_⟩
    rw [markStamp_of_ne_zero hk0, hsec, UInt64.sub_zero]
  · rw [bakedMeta_outcomes]
    exact h.indexed

/-- Every TU reported clean has seen the current files, in every state of the file system,
exactly when each TU that may be reported clean saw, of every file it opened, the first of
the oldest stamps any listed TU saw. -/
theorem sawCurrentFiles_iff (m : SnapshotMeta) (deps : TuDependencies) (bakeStart : Option UInt64) :
    m.SawCurrentFiles deps bakeStart ↔
      ∀ r own, m.MayBeClean deps bakeStart r own →
        ∀ d ∈ deps.of own.path, FirstOldest (m.recordedStamps deps) d := by
  constructor
  · intro h r own hmay d hd
    obtain ⟨k, hk, hpath, hk0, hsec⟩ := hmay.deps_stable d hd
    obtain ⟨-, -, -, -, -, -, hsame⟩ := h (m.keptFiles deps) [own] none 0 own rfl
      ((getElem?_dirtyTUs rfl).mpr (clean_of_mayBeClean hmay))
    -- The file has the kept stamp, and the stamp this parse saw matches it too.
    have hdsame := hsame d hd
    have hksame : sameParsedVersion (markStamp bakeStart k) (stampFile (m.keptFiles deps) d.path)
        = true := by
      rw [← hpath, stampFile_keptFiles hk, sameParsedVersion_iff]
      exact ⟨hk0, markStamp_size .., by rw [markStamp_of_ne_zero hk0, hsec, UInt64.sub_zero]⟩
    rwa [eq_of_sameParsedVersion hpath.symm hdsame hksame]
  · intro h fs current fingerprints i cur hcur hclean
    obtain ⟨r, hmay, hfp, hkept⟩ := mayBeClean_of_clean ((getElem?_dirtyTUs hcur).mp hclean)
    refine ⟨r, cur, hmay.listed, rfl, hmay.own_stable, hfp, fun d hd => ?_⟩
    obtain ⟨k, hk, hpath, hsame⟩ := hkept d hd
    obtain rfl := (h r cur hmay d hd).eq hk hpath.symm
    exact hsame

/-- Two TUs opened one header in the same second with different sizes. The table keeps the
stamp of the first, and the second is reported clean when the header has that stamp. -/
theorem clean_tu_saw_other_size :
    ¬ SawCurrentFiles { files := [{ path := [97], mtimeNs := 5, size := 1 },
                                  { path := [98], mtimeNs := 5, size := 1 }] }
        (fun tu => if tu = [97] then some [{ path := [104], mtimeNs := kNsPerSecond, size := 5 }]
          else some [{ path := [104], mtimeNs := kNsPerSecond, size := 7 }]) none := by
  intro h
  obtain ⟨-, -, -, -, -, -, hsame⟩ := h (fun _ => some (kNsPerSecond, 5))
    [{ path := [98], mtimeNs := 5, size := 1 }] none 0 { path := [98], mtimeNs := 5, size := 1 }
    rfl (by decide)
  exact absurd (hsame { path := [104], mtimeNs := kNsPerSecond, size := 7 } (by decide)) (by decide)

end SnapshotMeta

end Vycor
