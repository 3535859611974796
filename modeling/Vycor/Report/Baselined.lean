import Vycor.Query.Messages
import Vycor.Report.Baseline
import Vycor.Report.Moved

/-!
# Baselines account for every finding

Per fingerprint, a run with `N` findings and a baseline count of `B` keeps `N - B` of them
and lists `B - N` as stale. The groups of the loop are those of distinct fingerprints, so what
it collects is one list a group, and the positions kept of a group are the first of its report
order (`applyBaseline_contract`).

Reading merges the entries of a fingerprint into one, whose count is the total
(`parseBaseline_spec`); so a baseline written from findings and read back counts each
fingerprint as often as it was found.
-/

namespace Vycor

/-- The findings of one fingerprint, with their positions. -/
def placedOf (findings : List Finding) (fp : Bytes) : List (Finding × ℕ) :=
  entriesOf (fun m : Finding × ℕ => m.1.fingerprint) findings.zipIdx fp

/-- How many findings carry a fingerprint. -/
def occurrences (findings : List Finding) (fp : Bytes) : ℕ :=
  findings.countP fun f => f.fingerprint = fp

/-- The contract of a result: per fingerprint, the findings beyond the count `B` of the
baseline are kept, those on changed lines first, then the earliest ones; they stay in the
order of the report; and a count beyond the findings is stale. -/
structure BaselineContract (findings : List Finding) (B : Bytes → ℕ) (changed : Finding → Bool)
    (r : BaselineOutcome) : Prop where
  kept : ∃ keep : Finding × ℕ → Bool, r.findings = (findings.zipIdx.filter keep).map (·.1) ∧
    ∀ fp, ((placedOf findings fp).filter keep).Perm
      ((reportOrder changed (placedOf findings fp)).take (occurrences findings fp - B fp))
  count : ∀ fp, occurrences r.findings fp = occurrences findings fp - B fp
  stale : ∀ fp c, (∃ e ∈ r.stale, e.fingerprint = fp ∧ e.count = c) ↔
    occurrences findings fp < B fp ∧ c = B fp - occurrences findings fp
  staleOnce : (r.stale.map (·.fingerprint)).Nodup
  removed : r.removed + r.findings.length = findings.length

/-- The entries of a baseline count each fingerprint `B` times. -/
structure Counts (baseline : List BaselineEntry) (B : Bytes → ℕ) : Prop where
  nodup : (baseline.map (·.fingerprint)).Nodup
  count : ∀ e ∈ baseline, e.count = B e.fingerprint ∧ 0 < B e.fingerprint
  entry : ∀ fp, 0 < B fp → ∃ e ∈ baseline, e.fingerprint = fp

theorem map_fst_filter_zipIdx (findings : List Finding) (p : Finding → Bool) :
    (findings.zipIdx.filter fun m => p m.1).map (·.1) = findings.filter p := by
  have hmap := List.filter_map (l := findings.zipIdx) (f := Prod.fst) (p := p)
  rw [List.zipIdx_map_fst] at hmap
  exact hmap.symm

theorem length_placedOf (findings : List Finding) (fp : Bytes) :
    (placedOf findings fp).length = occurrences findings fp := by
  have hmap := map_fst_filter_zipIdx findings fun f => decide (f.fingerprint = fp)
  rw [occurrences, List.countP_eq_length_filter, ← hmap, List.length_map, placedOf, entriesOf]
  exact congrArg List.length (List.filter_congr fun m _ => decide_eq_decide.mpr Iff.rfl)

theorem mem_placedOf {findings : List Finding} {fp : Bytes} {m : Finding × ℕ} :
    m ∈ placedOf findings fp ↔ m ∈ findings.zipIdx ∧ m.1.fingerprint = fp := mem_entriesOf

theorem nodup_zipIdx (findings : List Finding) : findings.zipIdx.Nodup :=
  (List.nodup_zipIdx_map_snd findings).of_map _

/-- Findings differ in their positions. -/
theorem eq_of_position {findings : List Finding} {m m' : Finding × ℕ} (hm : m ∈ findings.zipIdx)
    (hm' : m' ∈ findings.zipIdx) (h : m.2 = m'.2) : m = m' :=
  List.inj_on_of_nodup_map (List.nodup_zipIdx_map_snd findings) hm hm' h

/-! ### Applying -/

section Apply

variable {findings : List Finding} {baseline : List BaselineEntry} {B : Bytes → ℕ}
  {changed : Finding → Bool}

theorem reportOrder_perm (changed : Finding → Bool) (members : List (Finding × ℕ)) :
    (reportOrder changed members).Perm members :=
  List.filter_append_perm (fun m : Finding × ℕ => changed m.1) members

/-- The count of a fingerprint in the table `applyBaseline` reads. -/
theorem Counts.entryOf_eq (h : Counts baseline B) (fp : Bytes) :
    (0 < B fp → ∃ e ∈ baseline, entryOf baseline fp = some e ∧ e.fingerprint = fp ∧ e.count = B fp) ∧
      (B fp = 0 → entryOf baseline fp = none) := by
  constructor
  · intro hpos
    obtain ⟨e, he, hfp⟩ := h.entry fp hpos
    rcases hfind : entryOf baseline fp with _ | e'
    · have hno := List.find?_eq_none.mp hfind e (List.mem_reverse.mpr he)
      simp [hfp] at hno
    · have he' := List.mem_reverse.mp (List.mem_of_find?_eq_some hfind)
      have hfp' : e'.fingerprint = fp := by simpa using List.find?_some hfind
      exact ⟨e', he', rfl, hfp', hfp' ▸ (h.count e' he').1⟩
  · intro hzero
    refine List.find?_eq_none.mpr fun e he hfp => ?_
    have hpos := (h.count e (List.mem_reverse.mp he)).2
    rw [decide_eq_true_eq] at hfp
    rw [hfp, hzero] at hpos
    exact lt_irrefl 0 hpos

/-- The count the table holds, zero for a fingerprint it does not. -/
theorem Counts.known_eq (h : Counts baseline B) (fp : Bytes) :
    ((entryOf baseline fp).map (·.count)).getD 0 = B fp := by
  rcases Nat.eq_zero_or_pos (B fp) with hzero | hpos
  · rw [(h.entryOf_eq fp).2 hzero, hzero]
    rfl
  · obtain ⟨e, -, hentry, -, hcount⟩ := (h.entryOf_eq fp).1 hpos
    rw [hentry]
    exact hcount

/-- What a group of a fingerprint adds. -/
def groupDropped (B : Bytes → ℕ) (changed : Finding → Bool) (group : Bytes × List (Finding × ℕ)) :
    List (Finding × ℕ) :=
  if group.2.length ≤ B group.1 then group.2
  else (reportOrder changed group.2).drop (group.2.length - B group.1)

/-- The stale entry of a group. -/
def groupStale (baseline : List BaselineEntry) (group : Bytes × List (Finding × ℕ)) :
    List BaselineEntry :=
  ((entryOf baseline group.1).toList.filter fun e => group.2.length < e.count).map fun e =>
    { e with count := e.count - group.2.length }

/-- What the loop collects, group by group. -/
theorem Counts.foldl_group (h : Counts baseline B) (changed : Finding → Bool)
    (groups : List (Bytes × List (Finding × ℕ))) (st : BaselineRun) :
    groups.foldl (BaselineRun.group baseline changed) st =
      { dropped := st.dropped ++ (groups.flatMap (groupDropped B changed)).map (·.2)
        removed := st.removed + (groups.map fun group => (groupDropped B changed group).length).sum
        stale := st.stale ++ groups.flatMap (groupStale baseline) } := by
  induction groups generalizing st with
  | nil => simp
  | cons group groups ih =>
    have hstep : st.group baseline changed group =
        { dropped := st.dropped ++ (groupDropped B changed group).map (·.2)
          removed := st.removed + (groupDropped B changed group).length
          stale := st.stale ++ groupStale baseline group } := by
      rw [BaselineRun.group, groupDropped, groupStale, h.known_eq]
      split_ifs with hle
      · rfl
      · -- more findings than the baseline counts: nothing is stale
        have hstale : ((entryOf baseline group.1).toList.filter fun e =>
            group.2.length < e.count) = [] := by
          refine List.filter_eq_nil_iff.mpr fun e he => ?_
          have hcount := h.known_eq group.1
          rw [Option.mem_toList.mp he, Option.map_some, Option.getD_some] at hcount
          rw [decide_eq_true_eq]
          omega
        rw [hstale, List.map_nil, List.append_nil, List.length_drop,
          (reportOrder_perm changed group.2).length_eq]
        have hsub : group.2.length - (group.2.length - B group.1) = B group.1 := by omega
        rw [hsub]
    rw [List.foldl_cons, ih, hstep]
    simp only [List.flatMap_cons, List.map_append, List.map_cons, List.sum_cons, List.append_assoc,
      Nat.add_assoc]

/-- The findings a group keeps are the first of its report order. -/
theorem mem_groupDropped {fp : Bytes} {members : List (Finding × ℕ)} {m : Finding × ℕ} :
    m ∈ groupDropped B changed (fp, members) ↔
      m ∈ (reportOrder changed members).drop (members.length - B fp) := by
  rw [groupDropped]
  dsimp only
  split_ifs with hle
  · rw [Nat.sub_eq_zero_of_le hle, List.drop_zero, (reportOrder_perm changed members).mem_iff]
  · rfl

/-- The groups of the loop. -/
theorem mem_groups {findings : List Finding} {group : Bytes × List (Finding × ℕ)} :
    group ∈ groupedBy (fun m : Finding × ℕ => m.1.fingerprint) findings.zipIdx ↔
      0 < occurrences findings group.1 ∧ group.2 = placedOf findings group.1 := by
  rw [groupedBy, List.mem_map]
  have hkey : ∀ fp, fp ∈ keysOf (fun m : Finding × ℕ => m.1.fingerprint) findings.zipIdx ↔
      0 < occurrences findings fp := by
    intro fp
    rw [mem_keysOf, ← length_placedOf, List.length_pos_iff_exists_mem]
    exact exists_congr fun m => mem_placedOf.symm
  constructor
  · rintro ⟨fp, hfp, rfl⟩
    exact ⟨(hkey fp).mp hfp, rfl⟩
  · rintro ⟨hfp, heq⟩
    exact ⟨group.1, (hkey _).mpr hfp, Prod.ext rfl heq.symm⟩

theorem groups_fst (findings : List Finding) :
    (groupedBy (fun m : Finding × ℕ => m.1.fingerprint) findings.zipIdx).map (·.1) =
      keysOf (fun m : Finding × ℕ => m.1.fingerprint) findings.zipIdx := by
  rw [groupedBy, List.map_map]
  exact List.map_id _

/-- A position is dropped by the group of its finding. -/
theorem position_dropped_iff {m : Finding × ℕ} (hm : m ∈ findings.zipIdx) :
    m.2 ∈ ((groupedBy (fun m : Finding × ℕ => m.1.fingerprint) findings.zipIdx).flatMap
        (groupDropped B changed)).map (·.2) ↔
      m ∈ (reportOrder changed (placedOf findings m.1.fingerprint)).drop
        (occurrences findings m.1.fingerprint - B m.1.fingerprint) := by
  have hgroup : ∀ fp, m ∈ groupDropped B changed (fp, placedOf findings fp) ↔
      m ∈ (reportOrder changed (placedOf findings fp)).drop (occurrences findings fp - B fp) := by
    intro fp
    rw [mem_groupDropped, length_placedOf]
  constructor
  · intro h
    obtain ⟨m', hm', hpos⟩ := List.mem_map.mp h
    obtain ⟨⟨fp, members⟩, hg, hdrop⟩ := List.mem_flatMap.mp hm'
    obtain ⟨-, hmembers⟩ := mem_groups.mp hg
    dsimp only at hmembers
    subst hmembers
    -- the position tells the finding
    have hplaced : m' ∈ placedOf findings fp :=
      (reportOrder_perm changed _).mem_iff.mp (List.mem_of_mem_drop (mem_groupDropped.mp hdrop))
    obtain ⟨hin, hfp⟩ := mem_placedOf.mp hplaced
    obtain rfl := eq_of_position hin hm hpos
    rw [hfp]
    exact (hgroup fp).mp hdrop
  · intro h
    refine List.mem_map.mpr ⟨m, List.mem_flatMap.mpr ⟨(m.1.fingerprint, placedOf findings m.1.fingerprint),
      mem_groups.mpr ⟨?_, rfl⟩, (hgroup _).mpr h⟩, rfl⟩
    rw [← length_placedOf]
    exact List.length_pos_of_mem (mem_placedOf.mpr ⟨hm, rfl⟩)

/-- What is kept of a fingerprint is the front of its report order. -/
theorem kept_perm (fp : Bytes) (dropped : List ℕ)
    (hdropped : ∀ m ∈ findings.zipIdx, m.2 ∈ dropped ↔
      m ∈ (reportOrder changed (placedOf findings m.1.fingerprint)).drop
        (occurrences findings m.1.fingerprint - B m.1.fingerprint)) :
    ((placedOf findings fp).filter fun m => m.2 ∉ dropped).Perm
      ((reportOrder changed (placedOf findings fp)).take (occurrences findings fp - B fp)) := by
  have hplaced : (placedOf findings fp).Nodup := (nodup_zipIdx findings).filter _
  have horder : (reportOrder changed (placedOf findings fp)).Nodup :=
    (reportOrder_perm changed _).nodup_iff.mpr hplaced
  have hsplit := List.take_append_drop (occurrences findings fp - B fp)
    (reportOrder changed (placedOf findings fp))
  have hdisjoint := List.disjoint_of_nodup_append (hsplit.symm ▸ horder)
  refine (List.perm_ext_iff_of_nodup (hplaced.filter _) (horder.sublist (List.take_sublist _ _))).mpr
    fun m => ?_
  rw [List.mem_filter, decide_eq_true_eq]
  constructor
  · rintro ⟨hm, hkeep⟩
    obtain ⟨hin, hfp⟩ := mem_placedOf.mp hm
    rw [hdropped m hin, hfp] at hkeep
    have hmem := (reportOrder_perm changed _).mem_iff.mpr hm
    rw [← hsplit, List.mem_append] at hmem
    exact hmem.resolve_right hkeep
  · intro hm
    have hmem := (reportOrder_perm changed _).mem_iff.mp (List.mem_of_mem_take hm)
    obtain ⟨hin, hfp⟩ := mem_placedOf.mp hmem
    refine ⟨hmem, fun hdrop => ?_⟩
    rw [hdropped m hin, hfp] at hdrop
    exact hdisjoint hm hdrop

/-- How many findings the groups drop. -/
theorem sum_groupDropped (findings : List Finding) :
    ((groupedBy (fun m : Finding × ℕ => m.1.fingerprint) findings.zipIdx).map fun group =>
      (groupDropped B changed group).length).sum =
      ((groupedBy (fun m : Finding × ℕ => m.1.fingerprint) findings.zipIdx).flatMap
        (groupDropped B changed)).length := by
  rw [List.length_flatMap]

/-- No finding is dropped twice. -/
theorem nodup_groupDropped (findings : List Finding) :
    ((groupedBy (fun m : Finding × ℕ => m.1.fingerprint) findings.zipIdx).flatMap
      (groupDropped B changed)).Nodup := by
  have hplaced : ∀ {group m}, group ∈ groupedBy (fun m : Finding × ℕ => m.1.fingerprint)
      findings.zipIdx → m ∈ groupDropped B changed group → m.1.fingerprint = group.1 := by
    intro group m hgroup hm
    obtain ⟨fp, members⟩ := group
    obtain ⟨-, hmembers⟩ := mem_groups.mp hgroup
    dsimp only at hmembers
    subst hmembers
    exact (mem_placedOf.mp ((reportOrder_perm changed _).mem_iff.mp
      (List.mem_of_mem_drop (mem_groupDropped.mp hm)))).2
  refine List.nodup_flatMap.mpr ⟨fun group hgroup => ?_, ?_⟩
  · obtain ⟨-, hmembers⟩ := mem_groups.mp hgroup
    have hnodup : group.2.Nodup := hmembers ▸ (nodup_zipIdx findings).filter _
    rw [groupDropped]
    split_ifs
    · exact hnodup
    · exact ((reportOrder_perm changed _).nodup_iff.mpr hnodup).sublist (List.drop_sublist _ _)
  · have hkeys : ((groupedBy (fun m : Finding × ℕ => m.1.fingerprint) findings.zipIdx).map
        (·.1)).Nodup := by
      rw [groups_fst]
      exact nodup_keysOf _ _
    refine (List.pairwise_map.mp hkeys).imp_of_mem fun {group group'} hg hg' hne m hm hm' => hne ?_
    exact (hplaced hg hm).symm.trans (hplaced hg' hm')

/-- The stale entry of a group counts what the group lacks. -/
theorem Counts.mem_groupStale (h : Counts baseline B) {group : Bytes × List (Finding × ℕ)}
    {fp : Bytes} {c : ℕ} :
    (∃ e ∈ groupStale baseline group, e.fingerprint = fp ∧ e.count = c) ↔
      group.1 = fp ∧ group.2.length < B fp ∧ c = B fp - group.2.length := by
  have hmem : ∀ e, e ∈ groupStale baseline group ↔ ∃ e₀, entryOf baseline group.1 = some e₀ ∧
      group.2.length < e₀.count ∧ { e₀ with count := e₀.count - group.2.length } = e := by
    intro e
    simp only [groupStale, List.mem_map, List.mem_filter, Option.mem_toList, decide_eq_true_eq,
      and_assoc]
  constructor
  · rintro ⟨e, he, rfl, rfl⟩
    obtain ⟨e₀, hentry, hlt, rfl⟩ := (hmem e).mp he
    have hcount := h.known_eq group.1
    rw [hentry, Option.map_some, Option.getD_some] at hcount
    obtain ⟨e₁, -, hentry₁, hfp, -⟩ := (h.entryOf_eq group.1).1 (by omega)
    obtain rfl := Option.some_inj.mp (hentry.symm.trans hentry₁)
    dsimp only
    rw [hfp, hcount]
    exact ⟨rfl, by omega, rfl⟩
  · rintro ⟨rfl, hlt, rfl⟩
    obtain ⟨e₀, -, hentry, hfp, hcount⟩ := (h.entryOf_eq group.1).1 (by omega)
    refine ⟨_, (hmem _).mpr ⟨e₀, hentry, by omega, rfl⟩, hfp, ?_⟩
    rw [← hcount]

theorem groupStale_fingerprints_sublist (groups : List (Bytes × List (Finding × ℕ))) :
    ((groups.flatMap (groupStale baseline)).map (·.fingerprint)).Sublist (groups.map (·.1)) := by
  induction groups with
  | nil => exact List.Sublist.refl _
  | cons group groups ih =>
    have hone : ((groupStale baseline group).map (·.fingerprint)).Sublist [group.1] := by
      rw [groupStale, List.map_map]
      rcases hentry : entryOf baseline group.1 with _ | e
      · exact List.nil_sublist _
      · have hfp : e.fingerprint = group.1 := by simpa using List.find?_some hentry
        refine (List.filter_sublist.map _).trans ?_
        rw [Option.toList_some, List.map_singleton]
        exact (List.singleton_sublist.mpr (hfp ▸ List.mem_singleton_self _))
    rw [List.flatMap_cons, List.map_append, List.map_cons]
    exact hone.append ih

theorem nodup_groups_fst (findings : List Finding) :
    ((groupedBy (fun m : Finding × ℕ => m.1.fingerprint) findings.zipIdx).map (·.1)).Nodup := by
  rw [groups_fst]
  exact nodup_keysOf _ _

/-- The stale entries, before they are sorted: those of the groups, and those of fingerprints
that were not found. -/
def staleEntries (findings : List Finding) (baseline : List BaselineEntry) : List BaselineEntry :=
  (groupedBy (fun m : Finding × ℕ => m.1.fingerprint) findings.zipIdx).flatMap
      (groupStale baseline) ++
    baseline.filter fun e =>
      ¬ (groupedBy (fun m : Finding × ℕ => m.1.fingerprint) findings.zipIdx).any
        fun group => group.1 = e.fingerprint

/-- A fingerprint without a group was not found. -/
theorem mem_filter_ungrouped {e : BaselineEntry} :
    (e ∈ baseline.filter fun e =>
      ¬ (groupedBy (fun m : Finding × ℕ => m.1.fingerprint) findings.zipIdx).any
        fun group => group.1 = e.fingerprint) ↔
      e ∈ baseline ∧ occurrences findings e.fingerprint = 0 := by
  rw [List.mem_filter, decide_eq_true_eq, List.any_eq_true]
  refine and_congr_right fun _ => ?_
  constructor
  · intro hno
    by_contra hpos
    exact hno ⟨(e.fingerprint, placedOf findings e.fingerprint),
      mem_groups.mpr ⟨Nat.pos_of_ne_zero hpos, rfl⟩, by simp⟩
  · rintro hzero ⟨group, hg, hfp⟩
    have hpos := (mem_groups.mp hg).1
    rw [decide_eq_true_eq] at hfp
    rw [hfp] at hpos
    omega

/-- A fingerprint is stale exactly if the baseline counts more than was found. -/
theorem Counts.mem_staleEntries (h : Counts baseline B) {fp : Bytes} {c : ℕ} :
    (∃ e ∈ staleEntries findings baseline, e.fingerprint = fp ∧ e.count = c) ↔
      occurrences findings fp < B fp ∧ c = B fp - occurrences findings fp := by
  constructor
  · rintro ⟨e, he, rfl, rfl⟩
    rcases List.mem_append.mp he with he | he
    · obtain ⟨group, hg, he⟩ := List.mem_flatMap.mp he
      obtain ⟨hfp, hlt, hcount⟩ := h.mem_groupStale.mp ⟨e, he, rfl, rfl⟩
      rw [(mem_groups.mp hg).2, length_placedOf, hfp] at hlt hcount
      exact ⟨hlt, hcount⟩
    · obtain ⟨hin, hzero⟩ := mem_filter_ungrouped.mp he
      obtain ⟨hcount, hpos⟩ := h.count e hin
      exact ⟨by omega, by omega⟩
  · rintro ⟨hlt, rfl⟩
    rcases Nat.eq_zero_or_pos (occurrences findings fp) with hzero | hpos
    · obtain ⟨e, he, rfl⟩ := h.entry fp (by omega)
      refine ⟨e, List.mem_append_right _ (mem_filter_ungrouped.mpr ⟨he, hzero⟩), rfl, ?_⟩
      rw [(h.count e he).1, hzero, Nat.sub_zero]
    · have hlen := length_placedOf findings fp
      obtain ⟨e, he, hfp, hcount⟩ : ∃ e ∈ groupStale baseline (fp, placedOf findings fp),
          e.fingerprint = fp ∧ e.count = B fp - occurrences findings fp :=
        h.mem_groupStale.mpr ⟨rfl, hlen.symm ▸ hlt, by rw [hlen]⟩
      exact ⟨e, List.mem_append_left _ (List.mem_flatMap.mpr ⟨_, mem_groups.mpr ⟨hpos, rfl⟩, he⟩),
        hfp, hcount⟩

theorem Counts.nodup_staleEntries (h : Counts baseline B) (findings : List Finding) :
    ((staleEntries findings baseline).map (·.fingerprint)).Nodup := by
  rw [staleEntries, List.map_append, List.nodup_append]
  have hgroups := @groupStale_fingerprints_sublist baseline
    (groupedBy (fun m : Finding × ℕ => m.1.fingerprint) findings.zipIdx)
  refine ⟨(nodup_groups_fst findings).sublist hgroups, h.nodup.sublist (List.filter_sublist.map _),
    fun a ha b hb hab => ?_⟩
  obtain ⟨group, hg, rfl⟩ := List.mem_map.mp (hgroups.subset ha)
  obtain ⟨e, he, rfl⟩ := List.mem_map.mp hb
  -- a fingerprint with a group was found
  have hpos := (mem_groups.mp hg).1
  rw [hab, (mem_filter_ungrouped.mp he).2] at hpos
  exact lt_irrefl 0 hpos

/-- **Applying a baseline** whose entries count each fingerprint `B` times. -/
theorem Counts.applyBaseline_contract (h : Counts baseline B) (lib : PathLib)
    (findings : List Finding) (changedLines : Option (List PatchRange)) :
    BaselineContract findings B (isChanged lib changedLines)
      (applyBaseline lib findings baseline changedLines) := by
  have hloop := h.foldl_group (isChanged lib changedLines)
    (groupedBy (fun m : Finding × ℕ => m.1.fingerprint) findings.zipIdx) {}
  -- the findings that are not reported, and their positions
  generalize hlost : (groupedBy (fun m : Finding × ℕ => m.1.fingerprint) findings.zipIdx).flatMap
    (groupDropped B (isChanged lib changedLines)) = lost at hloop
  have hnodup : lost.Nodup := hlost ▸ nodup_groupDropped findings
  have hdropped : ∀ m ∈ findings.zipIdx, m.2 ∈ lost.map (·.2) ↔
      m ∈ (reportOrder (isChanged lib changedLines) (placedOf findings m.1.fingerprint)).drop
        (occurrences findings m.1.fingerprint - B m.1.fingerprint) :=
    fun m hm => hlost ▸ position_dropped_iff hm
  have hin : ∀ m ∈ lost, m ∈ findings.zipIdx := by
    intro m hm
    rw [← hlost] at hm
    obtain ⟨group, hg, hm⟩ := List.mem_flatMap.mp hm
    have hmem := (reportOrder_perm _ _).mem_iff.mp (List.mem_of_mem_drop (mem_groupDropped.mp hm))
    rw [(mem_groups.mp hg).2] at hmem
    exact (mem_placedOf.mp hmem).1
  have hresult : applyBaseline lib findings baseline changedLines =
      { findings := (findings.zipIdx.filter fun m => m.2 ∉ lost.map (·.2)).map (·.1)
        stale := (staleEntries findings baseline).insertionSort fun a b => staleBefore b a = false
        removed := lost.length } := by
    rw [applyBaseline, hloop, sum_groupDropped, hlost]
    simp only [List.nil_append, Nat.zero_add]
    rfl
  have hkept : ∀ fp, ((placedOf findings fp).filter fun m => m.2 ∉ lost.map (·.2)).Perm
      ((reportOrder (isChanged lib changedLines) (placedOf findings fp)).take
        (occurrences findings fp - B fp)) := fun fp => kept_perm fp _ hdropped
  rw [hresult]
  refine ⟨⟨_, rfl, hkept⟩, fun fp => ?_, fun fp c => ?_, ?_, ?_⟩
  · have hlen := (hkept fp).length_eq
    rw [List.length_take, (reportOrder_perm _ _).length_eq, length_placedOf,
      Nat.min_eq_left (Nat.sub_le _ _)] at hlen
    rw [occurrences, List.countP_map, List.countP_eq_length_filter, ← hlen, placedOf, entriesOf,
      List.filter_filter, List.filter_filter]
    refine congrArg List.length (List.filter_congr fun m _ => ?_)
    rw [Bool.and_comm]
    exact congrArg₂ _ rfl (decide_eq_decide.mpr Iff.rfl)
  · simp only [List.mem_insertionSort]
    exact h.mem_staleEntries
  · exact ((List.perm_insertionSort _ _).map _).nodup_iff.mpr (h.nodup_staleEntries findings)
  · -- what is not kept is what was dropped
    have hperm : (findings.zipIdx.filter fun m => m.2 ∈ lost.map (·.2)).Perm lost := by
      refine (List.perm_ext_iff_of_nodup ((nodup_zipIdx findings).filter _) hnodup).mpr fun m => ?_
      rw [List.mem_filter, decide_eq_true_eq, List.mem_map]
      constructor
      · rintro ⟨hm, m', hm', hpos⟩
        exact eq_of_position (hin m' hm') hm hpos ▸ hm'
      · exact fun hm => ⟨hin m hm, m, hm, rfl⟩
    have hsplit := List.length_eq_length_filter_add (l := findings.zipIdx)
      fun m => decide (m.2 ∈ lost.map (·.2))
    rw [hperm.length_eq, List.length_zipIdx] at hsplit
    rw [hsplit, List.length_map]
    congr 2
    exact List.filter_congr fun m _ => by rw [decide_not]

end Apply

/-! ### Reading -/

section Parse

variable {version : ℤ} {entries entries' : List BaselineEntry}

/-- How often an item of a document counts a fingerprint. -/
def itemCount (version : ℤ) (fp : Bytes) (item : Json) : ℕ :=
  match item.getAsObject with
  | none => 0
  | some obj =>
    match JsonObject.getString obj (text "fingerprint") with
    | none => 0
    | some spelled =>
      if bareFingerprint version spelled = fp then
        ((JsonObject.getInteger obj (text "count")).getD 1).toNat
      else 0

/-- How often a document counts a fingerprint in total. -/
def baselineTotal (parse : Bytes → Except Bytes Json) (file : Bytes) (fp : Bytes) : ℕ :=
  match baselineItems parse file with
  | .error _ => 0
  | .ok (version, items) => (items.map (itemCount version fp)).sum

/-- The entries read so far count what the items read so far do, as an `unsigned` does. -/
structure Counting (entries : List BaselineEntry) (T : Bytes → ℕ) : Prop where
  nodup : (entries.map (·.fingerprint)).Nodup
  count : ∀ e ∈ entries, e.count = T e.fingerprint % 2 ^ 32 ∧ 0 < T e.fingerprint
  entry : ∀ fp, 0 < T fp → ∃ e ∈ entries, e.fingerprint = fp

theorem Counting.countEntry {T : Bytes → ℕ} (h : Counting entries T) (bare : Bytes) {n : ℕ}
    (hn : 0 < n) (obj : JsonObject) :
    Counting (countEntry entries bare n obj) fun fp => T fp + if bare = fp then n else 0 := by
  rw [Vycor.countEntry]
  split_ifs with hany
  · -- the entry of the fingerprint is changed in place
    have hfps : (entries.map fun e =>
        if e.fingerprint = bare then { e with count := (e.count + n) % 2 ^ 32 } else e).map
          (·.fingerprint) = entries.map (·.fingerprint) := by
      rw [List.map_map]
      refine List.map_congr_left fun e _ => ?_
      rw [Function.comp_apply]
      split_ifs <;> rfl
    refine ⟨hfps ▸ h.nodup, fun e he => ?_, fun fp hfp => ?_⟩
    · obtain ⟨e₀, he₀, rfl⟩ := List.mem_map.mp he
      obtain ⟨hcount, hpos⟩ := h.count e₀ he₀
      split_ifs with hfp hbare hbare
      · exact ⟨by dsimp only; omega, by omega⟩
      · exact absurd hfp.symm hbare
      · exact absurd hbare.symm hfp
      · exact ⟨hcount, hpos⟩
    · have hmem : fp ∈ entries.map (·.fingerprint) := by
        split_ifs at hfp with hbare
        · obtain ⟨e, he, heq⟩ := List.any_eq_true.mp hany
          rw [decide_eq_true_eq] at heq
          exact List.mem_map.mpr ⟨e, he, heq.trans hbare⟩
        · obtain ⟨e, he, heq⟩ := h.entry fp (by omega)
          exact List.mem_map.mpr ⟨e, he, heq⟩
      rw [← hfps] at hmem
      obtain ⟨e, he, heq⟩ := List.mem_map.mp hmem
      exact ⟨e, he, heq⟩
  · have hnew : ∀ e ∈ entries, e.fingerprint ≠ bare := by
      intro e he heq
      exact hany (List.any_eq_true.mpr ⟨e, he, decide_eq_true heq⟩)
    have hzero : T bare = 0 := by
      by_contra hne
      obtain ⟨e, he, heq⟩ := h.entry bare (by omega)
      exact hnew e he heq
    refine ⟨?_, fun e he => ?_, fun fp hfp => ?_⟩
    · rw [List.map_append, List.nodup_append]
      refine ⟨h.nodup, List.nodup_singleton _, fun a ha b hb hab => ?_⟩
      obtain ⟨e, he, rfl⟩ := List.mem_map.mp ha
      exact hnew e he (hab.trans (List.mem_singleton.mp hb))
    · rcases List.mem_append.mp he with he | he
      · rw [if_neg (hnew e he).symm, Nat.add_zero]
        exact h.count e he
      · rw [List.mem_singleton.mp he]
        dsimp only
        rw [if_pos rfl, hzero, Nat.zero_add]
        exact ⟨rfl, hn⟩
    · split_ifs at hfp with hbare
      · exact ⟨_, List.mem_append_right _ (List.mem_singleton_self _), hbare⟩
      · obtain ⟨e, he, heq⟩ := h.entry fp (by omega)
        exact ⟨e, List.mem_append_left _ he, heq⟩

/-- One item. -/
theorem Counting.item {T : Bytes → ℕ} (h : Counting entries T) {item : Json}
    (hitem : parseBaselineItem version entries item = .ok entries') :
    Counting entries' fun fp => T fp + itemCount version fp item := by
  rw [parseBaselineItem] at hitem
  simp only [itemCount]
  rcases hobj : item.getAsObject with _ | obj
  · rw [hobj] at hitem
    cases hitem
  · rw [hobj] at hitem
    dsimp only at hitem ⊢
    rcases hfp : JsonObject.getString obj (text "fingerprint") with _ | fp
    · rw [hfp] at hitem
      cases hitem
    · rw [hfp] at hitem
      dsimp only at hitem ⊢
      rcases hcount : JsonObject.getInteger obj (text "count") with _ | c
      · rw [hcount] at hitem
        obtain rfl := Except.ok.inj hitem
        exact h.countEntry _ Nat.one_pos obj
      · rw [hcount] at hitem
        dsimp only at hitem
        split_ifs at hitem with hc
        obtain rfl := Except.ok.inj hitem
        exact h.countEntry _ (by omega) obj

/-- The whole document. -/
theorem Counting.items {T : Bytes → ℕ} (h : Counting entries T) (items : List Json)
    (hitems : items.foldlM (parseBaselineItem version) entries = .ok entries') :
    Counting entries' fun fp => T fp + (items.map (itemCount version fp)).sum := by
  induction items generalizing entries T with
  | nil =>
    obtain rfl := Except.ok.inj hitems
    simpa using h
  | cons item items ih =>
    rw [List.foldlM_cons] at hitems
    rcases hone : parseBaselineItem version entries item with e | entries₁
    · rw [hone] at hitems
      cases hitems
    · rw [hone] at hitems
      have hrest := ih (h.item hone) hitems
      simpa only [List.map_cons, List.sum_cons, Nat.add_assoc] using hrest

/-- **Reading.** The entries count each fingerprint as often as the document does. -/
theorem parseBaseline_counts {parse : Bytes → Except Bytes Json} {file : Bytes}
    (hparse : parseBaseline parse file = .ok entries)
    (hsmall : ∀ fp, baselineTotal parse file fp < 2 ^ 32) :
    Counts entries (baselineTotal parse file) := by
  rw [parseBaseline] at hparse
  rcases hitems : baselineItems parse file with e | ⟨version, items⟩
  · rw [hitems] at hparse
    cases hparse
  · have htotal : ∀ fp, baselineTotal parse file fp = (items.map (itemCount version fp)).sum := by
      intro fp
      rw [baselineTotal, hitems]
    rw [hitems] at hparse
    dsimp only at hparse
    rcases hfold : items.foldlM (parseBaselineItem version) [] with e | read
    · rw [hfold] at hparse
      cases hparse
    · rw [hfold] at hparse
      obtain rfl := Except.ok.inj hparse
      have hstart : Counting [] fun _ => 0 :=
        ⟨List.nodup_nil, fun e he => absurd he List.not_mem_nil, fun fp hfp => absurd hfp (lt_irrefl 0)⟩
      have hread := hstart.items items hfold
      simp only [Nat.zero_add, ← htotal] at hread
      refine ⟨((List.perm_insertionSort _ _).map _).nodup_iff.mpr hread.nodup, fun e he => ?_,
        fun fp hfp => ?_⟩
      · obtain ⟨hcount, hpos⟩ := hread.count e ((List.mem_insertionSort _).mp he)
        exact ⟨hcount.trans (Nat.mod_eq_of_lt (hsmall e.fingerprint)), hpos⟩
      · obtain ⟨e, he, heq⟩ := hread.entry fp hfp
        exact ⟨e, (List.mem_insertionSort _).mpr he, heq⟩

/-! ### Written and read back -/

theorem parseBaselineItem_entry (entries : List BaselineEntry) {e : BaselineEntry}
    (he : 0 < e.count) :
    ∃ entries', parseBaselineItem kBaselineVersion entries (baselineEntryToJson e) = .ok entries' := by
  have hcount : ¬ (e.count : ℤ) < 1 := by omega
  simp [parseBaselineItem, baselineEntryToJson, Json.getAsObject, JsonObject.getString,
    JsonObject.getInteger, JsonObject.get, Json.getAsString, Json.count, Json.integer, hcount]

theorem itemCount_entry (fp : Bytes) (e : BaselineEntry) :
    itemCount kBaselineVersion fp (baselineEntryToJson e) =
      if e.fingerprint = fp then e.count else 0 := by
  simp [itemCount, baselineEntryToJson, Json.getAsObject, JsonObject.getString,
    JsonObject.getInteger, JsonObject.get, Json.getAsString, Json.count, Json.integer,
    bareFingerprint, kBaselineVersion]

/-- The entries of a written baseline are read. -/
theorem foldlM_entries (l : List BaselineEntry) (hl : ∀ e ∈ l, 0 < e.count)
    (entries : List BaselineEntry) :
    ∃ entries', (l.map baselineEntryToJson).foldlM (parseBaselineItem kBaselineVersion) entries =
      .ok entries' := by
  induction l generalizing entries with
  | nil => exact ⟨entries, rfl⟩
  | cons e l ih =>
    obtain ⟨entries₁, h₁⟩ := parseBaselineItem_entry entries (hl e List.mem_cons_self)
    obtain ⟨entries₂, h₂⟩ := ih (fun e he => hl e (List.mem_cons_of_mem _ he)) entries₁
    refine ⟨entries₂, ?_⟩
    rw [List.map_cons, List.foldlM_cons, h₁]
    exact h₂

theorem baselineItems_document {parse : Bytes → Except Bytes Json} {file : Bytes}
    {findings : List Finding} (hparse : parse file = .ok (baselineDocument findings)) :
    baselineItems parse file = .ok (kBaselineVersion,
      ((groupedBy (·.fingerprint) findings).map baselineEntryOf).map baselineEntryToJson) := by
  rw [baselineItems, hparse]
  simp [baselineDocument, Json.getAsObject, JsonObject.getInteger, JsonObject.getArray,
    JsonObject.get, Json.integer, kBaselineVersion, Function.comp_def]

theorem sum_ite_eq_of_nodup {keys : List Bytes} (hnodup : keys.Nodup) (count : Bytes → ℕ)
    (fp : Bytes) :
    (keys.map fun k => if k = fp then count k else 0).sum = if fp ∈ keys then count fp else 0 := by
  induction keys with
  | nil => simp
  | cons k keys ih =>
    obtain ⟨hk, hkeys⟩ := List.nodup_cons.mp hnodup
    rw [List.map_cons, List.sum_cons, ih hkeys]
    by_cases hfp : k = fp
    · rw [if_pos hfp, if_neg (hfp ▸ hk), if_pos (hfp ▸ List.mem_cons_self), hfp, Nat.add_zero]
    · simp [hfp, Ne.symm hfp]

/-- The groups count each fingerprint as often as it was found. -/
theorem sum_groups (findings : List Finding) (fp : Bytes)
    (hsmall : ∀ fp, occurrences findings fp < 2 ^ 32) :
    (((groupedBy (·.fingerprint) findings).map baselineEntryOf).map fun e =>
      if e.fingerprint = fp then e.count else 0).sum = occurrences findings fp := by
  have hlen : ∀ k, (entriesOf (·.fingerprint) findings k).length = occurrences findings k := by
    intro k
    rw [entriesOf, occurrences, List.countP_eq_length_filter]
    exact congrArg List.length (List.filter_congr fun f _ => decide_eq_decide.mpr Iff.rfl)
  have hcount : ∀ k, (baselineEntryOf (k, entriesOf (·.fingerprint) findings k)).count =
      occurrences findings k := by
    intro k
    rw [baselineEntryOf]
    dsimp only
    rw [hlen, Nat.mod_eq_of_lt (hsmall k)]
  have hgroups : ((groupedBy (·.fingerprint) findings).map baselineEntryOf).map (fun e =>
      if e.fingerprint = fp then e.count else 0) =
        (keysOf (·.fingerprint) findings).map fun k => if k = fp then occurrences findings k else 0 := by
    rw [groupedBy, List.map_map, List.map_map]
    refine List.map_congr_left fun k _ => ?_
    rw [Function.comp_apply, Function.comp_apply, hcount]
    rfl
  rw [hgroups, sum_ite_eq_of_nodup (nodup_keysOf _ _)]
  split_ifs with hmem
  · rfl
  · -- a fingerprint without a group was not found
    refine (List.countP_eq_zero.mpr fun f hf hfp => hmem ?_).symm
    rw [decide_eq_true_eq] at hfp
    exact mem_keysOf.mpr ⟨f, hf, hfp⟩

/-- A baseline that is written and read back counts the findings it was written from. -/
theorem parseBaseline_document {parse : Bytes → Except Bytes Json} {file : Bytes}
    {findings : List Finding} (hparse : parse file = .ok (baselineDocument findings))
    (hsmall : ∀ fp, occurrences findings fp < 2 ^ 32) :
    (∃ entries, parseBaseline parse file = .ok entries) ∧
      ∀ fp, baselineTotal parse file fp = occurrences findings fp := by
  have hitems := baselineItems_document hparse
  constructor
  · have hpos : ∀ e ∈ (groupedBy (·.fingerprint) findings).map baselineEntryOf, 0 < e.count := by
      intro e he
      obtain ⟨group, hg, rfl⟩ := List.mem_map.mp he
      obtain ⟨k, hk, rfl⟩ := List.mem_map.mp hg
      obtain ⟨f, hf, hfp⟩ := mem_keysOf.mp hk
      have hlen : 0 < (entriesOf (·.fingerprint) findings k).length :=
        List.length_pos_of_mem (mem_entriesOf.mpr ⟨hf, hfp⟩)
      have hle : (entriesOf (·.fingerprint) findings k).length ≤ occurrences findings k := by
        rw [entriesOf, occurrences, List.countP_eq_length_filter]
        exact (congrArg List.length
          (List.filter_congr fun f _ => decide_eq_decide.mpr Iff.rfl)).le
      have hlt := hsmall k
      rw [baselineEntryOf]
      dsimp only
      rw [Nat.mod_eq_of_lt (by omega)]
      exact hlen
    obtain ⟨read, hread⟩ := foldlM_entries _ hpos []
    refine ⟨read.insertionSort fun a b => a.fingerprint ≤ b.fingerprint, ?_⟩
    rw [parseBaseline, hitems]
    dsimp only
    rw [hread]
    rfl
  · intro fp
    rw [baselineTotal, hitems]
    dsimp only
    rw [List.map_map, Function.comp_def]
    simp only [itemCount_entry]
    exact sum_groups findings fp hsmall

end Parse

/-- **Baselines account for every finding.** A parsed baseline is applied by its totals; and
a baseline written from findings, read back and applied to these findings in any order and
some more, reports as many of each fingerprint as there are more, and nothing stale. -/
theorem baselines_account (lib : PathLib) (parse : Bytes → Except Bytes Json)
    (print : Json → Bytes) :
    (∀ file entries, parseBaseline parse file = .ok entries →
      (∀ fp, baselineTotal parse file fp < 2 ^ 32) →
        ∀ findings changedLines, BaselineContract findings (baselineTotal parse file)
          (isChanged lib changedLines) (applyBaseline lib findings entries changedLines)) ∧
    (∀ findings, parse (writeBaseline print findings) = .ok (baselineDocument findings) →
      (∀ fp, occurrences findings fp < 2 ^ 32) →
        ∃ entries, parseBaseline parse (writeBaseline print findings) = .ok entries ∧
          ∀ added later changedLines, List.Perm later (findings ++ added) →
            (applyBaseline lib later entries changedLines).stale = [] ∧
              ∀ fp, occurrences (applyBaseline lib later entries changedLines).findings fp =
                occurrences added fp) := by
  refine ⟨fun file entries hparse hsmall findings changedLines =>
    (parseBaseline_counts hparse hsmall).applyBaseline_contract lib findings changedLines,
    fun findings hparse hsmall => ?_⟩
  obtain ⟨⟨entries, hentries⟩, htotal⟩ := parseBaseline_document hparse hsmall
  refine ⟨entries, hentries, fun added later changedLines hperm => ?_⟩
  have hcounts := parseBaseline_counts hentries fun fp => htotal fp ▸ hsmall fp
  have hcontract := hcounts.applyBaseline_contract lib later changedLines
  have hlater : ∀ fp, occurrences later fp = occurrences findings fp + occurrences added fp := by
    intro fp
    rw [occurrences, hperm.countP_eq, List.countP_append]
    rfl
  refine ⟨List.eq_nil_iff_forall_not_mem.mpr fun e he => ?_, fun fp => ?_⟩
  · have hlt := ((hcontract.stale e.fingerprint e.count).mp ⟨e, he, rfl, rfl⟩).1
    rw [htotal, hlater] at hlt
    omega
  · rw [hcontract.count, htotal, hlater]
    omega

/-- A finding. -/
def sampleFinding : Finding where
  check := text "c"
  kind := text "k"
  severity := .note
  path := text "/r/f"
  file := text "f"
  line := 1
  column := 1
  message := text "m"
  fingerprint := text "ab"

/-- The baseline of this finding, as the library prints it. -/
def sampleText : Bytes :=
  text "\x7b\n  \"version\": 2,\n  \"tool\": \"vycor-cpp check\",\n  \"findings\": [\n    \x7b\n" ++
  text "      \"fingerprint\": \"ab\",\n      \"count\": 1,\n      \"check\": \"c\",\n" ++
  text "      \"file\": \"f\",\n      \"message\": \"m\"\n    \x7d\n  ]\n\x7d"

/-- A second copy of the finding is reported, and only this one. -/
theorem baselines_account_second :
    let parse : Bytes → Except Bytes Json := fun file =>
      if file = sampleText ++ [10] then .ok (baselineDocument [sampleFinding]) else .error []
    ∃ entries, parseBaseline parse (writeBaseline (fun _ => sampleText) [sampleFinding]) = .ok entries ∧
      BaselineContract [sampleFinding]
        (baselineTotal parse (writeBaseline (fun _ => sampleText) [sampleFinding])) (isChanged posixPaths none)
        (applyBaseline posixPaths [sampleFinding] entries none) ∧
      occurrences (applyBaseline posixPaths [sampleFinding, sampleFinding] entries none).findings
        (text "ab") = 1 := by
  intro parse
  have hwritten : parse (writeBaseline (fun _ => sampleText) [sampleFinding]) =
      .ok (baselineDocument [sampleFinding]) := if_pos rfl
  have hsmall : ∀ fp, occurrences [sampleFinding] fp < 2 ^ 32 := fun fp =>
    List.countP_le_length.trans_lt (by decide)
  obtain ⟨hparsed, hback⟩ := baselines_account posixPaths parse fun _ => sampleText
  obtain ⟨entries, hentries, hlater⟩ := hback [sampleFinding] hwritten hsmall
  have htotal := (parseBaseline_document hwritten hsmall).2
  refine ⟨entries, hentries, hparsed _ entries hentries (fun fp => ?_) _ none, ?_⟩
  · rw [htotal]
    exact hsmall fp
  · rw [(hlater [sampleFinding] [sampleFinding, sampleFinding] none (.refl _)).2]
    decide

end Vycor
