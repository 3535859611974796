import Vycor.Impact.Patch

/-!
# What a patch maps to

A range makes a list of attributions, a function and how precisely the range names it each
(`CallGraph.attributions`), and `mapRangesToFunctions` keeps of each function the most precise
one. So a list of ranges maps to the union of what its ranges map to alone, in whatever order
they come and however often (`CallGraph.mapsRanges_mapRangesToFunctions`). A range without
attributions is unmapped.
-/

namespace Vycor

theorem MappingVia.value_injective : Function.Injective MappingVia.value := by
  intro a b h
  cases a <;> cases b <;> simp_all [MappingVia.value]

/-! ### Attributions -/

/-- A usr attributed to a range, and how precisely. -/
abbrev Attribution := Bytes × MappingVia

/-- The attributions of some anchors. -/
def anchorAttributions (via : MappingVia) (anchors : List Patch.Located) : List Attribution :=
  anchors.map fun a => (a.usr, via)

/-- The attributions of a range in its file. -/
def FileEntry.attributions (entry : FileEntry) (range : PatchRange) : List Attribution :=
  if range.anchorsIn entry.defs ≠ [] ∨ range.anchorsIn entry.sites ≠ [] then
    anchorAttributions .definition (range.anchorsIn entry.defs) ++
      anchorAttributions .callSite (range.anchorsIn entry.sites)
  else
    match nearestBefore entry range with
    | none => anchorAttributions .file (entry.defs ++ entry.sites)
    | some (anchors, owner) => anchorAttributions .extent (anchors ++ nearestAfter entry range owner)

namespace CallGraph

variable (ll : Llvm) (g : CallGraph)

/-- The attributions of a range. -/
def attributions (patchRoot : Bytes) (range : PatchRange) : List Attribution :=
  match (g.anchoredFiles ll).filter fun f => pathsMatch f (wantedPath patchRoot range.file) with
  | [file] => (g.fileEntry ll file).attributions range
  | _ => []

/-- A function as the mapping lists it. -/
def mappedFunction (usr : Bytes) (via : MappingVia) : MappedFunction :=
  match g.allNodes.find? (·.usr = usr) with
  | some n => ⟨usr, n.qualifiedName, n.file, n.line, via⟩
  | none => { usr := usr, name := usr, via := via }

/-- Attributions one after the other. -/
def attributeEach (as : List Attribution) (mapped : List MappedFunction) : List MappedFunction :=
  as.foldl (fun mapped a => g.attributeTo a.2 mapped a.1) mapped

end CallGraph

/-! ### The most precise attribution -/

/-- The functions that some attributions name, each once, by its most precise one. -/
structure CallGraph.Attributed (g : CallGraph) (as : List Attribution)
    (fs : List MappedFunction) : Prop where
  nodup : (fs.map (·.usr)).Nodup
  covers : ∀ a ∈ as, a.1 ∈ fs.map (·.usr)
  eq_mapped : ∀ f ∈ fs, f = g.mappedFunction f.usr f.via
  mem : ∀ f ∈ fs, (f.usr, f.via) ∈ as
  least : ∀ f ∈ fs, ∀ via, (f.usr, via) ∈ as → f.via.value ≤ via.value

namespace CallGraph

variable {g : CallGraph}

theorem mappedFunction_usr (usr : Bytes) (via : MappingVia) :
    (g.mappedFunction usr via).usr = usr := by
  rw [mappedFunction]
  split <;> rfl

theorem mappedFunction_via (usr : Bytes) (via : MappingVia) :
    (g.mappedFunction usr via).via = via := by
  rw [mappedFunction]
  split <;> rfl

theorem mappedFunction_with (usr : Bytes) (via via' : MappingVia) :
    { g.mappedFunction usr via with via := via' } = g.mappedFunction usr via' := by
  rw [mappedFunction, mappedFunction]
  split <;> rfl

theorem attributed_nil : g.Attributed [] [] where
  nodup := List.nodup_nil
  covers := by simp
  eq_mapped := by simp
  mem := by simp
  least := by simp

/-- **One more attribution.** -/
theorem Attributed.attributeTo {as : List Attribution} {fs : List MappedFunction}
    (h : g.Attributed as fs) (usr : Bytes) (via : MappingVia) :
    g.Attributed (as ++ [(usr, via)]) (g.attributeTo via fs usr) := by
  by_cases hmem : usr ∈ fs.map (·.usr)
  · -- a function that is listed keeps the more precise of the two
    rw [CallGraph.attributeTo, if_pos hmem]
    set keep : MappedFunction → MappedFunction := fun f =>
      if f.usr = usr ∧ via.value < f.via.value then { f with via := via } else f with hkeep
    have husr (f : MappedFunction) : (keep f).usr = f.usr := by
      simp only [hkeep]
      split <;> rfl
    have hmap : (fs.map keep).map (·.usr) = fs.map (·.usr) := by simp [husr]
    refine ⟨hmap ▸ h.nodup, fun a ha => ?_, fun f hf => ?_, fun f hf => ?_, fun f hf v hv => ?_⟩
    · rw [hmap]
      rcases List.mem_append.mp ha with ha | ha
      · exact h.covers a ha
      · rwa [List.mem_singleton.mp ha]
    all_goals obtain ⟨f, hmem, rfl⟩ := List.mem_map.mp hf
    · have heq := h.eq_mapped f hmem
      by_cases hless : f.usr = usr ∧ via.value < f.via.value
      · simp only [hkeep, if_pos hless]
        rw [← g.mappedFunction_with f.usr f.via via, ← heq]
      · simp only [hkeep, if_neg hless]
        exact heq
    · by_cases hless : f.usr = usr ∧ via.value < f.via.value
      · simp [hkeep, if_pos hless, hless.1]
      · simp only [hkeep, if_neg hless]
        exact List.mem_append_left _ (h.mem f hmem)
    · rw [husr, List.mem_append, List.mem_singleton, Prod.mk.injEq] at hv
      by_cases hless : f.usr = usr ∧ via.value < f.via.value
      · simp only [hkeep, if_pos hless]
        rcases hv with hv | ⟨-, rfl⟩
        · exact hless.2.le.trans (h.least f hmem v hv)
        · exact le_rfl
      · simp only [hkeep, if_neg hless]
        rcases hv with hv | ⟨hu, rfl⟩
        · exact h.least f hmem v hv
        · exact not_lt.mp fun hlt => hless ⟨hu, hlt⟩
  · have hnew : g.attributeTo via fs usr = fs ++ [g.mappedFunction usr via] := by
      rw [CallGraph.attributeTo, if_neg hmem]
      rfl
    have hother (f : MappedFunction) (hf : f ∈ fs) : f.usr ≠ usr := fun he =>
      hmem (List.mem_map.mpr ⟨f, hf, he⟩)
    have hunseen (v : MappingVia) : (usr, v) ∉ as := fun hv => hmem (h.covers _ hv)
    rw [hnew]
    refine ⟨?_, fun a ha => ?_, fun f hf => ?_, fun f hf => ?_, fun f hf v hv => ?_⟩
    · rw [List.map_append, List.map_singleton, mappedFunction_usr]
      exact List.nodup_append.mpr ⟨h.nodup, List.nodup_singleton _, by simpa using hmem⟩
    · rw [List.map_append, List.map_singleton, mappedFunction_usr]
      rcases List.mem_append.mp ha with ha | ha
      · exact List.mem_append_left _ (h.covers a ha)
      · rw [List.mem_singleton.mp ha]
        exact List.mem_append_right _ List.mem_cons_self
    all_goals rcases List.mem_append.mp hf with hf | hf
    · exact h.eq_mapped f hf
    · rw [List.mem_singleton.mp hf, mappedFunction_usr, mappedFunction_via]
    · exact List.mem_append_left _ (h.mem f hf)
    · rw [List.mem_singleton.mp hf, mappedFunction_usr, mappedFunction_via]
      exact List.mem_append_right _ List.mem_cons_self
    · rcases List.mem_append.mp hv with hv | hv
      · exact h.least f hf v hv
      · exact absurd (congrArg Prod.fst (List.mem_singleton.mp hv)) (hother f hf)
    · rw [List.mem_singleton.mp hf, mappedFunction_usr] at hv
      rw [List.mem_singleton.mp hf, mappedFunction_via]
      rcases List.mem_append.mp hv with hv | hv
      · exact absurd hv (hunseen v)
      · exact (congrArg (MappingVia.value ∘ Prod.snd) (List.mem_singleton.mp hv)).ge

theorem attributed_attributeEach (as : List Attribution) : g.Attributed as (g.attributeEach as []) := by
  have hrun (bs : List Attribution) (as : List Attribution) (fs : List MappedFunction)
      (h : g.Attributed as fs) : g.Attributed (as ++ bs) (g.attributeEach bs fs) := by
    induction bs generalizing as fs with
    | nil => simpa [attributeEach] using h
    | cons b bs ih => simpa [attributeEach] using ih _ _ (h.attributeTo b.1 b.2)
  exact hrun as [] [] attributed_nil

/-- The attributions determine the functions. -/
theorem Attributed.mem_iff {as : List Attribution} {fs : List MappedFunction}
    (h : g.Attributed as fs) {f : MappedFunction} :
    f ∈ fs ↔ f = g.mappedFunction f.usr f.via ∧ (f.usr, f.via) ∈ as ∧
      ∀ via, (f.usr, via) ∈ as → f.via.value ≤ via.value := by
  refine ⟨fun hf => ⟨h.eq_mapped f hf, h.mem f hf, h.least f hf⟩, fun ⟨heq, hmem, hleast⟩ => ?_⟩
  obtain ⟨f', hf', husr⟩ := List.mem_map.mp (h.covers _ hmem)
  have husr : f'.usr = f.usr := husr
  have hvia : f'.via = f.via := MappingVia.value_injective <|
    (h.least f' hf' f.via (husr ▸ hmem)).antisymm (hleast f'.via (husr ▸ h.mem f' hf'))
  have hsame : f' = f := by rw [h.eq_mapped f' hf', husr, hvia, ← heq]
  exact hsame ▸ hf'

/-! ### One range -/

theorem attributeEach_append (as bs : List Attribution) (fs : List MappedFunction) :
    g.attributeEach (as ++ bs) fs = g.attributeEach bs (g.attributeEach as fs) :=
  List.foldl_append

theorem attributeAll_eq (via : MappingVia) (anchors : List Patch.Located)
    (fs : List MappedFunction) :
    g.attributeAll via anchors fs = g.attributeEach (anchorAttributions via anchors) fs := by
  rw [attributeAll, attributeEach, anchorAttributions, List.foldl_map, List.foldl_map]

end CallGraph

/-- The anchors nearest before a range are there where any anchor is before it. -/
theorem nearestBefore_ne_nil {entry : FileEntry} {range : PatchRange}
    {anchors : List Patch.Located} {owner : Bytes}
    (h : nearestBefore entry range = some (anchors, owner)) : anchors ≠ [] := by
  have hself {l : List Patch.Located} {a : Patch.Located} (ha : range.lastBefore l = some a) :
      a ∈ sameLine l a :=
    List.mem_filter.mpr ⟨List.mem_of_mem_filter (List.mem_of_getLast? ha), by simp⟩
  rw [nearestBefore] at h
  split at h
  · cases h
  · rename_i d hd _
    simp only [Option.some.injEq, Prod.mk.injEq] at h
    exact h.1 ▸ List.ne_nil_of_mem (hself hd)
  · rename_i s _ hs
    simp only [Option.some.injEq, Prod.mk.injEq] at h
    exact h.1 ▸ List.ne_nil_of_mem (hself hs)
  · rename_i d s hd hs
    split at h <;> simp only [Option.some.injEq, Prod.mk.injEq] at h
    · exact h.1 ▸ List.ne_nil_of_mem (hself hd)
    · exact h.1 ▸ List.ne_nil_of_mem (hself hs)

/-- **A file with an anchor attributes every range.** -/
theorem FileEntry.attributions_eq_nil {entry : FileEntry} {range : PatchRange} :
    entry.attributions range = [] ↔ entry.defs = [] ∧ entry.sites = [] := by
  have hnil (via : MappingVia) (l : List Patch.Located) : anchorAttributions via l = [] ↔ l = [] :=
    List.map_eq_nil_iff
  rw [attributions]
  by_cases hin : range.anchorsIn entry.defs ≠ [] ∨ range.anchorsIn entry.sites ≠ []
  · rw [if_pos hin, List.append_eq_nil_iff, hnil, hnil]
    have hempty (l : List Patch.Located) (hl : l = []) : range.anchorsIn l = [] := by
      rw [hl]
      rfl
    refine iff_of_false (fun h => ?_) fun h => ?_
    · exact hin.elim (· h.1) (· h.2)
    · exact hin.elim (· (hempty _ h.1)) (· (hempty _ h.2))
  · rw [if_neg hin]
    split
    · rw [hnil, List.append_eq_nil_iff]
    · rename_i anchors owner hbefore
      rw [hnil, List.append_eq_nil_iff]
      refine iff_of_false (fun h => nearestBefore_ne_nil hbefore h.1) fun h => ?_
      simp [nearestBefore, PatchRange.lastBefore, h.1, h.2] at hbefore

namespace CallGraph

variable (ll : Llvm) {g : CallGraph} (patchRoot : Bytes)

/-- **What a range does**: its attributions, or an entry among the unmapped. -/
theorem mapRange_spec (out : PatchMapping) (range : PatchRange) :
    (g.mapRange ll patchRoot out range).functions =
        g.attributeEach (g.attributions ll patchRoot range) out.functions ∧
      (g.mapRange ll patchRoot out range).unmapped.map (·.range) =
        out.unmapped.map (·.range) ++
          if g.attributions ll patchRoot range = [] then [range] else [] := by
  rw [mapRange, attributions]
  generalize (g.anchoredFiles ll).filter (fun f => pathsMatch f (wantedPath patchRoot range.file)) =
    files
  obtain _ | ⟨file, _ | ⟨file', files⟩⟩ := files
  · simp [attributeEach]
  · simp only [FileEntry.attributions_eq_nil]
    rw [mapInFile]
    simp only [FileEntry.attributions, attributeAll_eq]
    by_cases hin : range.anchorsIn (g.fileEntry ll file).defs ≠ [] ∨
        range.anchorsIn (g.fileEntry ll file).sites ≠ []
    · have hsome : ¬ ((g.fileEntry ll file).defs = [] ∧ (g.fileEntry ll file).sites = []) := by
        rintro ⟨hdefs, hsites⟩
        simp [hdefs, hsites, PatchRange.anchorsIn] at hin
      rw [if_pos hin, if_pos hin, if_neg hsome, attributeEach_append, List.append_nil]
      exact ⟨rfl, rfl⟩
    · rw [if_neg hin, if_neg hin]
      by_cases hempty : (g.fileEntry ll file).defs = [] ∧ (g.fileEntry ll file).sites = []
      · rw [if_pos hempty, if_pos hempty]
        simp [nearestBefore, PatchRange.lastBefore, hempty.1, hempty.2, anchorAttributions,
          attributeEach]
      · rw [if_neg hempty, if_neg hempty, List.append_nil]
        have hboth (via : MappingVia) (l l' : List Patch.Located) (fs : List MappedFunction) :
            g.attributeEach (anchorAttributions via (l ++ l')) fs =
              g.attributeEach (anchorAttributions via l')
                (g.attributeEach (anchorAttributions via l) fs) := by
          rw [anchorAttributions, List.map_append, attributeEach_append]
          rfl
        obtain hbefore | ⟨⟨anchors, owner⟩, hbefore⟩ :=
          Option.eq_none_or_eq_some (nearestBefore (g.fileEntry ll file) range)
        · simp only [hbefore, hboth, and_self]
        · simp only [hbefore, hboth, and_self]
  · simp [attributeEach]

/-! ### All ranges -/

/-- **What the loop over the ranges does.** -/
theorem foldl_mapRange (ranges : List PatchRange) (out : PatchMapping) :
    (ranges.foldl (g.mapRange ll patchRoot) out).functions =
        g.attributeEach (ranges.flatMap (g.attributions ll patchRoot)) out.functions ∧
      (ranges.foldl (g.mapRange ll patchRoot) out).unmapped.map (·.range) =
        out.unmapped.map (·.range) ++
          ranges.filter fun r => g.attributions ll patchRoot r = [] := by
  induction ranges generalizing out with
  | nil => simp [attributeEach]
  | cons r ranges ih =>
    obtain ⟨hfunctions, hunmapped⟩ := mapRange_spec ll patchRoot out r
    obtain ⟨hrest, hlater⟩ := ih (g.mapRange ll patchRoot out r)
    rw [List.foldl_cons]
    refine ⟨?_, ?_⟩
    · rw [hrest, hfunctions, List.flatMap_cons, attributeEach_append]
    · rw [hlater, hunmapped, List.append_assoc, List.filter_cons]
      by_cases hnone : g.attributions ll patchRoot r = [] <;> simp [hnone]

variable (unmappedSort : Sorter unmappedBefore)

theorem attributed_functions (g : CallGraph) (ranges : List PatchRange) :
    g.Attributed (ranges.flatMap (g.attributions ll patchRoot))
      (g.mapRangesToFunctions ll unmappedSort ranges patchRoot).functions := by
  have h := g.attributed_attributeEach (ranges.flatMap (g.attributions ll patchRoot))
  rw [← (foldl_mapRange ll patchRoot ranges {}).1] at h
  have hperm := List.perm_insertionSort (fun a b : MappedFunction => a.usr ≤ b.usr)
    (ranges.foldl (g.mapRange ll patchRoot) {}).functions
  exact ⟨(hperm.map _).nodup_iff.mpr h.nodup, fun a ha => (hperm.map _).mem_iff.mpr (h.covers a ha),
    fun f hf => h.eq_mapped f (hperm.mem_iff.mp hf), fun f hf => h.mem f (hperm.mem_iff.mp hf),
    fun f hf => h.least f (hperm.mem_iff.mp hf)⟩

theorem pairwise_functions (ranges : List PatchRange) :
    (g.mapRangesToFunctions ll unmappedSort ranges patchRoot).functions.Pairwise
      fun a b => a.usr ≤ b.usr := by
  have : Std.Total fun a b : MappedFunction => a.usr ≤ b.usr := ⟨fun a b => le_total _ _⟩
  have : IsTrans MappedFunction fun a b => a.usr ≤ b.usr := ⟨fun _ _ _ => le_trans⟩
  exact List.pairwise_insertionSort _ _

/-- The functions that a range maps to alone. -/
theorem alone_eq_nil_iff (range : PatchRange) :
    (g.mapRangesToFunctions ll unmappedSort [range] patchRoot).functions = [] ↔
      g.attributions ll patchRoot range = [] := by
  have h := attributed_functions ll patchRoot unmappedSort g [range]
  rw [List.flatMap_singleton] at h
  refine ⟨fun hnil => List.eq_nil_iff_forall_not_mem.mpr fun a ha => ?_, fun hnil => ?_⟩
  · have := h.covers a ha
    simp [hnil] at this
  · exact List.eq_nil_iff_forall_not_mem.mpr fun f hf => by simpa [hnil] using h.mem f hf

/-- No range attributes as an argument or as a difference. -/
theorem via_of_mem_attributions {range : PatchRange} {a : Attribution}
    (ha : a ∈ g.attributions ll patchRoot range) : a.2 ≠ .argument ∧ a.2 ≠ .diff := by
  have hvia {via : MappingVia} {l : List Patch.Located} (hmem : a ∈ anchorAttributions via l) :
      a.2 = via := by
    obtain ⟨x, -, rfl⟩ := List.mem_map.mp hmem
    rfl
  rw [attributions] at ha
  split at ha
  · rw [FileEntry.attributions] at ha
    split at ha
    · rcases List.mem_append.mp ha with ha | ha <;> simp [hvia ha]
    · split at ha <;> simp [hvia ha]
  · cases ha

/-- Functions of the four vias of a patch are counted by via. -/
theorem length_eq_countP {fs : List MappedFunction}
    (h : ∀ f ∈ fs, f.via ≠ .argument ∧ f.via ≠ .diff) :
    fs.countP (·.via = .callSite) + fs.countP (·.via = .definition) +
      fs.countP (·.via = .extent) + fs.countP (·.via = .file) = fs.length := by
  induction fs with
  | nil => rfl
  | cons f fs ih =>
    have hrest := ih fun f' hf' => h f' (.tail f hf')
    have hf := h f List.mem_cons_self
    simp only [List.countP_cons, List.length_cons]
    cases hvia : f.via <;> simp_all <;> omega

end CallGraph

/-- What a mapping of ranges promises, by what each range maps to alone: a range that maps to
nothing is unmapped, each time that it is given, and no other; the functions are the union over
the ranges, each once, by the most precise via that any range gives; every function is counted;
and the order of the ranges and how often they come do not matter for the functions. -/
structure CallGraph.MapsRanges (ll : Llvm) (unmappedSort : Sorter unmappedBefore) (g : CallGraph)
    (patchRoot : Bytes) (ranges : List PatchRange) : Prop where
  unmapped :
    ((g.mapRangesToFunctions ll unmappedSort ranges patchRoot).unmapped.map (·.range)).Perm
      (ranges.filter fun r =>
        (g.mapRangesToFunctions ll unmappedSort [r] patchRoot).functions = [])
  nodup : ((g.mapRangesToFunctions ll unmappedSort ranges patchRoot).functions.map (·.usr)).Nodup
  usrs : ∀ usr,
    usr ∈ (g.mapRangesToFunctions ll unmappedSort ranges patchRoot).functions.map (·.usr) ↔
      ∃ r ∈ ranges,
        usr ∈ (g.mapRangesToFunctions ll unmappedSort [r] patchRoot).functions.map (·.usr)
  most_precise : ∀ f ∈ (g.mapRangesToFunctions ll unmappedSort ranges patchRoot).functions,
    (∃ r ∈ ranges, f ∈ (g.mapRangesToFunctions ll unmappedSort [r] patchRoot).functions) ∧
      ∀ r ∈ ranges, ∀ f' ∈ (g.mapRangesToFunctions ll unmappedSort [r] patchRoot).functions,
        f'.usr = f.usr → f.via.value ≤ f'.via.value
  counted :
    (g.mapRangesToFunctions ll unmappedSort ranges patchRoot).viaCallSite +
        (g.mapRangesToFunctions ll unmappedSort ranges patchRoot).viaDefinition +
      (g.mapRangesToFunctions ll unmappedSort ranges patchRoot).viaExtent +
        (g.mapRangesToFunctions ll unmappedSort ranges patchRoot).viaFile =
      (g.mapRangesToFunctions ll unmappedSort ranges patchRoot).functions.length
  order_free : ∀ ranges' : List PatchRange, (∀ r, r ∈ ranges' ↔ r ∈ ranges) →
    (g.mapRangesToFunctions ll unmappedSort ranges' patchRoot).functions =
      (g.mapRangesToFunctions ll unmappedSort ranges patchRoot).functions

/-- **Patch mapping loses nothing and ignores the order of the ranges.** -/
theorem CallGraph.mapsRanges_mapRangesToFunctions (ll : Llvm)
    (unmappedSort : Sorter unmappedBefore) (g : CallGraph) (patchRoot : Bytes)
    (ranges : List PatchRange) : g.MapsRanges ll unmappedSort patchRoot ranges := by
  have hall := attributed_functions ll patchRoot unmappedSort g
  have halone (r : PatchRange) : g.Attributed (g.attributions ll patchRoot r)
      (g.mapRangesToFunctions ll unmappedSort [r] patchRoot).functions := by
    simpa using hall [r]
  refine ⟨?_, (hall ranges).nodup, fun usr => ?_, fun f hf => ⟨?_, ?_⟩, ?_, fun ranges' hmem => ?_⟩
  · refine ((unmappedSort.perm _).map _).trans (.of_eq ?_)
    rw [(foldl_mapRange ll patchRoot ranges {}).2]
    simp [alone_eq_nil_iff]
  · constructor
    · intro husr
      obtain ⟨f, hf, rfl⟩ := List.mem_map.mp husr
      obtain ⟨r, hr, ha⟩ := List.mem_flatMap.mp ((hall ranges).mem f hf)
      exact ⟨r, hr, (halone r).covers _ ha⟩
    · rintro ⟨r, hr, husr⟩
      obtain ⟨f, hf, rfl⟩ := List.mem_map.mp husr
      exact (hall ranges).covers _ (List.mem_flatMap.mpr ⟨r, hr, (halone r).mem f hf⟩)
  · obtain ⟨heq, hmem, hleast⟩ := (hall ranges).mem_iff.mp hf
    obtain ⟨r, hr, ha⟩ := List.mem_flatMap.mp hmem
    exact ⟨r, hr, (halone r).mem_iff.mpr
      ⟨heq, ha, fun via hvia => hleast via (List.mem_flatMap.mpr ⟨r, hr, hvia⟩)⟩⟩
  · intro r hr f' hf' husr
    refine (hall ranges).least f hf f'.via (List.mem_flatMap.mpr ⟨r, hr, ?_⟩)
    exact husr ▸ (halone r).mem f' hf'
  · have hvias : ∀ f ∈ (g.mapRangesToFunctions ll unmappedSort ranges patchRoot).functions,
        f.via ≠ .argument ∧ f.via ≠ .diff := by
      intro f hf
      obtain ⟨r, -, ha⟩ := List.mem_flatMap.mp ((hall ranges).mem f hf)
      exact via_of_mem_attributions ll patchRoot ha
    have hcount := length_eq_countP hvias
    have hsame (via : MappingVia) :
        (ranges.foldl (g.mapRange ll patchRoot) {}).functions.countP (·.via = via) =
          (g.mapRangesToFunctions ll unmappedSort ranges patchRoot).functions.countP
            (·.via = via) :=
      ((List.perm_insertionSort _ _).countP_eq _).symm
    rw [← hsame .callSite, ← hsame .definition, ← hsame .extent, ← hsame .file] at hcount
    exact hcount
  · have hsame (a : Attribution) : a ∈ ranges'.flatMap (g.attributions ll patchRoot) ↔
        a ∈ ranges.flatMap (g.attributions ll patchRoot) := by
      simp only [List.mem_flatMap, hmem]
    have hiff (f : MappedFunction) :
        f ∈ (g.mapRangesToFunctions ll unmappedSort ranges' patchRoot).functions ↔
          f ∈ (g.mapRangesToFunctions ll unmappedSort ranges patchRoot).functions := by
      rw [(hall ranges').mem_iff, (hall ranges).mem_iff]
      simp only [hsame]
    have hperm := (List.perm_ext_iff_of_nodup (hall ranges').nodup.of_map
      (hall ranges).nodup.of_map).mpr hiff
    refine hperm.eq_of_pairwise (fun a b ha hb hab hba => ?_)
      (pairwise_functions ll patchRoot unmappedSort ranges')
      (pairwise_functions ll patchRoot unmappedSort ranges)
    exact List.inj_on_of_nodup_map (hall ranges).nodup ((hiff a).mp ha) hb (hab.antisymm hba)

end Vycor
