import Vycor.Check.Shard

/-!
# Replaying a contribution

A captured, written, read and applied contribution against `absorb`. Both add the entries of
the shard table by table; the hash maps may be walked in different orders, which does not
show in the result because every map keeps its entries under their key (`Inv`).
-/

namespace Vycor

namespace GlobalIndex

/-- An index built through its `add` methods. -/
inductive Built : GlobalIndex → Prop where
  | empty : Built {}
  | addFunctionOverload {g : GlobalIndex} (h : Built g) (e : FunctionOverloadEntry) :
      Built (g.addFunctionOverload e)
  | addDeductionGuide {g : GlobalIndex} (h : Built g) (e : DeductionGuideEntry) :
      Built (g.addDeductionGuide e)
  | addCoverageProperty {g : GlobalIndex} (h : Built g) (e : CoveragePropertyEntry) :
      Built (g.addCoverageProperty e)
  | addOdrEntry {g : GlobalIndex} (h : Built g) (e : OdrEntry) : Built (g.addOdrEntry e)
  | addSpecialization {g : GlobalIndex} (h : Built g) (e : SpecializationEntry) :
      Built (g.addSpecialization e)
  | addDefaultArg {g : GlobalIndex} (h : Built g) (e : DefaultArgEntry) : Built (g.addDefaultArg e)
  | addStaticInit {g : GlobalIndex} (h : Built g) (e : StaticInitEntry) : Built (g.addStaticInit e)
  | addFunctionSummary {g : GlobalIndex} (h : Built g) (e : FunctionSummaryEntry) :
      Built (g.addFunctionSummary e)
  | addHeaderStatic {g : GlobalIndex} (h : Built g) (e : HeaderStaticEntry) :
      Built (g.addHeaderStatic e)
  | addExceptionSpec {g : GlobalIndex} (h : Built g) (e : ExceptionSpecEntry) :
      Built (g.addExceptionSpec e)
  | addBase {g : GlobalIndex} (h : Built g) (edge : Bytes × Bytes) : Built (g.addBase edge)
  | addCtorEdge {g : GlobalIndex} (h : Built g) (edge : Bytes × Bytes) : Built (g.addCtorEdge edge)
  | addConvOpEdge {g : GlobalIndex} (h : Built g) (edge : Bytes × Bytes) :
      Built (g.addConvOpEdge edge)

/-- Entries stand under their key, one for a key where the table keeps one. -/
structure Inv (g : GlobalIndex) : Prop where
  overloads : ∀ k, ∀ e ∈ g.overloads k, e.qualifiedName = k
  guides : ∀ k, ∀ e ∈ g.guides k, e.templateName = k
  coverageProps : ∀ k, ∀ e ∈ g.coverageProps k, e.enclosingClass = k
  odrEntries : g.odrEntries.Valid OdrEntry.key
  specializations : ∀ k, ∀ e ∈ g.specializations k, e.templateName = k
  specializations_differ : ∀ k, (g.specializations k).Pairwise fun a b => a.same b = false
  defaultArgs : g.defaultArgs.Valid DefaultArgEntry.key
  staticInits : g.staticInits.Valid StaticInitEntry.key
  staticInitByName : ∀ name,
    g.staticInitByName name = g.staticInits.entries.findIdx? fun e => e.qualifiedName == name
  functionSummaries : g.functionSummaries.Valid FunctionSummaryEntry.qualifiedName
  headerStatics : g.headerStatics.Valid HeaderStaticEntry.key
  exceptionSpecs : g.exceptionSpecs.Valid ExceptionSpecEntry.key
  bases : ∀ k, (g.types.bases k).Nodup
  ctorEdges : ∀ k, (g.types.ctorEdges k).Nodup
  convOpEdges : ∀ k, (g.types.convOpEdges k).Nodup

variable {g : GlobalIndex}

theorem Inv.empty : Inv {} where
  overloads := by simp
  guides := by simp
  coverageProps := by simp
  odrEntries := .empty
  specializations := by simp
  specializations_differ := by simp
  defaultArgs := .empty
  staticInits := .empty
  staticInitByName := by simp
  functionSummaries := .empty
  headerStatics := .empty
  exceptionSpecs := .empty
  bases := by simp
  ctorEdges := by simp
  convOpEdges := by simp

/-- Entries pushed under their key stand under it. -/
theorem forall_mem_pushAt {α : Type} {m : Bytes → List α} {key : α → Bytes}
    (h : ∀ k, ∀ e ∈ m k, key e = k) (e : α) : ∀ k, ∀ e' ∈ pushAt m (key e) e k, key e' = k := by
  intro k e' he'
  rcases mem_pushAt.mp he' with he' | ⟨rfl, rfl⟩
  exacts [h k e' he', rfl]

theorem OdrEntry.key_mergeInto (a b : OdrEntry) : (a.mergeInto b).key = a.key := by
  rw [OdrEntry.mergeInto]
  split <;> rfl

theorem FunctionSummaryEntry.qualifiedName_mergeInto (a b : FunctionSummaryEntry) :
    (a.mergeInto b).qualifiedName = a.qualifiedName := rfl

theorem HeaderStaticEntry.key_mergeInto (a b : HeaderStaticEntry) :
    (a.mergeInto b).key = a.key := rfl

theorem SpecializationEntry.templateName_mergeInto (a b : SpecializationEntry) :
    (a.mergeInto b).templateName = a.templateName := by
  rw [SpecializationEntry.mergeInto]
  split <;> rfl

theorem SpecializationEntry.same_mergeInto (a b c : SpecializationEntry) :
    (a.mergeInto b).same c = a.same c ∧ c.same (a.mergeInto b) = c.same a := by
  rw [SpecializationEntry.mergeInto]
  split <;> exact ⟨rfl, rfl⟩

/-- `addStaticInit` on the table and its name map. -/
def addStaticInitRows (t : Keyed Bytes StaticInitEntry × (Bytes → Option ℕ)) (e : StaticInitEntry) :
    Keyed Bytes StaticInitEntry × (Bytes → Option ℕ) :=
  (t.1.upsert StaticInitEntry.key (fun old _ => old) e,
    if t.1.index e.key = none ∧ t.2 e.qualifiedName = none then
      Function.update t.2 e.qualifiedName (some t.1.entries.length)
    else t.2)

/-- The name map points at the first entry of each name. -/
def NamesFirst (t : Keyed Bytes StaticInitEntry × (Bytes → Option ℕ)) : Prop :=
  ∀ name, t.2 name = t.1.entries.findIdx? fun e => e.qualifiedName == name

/-- A new initializer of a name that has one leaves the name where it is. -/
theorem NamesFirst.add {t : Keyed Bytes StaticInitEntry × (Bytes → Option ℕ)} (h : NamesFirst t)
    (e : StaticInitEntry) : NamesFirst (addStaticInitRows t e) := by
  intro name
  simp only [addStaticInitRows]
  cases hidx : t.1.index e.key with
  | some i =>
    have hent : (t.1.upsert StaticInitEntry.key (fun old _ => old) e).entries = t.1.entries := by
      simp only [Keyed.upsert, hidx]
      exact List.modify_id i _
    simp only [reduceCtorEq, false_and, if_false, hent]
    exact h name
  | none =>
    rw [Keyed.upsert_entries_of_new hidx, List.findIdx?_append, ← h]
    by_cases hname : e.qualifiedName = name
    · subst hname
      cases hn : t.2 e.qualifiedName with
      | none => simp
      | some j => simp [hn]
    · simp only [List.findIdx?_singleton, beq_eq_false_iff_ne.mpr hname, Bool.false_eq_true,
        if_false, Option.map_none, Option.or_none]
      split
      · exact Function.update_of_ne (Ne.symm hname) ..
      · rfl

theorem Inv.addStaticInit (h : g.Inv) (e : StaticInitEntry) : (g.addStaticInit e).Inv :=
  { h with
    staticInits := h.staticInits.upsert (fun _ _ => rfl) e
    staticInitByName :=
      NamesFirst.add (t := (g.staticInits, g.staticInitByName)) h.staticInitByName e }

theorem Inv.addSpecialization (h : g.Inv) (e : SpecializationEntry) :
    (g.addSpecialization e).Inv := by
  refine { h with
    specializations := fun k => ?_
    specializations_differ := fun k => ?_ }
  · simp only [GlobalIndex.addSpecialization, Function.update_apply]
    split
    · subst k
      exact forall_mem_upsertIn (h.specializations _) rfl
        fun a ha => (SpecializationEntry.templateName_mergeInto a e).trans ha
    · exact h.specializations k
  · simp only [GlobalIndex.addSpecialization, Function.update_apply]
    split
    · subst k
      exact pairwise_upsertIn (h.specializations_differ _)
        (fun a c => (SpecializationEntry.same_mergeInto a e c).1)
        fun a c => (SpecializationEntry.same_mergeInto a e c).2
    · exact h.specializations_differ k

/-- Every built index keeps its entries under their keys. -/
theorem Built.inv (h : Built g) : g.Inv := by
  induction h with
  | empty => exact .empty
  | addFunctionOverload _ e ih =>
    exact { ih with overloads := forall_mem_pushAt ih.overloads e }
  | addDeductionGuide _ e ih =>
    exact { ih with guides := forall_mem_pushAt ih.guides e }
  | addCoverageProperty _ e ih =>
    exact { ih with coverageProps := forall_mem_pushAt ih.coverageProps e }
  | addOdrEntry _ e ih =>
    exact { ih with odrEntries := ih.odrEntries.upsert OdrEntry.key_mergeInto e }
  | addSpecialization _ e ih => exact ih.addSpecialization e
  | addDefaultArg _ e ih =>
    exact { ih with defaultArgs := ih.defaultArgs.upsert (fun _ _ => rfl) e }
  | addStaticInit _ e ih => exact ih.addStaticInit e
  | addFunctionSummary _ e ih =>
    exact { ih with functionSummaries :=
      ih.functionSummaries.upsert FunctionSummaryEntry.qualifiedName_mergeInto e }
  | addHeaderStatic _ e ih =>
    exact { ih with headerStatics := ih.headerStatics.upsert HeaderStaticEntry.key_mergeInto e }
  | addExceptionSpec _ e ih =>
    exact { ih with exceptionSpecs := ih.exceptionSpecs.upsert (fun _ _ => rfl) e }
  | addBase _ edge ih => exact { ih with bases := fun k => nodup_pushNew (ih.bases k) }
  | addCtorEdge _ edge ih => exact { ih with ctorEdges := fun k => nodup_pushNew (ih.ctorEdges k) }
  | addConvOpEdge _ edge ih =>
    exact { ih with convOpEdges := fun k => nodup_pushNew (ih.convOpEdges k) }

/-! ### Table by table -/

/-- A fold that changes one field of a state is the fold over that field. -/
theorem foldl_field {σ τ ε : Type} (add : σ → ε → σ) (get : σ → τ) (put : σ → τ → σ)
    (f : τ → ε → τ) (hadd : ∀ s e, add s e = put s (f (get s) e))
    (hget : ∀ s t, get (put s t) = t) (hput : ∀ s t t', put (put s t) t' = put s t')
    (hself : ∀ s, put s (get s) = s) (l : List ε) (s : σ) :
    l.foldl add s = put s (l.foldl f (get s)) := by
  induction l generalizing s with
  | nil => exact (hself s).symm
  | cons e l ih => rw [List.foldl_cons, List.foldl_cons, ih, hadd, hget, hput]

theorem foldl_addFunctionOverload (l : List FunctionOverloadEntry) (g : GlobalIndex) :
    l.foldl addFunctionOverload g =
      { g with
        overloads :=
          updateAll FunctionOverloadEntry.qualifiedName (fun l e => l ++ [e]) g.overloads l } :=
  foldl_field addFunctionOverload overloads (fun g t => { g with overloads := t })
    (fun m e => pushAt m e.qualifiedName e)
    (fun _ _ => rfl) (fun _ _ => rfl) (fun _ _ _ => rfl) (fun _ => rfl) l g

theorem foldl_addDeductionGuide (l : List DeductionGuideEntry) (g : GlobalIndex) :
    l.foldl addDeductionGuide g =
      { g with
        guides :=
          updateAll DeductionGuideEntry.templateName (fun l e => l ++ [e]) g.guides l } :=
  foldl_field addDeductionGuide guides (fun g t => { g with guides := t })
    (fun m e => pushAt m e.templateName e)
    (fun _ _ => rfl) (fun _ _ => rfl) (fun _ _ _ => rfl) (fun _ => rfl) l g

theorem foldl_addCoverageProperty (l : List CoveragePropertyEntry) (g : GlobalIndex) :
    l.foldl addCoverageProperty g =
      { g with
        coverageProps :=
          updateAll CoveragePropertyEntry.enclosingClass (fun l e => l ++ [e]) g.coverageProps l } :=
  foldl_field addCoverageProperty coverageProps (fun g t => { g with coverageProps := t })
    (fun m e => pushAt m e.enclosingClass e)
    (fun _ _ => rfl) (fun _ _ => rfl) (fun _ _ _ => rfl) (fun _ => rfl) l g

theorem foldl_addOdrEntry (l : List OdrEntry) (g : GlobalIndex) :
    l.foldl addOdrEntry g =
      { g with
        odrEntries :=
          l.foldl (Keyed.upsert OdrEntry.key OdrEntry.mergeInto) g.odrEntries } :=
  foldl_field addOdrEntry odrEntries (fun g t => { g with odrEntries := t })
    (Keyed.upsert OdrEntry.key OdrEntry.mergeInto)
    (fun _ _ => rfl) (fun _ _ => rfl) (fun _ _ _ => rfl) (fun _ => rfl) l g

theorem foldl_addSpecialization (l : List SpecializationEntry) (g : GlobalIndex) :
    l.foldl addSpecialization g =
      { g with
        specializations :=
          updateAll SpecializationEntry.templateName
            (upsertIn SpecializationEntry.same SpecializationEntry.mergeInto) g.specializations l } :=
  foldl_field addSpecialization specializations (fun g t => { g with specializations := t })
    (fun m e => Function.update m e.templateName
      (upsertIn SpecializationEntry.same SpecializationEntry.mergeInto (m e.templateName) e))
    (fun _ _ => rfl) (fun _ _ => rfl) (fun _ _ _ => rfl) (fun _ => rfl) l g

theorem foldl_addDefaultArg (l : List DefaultArgEntry) (g : GlobalIndex) :
    l.foldl addDefaultArg g =
      { g with
        defaultArgs :=
          l.foldl (Keyed.upsert DefaultArgEntry.key fun old _ => old) g.defaultArgs } :=
  foldl_field addDefaultArg defaultArgs (fun g t => { g with defaultArgs := t })
    (Keyed.upsert DefaultArgEntry.key fun old _ => old)
    (fun _ _ => rfl) (fun _ _ => rfl) (fun _ _ _ => rfl) (fun _ => rfl) l g

theorem foldl_addStaticInit (l : List StaticInitEntry) (g : GlobalIndex) :
    l.foldl addStaticInit g =
      { g with
        staticInits := (l.foldl addStaticInitRows (g.staticInits, g.staticInitByName)).1
        staticInitByName := (l.foldl addStaticInitRows (g.staticInits, g.staticInitByName)).2 } :=
  foldl_field addStaticInit (fun g => (g.staticInits, g.staticInitByName))
    (fun g t => { g with staticInits := t.1, staticInitByName := t.2 }) addStaticInitRows
    (fun _ _ => rfl) (fun _ _ => rfl) (fun _ _ _ => rfl) (fun _ => rfl) l g

theorem foldl_addFunctionSummary (l : List FunctionSummaryEntry) (g : GlobalIndex) :
    l.foldl addFunctionSummary g =
      { g with
        functionSummaries :=
          l.foldl (Keyed.upsert FunctionSummaryEntry.qualifiedName FunctionSummaryEntry.mergeInto)
            g.functionSummaries } :=
  foldl_field addFunctionSummary functionSummaries (fun g t => { g with functionSummaries := t })
    (Keyed.upsert FunctionSummaryEntry.qualifiedName FunctionSummaryEntry.mergeInto)
    (fun _ _ => rfl) (fun _ _ => rfl) (fun _ _ _ => rfl) (fun _ => rfl) l g

theorem foldl_addHeaderStatic (l : List HeaderStaticEntry) (g : GlobalIndex) :
    l.foldl addHeaderStatic g =
      { g with
        headerStatics :=
          l.foldl (Keyed.upsert HeaderStaticEntry.key HeaderStaticEntry.mergeInto) g.headerStatics } :=
  foldl_field addHeaderStatic headerStatics (fun g t => { g with headerStatics := t })
    (Keyed.upsert HeaderStaticEntry.key HeaderStaticEntry.mergeInto)
    (fun _ _ => rfl) (fun _ _ => rfl) (fun _ _ _ => rfl) (fun _ => rfl) l g

theorem foldl_addExceptionSpec (l : List ExceptionSpecEntry) (g : GlobalIndex) :
    l.foldl addExceptionSpec g =
      { g with
        exceptionSpecs :=
          l.foldl (Keyed.upsert ExceptionSpecEntry.key fun old _ => old) g.exceptionSpecs } :=
  foldl_field addExceptionSpec exceptionSpecs (fun g t => { g with exceptionSpecs := t })
    (Keyed.upsert ExceptionSpecEntry.key fun old _ => old)
    (fun _ _ => rfl) (fun _ _ => rfl) (fun _ _ _ => rfl) (fun _ => rfl) l g

theorem foldl_addBase (l : List (Bytes × Bytes)) (g : GlobalIndex) :
    l.foldl addBase g =
      { g with
        types := { g.types with
          bases := l.foldl (fun m e => pushNew m e.1 e.2) g.types.bases } } :=
  foldl_field addBase (fun g => g.types.bases)
    (fun g t => { g with types := { g.types with bases := t } }) (fun m e => pushNew m e.1 e.2)
    (fun _ _ => rfl) (fun _ _ => rfl) (fun _ _ _ => rfl) (fun _ => rfl) l g

theorem foldl_addCtorEdge (l : List (Bytes × Bytes)) (g : GlobalIndex) :
    l.foldl addCtorEdge g =
      { g with
        types := { g.types with
          ctorEdges := l.foldl (fun m e => pushNew m e.1 e.2) g.types.ctorEdges } } :=
  foldl_field addCtorEdge (fun g => g.types.ctorEdges)
    (fun g t => { g with types := { g.types with ctorEdges := t } }) (fun m e => pushNew m e.1 e.2)
    (fun _ _ => rfl) (fun _ _ => rfl) (fun _ _ _ => rfl) (fun _ => rfl) l g

theorem foldl_addConvOpEdge (l : List (Bytes × Bytes)) (g : GlobalIndex) :
    l.foldl addConvOpEdge g =
      { g with
        types := { g.types with
          convOpEdges := l.foldl (fun m e => pushNew m e.1 e.2) g.types.convOpEdges } } :=
  foldl_field addConvOpEdge (fun g => g.types.convOpEdges)
    (fun g t => { g with types := { g.types with convOpEdges := t } }) (fun m e => pushNew m e.1 e.2)
    (fun _ _ => rfl) (fun _ _ => rfl) (fun _ _ _ => rfl) (fun _ => rfl) l g

/-- What `applyTo` makes of each table. -/
theorem applyTo_eq (p : CheckIndexPayload) (g : GlobalIndex) :
    p.applyTo g =
      { overloads := updateAll FunctionOverloadEntry.qualifiedName (fun l e => l ++ [e])
          g.overloads p.overloads
        guides := updateAll DeductionGuideEntry.templateName (fun l e => l ++ [e])
          g.guides p.guides
        coverageProps := updateAll CoveragePropertyEntry.enclosingClass (fun l e => l ++ [e])
          g.coverageProps p.coverage
        odrEntries := p.odrEntries.foldl (Keyed.upsert OdrEntry.key OdrEntry.mergeInto) g.odrEntries
        specializations := updateAll SpecializationEntry.templateName
          (upsertIn SpecializationEntry.same SpecializationEntry.mergeInto)
          g.specializations p.specializations
        defaultArgs := p.defaultArgs.foldl (Keyed.upsert DefaultArgEntry.key fun old _ => old)
          g.defaultArgs
        staticInits :=
          (p.staticInits.foldl addStaticInitRows (g.staticInits, g.staticInitByName)).1
        staticInitByName :=
          (p.staticInits.foldl addStaticInitRows (g.staticInits, g.staticInitByName)).2
        functionSummaries := p.functionSummaries.foldl
          (Keyed.upsert FunctionSummaryEntry.qualifiedName FunctionSummaryEntry.mergeInto)
          g.functionSummaries
        headerStatics := p.headerStatics.foldl
          (Keyed.upsert HeaderStaticEntry.key HeaderStaticEntry.mergeInto) g.headerStatics
        exceptionSpecs := p.exceptionSpecs.foldl
          (Keyed.upsert ExceptionSpecEntry.key fun old _ => old) g.exceptionSpecs
        types :=
          { bases := p.baseEdges.foldl (fun m e => pushNew m e.1 e.2) g.types.bases
            ctorEdges := p.ctorEdges.foldl (fun m e => pushNew m e.1 e.2) g.types.ctorEdges
            convOpEdges := p.convOpEdges.foldl (fun m e => pushNew m e.1 e.2)
              g.types.convOpEdges } } := by
  simp only [CheckIndexPayload.applyTo, foldl_addFunctionOverload, foldl_addDeductionGuide,
    foldl_addCoverageProperty, foldl_addOdrEntry, foldl_addSpecialization, foldl_addDefaultArg,
    foldl_addStaticInit, foldl_addFunctionSummary, foldl_addHeaderStatic, foldl_addExceptionSpec,
    foldl_addBase, foldl_addCtorEdge, foldl_addConvOpEdge]

/-! ### Capture and apply -/

/-- One name behind the others unless it is there. -/
def pushName (l : List Bytes) (name : Bytes) : List Bytes := if name ∈ l then l else l ++ [name]

/-- Adding all edges of a relation: the order of the walk does not show. -/
theorem foldl_pushNew_edgesIn {rel : Bytes → List Bytes} {order : List Bytes}
    (horder : order.Nodup ∧ ∀ k, rel k ≠ [] → k ∈ order) (m : Bytes → List Bytes) :
    (edgesIn rel order).foldl (fun m e => pushNew m e.1 e.2) m =
      fun k => (rel k).foldl pushName (m k) := by
  have hstep : ∀ (m : Bytes → List Bytes) (e : Bytes × Bytes), pushNew m e.1 e.2 =
      Function.update m e.1 (pushName (m e.1) e.2) := by
    intro m e
    rw [pushNew, pushName]
    split
    · exact (Function.update_eq_self e.1 m).symm
    · rfl
  have hall : ∀ k, (rel k).map (fun b => (k, b)) ≠ [] → k ∈ order := by
    intro k hk
    exact horder.2 k fun hnil => hk (by rw [hnil, List.map_nil])
  have hkey : ∀ k, ∀ e ∈ (rel k).map fun b => (k, b), e.1 = k := by simp
  simp only [hstep]
  refine (updateAll_flatMap hkey ⟨horder.1, hall⟩ (fun l e => pushName l e.2) m).trans
    (funext fun k => ?_)
  rw [List.foldl_map]

/-- Applying a captured index: what each table becomes, whatever the order of the walk. -/
theorem Inv.applyTo_capture {shard : GlobalIndex} (h : shard.Inv) {order : CheckIterOrder}
    (ho : shard.Walks order) (g : GlobalIndex) :
    (CheckIndexPayload.capture shard order).applyTo g =
      { overloads := fun k => (shard.overloads k).foldl (fun l e => l ++ [e]) (g.overloads k)
        guides := fun k => (shard.guides k).foldl (fun l e => l ++ [e]) (g.guides k)
        coverageProps := fun k =>
          (shard.coverageProps k).foldl (fun l e => l ++ [e]) (g.coverageProps k)
        odrEntries := shard.odrEntries.entries.foldl
          (Keyed.upsert OdrEntry.key OdrEntry.mergeInto) g.odrEntries
        specializations := fun k => (shard.specializations k).foldl
          (upsertIn SpecializationEntry.same SpecializationEntry.mergeInto) (g.specializations k)
        defaultArgs := shard.defaultArgs.entries.foldl
          (Keyed.upsert DefaultArgEntry.key fun old _ => old) g.defaultArgs
        staticInits := (shard.staticInits.entries.foldl addStaticInitRows
          (g.staticInits, g.staticInitByName)).1
        staticInitByName := (shard.staticInits.entries.foldl addStaticInitRows
          (g.staticInits, g.staticInitByName)).2
        functionSummaries := shard.functionSummaries.entries.foldl
          (Keyed.upsert FunctionSummaryEntry.qualifiedName FunctionSummaryEntry.mergeInto)
          g.functionSummaries
        headerStatics := shard.headerStatics.entries.foldl
          (Keyed.upsert HeaderStaticEntry.key HeaderStaticEntry.mergeInto) g.headerStatics
        exceptionSpecs := shard.exceptionSpecs.entries.foldl
          (Keyed.upsert ExceptionSpecEntry.key fun old _ => old) g.exceptionSpecs
        types :=
          { bases := fun k => (shard.types.bases k).foldl pushName (g.types.bases k)
            ctorEdges := fun k => (shard.types.ctorEdges k).foldl pushName (g.types.ctorEdges k)
            convOpEdges := fun k =>
              (shard.types.convOpEdges k).foldl pushName (g.types.convOpEdges k) } } := by
  rw [applyTo_eq]
  simp only [CheckIndexPayload.capture, updateAll_flatMap h.overloads ho.overloads,
    updateAll_flatMap h.guides ho.guides, updateAll_flatMap h.coverageProps ho.coverageProps,
    updateAll_flatMap h.specializations ho.specializations, foldl_pushNew_edgesIn ho.bases,
    foldl_pushNew_edgesIn ho.ctorEdges, foldl_pushNew_edgesIn ho.convOpEdges]

/-- `absorb` adds what `capture` lists. -/
theorem absorb_eq_applyTo (g shard : GlobalIndex) (order : CheckIterOrder) :
    g.absorb shard order = (CheckIndexPayload.capture shard order).applyTo g := rfl

/-! ### The handoff of the merged index -/

theorem foldl_concat {α : Type} (l m : List α) : l.foldl (fun l e => l ++ [e]) m = m ++ l := by
  induction l generalizing m with
  | nil => simp
  | cons a l ih => rw [List.foldl_cons, ih, List.append_assoc, List.singleton_append]

/-- Distinct names are added one by one. -/
theorem foldl_pushName_of_nodup {l : List Bytes} (hl : l.Nodup) : l.foldl pushName [] = l := by
  induction l using List.reverseRecOn with
  | nil => rfl
  | append_singleton l a ih =>
    rw [List.nodup_append] at hl
    have ha : a ∉ l := fun hmem => hl.2.2 a hmem a (by simp) rfl
    rw [List.foldl_append, ih hl.1]
    exact if_neg ha

/-- The static initializers of an index and their name map, added to an empty index. -/
theorem Inv.foldl_addStaticInitRows (h : g.Inv) :
    g.staticInits.entries.foldl addStaticInitRows ({}, fun _ => none) =
      (g.staticInits, g.staticInitByName) := by
  have hfst : ∀ (l : List StaticInitEntry) (t : Keyed Bytes StaticInitEntry × (Bytes → Option ℕ)),
      (l.foldl addStaticInitRows t).1 =
        l.foldl (Keyed.upsert StaticInitEntry.key fun old _ => old) t.1 := by
    intro l
    induction l with
    | nil => exact fun _ => rfl
    | cons e l ih => exact fun t => ih _
  have hnames : ∀ (l : List StaticInitEntry) (t : Keyed Bytes StaticInitEntry × (Bytes → Option ℕ)),
      NamesFirst t → NamesFirst (l.foldl addStaticInitRows t) := by
    intro l
    induction l with
    | nil => exact fun _ ht => ht
    | cons e l ih => exact fun t ht => ih _ (ht.add e)
  have htable := (hfst g.staticInits.entries ({}, fun _ => none)).trans h.staticInits.foldl_upsert
  refine Prod.ext htable (funext fun name => ?_)
  rw [hnames _ _ (fun _ => rfl) name, htable]
  exact (h.staticInitByName name).symm

/-- An index added to an empty one is the index. -/
theorem Inv.applyTo_empty (h : g.Inv) {order : CheckIterOrder} (ho : g.Walks order) :
    (CheckIndexPayload.capture g order).applyTo {} = g := by
  rw [h.applyTo_capture ho]
  simp only [foldl_concat, List.nil_append, h.odrEntries.foldl_upsert, h.defaultArgs.foldl_upsert,
    h.functionSummaries.foldl_upsert, h.headerStatics.foldl_upsert, h.exceptionSpecs.foldl_upsert,
    h.foldl_addStaticInitRows, foldl_upsertIn_of_pairwise (h.specializations_differ _),
    foldl_pushName_of_nodup (h.bases _), foldl_pushName_of_nodup (h.ctorEdges _),
    foldl_pushName_of_nodup (h.convOpEdges _)]

/-- The file of an index, read into an empty one. -/
theorem Inv.readGlobalIndexFile (h : g.Inv) {order : CheckIterOrder} (ho : g.Walks order)
    (hlen : (encodeIndexPayload (CheckIndexPayload.capture g order)).length < 2 ^ 32) :
    Vycor.readGlobalIndexFile (some (writeGlobalIndexFile g order)) {} = (true, g) := by
  set payload := encodeIndexPayload (CheckIndexPayload.capture g order) with hpayload
  have hcodes := codes_payload (CheckIndexPayload.capture g order)
  have hread := hcodes.reads (hcodes.fits hlen) [] 0
  rw [List.append_nil, ← hpayload] at hread
  have happly : applyMerged (text "<merged>") ⟨payload, 0, true⟩ {} = (true, g) := by
    simp only [applyMerged, hread, if_true, h.applyTo_empty ho]
  have hname : (text "<merged>").length < 2 ^ 32 := by decide
  have hmagic : kGlobalIndexMagic.length = 4 := rfl
  have hcount : [(text "<merged>", payload)].length < 2 ^ 32 := by simp
  have hentry := readShardEntries_succ applyMerged (e := (text "<merged>", payload)) hname hlen 0 [] 12 {}
  rw [Vycor.readGlobalIndexFile, writeGlobalIndexFile, readShardFile_writeShardFile hmagic hcount]
  simp only [List.length_singleton, List.flatMap_cons, List.flatMap_nil]
  rw [hentry, happly]
  simp only [if_true, readShardEntries]

/-! ### Replay and absorb -/

/-- For every built shard and every index, decoding the bytes written for the captured shard
and applying the result gives the index `absorb` gives, whatever the orders of the walks; and
the handoff file of an index whose payload is below 4 GiB gives the index back. -/
theorem replay_eq_absorb {shard : GlobalIndex} (hshard : Built shard)
    {order order' : CheckIterOrder} (ho : shard.Walks order) (ho' : shard.Walks order')
    (hfits : (CheckIndexPayload.capture shard order).Fits) (g : GlobalIndex) :
    (∀ post pos, ∃ p, decodeIndexPayload
        ⟨encodeIndexPayload (CheckIndexPayload.capture shard order) ++ post, pos, true⟩ =
          (p, ⟨post, pos + (encodeIndexPayload (CheckIndexPayload.capture shard order)).length,
            true⟩) ∧
        p.applyTo g = g.absorb shard order') ∧
      ((encodeIndexPayload (CheckIndexPayload.capture shard order)).length < 2 ^ 32 →
        Vycor.readGlobalIndexFile (some (writeGlobalIndexFile shard order)) {} = (true, shard)) := by
  have hinv := hshard.inv
  refine ⟨fun post pos => ⟨_, (codes_payload _).reads hfits post pos, ?_⟩,
    hinv.readGlobalIndexFile ho⟩
  rw [absorb_eq_applyTo, hinv.applyTo_capture ho, hinv.applyTo_capture ho']

/-- An order that visits one name of the overloads. -/
def oneOverload (name : Bytes) : CheckIterOrder :=
  { overloads := [name], guides := [], coverageProps := [], specializations := [], bases := [],
    ctorEdges := [], convOpEdges := [] }

theorem walks_oneOverload (e : FunctionOverloadEntry) :
    (({} : GlobalIndex).addFunctionOverload e).Walks (oneOverload e.qualifiedName) where
  overloads := by
    refine ⟨List.nodup_singleton _, fun k hk => List.mem_singleton.mpr ?_⟩
    by_contra hne
    exact hk (pushAt_of_ne _ e hne)
  guides := by simp [oneOverload, addFunctionOverload]
  coverageProps := by simp [oneOverload, addFunctionOverload]
  specializations := by simp [oneOverload, addFunctionOverload]
  bases := by simp [oneOverload, addFunctionOverload]
  ctorEdges := by simp [oneOverload, addFunctionOverload]
  convOpEdges := by simp [oneOverload, addFunctionOverload]

theorem capture_oneOverload (e : FunctionOverloadEntry) :
    CheckIndexPayload.capture (({} : GlobalIndex).addFunctionOverload e)
      (oneOverload e.qualifiedName) = { overloads := [e] } := by
  simp [CheckIndexPayload.capture, oneOverload, addFunctionOverload, edgesIn]

/-- The payload of one overload fits when the overload does. -/
theorem fits_oneOverload {e : FunctionOverloadEntry} (he : e.Fits) :
    (CheckIndexPayload.capture (({} : GlobalIndex).addFunctionOverload e)
      (oneOverload e.qualifiedName)).Fits := by
  rw [capture_oneOverload]
  constructor <;> simp [FitsList, he]

/-- A shard with one overload, replayed into an empty index and handed off. -/
theorem replay_eq_absorb_oneOverload :
    let shard := ({} : GlobalIndex).addFunctionOverload { qualifiedName := [102] }
    (∀ post pos, ∃ p, decodeIndexPayload
        ⟨encodeIndexPayload (CheckIndexPayload.capture shard (oneOverload [102])) ++ post, pos,
          true⟩ =
          (p, ⟨post, pos +
            (encodeIndexPayload (CheckIndexPayload.capture shard (oneOverload [102]))).length,
            true⟩) ∧
        p.applyTo {} = GlobalIndex.absorb {} shard (oneOverload [102])) ∧
      ((encodeIndexPayload (CheckIndexPayload.capture shard (oneOverload [102]))).length < 2 ^ 32 →
        Vycor.readGlobalIndexFile (some (writeGlobalIndexFile shard (oneOverload [102]))) {} =
          (true, shard)) :=
  replay_eq_absorb (.addFunctionOverload .empty _) (walks_oneOverload { qualifiedName := [102] })
    (walks_oneOverload { qualifiedName := [102] })
    (fits_oneOverload (by simp [FunctionOverloadEntry.Fits, FitsStr, FitsList])) {}

/-! ### Payloads of 4 GiB -/

/-- An overload whose name and header path are `n` zero bytes each. -/
def longNames (n : ℕ) : FunctionOverloadEntry :=
  { qualifiedName := List.replicate n 0, headerPath := List.replicate n 0 }

/-- The empty tables behind the overloads are twelve zero counts. -/
theorem encode_overloads (l : List FunctionOverloadEntry) :
    encodeIndexPayload { overloads := l } = putCounted putOverload l ++ List.replicate 48 0 := by
  have hnone : ∀ {α : Type} (put : α → Bytes), putCounted put [] = [0, 0, 0, 0] := fun put => by
    simp only [putCounted, List.flatMap_nil, List.append_nil, List.length_nil]
    rfl
  simp only [encodeIndexPayload, putStringPairs, hnone, List.flatten_cons]
  rfl

theorem putCounted_longNames {n : ℕ} (hn : n = 2 ^ 31) :
    putCounted putOverload [longNames n] = [1, 0, 0, 0, 0, 0, 0, 128] ++
      (List.replicate n 0 ++ (putStr (List.replicate n 0) ++ List.replicate 12 0)) := by
  have hcount : putU32 (UInt32.ofNat n) = [0, 0, 0, 128] := by
    rw [hn]
    rfl
  have hone : putU32 (UInt32.ofNat 1) = [1, 0, 0, 0] := rfl
  have htail : putStrings [] ++ (putStr [] ++ putU32 0) = List.replicate 12 0 := rfl
  simp only [putCounted, putOverload, longNames, List.flatMap_cons, List.flatMap_nil,
    List.flatten_cons, List.flatten_nil, List.append_nil, List.length_singleton, hone]
  rw [htail]
  simp only [putStr, List.length_replicate, hcount, List.cons_append, List.nil_append]

/-- The payload of that overload, cut where the reader cuts it for `n = 2 ^ 31`. -/
theorem encode_longNames {n : ℕ} (hn : n = 2 ^ 31) :
    (∃ rest, encodeIndexPayload { overloads := [longNames n] } =
        ([1, 0, 0, 0, 0, 0, 0, 128] ++ List.replicate 64 0) ++ (putU32 0 ++ rest)) ∧
      (encodeIndexPayload { overloads := [longNames n] }).length = 72 + 2 ^ 32 := by
  have hzeros : List.replicate n (0 : UInt8) =
      List.replicate 64 0 ++ (putU32 0 ++ List.replicate (n - 68) 0) := by
    have hput : putU32 0 = List.replicate 4 (0 : UInt8) := rfl
    rw [hput, List.replicate_append_replicate, List.replicate_append_replicate]
    congr 1
    omega
  rw [encode_overloads, putCounted_longNames hn]
  constructor
  · generalize putStr (List.replicate n 0) ++ List.replicate 12 0 = tail
    refine ⟨List.replicate (n - 68) 0 ++ (tail ++ List.replicate 48 0), ?_⟩
    rw [hzeros]
    simp only [List.append_assoc]
  · simp only [List.length_append, List.length_replicate, putStr, putU32, length_toLe,
      List.length_cons, List.length_nil]
    omega

/-- The handoff file of an index with two strings of 2 GiB does not read back. -/
theorem readGlobalIndexFile_longNames {n : ℕ} (hn : n = 2 ^ 31) :
    (Vycor.readGlobalIndexFile (some (writeGlobalIndexFile
      (({} : GlobalIndex).addFunctionOverload (longNames n))
      (oneOverload (longNames n).qualifiedName))) {}).1 = false := by
  obtain ⟨⟨rest, hrest⟩, hlen⟩ := encode_longNames hn
  have hframe := readFramed_overlong hrest (by simp) (by simpa using hlen)
    (by decide +kernel)
  have hname : (text "<merged>").length < 2 ^ 32 := by decide
  have hmagic : kGlobalIndexMagic.length = 4 := rfl
  rw [Vycor.readGlobalIndexFile, writeGlobalIndexFile, capture_oneOverload]
  generalize encodeIndexPayload { overloads := [longNames n] } = payload at hframe ⊢
  have hcount : [(text "<merged>", payload)].length < 2 ^ 32 := by simp
  rw [readShardFile_writeShardFile hmagic hcount]
  simp only [List.length_singleton, List.flatMap_cons, List.flatMap_nil, putShardEntry,
    List.flatten_cons, List.flatten_nil, List.append_nil, readShardEntries,
    (Codes.str _).reads hname]
  have hnone := hframe [] (12 + (putStr (text "<merged>")).length)
  rw [List.append_nil] at hnone
  obtain ⟨stream, hstream⟩ : ∃ stream, readFramed
      ⟨putFramed payload, 12 + (putStr (text "<merged>")).length, true⟩ = (none, stream) :=
    ⟨_, Prod.ext hnone rfl⟩
  rw [hstream]

theorem fits_longNames {n : ℕ} (hn : n < 2 ^ 32) : (longNames n).Fits := by
  simp only [FunctionOverloadEntry.Fits, longNames, FitsStr, FitsList, List.length_replicate]
  exact ⟨hn, hn, ⟨by simp, by simp⟩, by simp⟩

/-- An index is lost in the handoff although it was built by one `addFunctionOverload` and all
its counts and strings are below `2 ^ 32`. -/
def LostInHandoff (e : FunctionOverloadEntry) : Prop :=
  Built (({} : GlobalIndex).addFunctionOverload e) ∧
    (({} : GlobalIndex).addFunctionOverload e).Walks (oneOverload e.qualifiedName) ∧
    (CheckIndexPayload.capture (({} : GlobalIndex).addFunctionOverload e)
      (oneOverload e.qualifiedName)).Fits ∧
    Vycor.readGlobalIndexFile (some (writeGlobalIndexFile
        (({} : GlobalIndex).addFunctionOverload e) (oneOverload e.qualifiedName))) {} ≠
      (true, ({} : GlobalIndex).addFunctionOverload e)

theorem lostInHandoff_longNames {n : ℕ} (hn : n = 2 ^ 31) : LostInHandoff (longNames n) := by
  have hfits : (longNames n).Fits := fits_longNames (by omega)
  refine ⟨.addFunctionOverload .empty _, walks_oneOverload _, fits_oneOverload hfits, fun h => ?_⟩
  have hfalse := readGlobalIndexFile_longNames hn
  rw [h] at hfalse
  exact absurd hfalse (by simp)

/-- Two strings of 2 GiB make a payload whose length does not fit its field. -/
theorem handoff_loses_long_payload : LostInHandoff (longNames (2 ^ 31)) :=
  lostInHandoff_longNames rfl

end GlobalIndex

end Vycor
