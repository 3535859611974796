import Vycor.CallGraph.Ledger

/-!
# Absorbing a graph

`absorb` interns the shard's strings, then walks its tables and re-points every id. On the
ledgers this is a pointwise sum (`Ledger.absorb`): nodes are merged, registrations add up
and relations are united, whatever order the hash maps are walked in
(`CallGraph.Inv.absorb`). Every walk is a fold whose steps act on the ledger by a closed
formula; the order disappears because the formulas commute.
-/

namespace Vycor

/-! ### The sum of two ledgers -/

/-- The ledger of a graph that absorbed another. -/
def Ledger.absorb (L M : Ledger) : Ledger where
  nodes u := match M.nodes u with
    | none => L.nodes u
    | some n => some (mergeNode (L.nodes u) n)
  contributors u tu := L.contributors u tu ∨ M.contributors u tu
  refs f := L.refs f + M.refs f
  regs f := L.regs f + M.regs f
  derived a b := L.derived a b ∨ M.derived a b
  overrides a b := L.overrides a b ∨ M.overrides a b
  impls a b := L.impls a b ∨ M.impls a b
  returns a b := L.returns a b ∨ M.returns a b

/-- `ρ` maps the ids of one table to the ids of the same strings in another. -/
def Remaps (s t : StringInterner) (ρ : SId → SId) : Prop :=
  ∀ id < s.size, t.find (s.resolve id) = some (ρ id)

section Remaps

variable {s t : StringInterner} {ρ : SId → SId} {id : SId}

theorem Remaps.lt (h : Remaps s t ρ) (hid : id < s.size) : ρ id < t.size :=
  StringInterner.lt_of_find (h id hid)

theorem Remaps.resolve (h : Remaps s t ρ) (hid : id < s.size) :
    t.resolve (ρ id) = s.resolve id :=
  StringInterner.resolve_of_find (h id hid)

theorem Remaps.find (h : Remaps s t ρ) {b : Bytes} (hb : s.find b = some id) :
    t.find b = some (ρ id) := by
  rw [← h id (StringInterner.lt_of_find hb), StringInterner.resolve_of_find hb]

theorem Remaps.below (h : Remaps s t ρ) {e : EdgeRef} (he : e.Below s.size) :
    (e.map ρ).Below t.size :=
  ⟨h.lt he.1, h.lt he.2.1, h.lt he.2.2⟩

theorem Remaps.fact (h : Remaps s t ρ) {e : EdgeRef} (he : e.Below s.size) :
    (e.map ρ).map t.resolve = e.map s.resolve := by
  simp only [Edge.map, h.resolve he.1, h.resolve he.2.1, h.resolve he.2.2]

theorem remaps_internAll (t s : StringInterner) :
    Remaps s (t.internAll s.strings).1 fun id => (t.internAll s.strings).2.getD id 0 := by
  intro id hid
  have hget : s.strings.get ⟨id, hid⟩ = s.resolve id := by
    rw [StringInterner.resolve, List.getD_eq_getElem _ _ hid]
    rfl
  rw [← hget]
  exact StringInterner.find_internAll t s.strings id hid

end Remaps

namespace CallGraph

variable {g shard : CallGraph} {t : StringInterner} {ρ : SId → SId}

/-- A graph in the middle of an `absorb`: its invariant holds and its interner holds every
string of the shard. -/
def Absorbing (t : StringInterner) (g : CallGraph) : Prop := g.Inv ∧ g.interner = t

/-! ### Nodes -/

/-- The effect of one shard node on the ledger. -/
def absorbedNode (shard : CallGraph) (L : Ledger) (id : SId) : Ledger :=
  match shard.nodes id with
  | none => L
  | some node =>
    { L.putNode node with
      contributors := fun u tu => L.contributors u tu ∨
        (u = node.usr ∧ ∃ i ∈ shard.nodeContributors id, shard.interner.resolve i = tu) }

theorem contributors_foldl {nameId : SId} {u : Bytes} (hρ : Remaps shard.interner t ρ)
    (hu : t.find u = some nameId) {l : List SId} (hl : ∀ i ∈ l, i < shard.interner.size)
    (h : Absorbing t g) (hs : (g.nodes nameId).isSome) :
    Absorbing t (l.foldl (fun g i => g.contribute nameId (ρ i)) g) ∧
      (l.foldl (fun g i => g.contribute nameId (ρ i)) g).ledger =
        { g.ledger with
          contributors := fun u' tu => g.ledger.contributors u' tu ∨
            (u' = u ∧ ∃ i ∈ l, shard.interner.resolve i = tu) } := by
  induction l generalizing g with
  | nil => exact ⟨h, by simp⟩
  | cons i rest ih =>
    have hi := hl i List.mem_cons_self
    have ht : g.interner.find (shard.interner.resolve i) = some (ρ i) := h.2 ▸ hρ i hi
    have hkeep : (g.contribute nameId (ρ i)).interner = g.interner ∧
        (g.contribute nameId (ρ i)).nodes = g.nodes := by
      unfold CallGraph.contribute
      split_ifs <;> exact ⟨rfl, rfl⟩
    have hstep : Absorbing t (g.contribute nameId (ρ i)) :=
      ⟨h.1.contribute hs (StringInterner.lt_of_find ht), hkeep.1.trans h.2⟩
    obtain ⟨h1, h2⟩ := ih (fun j hj => hl j (List.mem_cons_of_mem _ hj)) hstep
      (by rwa [hkeep.2])
    refine ⟨h1, h2.trans ?_⟩
    rw [ledger_contribute (h.2 ▸ hu) ht]
    refine Ledger.ext rfl (funext fun u' => funext fun tu => propext ?_) rfl rfl rfl rfl rfl rfl
    simp only [relAdd, List.mem_cons, exists_eq_or_imp, eq_comm (a := tu)]
    tauto

theorem Absorbing.node (hs : shard.Inv) (hρ : Remaps shard.interner t ρ) (h : Absorbing t g)
    (id : SId) : Absorbing t (absorbNode shard ρ g id) ∧
      (absorbNode shard ρ g id).ledger = absorbedNode shard g.ledger id := by
  rcases hnode : shard.nodes id with _ | node
  · simp only [absorbNode, absorbedNode, hnode, and_true]
    exact h
  · obtain ⟨hu, d, hd⟩ := hs.node.node_key hnode
    have hu' : g.interner.find node.usr = some (ρ id) := h.2 ▸ hρ.find hu
    have hd' : g.interner.find node.qualifiedName = some (ρ d) := h.2 ▸ hρ.find hd
    -- the display name is known, so the insertion interns nothing
    have hint : g.intern node.qualifiedName = (g, ρ d) := by
      simp only [CallGraph.intern, StringInterner.intern_of_find hd']
    obtain ⟨h1, h2, h3, h4⟩ := h.1.putNode hu' hd' (hs.node.node_text hnode)
    obtain ⟨h5, h6⟩ := contributors_foldl (l := shard.nodeContributors id) hρ (hρ.find hu)
      (fun i hi => (hs.node.contributors_ids hi).1) ⟨h1, h3.trans h.2⟩ h4
    rw [h2] at h6
    simp only [absorbNode, absorbedNode, hnode, hint]
    exact ⟨h5, h6⟩

/-- The nodes of the ids in a list, merged. -/
def nodesOf (shard : CallGraph) (l : List SId) (nodes : Bytes → Option CallGraphNode)
    (u : Bytes) : Option CallGraphNode :=
  match (shard.interner.find u).bind fun id => if id ∈ l then shard.nodes id else none with
  | none => nodes u
  | some n => some (mergeNode (nodes u) n)

theorem absorbedNode_foldl (hs : shard.Inv) {l : List SId} (hl : l.Nodup) (L : Ledger) :
    l.foldl (absorbedNode shard) L =
      { L with
        nodes := nodesOf shard l L.nodes
        contributors := fun u tu => L.contributors u tu ∨
          ∃ id ∈ l, ∃ i ∈ shard.nodeContributors id,
            shard.interner.resolve id = u ∧ shard.interner.resolve i = tu } := by
  induction l generalizing L with
  | nil =>
    refine Ledger.ext (funext fun u => ?_) ?_ rfl rfl rfl rfl rfl rfl
    · rcases h : shard.interner.find u <;> simp [nodesOf, h]
    · simp
  | cons id rest ih =>
    obtain ⟨hid, hrest⟩ := List.nodup_cons.mp hl
    rw [List.foldl_cons, ih hrest]
    unfold absorbedNode
    split
    next hnone =>
      have hempty : shard.nodeContributors id = [] := by
        by_contra hne
        obtain ⟨i, hi⟩ := List.exists_mem_of_ne_nil _ hne
        have := (hs.node.contributors_ids hi).2
        rw [hnone] at this
        cases this
      refine Ledger.ext (funext fun u => ?_) ?_ rfl rfl rfl rfl rfl rfl
      · rcases h : shard.interner.find u with _ | id'
        · simp [nodesOf, h]
        · by_cases he : id' = id
          · subst he
            simp [nodesOf, h, hid, hnone]
          · simp [nodesOf, h, he]
      · simp [hempty]
    next node hnode =>
      have hu := (hs.node.node_key hnode).1
      have hres := StringInterner.resolve_of_find hu
      refine Ledger.ext (funext fun u => ?_) (funext fun u => funext fun tu => propext ?_)
        rfl rfl rfl rfl rfl rfl
      · by_cases hun : u = node.usr
        · subst hun
          simp [nodesOf, hu, hid, hnode, Ledger.putNode]
        · have hne : shard.interner.find u ≠ some id := fun hf =>
            hun (StringInterner.find_inj hf hu)
          rcases h : shard.interner.find u with _ | id'
          · simp [nodesOf, h, Ledger.putNode, hun]
          · have he : id' ≠ id := fun he => hne (he ▸ h)
            simp [nodesOf, h, Ledger.putNode, hun, he]
      · simp only [List.mem_cons, exists_eq_or_imp, hres]
        constructor
        · rintro ((h | ⟨rfl, i, hi, rfl⟩) | h)
          exacts [.inl h, .inr (.inl ⟨i, hi, rfl, rfl⟩), .inr (.inr h)]
        · rintro (h | ⟨i, hi, rfl, rfl⟩ | h)
          exacts [.inl (.inl h), .inl (.inr ⟨rfl, i, hi, rfl⟩), .inr h]

/-! ### Edges -/

/-- Registering another edge keeps every live record in its place. -/
theorem Inv.liveAt_registerEdge (h : g.Inv) {se e : StoredEdge} (hse : 0 < se.refs) {idx : ℕ}
    (he : LiveAt g.edges idx e) :
    ∃ e', LiveAt (g.registerEdge se).1.edges idx e' ∧ e'.toEdge = e.toEdge := by
  unfold CallGraph.registerEdge
  split
  next i hi =>
    obtain ⟨e₀, he₀, -⟩ := h.edge.index_iff.mp hi
    exact ⟨_, (liveAt_modify_addRefs he₀).mpr ⟨e, he, rfl⟩, by split_ifs <;> rfl⟩
  next => exact ⟨e, (liveAt_append hse).mpr (.inl he), rfl⟩

/-- `edgeRemap` sends every live record of the shard to the record with its content. -/
def RemapsEdges (ρ : SId → SId) (src : List StoredEdge) (edges : List StoredEdge)
    (edgeRemap : List (Option ℕ)) : Prop :=
  edgeRemap.length = src.length ∧ ∀ {i : ℕ} {e : StoredEdge}, LiveAt src i e →
    ∃ idx e', edgeRemap.getD i none = some idx ∧ LiveAt edges idx e' ∧
      e'.toEdge = e.toEdge.map ρ

theorem absorbEdge_foldl (hρ : Remaps shard.interner t ρ) {l : List StoredEdge}
    (hids : ∀ e ∈ l, e.toEdge.Below shard.interner.size) (done : List StoredEdge)
    (edgeRemap : List (Option ℕ))
    (h : Absorbing t g) (hr : RemapsEdges ρ done g.edges edgeRemap) :
    Absorbing t (l.foldl (absorbEdge ρ) (g, edgeRemap)).1 ∧
      RemapsEdges ρ (done ++ l) (l.foldl (absorbEdge ρ) (g, edgeRemap)).1.edges
        (l.foldl (absorbEdge ρ) (g, edgeRemap)).2 ∧
      (l.foldl (absorbEdge ρ) (g, edgeRemap)).1.ledger =
        { g.ledger with refs := fun f => g.ledger.refs f + refsIn shard.interner l f } := by
  induction l generalizing g done edgeRemap with
  | nil => exact ⟨h, by simpa using hr, by simp [refsIn]⟩
  | cons src rest ih =>
    have hrest : ∀ e ∈ rest, e.toEdge.Below shard.interner.size :=
      fun e he => hids e (List.mem_cons_of_mem _ he)
    rw [List.foldl_cons, List.append_cons]
    by_cases hsrc : src.refs = 0
    · have hstep : absorbEdge ρ (g, edgeRemap) src = (g, edgeRemap ++ [none]) := by
        simp [absorbEdge, hsrc]
      rw [hstep]
      refine (ih hrest _ _ h ⟨by simp [hr.1], ?_⟩).imp_right (And.imp_right fun hl => ?_)
      · intro i e he
        have hi : i < done.length := by
          by_contra hge
          rcases Nat.lt_or_ge done.length i with hlt | hle
          · rw [LiveAt, List.getElem?_eq_none (by simp; omega)] at he
            cases he.1
          · obtain rfl : i = done.length := by omega
            rw [LiveAt, List.getElem?_concat_length] at he
            obtain rfl := Option.some_injective _ he.1
            exact absurd hsrc he.2.ne'
        rw [LiveAt, List.getElem?_append_left hi] at he
        rw [List.getD_append _ _ _ _ (hr.1 ▸ hi)]
        exact hr.2 he
      · simpa [refsIn, hsrc] using hl
    · have hb := hids src List.mem_cons_self
      have hpos : 0 < src.refs := Nat.pos_of_ne_zero hsrc
      set se : StoredEdge := { src.toEdge.map ρ with refs := src.refs } with hse
      have hbelow : se.toEdge.Below g.interner.size := h.2 ▸ hρ.below hb
      have hstep : absorbEdge ρ (g, edgeRemap) src =
          ((g.registerEdge se).1, edgeRemap ++ [some (g.registerEdge se).2]) := by
        simp [absorbEdge, hsrc, hse]
      rw [hstep]
      have h1 : Absorbing t (g.registerEdge se).1 :=
        ⟨h.1.registerEdge hbelow hpos, (registerEdge_interner g se).trans h.2⟩
      refine (ih hrest _ _ h1 ⟨by simp [hr.1], ?_⟩).imp_right (And.imp_right fun hl => ?_)
      · intro i e he
        rcases Nat.lt_trichotomy i done.length with hi | rfl | hi
        · rw [LiveAt, List.getElem?_append_left hi] at he
          obtain ⟨idx, e', h1, h2, h3⟩ := hr.2 he
          obtain ⟨e'', h4, h5⟩ := h.1.liveAt_registerEdge (show 0 < se.refs from hpos) h2
          rw [List.getD_append _ _ _ _ (hr.1 ▸ hi)]
          exact ⟨idx, e'', h1, h4, h5.trans h3⟩
        · rw [LiveAt, List.getElem?_concat_length] at he
          obtain rfl := Option.some_injective _ he.1
          obtain ⟨e', h1, h2⟩ := h.1.registerEdge_live (show 0 < se.refs from hpos)
          refine ⟨(g.registerEdge se).2, e', ?_, h1, h2⟩
          rw [← hr.1]
          simp
        · rw [LiveAt, List.getElem?_eq_none (by simp; omega)] at he
          cases he.1
      · rw [hl, h.1.ledger_registerEdge]
        have hfact : se.toEdge.map g.interner.resolve = src.toEdge.map shard.interner.resolve := by
          rw [h.2]
          exact hρ.fact hb
        refine Ledger.ext rfl rfl (funext fun f => ?_) rfl rfl rfl rfl rfl
        simp only [Ledger.putEdge, hfact, refsIn, List.map_cons, List.sum_cons,
          eq_comm (a := f)]
        exact Nat.add_assoc _ _ _

/-! ### Registrations -/

/-- The effect of the registrations of one shard TU on the ledger. -/
def absorbedTags (shard : CallGraph) (L : Ledger) (tu : SId) : Ledger :=
  { L with
    regs := fun f => L.regs f + Multiset.replicate ((shard.tuEdges tu).countP fun i =>
      decide (factAt shard.interner shard.edges i = some f)) (shard.interner.resolve tu) }

/-- The edge log and the remapping of the positions stay fixed while registrations are
re-pointed. -/
def Tagging (shard : CallGraph) (t : StringInterner) (ρ : SId → SId)
    (edgeRemap : List (Option ℕ)) (g : CallGraph) : Prop :=
  Absorbing t g ∧ RemapsEdges ρ shard.edges g.edges edgeRemap

theorem Tagging.tags (hs : shard.Inv) (hρ : Remaps shard.interner t ρ)
    {edgeRemap : List (Option ℕ)} (h : Tagging shard t ρ edgeRemap g) {tu : SId}
    (htu : tu < shard.interner.size) :
    Tagging shard t ρ edgeRemap (absorbTags shard ρ edgeRemap g tu) ∧
      (absorbTags shard ρ edgeRemap g tu).ledger = absorbedTags shard g.ledger tu := by
  have hlive : ∀ i ∈ shard.tuEdges tu, ∃ e, LiveAt shard.edges i e :=
    fun i hi => (hs.edge.tag_live hi).2
  unfold absorbTags absorbedTags
  generalize shard.tuEdges tu = l at hlive ⊢
  induction l generalizing g with
  | nil => exact ⟨h, by simp⟩
  | cons i rest ih =>
    obtain ⟨e, he⟩ := hlive i List.mem_cons_self
    obtain ⟨idx, e', h1, h2, h3⟩ := h.2.2 he
    have hb := hs.edge.edge_ids he.1
    have htu' : ρ tu < g.interner.size := h.1.2 ▸ hρ.lt htu
    have hf : factAt g.interner g.edges idx = some (e.toEdge.map shard.interner.resolve) := by
      rw [factAt, h2.1, Option.map_some, h3, h.1.2, hρ.fact hb]
    have hsrc : factAt shard.interner shard.edges i =
        some (e.toEdge.map shard.interner.resolve) := by
      rw [factAt, he.1, Option.map_some]
    have hstep : Tagging shard t ρ edgeRemap (g.tagEdge (ρ tu) idx) :=
      ⟨⟨h.1.1.tagEdge h2 htu', h.1.2⟩, h.2⟩
    rw [List.foldl_cons, h1]
    refine (ih hstep fun j hj => hlive j (List.mem_cons_of_mem _ hj)).imp_right fun hl => ?_
    rw [hl, ledger_tagEdge htu' hf, h.1.2, hρ.resolve htu]
    refine Ledger.ext rfl rfl rfl (funext fun f => ?_) rfl rfl rfl rfl
    simp only [Ledger.tagEdge, List.countP_cons, hsrc, Option.some.injEq, decide_eq_true_eq,
      eq_comm (a := f), Multiset.replicate_add]
    split_ifs <;> simp [add_comm]

theorem absorbedTags_foldl (l : List SId) (L : Ledger) :
    l.foldl (absorbedTags shard) L =
      { L with
        regs := fun f => L.regs f + (l.map fun tu => Multiset.replicate
          ((shard.tuEdges tu).countP fun i =>
            decide (factAt shard.interner shard.edges i = some f))
          (shard.interner.resolve tu)).sum } := by
  induction l generalizing L with
  | nil => simp
  | cons tu rest ih => simp [ih, absorbedTags, add_assoc]

/-! ### Relations -/

/-- The pairs of the ids in a list. -/
def pairsOf (shard : CallGraph) (relation : SId → List SId) (l : List SId) (a b : Bytes) : Prop :=
  ∃ i ∈ l, ∃ j ∈ relation i, shard.interner.resolve i = a ∧ shard.interner.resolve j = b

/-- A primitive that adds one pair to one relation of the ledger, given by its getter and
its setter. -/
structure Relates (relate : CallGraph → SId → SId → CallGraph)
    (get : Ledger → Bytes → Bytes → Prop) (set : Ledger → (Bytes → Bytes → Prop) → Ledger) :
    Prop where
  get_set : ∀ L R, get (set L R) = R
  set_set : ∀ L R R', set (set L R) R' = set L R'
  set_get : ∀ L, set L (get L) = L
  inv : ∀ {g : CallGraph} {i j : SId}, g.Inv → i < g.interner.size → j < g.interner.size →
    (relate g i j).Inv
  interner : ∀ (g : CallGraph) (i j : SId), (relate g i j).interner = g.interner
  ledger : ∀ {g : CallGraph} {i j : SId} {a b : Bytes}, g.interner.find a = some i →
    g.interner.find b = some j →
    (relate g i j).ledger = set g.ledger (relAdd (get g.ledger) a b)

theorem relates_derived :
    Relates relateDerived Ledger.derived fun L R => { L with derived := R } :=
  ⟨fun _ _ => rfl, fun _ _ _ => rfl, fun _ => rfl, Inv.relateDerived, fun _ _ _ => rfl,
    ledger_relateDerived⟩

theorem relates_override :
    Relates relateOverride Ledger.overrides fun L R => { L with overrides := R } :=
  ⟨fun _ _ => rfl, fun _ _ _ => rfl, fun _ => rfl, Inv.relateOverride, fun _ _ _ => rfl,
    ledger_relateOverride⟩

theorem relates_impl : Relates relateImpl Ledger.impls fun L R => { L with impls := R } :=
  ⟨fun _ _ => rfl, fun _ _ _ => rfl, fun _ => rfl, Inv.relateImpl, fun _ _ _ => rfl,
    ledger_relateImpl⟩

theorem relates_return : Relates relateReturn Ledger.returns fun L R => { L with returns := R } :=
  ⟨fun _ _ => rfl, fun _ _ _ => rfl, fun _ => rfl, Inv.relateReturn, fun g i j => by
    unfold CallGraph.relateReturn
    split_ifs <;> rfl, ledger_relateReturn⟩

section Relation

variable {relate : CallGraph → SId → SId → CallGraph} {get : Ledger → Bytes → Bytes → Prop}
  {set : Ledger → (Bytes → Bytes → Prop) → Ledger}

theorem Relates.list (hR : Relates relate get set) (hρ : Remaps shard.interner t ρ) {i : SId}
    (hi : i < shard.interner.size) (js : List SId) (hjs : ∀ j ∈ js, j < shard.interner.size)
    (h : Absorbing t g) :
    Absorbing t (js.foldl (fun g b => relate g (ρ i) (ρ b)) g) ∧
      (js.foldl (fun g b => relate g (ρ i) (ρ b)) g).ledger = set g.ledger fun a b =>
        get g.ledger a b ∨ ∃ j ∈ js, shard.interner.resolve i = a ∧
          shard.interner.resolve j = b := by
  induction js generalizing g with
  | nil => exact ⟨h, by simp [hR.set_get]⟩
  | cons j rest ih =>
    have hj := hjs j List.mem_cons_self
    have hstep : Absorbing t (relate g (ρ i) (ρ j)) :=
      ⟨hR.inv h.1 (h.2 ▸ hρ.lt hi) (h.2 ▸ hρ.lt hj), (hR.interner g _ _).trans h.2⟩
    refine (ih (fun j' hj' => hjs j' (List.mem_cons_of_mem _ hj')) hstep).imp_right fun hl => ?_
    rw [List.foldl_cons, hl, hR.ledger (h.2 ▸ hρ i hi) (h.2 ▸ hρ j hj), hR.set_set, hR.get_set]
    congr 1
    funext a b
    simp only [relAdd, List.mem_cons, exists_eq_or_imp, eq_comm (a := a), eq_comm (a := b)]
    exact propext or_assoc

theorem Relates.table (hR : Relates relate get set) (relation : SId → List SId)
    (hρ : Remaps shard.interner t ρ)
    (hids : ∀ {i j}, j ∈ relation i → i < shard.interner.size ∧ j < shard.interner.size)
    {l : List SId} (hl : ∀ i ∈ l, i < shard.interner.size) (h : Absorbing t g) :
    Absorbing t (l.foldl (absorbRelation ρ relation relate) g) ∧
      (l.foldl (absorbRelation ρ relation relate) g).ledger =
        set g.ledger fun a b => get g.ledger a b ∨ pairsOf shard relation l a b := by
  induction l generalizing g with
  | nil => exact ⟨h, by simp [pairsOf, hR.set_get]⟩
  | cons i rest ih =>
    obtain ⟨h1, h2⟩ := hR.list hρ (hl i List.mem_cons_self) (relation i)
      (fun _ hj => (hids hj).2) h
    refine (ih (fun i' hi' => hl i' (List.mem_cons_of_mem _ hi')) h1).imp_right fun hr => ?_
    refine Eq.trans hr ?_
    rw [h2, hR.set_set, hR.get_set]
    congr 1
    funext a b
    simp only [pairsOf, List.mem_cons, exists_eq_or_imp]
    exact propext or_assoc

end Relation

theorem pairsOf_eq {relation : SId → List SId} (hn : shard.interner.strings.Nodup)
    (hids : ∀ {i j}, j ∈ relation i → i < shard.interner.size ∧ j < shard.interner.size)
    {l : List SId} (hl : l.Perm (List.range shard.interner.size)) :
    pairsOf shard relation l = shard.interner.pairs relation := by
  funext a b
  refine propext ⟨?_, ?_⟩
  · rintro ⟨i, -, j, hj, rfl, rfl⟩
    exact ⟨i, j, StringInterner.find_resolve hn (hids hj).1,
      StringInterner.find_resolve hn (hids hj).2, hj⟩
  · rintro ⟨i, j, hi, hj, hij⟩
    exact ⟨i, hl.mem_iff.mpr (List.mem_range.mpr (StringInterner.lt_of_find hi)), j, hij,
      StringInterner.resolve_of_find hi, StringInterner.resolve_of_find hj⟩

/-! ### The whole walk -/

theorem nodesOf_eq {l : List SId}
    (hl : l.Perm (List.range shard.interner.size)) (nodes : Bytes → Option CallGraphNode) :
    nodesOf shard l nodes = fun u => match shard.ledger.nodes u with
      | none => nodes u
      | some n => some (mergeNode (nodes u) n) := by
  funext u
  unfold nodesOf
  rcases h : shard.interner.find u with _ | id
  · simp [ledger, h]
  · have hid : id ∈ l := hl.mem_iff.mpr (List.mem_range.mpr (StringInterner.lt_of_find h))
    simp [ledger, h, hid]

theorem regs_sum_eq {l : List SId} (hl : l.Perm (List.range shard.interner.size))
    (f : EdgeFact) :
    (l.map fun tu => Multiset.replicate ((shard.tuEdges tu).countP fun i =>
      decide (factAt shard.interner shard.edges i = some f)) (shard.interner.resolve tu)).sum =
      shard.ledger.regs f := by
  rw [(hl.map _).sum_eq]
  rfl

/-- **`absorb` keeps the invariant and adds the shard's ledger**, in whatever order the
shard's hash maps are walked. -/
theorem Inv.absorb (h : g.Inv) (hs : shard.Inv) {ord : IterOrder} (hord : ord.Valid shard) :
    (g.absorb shard ord).Inv ∧ (g.absorb shard ord).ledger = g.ledger.absorb shard.ledger := by
  have hρ := remaps_internAll g.interner shard.interner
  have hids : ∀ {l : List SId}, l.Perm (List.range shard.interner.size) →
      ∀ i ∈ l, i < shard.interner.size :=
    fun hl i hi => List.mem_range.mp (hl.mem_iff.mp hi)
  unfold CallGraph.absorb
  rw [if_neg (by simp [h.mutable])]
  dsimp only
  generalize hρ' : (fun id => (g.interner.internAll shard.interner.strings).2.getD id 0) = ρ at *
  have hext := StringInterner.extends_internAll g.interner shard.interner.strings
  have h0 : Absorbing (g.interner.internAll shard.interner.strings).1
      { g with interner := (g.interner.internAll shard.interner.strings).1 } := by
    refine ⟨h.extend hext (StringInterner.nodup_internAll h.strings_nodup _) fun s hm => ?_, rfl⟩
    rcases StringInterner.mem_internAll.mp hm with hm | hm
    exacts [h.strings_text s hm, hs.strings_text s hm]
  have hl0 := h.ledger_extend hext
  generalize (g.interner.internAll shard.interner.strings).1 = t at *
  obtain ⟨h1, hl1⟩ := foldl_simulates ledger (Absorbing t) (u := absorbedNode shard)
    (l := ord.nodes) (fun _ hg id _ => hg.node hs hρ id) h0
  rw [absorbedNode_foldl hs (hord.nodes.nodup_iff.mpr List.nodup_range), hl0] at hl1
  have hedge : ∀ e ∈ shard.edges, e.toEdge.Below shard.interner.size := fun e he => by
    obtain ⟨i, hi⟩ := List.mem_iff_getElem?.mp he
    exact hs.edge.edge_ids hi
  generalize List.foldl (absorbNode shard ρ) _ ord.nodes = g1 at *
  obtain ⟨h2, hr, hl2⟩ := absorbEdge_foldl hρ hedge [] [] h1
    ⟨rfl, fun he => by simp [LiveAt] at he⟩
  rw [List.nil_append] at hr
  generalize List.foldl (absorbEdge ρ) (g1, []) shard.edges = acc at *
  obtain ⟨h3, hl3⟩ := foldl_simulates ledger (Tagging shard t ρ acc.2) (u := absorbedTags shard)
    (l := ord.tuEdges) (fun _ hg tu htu => hg.tags hs hρ (hids hord.tuEdges tu htu)) ⟨h2, hr⟩
  rw [absorbedTags_foldl, hl2, hl1] at hl3
  generalize List.foldl (absorbTags shard ρ acc.2) acc.1 ord.tuEdges = g3 at *
  obtain ⟨h4, hl4⟩ := relates_derived.table shard.derivedClasses hρ hs.rel.derived_ids
    (hids hord.derivedClasses) h3.1
  generalize List.foldl _ g3 ord.derivedClasses = g4 at *
  obtain ⟨h5, hl5⟩ := relates_override.table shard.methodOverrides hρ
    hs.rel.override_ids (hids hord.methodOverrides) h4
  generalize List.foldl _ g4 ord.methodOverrides = g5 at *
  obtain ⟨h6, hl6⟩ := relates_impl.table shard.effectiveImplClasses hρ
    hs.rel.impl_ids (hids hord.effectiveImplClasses) h5
  generalize List.foldl _ g5 ord.effectiveImplClasses = g6 at *
  obtain ⟨h7, hl7⟩ := relates_return.table shard.functionReturns hρ
    hs.rel.return_ids (hids hord.functionReturns) h6
  refine ⟨h7.1, hl7.trans ?_⟩
  rw [hl6, hl5, hl4, hl3, pairsOf_eq hs.strings_nodup hs.rel.derived_ids hord.derivedClasses,
    pairsOf_eq hs.strings_nodup hs.rel.override_ids hord.methodOverrides,
    pairsOf_eq hs.strings_nodup hs.rel.impl_ids hord.effectiveImplClasses,
    pairsOf_eq hs.strings_nodup hs.rel.return_ids hord.functionReturns]
  have hcontrib := pairsOf_eq hs.strings_nodup hs.contributor_ids hord.nodes
  refine Ledger.ext (nodesOf_eq hord.nodes _) ?_ rfl
    (funext fun f => congrArg (g.ledger.regs f + ·) (regs_sum_eq hord.tuEdges f)) rfl rfl rfl rfl
  exact funext fun u => funext fun tu =>
    congrArg (g.ledger.contributors u tu ∨ ·) (congrFun (congrFun hcontrib u) tu)

end CallGraph

end Vycor
