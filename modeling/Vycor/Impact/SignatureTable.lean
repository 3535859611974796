import Vycor.Impact.Signatures

/-!
# The signature table agrees with the lookup

The walk keeps, under every key, the choice of the first of the least contexts offered there
(`SignatureBuild.Holds`). The fallback of a caller is the least of its choices for the single
callees; these differ in the callee, so no tie is left to the order in which the hash table is
walked. Together that is the choice of `contextForEdge` (`forEdge_build`).
-/

namespace Vycor

/-- A context of the walk with its shape. -/
abbrev LoggedContext := CallSiteContext × ContextShape

/-- What `beats` compares, most significant first. -/
def CallSiteContext.tied (c : CallSiteContext) : Bytes ×ₗ Bytes ×ₗ Bytes :=
  toLex (c.calleeUsr, toLex (c.tuPath, c.callerName))

namespace StringInterner

variable {t t' : StringInterner} {s s' : Bytes}

/-- The id of a string the table holds. -/
def idOf (t : StringInterner) (s : Bytes) : SId := (t.find s).getD 0

theorem find_idOf (h : (t.find s).isSome) : t.find s = some (t.idOf s) := by
  obtain ⟨id, hid⟩ := Option.isSome_iff_exists.mp h
  rw [idOf, hid, Option.getD_some]

theorem idOf_inj (h : (t.find s).isSome) (h' : (t.find s').isSome) :
    t.idOf s = t.idOf s' ↔ s = s' := by
  constructor
  · intro heq
    exact find_inj (find_idOf h) (heq ▸ find_idOf h')
  · exact fun heq => by rw [heq]

theorem Extends.find_of_isSome (hext : t.Extends t') (h : (t.find s).isSome) :
    t'.find s = t.find s := by
  rw [find_idOf h]
  exact hext.find_eq (find_idOf h)

theorem Extends.idOf_eq (hext : t.Extends t') (h : (t.find s).isSome) : t'.idOf s = t.idOf s := by
  rw [idOf, idOf, hext.find_of_isSome h]

theorem Extends.isSome (hext : t.Extends t') (h : (t.find s).isSome) : (t'.find s).isSome := by
  rwa [hext.find_of_isSome h]

end StringInterner

namespace SignatureBuild

open StringInterner (idOf find_idOf idOf_inj)

/-- The table holds the strings of a context that the walk interns. -/
structure Knows (strings : StringInterner) (c : CallSiteContext) : Prop where
  callSite : (strings.find c.callSite).isSome
  callerUsr : (strings.find c.callerUsr).isSome
  callerName : (strings.find c.callerName).isSome
  calleeUsr : (strings.find c.calleeUsr).isSome
  tuPath : (strings.find c.tuPath).isSome

theorem Knows.extend {strings strings' : StringInterner} {c : CallSiteContext}
    (h : Knows strings c) (hext : strings.Extends strings') : Knows strings' c :=
  ⟨hext.isSome h.callSite, hext.isSome h.callerUsr, hext.isSome h.callerName,
    hext.isSome h.calleeUsr, hext.isSome h.tuPath⟩

/-- The choice that stands for a context. -/
def choiceOf (strings : StringInterner) (shapes : List ContextShape) (p : LoggedContext) :
    Choice :=
  ⟨strings.idOf p.1.calleeUsr, strings.idOf p.1.tuPath, strings.idOf p.1.callerName,
    shapes.idxOf p.2⟩

/-- A context is offered to a caller at a site. -/
def OfferedTo (strings : StringInterner) (site caller : SId) (p : LoggedContext) : Prop :=
  strings.idOf p.1.callSite = site ∧
    (strings.idOf p.1.callerUsr = caller ∨ strings.idOf p.1.callerName = caller)

instance decidablePredOfferedTo (strings : StringInterner) (site caller : SId) :
    DecidablePred (OfferedTo strings site caller) :=
  fun _ => inferInstanceAs (Decidable (_ ∧ _))

/-- A context is offered under a key. -/
def Offered (strings : StringInterner) (key : SignatureKey) (p : LoggedContext) : Prop :=
  OfferedTo strings key.site key.caller p ∧ some (strings.idOf p.1.calleeUsr) = key.callee

instance decidablePredOffered (strings : StringInterner) (key : SignatureKey) :
    DecidablePred (Offered strings key) :=
  fun _ => inferInstanceAs (Decidable (_ ∧ _))

section Growth

variable {strings strings' : StringInterner} {shapes : List ContextShape} {p q : LoggedContext}

theorem offered_extend (hp : Knows strings p.1) (hext : strings.Extends strings')
    (key : SignatureKey) : Offered strings' key p ↔ Offered strings key p := by
  rw [Offered, Offered, OfferedTo, OfferedTo, hext.idOf_eq hp.callSite,
    hext.idOf_eq hp.callerUsr, hext.idOf_eq hp.callerName, hext.idOf_eq hp.calleeUsr]

theorem choiceOf_extend (hp : Knows strings p.1) (hext : strings.Extends strings')
    (hshape : p.2 ∈ shapes) (more : List ContextShape) :
    choiceOf strings' (shapes ++ more) p = choiceOf strings shapes p := by
  rw [choiceOf, choiceOf, hext.idOf_eq hp.calleeUsr, hext.idOf_eq hp.tuPath,
    hext.idOf_eq hp.callerName, List.idxOf_append_of_mem hshape]

/-- The ids decide as the strings do. -/
theorem beats_choiceOf (hp : Knows strings p.1) (hq : Knows strings q.1) :
    (choiceOf strings shapes p).beats strings (choiceOf strings shapes q) =
      decide (p.1.tied < q.1.tied) := by
  have hresolve : ∀ {s}, (strings.find s).isSome → strings.resolve (strings.idOf s) = s :=
    fun hs => StringInterner.resolve_of_find (find_idOf hs)
  rw [Bool.eq_iff_iff, decide_eq_true_eq]
  simp only [Choice.beats, choiceOf, CallSiteContext.tied, Prod.Lex.toLex_lt_toLex, ne_eq,
    idOf_inj hp.calleeUsr hq.calleeUsr, idOf_inj hp.tuPath hq.tuPath,
    idOf_inj hp.callerName hq.callerName, hresolve hp.calleeUsr, hresolve hq.calleeUsr,
    hresolve hp.tuPath, hresolve hq.tuPath, hresolve hp.callerName, hresolve hq.callerName]
  by_cases h₁ : p.1.calleeUsr = q.1.calleeUsr
  · by_cases h₂ : p.1.tuPath = q.1.tuPath
    · by_cases h₃ : p.1.callerName = q.1.callerName
      · simp [h₁, h₂, h₃]
      · simp [h₁, h₂, h₃]
    · simp [h₁, h₂]
  · simp [h₁]

end Growth

end SignatureBuild

/-! ### Offers -/

/-- The better of what a key holds and a new choice. -/
def Choice.better (strings : StringInterner) (c : Choice) : Option Choice → Choice
  | none => c
  | some held => if c.beats strings held then c else held

namespace ChoiceTable

variable {strings : StringInterner} {c : Choice} {t : ChoiceTable} {key key' : SignatureKey}

theorem entries_offer : (t.offer strings c key).entries =
    Function.update t.entries key (some (c.better strings (t.entries key))) := by
  rw [offer]
  rcases hold : t.entries key with _ | held
  · rfl
  · dsimp only [Choice.better]
    split_ifs with hbeats
    · rfl
    · rw [← hold, Function.update_eq_self]

/-- The keys are those that hold something. -/
def Listed (t : ChoiceTable) : Prop := ∀ key, key ∈ t.keys ↔ (t.entries key).isSome

theorem Listed.offer (h : t.Listed) (strings : StringInterner) (c : Choice) (key : SignatureKey) :
    (t.offer strings c key).Listed := by
  intro key'
  have hkeys : key' ∈ (t.offer strings c key).keys ↔ key' ∈ t.keys ∨ key' = key := by
    rw [ChoiceTable.offer]
    rcases hold : t.entries key with _ | held
    · simp
    · have hmem : key ∈ t.keys := (h key).mpr (by rw [hold]; rfl)
      dsimp only
      split_ifs with hbeats
      · exact ⟨.inl, fun hor => hor.elim id fun heq => heq ▸ hmem⟩
      · exact ⟨.inl, fun hor => hor.elim id fun heq => heq ▸ hmem⟩
  rw [hkeys, entries_offer]
  by_cases heq : key' = key
  · subst heq
    simp
  · rw [Function.update_of_ne heq, h key', or_iff_left heq]

/-- One choice under several keys. -/
theorem entries_foldl_offer {keys : List SignatureKey} (hnd : keys.Nodup) :
    (keys.foldl (fun t key => t.offer strings c key) t).entries key =
      if key ∈ keys then some (c.better strings (t.entries key)) else t.entries key := by
  induction keys generalizing t with
  | nil => simp
  | cons k keys ih =>
    rw [List.nodup_cons] at hnd
    rw [List.foldl_cons, ih hnd.2, entries_offer]
    by_cases heq : key = k
    · subst heq
      simp [hnd.1]
    · simp [heq]

theorem Listed.foldl_offer (h : t.Listed) (keys : List SignatureKey) :
    (keys.foldl (fun t key => t.offer strings c key) t).Listed := by
  induction keys generalizing t with
  | nil => exact h
  | cons k keys ih => exact ih (h.offer strings c k)

end ChoiceTable

/-! ### The walk over the records -/

namespace SignatureBuild

open StringInterner (idOf find_idOf idOf_inj)

variable (ll : Llvm) (cf : ControlFlowIndex)

/-- The ids the walk has met are those of their strings. -/
structure Good (b : SignatureBuild) : Prop where
  noTu : b.strings.find [] = some b.noTu
  remap : ∀ id k, b.remap id = some k →
    ∃ s, cf.stringOf ll id = some s ∧ b.strings.find s = some k

/-- The string of an id of a record, empty for `kNoString`. -/
def textOf : Option SId → Option Bytes
  | some id => cf.stringOf ll id
  | none => some []

/-- Interning a string of the index keeps the rest of the state. -/
structure Grown (b b' : SignatureBuild) : Prop where
  good : Good ll cf b'
  strings : b.strings.Extends b'.strings
  shapes : b'.shapes = b.shapes
  exact : b'.exact = b.exact

variable {ll cf} {b b' b'' : SignatureBuild}

theorem Grown.trans (h : Grown ll cf b b') (h' : Grown ll cf b' b'') : Grown ll cf b b'' :=
  ⟨h'.good, h.strings.trans h'.strings, h'.shapes.trans h.shapes, h'.exact.trans h.exact⟩

theorem exists_own (h : Good ll cf b) (id : Option SId) {s : Bytes}
    (hs : textOf ll cf id = some s) : ∃ b', b.own ll cf id = some (b', b'.strings.idOf s) ∧
      Grown ll cf b b' ∧ (b'.strings.find s).isSome := by
  have hidOf : ∀ {t : StringInterner} {k : SId}, t.find s = some k → t.idOf s = k := by
    intro t k hk
    rw [idOf, hk, Option.getD_some]
  rcases id with _ | id
  · obtain rfl := Option.some_inj.mp hs
    refine ⟨b, ?_, ⟨h, .refl _, rfl, rfl⟩, by rw [h.noTu]; rfl⟩
    rw [own, hidOf h.noTu]
  · have hs : cf.stringOf ll id = some s := hs
    rw [own]
    rcases hmap : b.remap id with _ | known
    · -- a string met for the first time
      have hfind := StringInterner.find_intern b.strings s
      refine ⟨{ b with strings := (b.strings.intern s).1
                       remap := Function.update b.remap id (some (b.strings.intern s).2) },
        ?_, ⟨⟨?_, ?_⟩, StringInterner.extends_intern _ _, rfl, rfl⟩, by rw [hfind]; rfl⟩
      · simp only [hs, Option.bind_eq_bind, Option.bind_some, hidOf hfind]
      · exact (StringInterner.extends_intern _ _).find_eq h.noTu
      · intro id' k hk
        dsimp only at hk ⊢
        by_cases heq : id' = id
        · subst heq
          rw [Function.update_self] at hk
          exact ⟨s, hs, hfind.trans hk⟩
        · rw [Function.update_of_ne heq] at hk
          obtain ⟨s', hs', hfind'⟩ := h.remap id' k hk
          exact ⟨s', hs', (StringInterner.extends_intern _ _).find_eq hfind'⟩
    · obtain ⟨s', hs', hfind⟩ := h.remap id known hmap
      obtain rfl : s' = s := Option.some_inj.mp (hs'.symm.trans hs)
      refine ⟨b, ?_, ⟨h, .refl _, rfl, rfl⟩, by rw [hfind]; rfl⟩
      rw [hidOf hfind]

variable (ll cf)

/-- What the walk has done once it has seen the contexts of a log. -/
structure Holds (b : SignatureBuild) (log : List LoggedContext) : Prop where
  good : Good ll cf b
  knows : ∀ p ∈ log, Knows b.strings p.1
  mem_shapes : ∀ p ∈ log, p.2 ∈ b.shapes
  of_mem_shapes : ∀ shape ∈ b.shapes, ∃ p ∈ log, p.2 = shape
  shape : ∀ p ∈ log, ∃ c, cf.contextOfShape ll p.2 = some c ∧ ControlFlowIndex.SameShape c p.1
  exact : ∀ key, b.exact.entries key =
    (firstLeast (·.1.tied) (log.filter (Offered b.strings key))).map
      (choiceOf b.strings b.shapes)
  listed : b.exact.Listed

/-- The keys under which the walk offers a context. -/
def keysOf (strings : StringInterner) (c : CallSiteContext) : List SignatureKey :=
  (if strings.idOf c.callerUsr = strings.idOf c.callerName then [strings.idOf c.callerUsr]
    else [strings.idOf c.callerUsr, strings.idOf c.callerName]).map fun caller =>
      ⟨strings.idOf c.callSite, caller, some (strings.idOf c.calleeUsr)⟩

theorem mem_keysOf {strings : StringInterner} {p : LoggedContext} {key : SignatureKey} :
    key ∈ keysOf strings p.1 ↔ Offered strings key p := by
  obtain ⟨site, caller, callee⟩ := key
  rw [keysOf, Offered, OfferedTo]
  split_ifs with hsame
  · simp [hsame, eq_comm, and_assoc]
  · simp only [List.map_cons, List.map_nil, List.mem_cons, List.not_mem_nil, or_false,
      SignatureKey.mk.injEq]
    grind

theorem nodup_keysOf (strings : StringInterner) (c : CallSiteContext) :
    (keysOf strings c).Nodup := by
  rw [keysOf]
  split_ifs with hsame
  · simp
  · simp [hsame]

/-- The shapes after a record. -/
def withShape (shapes : List ContextShape) (shape : ContextShape) : List ContextShape :=
  if shape ∈ shapes then shapes else shapes ++ [shape]

theorem mem_withShape {shapes : List ContextShape} {shape s : ContextShape} :
    s ∈ withShape shapes shape ↔ s ∈ shapes ∨ s = shape := by
  rw [withShape]
  split_ifs with hmem
  · exact ⟨.inl, fun hor => hor.elim id fun heq => heq ▸ hmem⟩
  · simp

theorem exists_withShape (shapes : List ContextShape) (shape : ContextShape) :
    ∃ more, withShape shapes shape = shapes ++ more := by
  rw [withShape]
  split_ifs with hmem
  · exact ⟨[], (List.append_nil _).symm⟩
  · exact ⟨_, rfl⟩

theorem idxOf_withShape (shapes : List ContextShape) (shape : ContextShape) :
    (withShape shapes shape).idxOf shape = shapes.idxOf shape := by
  rw [withShape]
  split_ifs with hmem
  · rfl
  · rw [List.idxOf_append_of_notMem hmem, List.idxOf_cons_self, Nat.add_zero,
      List.idxOf_eq_length hmem]

theorem holds_start : Holds ll cf start [] where
  good := ⟨by decide, fun id k hk => by cases hk⟩
  knows := by simp
  mem_shapes := by simp
  of_mem_shapes := by simp [start]
  shape := by simp
  exact key := rfl
  listed key := by simp [start]

variable {ll cf} {log : List LoggedContext} {p : LoggedContext}

/-- The state after the offer of one more context. -/
theorem Holds.offer (h : Holds ll cf b log) (hgood : Good ll cf b')
    (hstrings : b.strings.Extends b'.strings) (hshapes : b'.shapes = withShape b.shapes p.2)
    (hexact : b'.exact = (keysOf b'.strings p.1).foldl
      (fun t key => t.offer b'.strings (choiceOf b'.strings b'.shapes p) key) b.exact)
    (hknows : Knows b'.strings p.1)
    (hp : ∃ c, cf.contextOfShape ll p.2 = some c ∧ ControlFlowIndex.SameShape c p.1) :
    Holds ll cf b' (log ++ [p]) := by
  obtain ⟨more, hmore⟩ := exists_withShape b.shapes p.2
  have hkept : ∀ q ∈ log, choiceOf b'.strings b'.shapes q = choiceOf b.strings b.shapes q := by
    intro q hq
    rw [hshapes, hmore]
    exact choiceOf_extend (h.knows q hq) hstrings (h.mem_shapes q hq) more
  have hoffered : ∀ key, ∀ q ∈ log, Offered b'.strings key q ↔ Offered b.strings key q :=
    fun key q hq => offered_extend (h.knows q hq) hstrings key
  refine ⟨hgood, ?_, ?_, ?_, ?_, fun key => ?_, ?_⟩
  · intro q hq
    rcases List.mem_append.mp hq with hq | hq
    · exact (h.knows q hq).extend hstrings
    · rwa [List.mem_singleton.mp hq]
  · intro q hq
    rw [hshapes, mem_withShape]
    rcases List.mem_append.mp hq with hq | hq
    · exact .inl (h.mem_shapes q hq)
    · exact .inr (by rw [List.mem_singleton.mp hq])
  · intro shape hshape
    rw [hshapes, mem_withShape] at hshape
    rcases hshape with hshape | rfl
    · obtain ⟨q, hq, heq⟩ := h.of_mem_shapes shape hshape
      exact ⟨q, List.mem_append_left _ hq, heq⟩
    · exact ⟨p, by simp, rfl⟩
  · intro q hq
    rcases List.mem_append.mp hq with hq | hq
    · exact h.shape q hq
    · rwa [List.mem_singleton.mp hq]
  · have hold : b.exact.entries key =
        (firstLeast (·.1.tied) (log.filter (Offered b'.strings key))).map
          (choiceOf b'.strings b'.shapes) := by
      have hfilter : log.filter (fun q => decide (Offered b'.strings key q)) =
          log.filter fun q => decide (Offered b.strings key q) :=
        List.filter_congr fun q hq => decide_eq_decide.mpr (hoffered key q hq)
      rw [h.exact, hfilter]
      rcases hl : firstLeast (fun q : LoggedContext => q.1.tied)
        (log.filter fun q => decide (Offered b.strings key q)) with _ | q
      · rfl
      · have hq := List.mem_of_mem_filter (least_of_firstLeast hl).mem
        rw [Option.map_some, Option.map_some, hkept q hq]
    rw [hexact, ChoiceTable.entries_foldl_offer (nodup_keysOf _ _), hold, List.filter_append]
    by_cases hnew : Offered b'.strings key p
    · have hlast : [p].filter (fun q => decide (Offered b'.strings key q)) = [p] := by simp [hnew]
      rw [if_pos (mem_keysOf.mpr hnew), hlast, firstLeast_concat]
      rcases hl : firstLeast (fun q : LoggedContext => q.1.tied)
        (log.filter fun q => decide (Offered b'.strings key q)) with _ | q
      · rfl
      · -- the new context against the one held
        have hq := List.mem_of_mem_filter (least_of_firstLeast hl).mem
        simp only [Option.map_some, Choice.better,
          beats_choiceOf hknows ((h.knows q hq).extend hstrings), decide_eq_true_eq]
        split_ifs with hlt
        · rfl
        · rfl
    · have hlast : [p].filter (fun q => decide (Offered b'.strings key q)) = [] := by simp [hnew]
      rw [if_neg (mt mem_keysOf.mp hnew), hlast, List.append_nil]
  · rw [hexact]
    exact h.listed.foldl_offer _

/-- One record is one more context. -/
theorem Holds.exists_addRecord (h : Holds ll cf b log) {r : ContextRecord} {ctx : CallSiteContext}
    (hd : cf.Describes ll r ctx) :
    ∃ b', b.addRecord ll cf r = some b' ∧ Holds ll cf b' (log ++ [(ctx, r.shape)]) := by
  have hstart : Good ll cf { b with
      contexts := b.contexts + 1, shapes := withShape b.shapes r.shape } := ⟨h.good.1, h.good.2⟩
  obtain ⟨b₁, ho₁, hg₁, hf₁⟩ := exists_own hstart (some r.calleeUsr) hd.calleeUsr
  obtain ⟨b₂, ho₂, hg₂, hf₂⟩ := exists_own hg₁.good r.tuPath hd.tuPath
  obtain ⟨b₃, ho₃, hg₃, hf₃⟩ := exists_own hg₂.good (some r.callerName) hd.callerName
  obtain ⟨b₄, ho₄, hg₄, hf₄⟩ := exists_own hg₃.good (some r.callSite) hd.callSite
  obtain ⟨b₅, ho₅, hg₅, hf₅⟩ := exists_own hg₄.good (some r.callerUsr) hd.callerUsr
  obtain ⟨b₆, ho₆, hg₆, hf₆⟩ := exists_own hg₅.good (some r.callerName) hd.callerName
  -- the ids of the earlier strings are still theirs at the end
  have hg₅₆ := hg₅.trans hg₆
  have hg₄₆ := hg₄.trans hg₅₆
  have hg₃₆ := hg₃.trans hg₄₆
  have hg₂₆ := hg₂.trans hg₃₆
  have hg := hg₁.trans hg₂₆
  have hknows : Knows b₆.strings ctx :=
    ⟨hg₅₆.strings.isSome hf₄, hg₆.strings.isSome hf₅, hf₆, hg₂₆.strings.isSome hf₁,
      hg₃₆.strings.isSome hf₂⟩
  have hchoice : (⟨b₁.strings.idOf ctx.calleeUsr, b₂.strings.idOf ctx.tuPath,
      b₃.strings.idOf ctx.callerName, b.shapes.idxOf r.shape⟩ : Choice) =
        choiceOf b₆.strings b₆.shapes (ctx, r.shape) := by
    rw [choiceOf, hg.shapes, idxOf_withShape, hg₂₆.strings.idOf_eq hf₁, hg₃₆.strings.idOf_eq hf₂,
      hg₄₆.strings.idOf_eq hf₃]
  refine ⟨{ b₆ with
    exact := (keysOf b₆.strings ctx).foldl (fun t key =>
      t.offer b₆.strings (choiceOf b₆.strings b₆.shapes (ctx, r.shape)) key) b.exact }, ?_, ?_⟩
  · rw [addRecord]
    change (({ b with contexts := b.contexts + 1, shapes := withShape b.shapes r.shape } :
      SignatureBuild).own ll cf (some r.calleeUsr)).bind _ = _
    simp only [ho₁, ho₂, ho₃, ho₄, ho₅, ho₆, Option.bind_eq_bind, Option.bind_some, hchoice,
      Option.some_inj]
    rw [keysOf, List.foldl_map, hg.exact, hg₅₆.strings.idOf_eq hf₄, hg₆.strings.idOf_eq hf₅,
      hg₂₆.strings.idOf_eq hf₁]
  · exact h.offer ⟨hg.good.1, hg.good.2⟩ hg.strings hg.shapes rfl hknows hd.shape

/-- The walk has seen what the records describe. -/
theorem Holds.exists_addRecords (h : Holds ll cf b log) {rs : List ContextRecord}
    {ctxs : List CallSiteContext} (hd : List.Forall₂ (cf.Describes ll) rs ctxs) :
    ∃ b' shapes, b.addRecords ll cf rs = some b' ∧
      Holds ll cf b' (log ++ ctxs.zip shapes) ∧ shapes.length = ctxs.length := by
  induction hd generalizing b log with
  | nil => exact ⟨b, [], rfl, by simpa using h, rfl⟩
  | cons hr hrest ih =>
    rename_i r ctx rs ctxs
    obtain ⟨b', hb', hholds⟩ := h.exists_addRecord hr
    obtain ⟨b'', shapes, hb'', hholds', hlen⟩ := ih hholds
    refine ⟨b'', r.shape :: shapes, ?_, ?_, by simp [hlen]⟩
    · rw [addRecords, hb']
      exact hb''
    · rwa [List.append_assoc] at hholds'

/-! ### The fallback -/

/-- Offers of known contexts, one after the other. -/
theorem entries_foldl_offers {strings : StringInterner} {shapes : List ContextShape}
    {offers : List (SignatureKey × LoggedContext)} (hknows : ∀ o ∈ offers, Knows strings o.2.1)
    (key : SignatureKey) :
    (offers.foldl (fun t o => ChoiceTable.offer strings (choiceOf strings shapes o.2) t o.1)
        {}).entries key =
      (firstLeast (·.2.1.tied) (offers.filter (·.1 = key))).map
        fun o => choiceOf strings shapes o.2 := by
  induction offers using List.reverseRecOn with
  | nil => rfl
  | append_singleton offers o ih =>
    have ih := ih fun o' ho' => hknows o' (List.mem_append_left _ ho')
    rw [List.foldl_append, List.foldl_cons, List.foldl_nil, ChoiceTable.entries_offer,
      List.filter_append]
    by_cases heq : o.1 = key
    · subst heq
      have hlast : [o].filter (fun o' => decide (o'.1 = o.1)) = [o] := by simp
      rw [Function.update_self, ih, hlast, firstLeast_concat]
      rcases hl : firstLeast (fun o' : SignatureKey × LoggedContext => o'.2.1.tied)
        (offers.filter fun o' => decide (o'.1 = o.1)) with _ | q
      · rfl
      · have hq := List.mem_of_mem_filter (least_of_firstLeast hl).mem
        simp only [Option.map_some, Choice.better, beats_choiceOf (hknows o (by simp))
          (hknows q (List.mem_append_left _ hq)), decide_eq_true_eq]
        split_ifs with hlt
        · rfl
        · rfl
    · have hlast : [o].filter (fun o' => decide (o'.1 = key)) = [] := by simp [heq]
      rw [Function.update_of_ne (Ne.symm heq), ih, hlast, List.append_nil]

/-- The context the exact table holds under a key. -/
def best (strings : StringInterner) (log : List LoggedContext) (key : SignatureKey) :
    Option LoggedContext :=
  firstLeast (·.1.tied) (log.filter (Offered strings key))

/-- What the keys of the exact table offer to the fallback. -/
def anyOffers (strings : StringInterner) (log : List LoggedContext) (ks : List SignatureKey) :
    List (SignatureKey × LoggedContext) :=
  ks.filterMap fun key => (best strings log key).map fun p => ({ key with callee := none }, p)

theorem mem_anyOffers {strings : StringInterner} {ks : List SignatureKey}
    {o : SignatureKey × LoggedContext} : o ∈ anyOffers strings log ks ↔
      ∃ key ∈ ks, best strings log key = some o.2 ∧ o.1 = { key with callee := none } := by
  obtain ⟨k, p⟩ := o
  simp only [anyOffers, List.mem_filterMap, Option.map_eq_some_iff, Prod.mk.injEq]
  constructor
  · rintro ⟨key, hkey, q, hq, rfl, rfl⟩
    exact ⟨key, hkey, hq, rfl⟩
  · rintro ⟨key, hkey, hq, rfl⟩
    exact ⟨key, hkey, p, hq, rfl, rfl⟩

theorem Holds.foldl_offerAny (h : Holds ll cf b log) (ks : List SignatureKey) :
    ks.foldl (ChoiceTable.offerAny b.strings b.exact) {} =
      (anyOffers b.strings log ks).foldl
        (fun t o => ChoiceTable.offer b.strings (choiceOf b.strings b.shapes o.2) t o.1) {} := by
  rw [anyOffers, List.foldl_filterMap]
  congr 1
  funext t key
  rw [ChoiceTable.offerAny, h.exact, ← best]
  cases best b.strings log key <;> rfl

/-- **The fallback of a caller holds the first of its least contexts.** Of the choices for two
callees the callee decides, so the order in which the table is walked does not matter. -/
theorem Holds.entries_fallback (h : Holds ll cf b log) {ks : List SignatureKey}
    (hks : ks.Perm b.exact.keys) (site caller : SId) :
    (ks.foldl (ChoiceTable.offerAny b.strings b.exact) {}).entries ⟨site, caller, none⟩ =
      (firstLeast (·.1.tied) (log.filter (OfferedTo b.strings site caller))).map
        (choiceOf b.strings b.shapes) := by
  have hmem : ∀ {key p}, best b.strings log key = some p → p ∈ log ∧ Offered b.strings key p := by
    intro key p hbest
    simpa using List.mem_filter.mp (least_of_firstLeast hbest).mem
  have hknows : ∀ o ∈ anyOffers b.strings log ks, Knows b.strings o.2.1 := by
    intro o ho
    obtain ⟨key, -, hbest, -⟩ := mem_anyOffers.mp ho
    exact h.knows _ (hmem hbest).1
  -- an offer to the caller is one of its contexts
  have hoffer : ∀ o ∈ (anyOffers b.strings log ks).filter
      (fun o => decide (o.1 = ⟨site, caller, none⟩)),
      o.2 ∈ log.filter (fun p => decide (OfferedTo b.strings site caller p)) ∧
        best b.strings log ⟨site, caller, some (b.strings.idOf o.2.1.calleeUsr)⟩ = some o.2 := by
    intro o ho
    obtain ⟨ho, hkey⟩ := List.mem_filter.mp ho
    obtain ⟨⟨site', caller', callee'⟩, -, hbest, heq⟩ := mem_anyOffers.mp ho
    obtain ⟨rfl, rfl⟩ : site' = site ∧ caller' = caller := by
      have := heq.symm.trans (of_decide_eq_true hkey)
      simpa using this
    obtain ⟨hlog, hto, rfl⟩ := hmem hbest
    exact ⟨List.mem_filter.mpr ⟨hlog, decide_eq_true hto⟩, hbest⟩
  rw [h.foldl_offerAny, entries_foldl_offers hknows]
  rcases hl : firstLeast (fun p : LoggedContext => p.1.tied)
    (log.filter fun p => decide (OfferedTo b.strings site caller p)) with _ | p
  · have hnil : (anyOffers b.strings log ks).filter
        (fun o => decide (o.1 = ⟨site, caller, none⟩)) = [] := by
      refine List.eq_nil_iff_forall_not_mem.mpr fun o ho => ?_
      have := (hoffer o ho).1
      rw [firstLeast_eq_none.mp hl] at this
      cases this
    rw [hnil]
    rfl
  · -- the choice is the one for its own callee
    have hp := List.mem_filter.mp (least_of_firstLeast hl).mem
    have hbest : best b.strings log
        ⟨site, caller, some (b.strings.idOf p.1.calleeUsr)⟩ = some p := by
      have hfilter := firstLeast_filter hl (p := fun q =>
        decide (some (b.strings.idOf q.1.calleeUsr) = some (b.strings.idOf p.1.calleeUsr)))
        (decide_eq_true rfl)
      rw [List.filter_filter] at hfilter
      rw [best, ← hfilter]
      congr 1
      refine List.filter_congr fun q _ => ?_
      simp [Offered, Bool.and_comm]
    have hkey : (⟨site, caller, some (b.strings.idOf p.1.calleeUsr)⟩ : SignatureKey) ∈ ks := by
      rw [hks.mem_iff, h.listed, h.exact, ← best, hbest]
      rfl
    have hmemo : ((⟨site, caller, none⟩, p) : SignatureKey × LoggedContext) ∈
        (anyOffers b.strings log ks).filter (fun o => decide (o.1 = ⟨site, caller, none⟩)) :=
      List.mem_filter.mpr ⟨mem_anyOffers.mpr ⟨_, hkey, hbest, rfl⟩, decide_eq_true rfl⟩
    obtain ⟨o, ho⟩ : ∃ o, firstLeast (fun o : SignatureKey × LoggedContext => o.2.1.tied) _ =
      some o := exists_firstLeast (List.ne_nil_of_mem hmemo)
    have hle := least_of_firstLeast ho
    obtain ⟨hcand, hobest⟩ := hoffer o hle.mem
    have htied : o.2.1.tied = p.1.tied :=
      le_antisymm (hle.le _ hmemo) ((least_of_firstLeast hl).le _ hcand)
    have hcallee : o.2.1.calleeUsr = p.1.calleeUsr := congrArg (fun t => (ofLex t).1) htied
    rw [hcallee, hbest, Option.some_inj] at hobest
    rw [ho, Option.map_some, Option.map_some, ← hobest]

/-! ### The signatures -/

/-- Every shape has a signature, that of its contexts. -/
theorem Holds.exists_signatures (h : Holds ll cf b log) :
    ∃ signatures, (b.shapes.mapM fun shape =>
        (cf.contextOfShape ll shape).map contextSignature) = some signatures ∧
      ∀ p ∈ log, signatures.getD (choiceOf b.strings b.shapes p).signature [] =
        contextSignature p.1 := by
  have hshape : ∀ shape ∈ b.shapes, ∃ s, (cf.contextOfShape ll shape).map contextSignature =
      some s := by
    intro shape hmem
    obtain ⟨p, hp, rfl⟩ := h.of_mem_shapes shape hmem
    obtain ⟨c, hc, -⟩ := h.shape p hp
    exact ⟨_, by rw [hc]; rfl⟩
  obtain ⟨signatures, hsigs⟩ := exists_mapM_eq_some hshape
  refine ⟨signatures, hsigs, fun p hp => ?_⟩
  have hmem := h.mem_shapes p hp
  have hat : b.shapes[b.shapes.idxOf p.2]? = some p.2 := by
    rw [List.getElem?_eq_getElem (List.idxOf_lt_length_iff.mpr hmem), List.getElem_idxOf]
  obtain ⟨s, hs, hget⟩ := getElem?_of_mapM_eq_some hsigs hat
  obtain ⟨c, hc, hsame⟩ := h.shape p hp
  rw [hc, Option.map_some, Option.some_inj] at hs
  rw [choiceOf, List.getD_eq_getElem?_getD, hget, Option.getD_some, ← hs,
    contextSignature_congr hsame]

end SignatureBuild

/-! ### The answers -/

open SignatureBuild StringInterner

variable {ll : Llvm} {cf : ControlFlowIndex} {b : SignatureBuild} {log : List LoggedContext}

/-- The first of the least contexts of a log of walked contexts. -/
theorem firstLeast_map_fst (keep : CallSiteContext → Bool) (log : List LoggedContext) :
    firstLeast CallSiteContext.tied ((log.map Prod.fst).filter keep) =
      (firstLeast (·.1.tied) (log.filter fun p => keep p.1)).map Prod.fst := by
  rw [← firstLeast_map, List.filter_map]
  rfl

namespace SignatureBuild

/-- A context is offered to a caller under its strings. -/
theorem Holds.offeredTo_iff (h : Holds ll cf b log) {site caller : Bytes} {siteId callerId : SId}
    (hsite : b.strings.find site = some siteId) (hcaller : b.strings.find caller = some callerId)
    {p : LoggedContext} (hp : p ∈ log) :
    OfferedTo b.strings siteId callerId p ↔ p.1.callSite = site ∧ p.1.OfCaller caller := by
  have hid : ∀ {s t : Bytes} {k : SId}, b.strings.find t = some k → (b.strings.find s).isSome →
      (b.strings.idOf s = k ↔ s = t) := by
    intro s t k hk hs
    have : b.strings.idOf t = k := by rw [idOf, hk, Option.getD_some]
    rw [← this, idOf_inj hs (by rw [hk]; rfl)]
  have hk := h.knows p hp
  rw [OfferedTo, hid hsite hk.callSite, hid hcaller hk.callerUsr, hid hcaller hk.callerName,
    CallSiteContext.OfCaller]

/-- The contexts an edge may take, of a list of all. -/
def edgeContexts (site caller : Bytes) (contexts : List CallSiteContext) : List CallSiteContext :=
  (contexts.filter (·.callSite = site)).filter (·.OfCaller caller)

section Lookup

variable {site caller : Bytes} {siteId callerId : SId}
  (hsite : b.strings.find site = some siteId) (hcaller : b.strings.find caller = some callerId)

include hsite hcaller

/-- Those a caller is offered at a site, by their ids. -/
theorem Holds.edgeContexts_eq (h : Holds ll cf b log) :
    edgeContexts site caller (log.map Prod.fst) =
      (log.filter (OfferedTo b.strings siteId callerId)).map Prod.fst := by
  rw [edgeContexts, List.filter_filter, List.filter_map]
  congr 1
  refine List.filter_congr fun p hp => ?_
  rw [Bool.eq_iff_iff]
  simp [h.offeredTo_iff hsite hcaller hp, and_comm]

end Lookup

/-- The exact table answers with the contexts of the callee, if there are any. -/
theorem Holds.exact_bind (h : Holds ll cf b log) (siteId callerId : SId) (callee : Bytes) :
    ((b.strings.find callee).bind fun id => b.exact.entries ⟨siteId, callerId, some id⟩) =
      (firstLeast (·.1.tied) ((log.filter (OfferedTo b.strings siteId callerId)).filter
        fun p => p.1.calleeUsr = callee)).map (choiceOf b.strings b.shapes) := by
  rcases hcallee : b.strings.find callee with _ | id
  · have hnil : ((log.filter (OfferedTo b.strings siteId callerId)).filter
        fun p => decide (p.1.calleeUsr = callee)) = [] := by
      refine List.filter_eq_nil_iff.mpr fun p hp hc => ?_
      have hknown := (h.knows p (List.mem_of_mem_filter hp)).calleeUsr
      rw [of_decide_eq_true hc, hcallee] at hknown
      cases hknown
    rw [hnil]
    rfl
  · have hfilter : log.filter (fun p => decide (Offered b.strings ⟨siteId, callerId, some id⟩ p)) =
        (log.filter (OfferedTo b.strings siteId callerId)).filter
          fun p => decide (p.1.calleeUsr = callee) := by
      rw [List.filter_filter]
      refine List.filter_congr fun p hp => ?_
      have hid : b.strings.idOf callee = id := by rw [idOf, hcallee, Option.getD_some]
      have hiff : b.strings.idOf p.1.calleeUsr = b.strings.idOf callee ↔ p.1.calleeUsr = callee :=
        idOf_inj (h.knows p hp).calleeUsr (by rw [hcallee]; rfl)
      rw [hid] at hiff
      rw [Bool.eq_iff_iff]
      simp [Offered, hiff, and_comm]
    rw [Option.bind_some, h.exact, hfilter]

/-- No context of the log has a string the table does not hold. -/
theorem Holds.edgeContexts_eq_nil (h : Holds ll cf b log) {site caller : Bytes}
    (hnone : b.strings.find site = none ∨ b.strings.find caller = none) :
    edgeContexts site caller (log.map Prod.fst) = [] := by
  refine List.filter_eq_nil_iff.mpr fun c hc hof => ?_
  obtain ⟨hmem, hsite⟩ := List.mem_filter.mp hc
  obtain ⟨p, hp, rfl⟩ := List.mem_map.mp hmem
  have hknown := h.knows p hp
  rcases hnone with hnone | hnone
  · have := hknown.callSite
    rw [of_decide_eq_true hsite, hnone] at this
    cases this
  · rcases of_decide_eq_true hof with heq | heq
    · have := hknown.callerUsr
      rw [heq, hnone] at this
      cases this
    · have := hknown.callerName
      rw [heq, hnone] at this
      cases this

/-- The callee of the edge first, then what decides a tie. -/
theorem firstLeast_edgeKey (callee : Bytes) (l : List LoggedContext) :
    firstLeast (fun p => p.1.edgeKey callee) l =
      (firstLeast (·.1.tied) (l.filter fun p => p.1.calleeUsr = callee)).or
        (firstLeast (·.1.tied) l) := by
  have hkey : (fun p : LoggedContext => p.1.edgeKey callee) =
      fun p => toLex (!decide (p.1.calleeUsr = callee), p.1.tied) := by
    funext p
    rw [CallSiteContext.edgeKey, CallSiteContext.tied, ← decide_not]
  rw [hkey, firstLeast_prefer]
  cases firstLeast (·.1.tied) (l.filter fun p : LoggedContext => p.1.calleeUsr = callee) <;> rfl

/-- The table over what the walk has seen. -/
theorem Holds.forEdge (h : Holds ll cf b log) {signatures : List Bytes} {ks : List SignatureKey}
    (hsig : ∀ p ∈ log, signatures.getD (choiceOf b.strings b.shapes p).signature [] =
      contextSignature p.1)
    (hks : ks.Perm b.exact.keys) (n : ℕ) (site caller callee : Bytes) :
    ({ strings := b.strings, signatures, exact := b.exact
       fallback := ks.foldl (ChoiceTable.offerAny b.strings b.exact) {}
       contexts := n } : ContextSignatures).forEdge site caller callee =
      ((firstLeast (·.edgeKey callee) (edgeContexts site caller (log.map Prod.fst))).map
        contextSignature).getD absent := by
  rw [ContextSignatures.forEdge]
  dsimp only
  rcases hsite : b.strings.find site with _ | siteId
  · rw [h.edgeContexts_eq_nil (.inl hsite)]
    rfl
  rcases hcaller : b.strings.find caller with _ | callerId
  · rw [h.edgeContexts_eq_nil (.inr hcaller)]
    rfl
  dsimp only
  rw [h.exact_bind, h.entries_fallback hks, h.edgeContexts_eq hsite hcaller, firstLeast_map,
    firstLeast_edgeKey]
  have hsig' : ∀ {keep : LoggedContext → Bool} {p : LoggedContext},
      firstLeast (·.1.tied) ((log.filter (OfferedTo b.strings siteId callerId)).filter keep) =
        some p → signatures.getD (choiceOf b.strings b.shapes p).signature [] =
          contextSignature p.1 := fun hp =>
    hsig _ (List.mem_of_mem_filter (List.mem_of_mem_filter (least_of_firstLeast hp).mem))
  rcases hl : firstLeast (fun p : LoggedContext => p.1.tied)
    ((log.filter fun p => decide (OfferedTo b.strings siteId callerId p)).filter
      fun p => decide (p.1.calleeUsr = callee)) with _ | p
  · -- no context has the callee of the edge
    rcases hl' : firstLeast (fun p : LoggedContext => p.1.tied)
      (log.filter fun p => decide (OfferedTo b.strings siteId callerId p)) with _ | p
    · rfl
    · exact hsig _ (List.mem_of_mem_filter (least_of_firstLeast hl').mem)
  · exact hsig' hl

end SignatureBuild

/-- **The table answers as the choice among the contexts does.** -/
theorem exists_build_forEdge {contexts : List CallSiteContext}
    (hall : cf.forEachContext ll = some contexts)
    (walk : List SignatureKey → List SignatureKey) (hwalk : ∀ ks, (walk ks).Perm ks) :
    ∃ sigs, ContextSignatures.build ll cf walk = some sigs ∧ ∀ site caller callee,
      sigs.forEdge site caller callee =
        ((ControlFlowIndex.pickForEdge caller callee
          (contexts.filter (·.callSite = site))).map contextSignature).getD absent := by
  obtain ⟨records, hrecords, hdescribes⟩ := ControlFlowIndex.exists_forEachContextRecord hall
  obtain ⟨b, shapes, hb, h, hlen⟩ := (holds_start ll cf).exists_addRecords hdescribes
  obtain ⟨signatures, hsigs, hsig⟩ := h.exists_signatures
  rw [List.nil_append] at h hsig
  have hfst : (contexts.zip shapes).map Prod.fst = contexts := List.map_fst_zip hlen.ge
  refine ⟨{ strings := b.strings, signatures, exact := b.exact
            fallback := (walk b.exact.keys).foldl (ChoiceTable.offerAny b.strings b.exact) {}
            contexts := b.contexts }, ?_, fun site caller callee => ?_⟩
  · simp only [ContextSignatures.build, hrecords, hb, hsigs, Option.bind_eq_bind, Option.bind_some]
  · rw [h.forEdge hsig (hwalk _), hfst, ControlFlowIndex.pickForEdge_eq_firstLeast, edgeContexts]

end Vycor
