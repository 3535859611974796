import Vycor.Report.Findings

/-!
# A moved checkout

The findings of a project are to be the same wherever it is checked out. A diagnostic as a
function of the project root is a `RootedDiagnostic`: its paths under the root are named by
what follows the root. Locations go through path arithmetic and come out the same
(`relativeToRoot_absolutePath`). Messages are searched for the text of the root, so they come
out the same when that text stands nowhere but at the head of the paths
(`buildFindings_moved`); a directory inside the project that repeats the root is cut out of
the message too.
-/

namespace Vycor

/-! ### The paths of a diagnostic -/

/-- A path component other than `.` and `..`. -/
def PlainComponent (c : Bytes) : Prop := c ≠ [] ∧ c ≠ [46] ∧ c ≠ [46, 46] ∧ slash ∉ c

/-- An absolute path without dots or doubled slashes. -/
def DotFree (R : Bytes) : Prop :=
  ∃ cs : List Bytes, (∀ c ∈ cs, PlainComponent c) ∧ R = slash :: [slash].intercalate cs

/-- A path of a diagnostic: below the project root, or a text that does not follow it. -/
inductive Place where
  | below (p : Bytes)
  | elsewhere (s : Bytes)

/-- The path as it is spelled when the project lies at `R`. -/
def Place.under (R : Bytes) : Place → Bytes
  | .below p => R ++ slash :: p
  | .elsewhere s => s

/-- A message: its text before the first path, and every path with the text behind it. -/
structure RootedMessage where
  first : Bytes
  paths : List (Bytes × Bytes)

def RootedMessage.under (R : Bytes) (m : RootedMessage) : Bytes :=
  m.first ++ m.paths.flatMap fun p => R ++ slash :: p.1 ++ p.2

/-- The parts of a message between two roots. -/
def RootedMessage.segments (m : RootedMessage) : List Bytes :=
  m.first :: m.paths.map fun p => p.1 ++ p.2

/-- A diagnostic as a function of the project root. -/
structure RootedDiagnostic where
  kind : DiagnosticKind
  file : Place
  callLocation : Place
  resolvedDecl : Bytes
  betterDecl : Bytes
  missingHeader : Place
  message : RootedMessage
  checkName : Bytes
  entities : List Bytes
  scope : Bytes

def RootedDiagnostic.under (R : Bytes) (d : RootedDiagnostic) : Diagnostic where
  kind := d.kind
  file := d.file.under R
  callLocation := d.callLocation.under R
  resolvedDecl := d.resolvedDecl
  betterDecl := d.betterDecl
  missingHeader := d.missingHeader.under R
  message := d.message.under R
  checkName := d.checkName
  entities := d.entities
  scope := d.scope

/-- Every path under `R` is rewritten, and the text around the paths of the message holds
neither root. -/
structure RootedDiagnostic.Rewritten (R R' : Bytes) (d : RootedDiagnostic) : Prop where
  file : ∀ s, d.file = .elsewhere s → ¬ (R ++ [slash]) <+: s
  callLocation : ∀ s, d.callLocation = .elsewhere s → ¬ (R ++ [slash]) <+: s
  missingHeader : ∀ s, d.missingHeader = .elsewhere s → ¬ (R ++ [slash]) <+: s
  texts : ∀ t ∈ d.message.first :: d.message.paths.map Prod.snd,
    ¬ (R ++ [slash]) <:+: t ∧ ¬ (R' ++ [slash]) <:+: t

/-! ### Components -/

/-- Walking the components from `depth` directories below the start never leaves it. -/
def StaysBelow : ℕ → List Bytes → Prop
  | _, [] => True
  | depth, c :: cs =>
    if c = [] ∨ c = [46] then StaysBelow depth cs
    else if c = [46, 46] then 0 < depth ∧ StaysBelow (depth - 1) cs
    else StaysBelow (depth + 1) cs

theorem foldl_pushComponent_of_plain {cs : List Bytes} (h : ∀ c ∈ cs, PlainComponent c)
    (stack : List Bytes) : cs.foldl pushComponent stack = cs.reverse ++ stack := by
  induction cs generalizing stack with
  | nil => rfl
  | cons c cs ih =>
    obtain ⟨hne, hdot, hdots, -⟩ := h c (.head _)
    have hpush : pushComponent stack c = c :: stack := by
      rw [pushComponent, if_neg (not_or.mpr ⟨hne, hdot⟩), if_neg hdots]
    rw [List.foldl_cons, hpush, ih fun c' hc' => h c' (.tail _ hc')]
    simp

/-- What lies below the stack is not touched. -/
theorem foldl_pushComponent_append {cs : List Bytes} (base stack : List Bytes)
    (h : StaysBelow stack.length cs) :
    cs.foldl pushComponent (stack ++ base) = cs.foldl pushComponent stack ++ base := by
  induction cs generalizing stack with
  | nil => rfl
  | cons c cs ih =>
    rw [List.foldl_cons, List.foldl_cons]
    unfold StaysBelow at h
    unfold pushComponent
    split_ifs at h ⊢ with hskip hdots
    · exact ih stack h
    · obtain ⟨top, below, rfl⟩ := List.exists_cons_of_length_pos h.1
      exact ih below h.2
    · exact ih (c :: stack) h

theorem resolveDots_append {cs ps : List Bytes} (hcs : ∀ c ∈ cs, PlainComponent c)
    (hps : StaysBelow 0 ps) : resolveDots (cs ++ ps) = cs ++ resolveDots ps := by
  have hbase := foldl_pushComponent_append cs.reverse [] hps
  rw [List.nil_append] at hbase
  rw [resolveDots, List.foldl_append, foldl_pushComponent_of_plain hcs, List.append_nil, hbase,
    resolveDots, List.reverse_append, List.reverse_reverse]

theorem intercalate_append {sep : Bytes} {cs qs : List Bytes} (hcs : cs ≠ []) (hqs : qs ≠ []) :
    sep.intercalate (cs ++ qs) = sep.intercalate cs ++ sep ++ sep.intercalate qs := by
  induction cs with
  | nil => exact absurd rfl hcs
  | cons c cs ih =>
    rcases cs with _ | ⟨c', cs⟩
    · rw [List.singleton_append, List.intercalate_cons_of_ne_nil hqs, List.intercalate_singleton]
    · have hrest := ih (List.cons_ne_nil c' cs)
      rw [List.cons_append, List.intercalate_cons_of_ne_nil (by simp), hrest,
        List.intercalate_cons_cons]
      simp only [List.append_assoc]

/-! ### Roots -/

/-- A root that is not the root directory itself. -/
structure ProjectRoot (R : Bytes) (cs : List Bytes) : Prop where
  plain : ∀ c ∈ cs, PlainComponent c
  ne_nil : cs ≠ []
  eq : R = slash :: [slash].intercalate cs

namespace ProjectRoot

variable {R : Bytes} {cs : List Bytes}

theorem of_dotFree (h : DotFree R) (hne : R ≠ [slash]) : ∃ cs, ProjectRoot R cs := by
  obtain ⟨cs, hplain, heq⟩ := h
  refine ⟨cs, hplain, fun hnil => hne ?_, heq⟩
  rw [heq, hnil, List.intercalate_nil]

variable (h : ProjectRoot R cs)
include h

theorem ne_empty : R ≠ [] := by
  rw [h.eq]
  exact List.cons_ne_nil _ _

/-- The joined components begin and end with a byte of a component. -/
theorem intercalate_ends : [slash].intercalate cs ≠ [] ∧
    ([slash].intercalate cs).head? ≠ some slash ∧
      ([slash].intercalate cs).getLast? ≠ some slash := by
  obtain ⟨hplain, hne, -⟩ := h
  induction cs with
  | nil => exact absurd rfl hne
  | cons c cs ih =>
    obtain ⟨hc, -, -, hslash⟩ := hplain c (.head _)
    have hhead : c.head? ≠ some slash := fun heq => hslash (List.mem_of_head? heq)
    rcases cs with _ | ⟨c', cs⟩
    · rw [List.intercalate_singleton]
      exact ⟨hc, hhead, fun heq => hslash (List.mem_of_getLast? heq)⟩
    · obtain ⟨hrest, -, hlast⟩ := ih (fun c hc => hplain c (.tail _ hc)) (by simp)
      rw [List.intercalate_cons_cons, List.append_assoc]
      refine ⟨by simp [hc], ?_, ?_⟩
      · rwa [List.head?_append_of_ne_nil _ hc]
      · rw [List.getLast?_append_of_ne_nil _ (by simp), List.getLast?_append_of_ne_nil _ hrest]
        exact hlast

theorem getLast?_ne : R.getLast? ≠ some slash := by
  obtain ⟨hne, -, hlast⟩ := h.intercalate_ends
  rw [h.eq, ← List.singleton_append, List.getLast?_append_of_ne_nil _ hne]
  exact hlast

theorem one_lt_length : 1 < R.length := by
  have := List.length_pos_iff.mpr h.intercalate_ends.1
  rw [h.eq, List.length_cons]
  omega

theorem trimSlashes_eq (fuel : ℕ) : trimSlashes fuel R = R := by
  cases fuel with
  | zero => rfl
  | succ fuel => rw [trimSlashes, if_neg fun hc => h.getLast?_ne hc.2]

/-- A path below the root, made absolute and dot-free. -/
theorem removeDots_below {lib : PathLib} (hlib : lib.Posix) {p : Bytes}
    (hp : StaysBelow 0 (p.splitOn slash)) :
    lib.removeDots (R ++ slash :: p) =
      slash :: [slash].intercalate (cs ++ resolveDots (p.splitOn slash)) := by
  obtain ⟨hne, hhead, -⟩ := h.intercalate_ends
  have hsplit : ([slash].intercalate cs).splitOn slash = cs :=
    List.splitOn_intercalate slash (fun c hc => (h.plain c hc).2.2.2) h.ne_nil
  rw [h.eq, List.cons_append, hlib.removeDots, List.splitOn_append_cons_self, hsplit,
    resolveDots_append h.plain hp]
  rwa [List.head?_append_of_ne_nil _ hne]

/-- What `tryRelative` makes of a path below the root. -/
theorem tryRelative_below (qs : List Bytes) :
    tryRelative (slash :: [slash].intercalate (cs ++ qs)) R =
      some (if qs = [] then [46] else [slash].intercalate qs) := by
  have hroot : R ≠ [slash] := by
    intro heq
    have := h.one_lt_length
    simp [heq] at this
  rw [tryRelative, h.trimSlashes_eq]
  by_cases hqs : qs = []
  · rw [hqs, List.append_nil, ← h.eq, if_pos rfl, if_pos rfl]
  · -- a longer path is not the root
    have hlong : slash :: [slash].intercalate (cs ++ qs) = R ++ slash :: [slash].intercalate qs := by
      rw [intercalate_append h.ne_nil hqs, h.eq]
      simp
    have hself : R ++ slash :: [slash].intercalate qs ≠ R := by simp
    have hpre : R.isPrefixOf (R ++ slash :: [slash].intercalate qs) = true ∧
        (R ++ slash :: [slash].intercalate qs)[R.length]? = some slash := by simp
    rw [hlong, if_neg hself, if_neg hroot, if_pos hpre, if_neg hqs]
    simp

/-- What `relativeToRoot` makes of a path below the root. -/
theorem relativeToRoot_below {lib : PathLib} (hlib : lib.Posix) (realPath : Bytes → Option Bytes)
    {p : Bytes} (hp : StaysBelow 0 (p.splitOn slash)) :
    relativeToRoot realPath (lib.removeDots (R ++ slash :: p)) R =
      if resolveDots (p.splitOn slash) = [] then [46]
      else [slash].intercalate (resolveDots (p.splitOn slash)) := by
  rw [relativeToRoot, h.removeDots_below hlib hp,
    if_neg (not_or.mpr ⟨h.ne_empty, List.cons_ne_nil _ _⟩), h.tryRelative_below]

end ProjectRoot

/-! ### Files and locations -/

/-- Neither the path nor what it resolves to lies under the root. -/
def Outside (realPath : Bytes → Option Bytes) (R path : Bytes) : Prop :=
  tryRelative path R = none ∧ ∀ real ∈ realPath path, tryRelative real R = none

/-- The file systems of the two runs, and the two roots. -/
structure Checkouts where
  lib : PathLib
  realPath : Bytes → Option Bytes
  realPath' : Bytes → Option Bytes
  R : Bytes
  R' : Bytes

/-- Two roots without symbolic links. -/
structure Checkouts.Plain (c : Checkouts) : Prop where
  posix : c.lib.Posix
  dotFree : DotFree c.R
  dotFree' : DotFree c.R'
  noLinks : ∀ real ∈ c.realPath c.R, real = c.R
  noLinks' : ∀ real ∈ c.realPath' c.R', real = c.R'

/-- The path does not climb out of the project; if it is absolute and does not follow the
project, it lies outside both roots. -/
def Place.Stays (c : Checkouts) : Place → Prop
  | .below p => StaysBelow 0 (p.splitOn slash)
  | .elsewhere s =>
    s = [] ∨ (s.head? ≠ some slash ∧ StaysBelow 0 (s.splitOn slash)) ∨
      (s.head? = some slash ∧ Outside c.realPath c.R (c.lib.removeDots s) ∧
        Outside c.realPath' c.R' (c.lib.removeDots s))

theorem relativeToRoot_outside {realPath : Bytes → Option Bytes} {R path : Bytes}
    (hlinks : ∀ real ∈ realPath R, real = R) (h : Outside realPath R path) :
    relativeToRoot realPath path R = path := by
  rw [relativeToRoot]
  split_ifs with hempty
  · rfl
  · have hroot : ¬ ((realPath R).isSome = true ∧ (realPath R).getD [] ≠ R) := by
      rintro ⟨hsome, hne⟩
      obtain ⟨real, hreal⟩ := Option.isSome_iff_exists.mp hsome
      rw [hreal, Option.getD_some] at hne
      exact hne (hlinks real hreal)
    rw [h.1]
    dsimp only
    rw [if_neg hroot]
    cases hpath : realPath path with
    | none => rfl
    | some real =>
      dsimp only
      rw [h.2 real hpath]
      have hreal : (if (realPath R).getD [] ≠ [] then
          tryRelative real ((realPath R).getD []) else none) = none := by
        cases hR : realPath R with
        | none => rfl
        | some realRoot => rw [Option.getD_some, hlinks realRoot hR, h.2 real hpath, ite_self]
      rw [hreal]
      split_ifs with hne
      · rfl
      · rfl

theorem Place.under_eq_nil {R : Bytes} {place : Place} :
    place.under R = [] ↔ place = .elsewhere [] := by
  cases place with
  | below p => simp [Place.under]
  | elsewhere s => simp [Place.under]

section Moved

variable {c : Checkouts} (h : c.Plain) (hR : c.R ≠ [slash]) (hR' : c.R' ≠ [slash])
include h hR hR'

/-- **A path that stays in the project is displayed the same from either root.** -/
theorem relativeToRoot_absolutePath {place : Place} (hplace : place.Stays c) :
    relativeToRoot c.realPath (absolutePath c.lib (place.under c.R) c.R) c.R =
      relativeToRoot c.realPath' (absolutePath c.lib (place.under c.R') c.R') c.R' := by
  obtain ⟨cs, hroot⟩ := ProjectRoot.of_dotFree h.dotFree hR
  obtain ⟨cs', hroot'⟩ := ProjectRoot.of_dotFree h.dotFree' hR'
  have hhead : c.R.head? = some slash := by rw [hroot.eq, List.head?_cons]
  have hhead' : c.R'.head? = some slash := by rw [hroot'.eq, List.head?_cons]
  cases place with
  | below p =>
    have habs : absolutePath c.lib (c.R ++ slash :: p) c.R =
        c.lib.removeDots (c.R ++ slash :: p) := by
      rw [absolutePath, if_neg (by simp), h.posix.isAbsolute,
        List.head?_append_of_ne_nil _ hroot.ne_empty, hhead]
      simp
    have habs' : absolutePath c.lib (c.R' ++ slash :: p) c.R' =
        c.lib.removeDots (c.R' ++ slash :: p) := by
      rw [absolutePath, if_neg (by simp), h.posix.isAbsolute,
        List.head?_append_of_ne_nil _ hroot'.ne_empty, hhead']
      simp
    rw [Place.under, Place.under, habs, habs', hroot.relativeToRoot_below h.posix _ hplace,
      hroot'.relativeToRoot_below h.posix _ hplace]
  | elsewhere s =>
    rw [Place.under, Place.under]
    rcases hplace with rfl | ⟨hrel, hstays⟩ | ⟨habs, hout, hout'⟩
    · simp [absolutePath, relativeToRoot]
    · -- a relative path is taken below the root
      have hjoin : ∀ {R : Bytes} {cs : List Bytes}, ProjectRoot R cs →
          absolutePath c.lib s R = if s = [] then [] else c.lib.removeDots (R ++ slash :: s) := by
        intro R cs hroot
        rw [absolutePath, h.posix.isAbsolute, decide_eq_false hrel,
          h.posix.append R s hroot.ne_empty hroot.getLast?_ne hrel]
        rfl
      rw [hjoin hroot, hjoin hroot']
      split_ifs with hnil
      · simp [relativeToRoot]
      · rw [hroot.relativeToRoot_below h.posix _ hstays,
          hroot'.relativeToRoot_below h.posix _ hstays]
    · have hne : s ≠ [] := by
        rintro rfl
        cases habs
      have hdots : ∀ R, absolutePath c.lib s R = c.lib.removeDots s := by
        intro R
        rw [absolutePath, if_neg hne, h.posix.isAbsolute, decide_eq_true habs]
        rfl
      rw [hdots, hdots, relativeToRoot_outside h.noLinks hout,
        relativeToRoot_outside h.noLinks' hout']

end Moved

theorem cutLastColon_append (a b : Bytes) :
    cutLastColon (a ++ b) =
      match cutLastColon b with
      | some (before, behind) => some (a ++ before, behind)
      | none => (cutLastColon a).map fun s => (s.1, s.2 ++ b) := by
  induction a with
  | nil =>
    rcases hb : cutLastColon b with _ | ⟨before, behind⟩
    · simp [hb, cutLastColon]
    · simp [hb]
  | cons x a ih =>
    rw [List.cons_append, cutLastColon, ih]
    rcases cutLastColon b with _ | ⟨before, behind⟩
    · rw [cutLastColon]
      rcases cutLastColon a with _ | ⟨before, behind⟩
      · simp only [Option.map_none]
        split_ifs with hx
        · rfl
        · rfl
      · rfl
    · rfl

/-- A number behind a colon is never part of the root. -/
theorem trailingNumber_below (R p : Bytes) :
    trailingNumber (R ++ slash :: p) =
      (trailingNumber p).map fun s => (R ++ slash :: s.1, s.2) := by
  have hcolon : slash ≠ 58 := by decide
  rw [trailingNumber, trailingNumber, cutLastColon_append, cutLastColon]
  rcases cutLastColon p with _ | ⟨before, behind⟩
  · dsimp only
    rw [if_neg hcolon]
    rcases cutLastColon R with _ | ⟨before, behind⟩
    · rfl
    · have hnum : asUnsigned (behind ++ slash :: p) = none := by
        rw [asUnsigned, if_neg]
        have hdigit : isDecimal slash = false := by decide
        simp [hdigit]
      simp [hnum]
  · simp [Function.comp_def]

/-- A location as a path, a line and a column. -/
def Place.located : Place → Place × ℕ × ℕ
  | .below p => (.below (splitLocation p).1, (splitLocation p).2)
  | .elsewhere s => (.elsewhere (splitLocation s).1, (splitLocation s).2)

theorem splitLocation_under (R : Bytes) (place : Place) :
    splitLocation (place.under R) = (place.located.1.under R, place.located.2) := by
  cases place with
  | elsewhere s => rfl
  | below p =>
    rw [Place.under, splitLocation, trailingNumber_below, Place.located, splitLocation, Place.under]
    rcases trailingNumber p with _ | ⟨rest, n⟩
    · rfl
    · simp only [Option.map_some]
      rw [trailingNumber_below]
      rcases trailingNumber rest with _ | ⟨path, line⟩
      · rfl
      · rfl

/-! ### Messages -/

theorem RootedMessage.under_eq (R : Bytes) (m : RootedMessage) :
    m.under R = (R ++ [slash]).intercalate m.segments := by
  obtain ⟨first, paths⟩ := m
  rw [RootedMessage.under, RootedMessage.segments]
  induction paths generalizing first with
  | nil => simp
  | cons p paths ih =>
    rw [List.map_cons, List.intercalate_cons_cons, ← ih, List.flatMap_cons]
    simp

/-- Where the text of the root stands only at the head of the paths, it is cut out there. -/
theorem stripProjectRoot_under {realPath : Bytes → Option Bytes} {R : Bytes} {cs : List Bytes}
    (h : ProjectRoot R cs) (hlinks : ∀ real ∈ realPath R, real = R) {m : RootedMessage}
    (hm : OnlyBetween (R ++ [slash]) m.segments) :
    stripProjectRoot realPath (m.under R) R = m.segments.flatten := by
  have hcut : stripOne R (m.under R) = m.segments.flatten := by
    have hlen : ¬ R.length ≤ 1 := Nat.not_le.mpr h.one_lt_length
    rw [stripOne, h.trimSlashes_eq, if_neg hlen, RootedMessage.under_eq]
    exact cutAll_intercalate (by simp) hm le_rfl
  rw [stripProjectRoot, hcut]
  split_ifs with hempty
  · -- an empty message
    have hnil := hempty.resolve_left h.ne_empty
    rw [hnil] at hcut ⊢
    rw [← hcut, stripOne, List.length_nil, cutAll, ite_self]
  · cases hreal : realPath R with
    | none => rfl
    | some real => simp [hlinks real hreal]

/-! ### Findings -/

/-- The paths of a diagnostic stay in the project, and in its message the text of either root
stands only at the head of the paths. -/
structure RootedDiagnostic.Stays (c : Checkouts) (d : RootedDiagnostic) : Prop where
  file : d.file.Stays c
  callLocation : d.callLocation.located.1.Stays c
  missingHeader : d.missingHeader.Stays c
  message : OnlyBetween (c.R ++ [slash]) d.message.segments
  message' : OnlyBetween (c.R' ++ [slash]) d.message.segments

theorem findingBefore_eq (a b : Finding) :
    findingBefore a b = decide (a.shown < b.shown) := by
  have hlt : a.shown < b.shown ↔
      a.tied < b.tied ∨ a.tied = b.tied ∧ a.fingerprint < b.fingerprint := Prod.Lex.toLex_lt_toLex
  rw [findingBefore, lessFinding, lessFinding, Bool.eq_iff_iff]
  simp only [decide_eq_true_iff, hlt]
  rcases lt_trichotomy a.tied b.tied with hab | hab | hab
  · simp [hab]
  · simp [hab]
  · simp [hab, not_lt_of_gt hab, hab.ne']

theorem sameFinding_iff (a b : Finding) : sameFinding a b = true ↔ a.shown = b.shown := by
  have heq : a.shown = b.shown ↔ a.tied = b.tied ∧ a.fingerprint = b.fingerprint := by
    rw [Finding.shown, Finding.shown, toLex_inj, Prod.mk.injEq]
  rw [sameFinding, lessFinding, lessFinding, heq]
  rcases lt_trichotomy a.tied b.tied with hab | hab | hab
  · simp [hab, hab.ne]
  · simp [hab]
  · simp [hab, hab.ne']

section Findings

variable (ll : Llvm) {c : Checkouts} (h : c.Plain) (hR : c.R ≠ [slash]) (hR' : c.R' ≠ [slash])
include h hR hR'

/-- The identity names the missing header by its path below the root. -/
theorem findingIdentity_under {d : RootedDiagnostic} (hd : d.Stays c)
    (hmessage : stripProjectRoot c.realPath (d.under c.R).message c.R =
      stripProjectRoot c.realPath' (d.under c.R').message c.R') :
    findingIdentity c.lib c.realPath (d.under c.R) c.R =
      findingIdentity c.lib c.realPath' (d.under c.R') c.R' := by
  have hheader : relativeToRoot c.realPath
      (absolutePath c.lib (d.under c.R).missingHeader c.R) c.R =
        relativeToRoot c.realPath' (absolutePath c.lib (d.under c.R').missingHeader c.R') c.R' :=
    relativeToRoot_absolutePath h hR hR' hd.missingHeader
  have hnil : (d.under c.R).missingHeader = [] ↔ (d.under c.R').missingHeader = [] :=
    Place.under_eq_nil.trans Place.under_eq_nil.symm
  have hsame : ∀ R, (d.under R).entities = d.entities ∧ (d.under R).resolvedDecl = d.resolvedDecl ∧
      (d.under R).betterDecl = d.betterDecl ∧ (d.under R).scope = d.scope :=
    fun R => ⟨rfl, rfl, rfl, rfl⟩
  obtain ⟨hentities, hresolved, hbetter, hscope⟩ := hsame c.R
  obtain ⟨hentities', hresolved', hbetter', hscope'⟩ := hsame c.R'
  simp only [findingIdentity, messageIdentity, hmessage, hheader, hnil, hentities, hresolved,
    hbetter, hscope, hentities', hresolved', hbetter', hscope', ne_eq]

/-- **One diagnostic shows as the same finding from either root.** -/
theorem shown_findingOf {d : RootedDiagnostic} (hd : d.Stays c) :
    (findingOf ll c.lib c.realPath c.R false (d.under c.R)).shown =
      (findingOf ll c.lib c.realPath' c.R' false (d.under c.R')).shown := by
  obtain ⟨cs, hroot⟩ := ProjectRoot.of_dotFree h.dotFree hR
  obtain ⟨cs', hroot'⟩ := ProjectRoot.of_dotFree h.dotFree' hR'
  have hmessage : stripProjectRoot c.realPath (d.under c.R).message c.R =
      stripProjectRoot c.realPath' (d.under c.R').message c.R' :=
    (stripProjectRoot_under hroot h.noLinks hd.message).trans
      (stripProjectRoot_under hroot' h.noLinks' hd.message').symm
  have hcheck : checkNameOf (d.under c.R) = checkNameOf (d.under c.R') := rfl
  have hkind : diagnosticKindName (d.under c.R).kind = diagnosticKindName (d.under c.R').kind := rfl
  -- the path is that of the location, or else the file
  have hfile : ∃ place : Place, place.Stays c ∧ ∀ R,
      (if (splitLocation (d.under R).callLocation).1 = [] then (d.under R).file
        else (splitLocation (d.under R).callLocation).1) = place.under R := by
    have hsplit : ∀ R, splitLocation (d.under R).callLocation =
        (d.callLocation.located.1.under R, d.callLocation.located.2) :=
      fun R => splitLocation_under R d.callLocation
    by_cases hnil : d.callLocation.located.1 = .elsewhere []
    · refine ⟨d.file, hd.file, fun R => ?_⟩
      rw [hsplit, if_pos (Place.under_eq_nil.mpr hnil)]
      rfl
    · refine ⟨d.callLocation.located.1, hd.callLocation, fun R => ?_⟩
      rw [hsplit, if_neg fun he => hnil (Place.under_eq_nil.mp he)]
  obtain ⟨place, hplace, hspelled⟩ := hfile
  have hrel := relativeToRoot_absolutePath h hR hR' hplace
  have hlines : (splitLocation (d.under c.R).callLocation).2 =
      (splitLocation (d.under c.R').callLocation).2 :=
    (congrArg Prod.snd (splitLocation_under c.R d.callLocation)).trans
      (congrArg Prod.snd (splitLocation_under c.R' d.callLocation)).symm
  have hidentity := findingIdentity_under h hR hR' hd hmessage
  simp only [Finding.shown, Finding.tied, findingOf, hcheck, hkind, hidentity, hspelled, hrel,
    hmessage, hlines, Bool.false_eq_true, if_false]

/-- **The findings survive a moved checkout**: whatever the order of the diagnostics, file,
line, column, check, kind, message and fingerprint of every finding are the same from either
root. -/
theorem buildFindings_moved (sort sort' : Sorter findingBefore) {ds : List RootedDiagnostic}
    (hds : ∀ d ∈ ds, d.Stays c) {moved : List Diagnostic}
    (hmoved : moved.Perm (ds.map (RootedDiagnostic.under c.R'))) :
    (buildFindings ll c.lib c.realPath sort (ds.map (RootedDiagnostic.under c.R)) c.R false).map
        Finding.shown =
      (buildFindings ll c.lib c.realPath' sort' moved c.R' false).map Finding.shown := by
  refine Sorter.map_destutter_eq findingBefore_eq sort sort' sameFinding_iff ?_
  have hshown : ((ds.map (RootedDiagnostic.under c.R)).map
      (findingOf ll c.lib c.realPath c.R false)).map Finding.shown =
        ((ds.map (RootedDiagnostic.under c.R')).map
          (findingOf ll c.lib c.realPath' c.R' false)).map Finding.shown := by
    simp only [List.map_map]
    exact List.map_congr_left fun d hd => shown_findingOf ll h hR hR' (hds d hd)
  rw [hshown]
  exact ((hmoved.map _).map _).symm

end Findings

/-- Path functions that follow the documentation on absolute paths. -/
def posixPaths : PathLib where
  isAbsolute p := decide (p.head? = some slash)
  append base p :=
    if base = [] ∨ base.getLast? = some slash then base ++ p else base ++ slash :: p
  removeDots
    | 47 :: p => slash :: [slash].intercalate (resolveDots (p.splitOn slash))
    | p => [slash].intercalate (resolveDots (p.splitOn slash))

theorem posix_posixPaths : posixPaths.Posix where
  isAbsolute _ := rfl
  append base p hne hlast _ := by simp [posixPaths, hne, hlast]
  removeDots _ _ := rfl

/-- A project at `/src` that moves to `/home`. -/
def srcToHome : Checkouts where
  lib := posixPaths
  realPath := some
  realPath' := some
  R := [47, 115, 114, 99]
  R' := [47, 104, 111, 109, 101]

theorem plain_srcToHome : srcToHome.Plain where
  posix := posix_posixPaths
  dotFree := ⟨[[115, 114, 99]], by simp [PlainComponent, slash], by decide⟩
  dotFree' := ⟨[[104, 111, 109, 101]], by simp [PlainComponent, slash], by decide⟩
  noLinks _ hreal := (Option.some_inj.mp hreal).symm
  noLinks' _ hreal := (Option.some_inj.mp hreal).symm

/-- A finding of an organization check in the file `a`, line 3, whose message is the path of
the given file. -/
def findingAbout (p : Bytes) : RootedDiagnostic where
  kind := .Custom
  file := .elsewhere []
  callLocation := .below [97, 58, 51]
  resolvedDecl := []
  betterDecl := []
  missingHeader := .elsewhere []
  message := ⟨[], [(p, [])]⟩
  checkName := []
  entities := []
  scope := []

/-- The message names the file `b` of the project. -/
theorem buildFindings_moved_b :
    (buildFindings utf8Llvm posixPaths some (.byKey Finding.shown findingBefore_eq)
        [(findingAbout [98]).under srcToHome.R] srcToHome.R false).map Finding.shown =
      (buildFindings utf8Llvm posixPaths some (.byKey Finding.shown findingBefore_eq)
        [(findingAbout [98]).under srcToHome.R'] srcToHome.R' false).map Finding.shown := by
  have hstays : (findingAbout [98]).Stays srcToHome :=
    { file := .inl rfl
      callLocation := by
        have hpath : (findingAbout [98]).callLocation.located.1 = .below [97] := rfl
        have hsplit : ([97] : Bytes).splitOn slash = [[97]] := by decide
        rw [hpath, Place.Stays, hsplit]
        simp [StaysBelow]
      missingHeader := .inl rfl
      message := by decide
      message' := by decide }
  have hall : ∀ d ∈ [findingAbout [98]], d.Stays srcToHome := by simpa using hstays
  exact buildFindings_moved utf8Llvm plain_srcToHome (by decide) (by decide) _ _ hall (.refl _)

/-- The file `lib/src/a`: the root `/src/` stands in its path a second time. -/
theorem moved_message_differs :
    ¬ ∀ (ll : Llvm) (c : Checkouts), c.Plain → ∀ (sort sort' : Sorter findingBefore)
      (ds : List RootedDiagnostic), (∀ d ∈ ds, d.Rewritten c.R c.R') →
        ∀ moved : List Diagnostic, moved.Perm (ds.map (RootedDiagnostic.under c.R')) →
          (buildFindings ll c.lib c.realPath sort (ds.map (RootedDiagnostic.under c.R)) c.R
              false).map Finding.shown =
            (buildFindings ll c.lib c.realPath' sort' moved c.R' false).map Finding.shown := by
  intro hall
  have hrewritten : (findingAbout [108, 105, 98, 47, 115, 114, 99, 47, 97]).Rewritten srcToHome.R
      srcToHome.R' :=
    { file := by
        rintro s ⟨⟩
        decide
      callLocation := by
        rintro s ⟨⟩
      missingHeader := by
        rintro s ⟨⟩
        decide
      texts := by decide }
  have heq := hall utf8Llvm srcToHome plain_srcToHome (.byKey Finding.shown findingBefore_eq)
    (.byKey Finding.shown findingBefore_eq) [findingAbout [108, 105, 98, 47, 115, 114, 99, 47, 97]]
    (by simpa using hrewritten) _ (.refl _)
  have hmessage : ∀ {a b : Finding}, [a].map Finding.shown = [b].map Finding.shown →
      a.message = b.message := by
    intro a b hab
    simp only [List.map_singleton, List.cons.injEq, Finding.shown, Finding.tied, toLex_inj,
      Prod.mk.injEq, and_true] at hab
    exact hab.1.2.2.2.2.2
  exact absurd (hmessage heq) (by decide)

end Vycor
