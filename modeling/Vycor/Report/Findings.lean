import Vycor.Report.Paths
import Vycor.Check.Journal
import Vycor.Lib.StdSort
import Mathlib.Data.Prod.Lex
import Mathlib.Order.Lex

/-!
# Findings

`buildFindings` turns diagnostics into findings: located relative to the project root,
with a fingerprint that names what was found and not where. The list is sorted and equal
findings are merged.
-/

namespace Vycor

/-! ### Names and severities -/

/-- `Severity`. -/
inductive Severity where
  | note | warning | error
  deriving DecidableEq, Repr

/-- `diagnosticKindName`. -/
def diagnosticKindName : DiagnosticKind → Bytes
  | .ADL_Fallback => text "ADL_Fallback"
  | .ADL_Ambiguity => text "ADL_Ambiguity"
  | .ADL_SameScore => text "ADL_SameScore"
  | .CTAD_Fallback => text "CTAD_Fallback"
  | .Coverage_GVAMismatch => text "Coverage_GVAMismatch"
  | .Coverage_DiscardableODR => text "Coverage_DiscardableODR"
  | .Coverage_AvailableExternally => text "Coverage_AvailableExternally"
  | .Coverage_PropertyDivergence => text "Coverage_PropertyDivergence"
  | .DeadCode_Pessimistic => text "DeadCode_Pessimistic"
  | .DeadCode_Optimistic => text "DeadCode_Optimistic"
  | .ODR_DuplicateDefinition => text "ODR_DuplicateDefinition"
  | .ODR_DivergentDefinition => text "ODR_DivergentDefinition"
  | .Specialization_Invisible => text "Specialization_Invisible"
  | .DefaultArg_Divergent => text "DefaultArg_Divergent"
  | .StaticInit_OrderDependency => text "StaticInit_OrderDependency"
  | .StaticInit_Hazard => text "StaticInit_Hazard"
  | .Exception_Escape => text "Exception_Escape"
  | .HeaderStatic_Duplicated => text "HeaderStatic_Duplicated"
  | .ExceptionSpec_Divergent => text "ExceptionSpec_Divergent"
  | .Custom => text "Custom"

/-- `checkNameOf`. -/
def checkNameOf (diag : Diagnostic) : Bytes :=
  match diag.kind with
  | .ADL_Fallback | .ADL_Ambiguity | .ADL_SameScore => text "adl-visibility"
  | .CTAD_Fallback => text "ctad-visibility"
  | .Specialization_Invisible => text "specialization-visibility"
  | .Coverage_GVAMismatch | .Coverage_DiscardableODR | .Coverage_AvailableExternally
  | .Coverage_PropertyDivergence => text "coverage-properties"
  | .DeadCode_Pessimistic | .DeadCode_Optimistic => text "dead-code"
  | .ODR_DuplicateDefinition | .ODR_DivergentDefinition => text "odr-violations"
  | .DefaultArg_Divergent => text "default-arg-divergence"
  | .StaticInit_OrderDependency => text "static-init-order"
  | .StaticInit_Hazard => text "static-init-hazards"
  | .Exception_Escape => text "exception-escape"
  | .HeaderStatic_Duplicated => text "header-static-duplication"
  | .ExceptionSpec_Divergent => text "exception-spec-divergence"
  | .Custom => if diag.checkName = [] then text "custom" else diag.checkName

/-- The table of `checkSeverity`. -/
def severityTable : List (Bytes × Severity) :=
  [(text "adl-visibility", .warning), (text "ctad-visibility", .warning),
    (text "specialization-visibility", .error), (text "default-arg-divergence", .warning),
    (text "static-init-order", .warning), (text "static-init-hazards", .warning),
    (text "header-static-duplication", .warning), (text "exception-spec-divergence", .error),
    (text "exception-escape", .note), (text "odr-violations", .error),
    (text "coverage-properties", .note), (text "dead-code", .note)]

/-- `checkSeverity`. -/
def checkSeverity (check : Bytes) : Severity :=
  ((severityTable.find? (·.1 = check)).map Prod.snd).getD .warning

/-- `diagnosticSeverity`. -/
def diagnosticSeverity (diag : Diagnostic) : Severity :=
  if diag.kind = .ADL_SameScore ∨ diag.kind = .DeadCode_Optimistic then .note
  else checkSeverity (checkNameOf diag)

/-! ### Fingerprints -/

/-- The text behind a match of `:[0-9]+(:[0-9]+)?` at the head, the longest one. -/
def lineRefAt : Bytes → Option Bytes
  | 58 :: c :: s =>
    if isDecimal c then
      let rest := s.dropWhile isDecimal
      match rest with
      | 58 :: d :: t => if isDecimal d then some (t.dropWhile isDecimal) else some rest
      | _ => some rest
    else none
  | _ => none

/-- `lineRef.sub("", out)`: the text without the first match. -/
def subLineRef : Bytes → Bytes
  | [] => []
  | c :: s =>
    match lineRefAt (c :: s) with
    | some rest => rest
    | none => c :: subLineRef s

/-- The loop of `messageIdentity`, until nothing changes; the first argument is fuel. -/
def dropLineRefs : ℕ → Bytes → Bytes
  | 0, out => out
  | fuel + 1, out =>
    if subLineRef out = out then out else dropLineRefs fuel (subLineRef out)

theorem length_lineRefAt_lt {s rest : Bytes} (h : lineRefAt s = some rest) :
    rest.length < s.length := by
  unfold lineRefAt at h
  split at h
  next c s =>
    have hdrop := List.length_dropWhile_le isDecimal s
    split_ifs at h with hc
    dsimp only at h
    split at h
    next d t heq =>
      have hdrop' := List.length_dropWhile_le isDecimal t
      rw [heq, List.length_cons, List.length_cons] at hdrop
      split_ifs at h with hd
      · rw [← Option.some_inj.mp h, List.length_cons, List.length_cons]
        omega
      · rw [← Option.some_inj.mp h, heq, List.length_cons, List.length_cons, List.length_cons,
          List.length_cons]
        omega
    next =>
      rw [← Option.some_inj.mp h, List.length_cons, List.length_cons]
      omega
  next => cases h

theorem length_subLineRef_lt {s : Bytes} (h : subLineRef s ≠ s) :
    (subLineRef s).length < s.length := by
  induction s with
  | nil => exact absurd rfl h
  | cons c s ih =>
    rw [subLineRef] at h ⊢
    rcases href : lineRefAt (c :: s) with _ | rest
    · rw [href] at h
      dsimp only at h ⊢
      have := ih fun heq => h (by rw [heq])
      rw [List.length_cons, List.length_cons]
      omega
    · exact length_lineRefAt_lt href

/-- The loop runs until no line reference is left. -/
theorem subLineRef_dropLineRefs {fuel : ℕ} {out : Bytes} (h : out.length ≤ fuel) :
    subLineRef (dropLineRefs fuel out) = dropLineRefs fuel out := by
  induction fuel generalizing out with
  | zero =>
    obtain rfl := List.length_eq_zero_iff.mp (Nat.le_zero.mp h)
    rfl
  | succ fuel ih =>
    rw [dropLineRefs]
    split_ifs with hsame
    · exact hsame
    · have := length_subLineRef_lt hsame
      exact ih (by omega)

/-- `utohexstr` in lower case, with `width` digits. -/
def hexDigits (n : ℕ) : ℕ → Bytes
  | 0 => []
  | width + 1 =>
    let digit := n / 16 ^ width % 16
    (if digit < 10 then 48 + UInt8.ofNat digit else 87 + UInt8.ofNat digit) :: hexDigits n width

/-- `findingFingerprint`. -/
def findingFingerprint (ll : Llvm) (check kind file : Bytes) (identity : List Bytes) : Bytes :=
  let key := text "vycor-finding/v1" ++ 0 :: check ++ 0 :: kind ++ 0 :: file ++
    identity.flatMap fun part => 0 :: part
  hexDigits (ll.xxh3_64bits key) 16

/-- `Finding`. -/
structure Finding where
  check : Bytes
  kind : Bytes
  severity : Severity
  path : Bytes
  file : Bytes
  line : ℕ
  column : ℕ
  message : Bytes
  fingerprint : Bytes
  deriving DecidableEq, Repr

namespace Finding

/-- The fields `lessFinding` compares, one after the other. -/
abbrev tied (f : Finding) : Bytes ×ₗ ℕ ×ₗ ℕ ×ₗ Bytes ×ₗ Bytes ×ₗ Bytes :=
  toLex (f.file, toLex (f.line, toLex (f.column, toLex (f.check, toLex (f.kind, f.message)))))

/-- What a finding shows: everything but the severity and the absolute path. -/
def shown (f : Finding) : (Bytes ×ₗ ℕ ×ₗ ℕ ×ₗ Bytes ×ₗ Bytes ×ₗ Bytes) ×ₗ Bytes :=
  toLex (f.tied, f.fingerprint)

end Finding

/-- `lessFinding`. -/
def lessFinding (a b : Finding) : Bool := decide (a.tied < b.tied)

/-- The comparison `buildFindings` sorts by. -/
def findingBefore (a b : Finding) : Bool :=
  if lessFinding a b then true
  else if lessFinding b a then false
  else decide (a.fingerprint < b.fingerprint)

/-- The test `buildFindings` gives to `std::unique`. -/
def sameFinding (a b : Finding) : Bool :=
  !lessFinding a b && !lessFinding b a && decide (a.fingerprint = b.fingerprint)

section Build

variable (ll : Llvm) (lib : PathLib) (realPath : Bytes → Option Bytes)

/-- `messageIdentity`. -/
def messageIdentity (message projectRoot : Bytes) : Bytes :=
  let out := stripProjectRoot realPath message projectRoot
  dropLineRefs out.length out

/-- `findingIdentity`. -/
def findingIdentity (diag : Diagnostic) (projectRoot : Bytes) : List Bytes :=
  let identity :=
    if diag.entities ≠ [] then diag.entities
    else if diag.resolvedDecl ≠ [] ∨ diag.betterDecl ≠ [] ∨ diag.missingHeader ≠ [] then
      [diag.resolvedDecl, diag.betterDecl,
        if diag.missingHeader = [] then []
        else relativeToRoot realPath (absolutePath lib diag.missingHeader projectRoot) projectRoot]
    else [messageIdentity realPath diag.message projectRoot]
  if diag.scope ≠ [] then identity ++ [text "scope=" ++ diag.scope] else identity

/-- One finding, before the list is sorted. -/
def findingOf (projectRoot : Bytes) (absolutePaths : Bool) (diag : Diagnostic) : Finding :=
  let check := checkNameOf diag
  let kind := diagnosticKindName diag.kind
  let loc := splitLocation diag.callLocation
  let spelled := if loc.1 = [] then diag.file else loc.1
  let path := absolutePath lib spelled projectRoot
  let relFile := relativeToRoot realPath path projectRoot
  { check
    kind
    severity := diagnosticSeverity diag
    path
    file := if absolutePaths then path else relFile
    line := loc.2.1
    column := loc.2.2
    message := if absolutePaths then diag.message
      else stripProjectRoot realPath diag.message projectRoot
    fingerprint := findingFingerprint ll check kind relFile
      (findingIdentity lib realPath diag projectRoot) }

/-- `buildFindings`. -/
def buildFindings (sort : Sorter findingBefore) (diags : List Diagnostic) (projectRoot : Bytes)
    (absolutePaths : Bool) : List Finding :=
  (sort.run (diags.map (findingOf ll lib realPath projectRoot absolutePaths))).destutter
    fun a b => ¬ sameFinding a b

end Build

end Vycor
