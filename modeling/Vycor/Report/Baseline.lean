import Vycor.Impact.Patch
import Vycor.Lib.Grouped
import Vycor.Query.Json
import Vycor.Report.Findings

/-!
# Baselines

A baseline is a multiset of fingerprints. It is written from a list of findings, one entry a
fingerprint with its count, and read back from either version of the format; of the findings
of a run, as many of each fingerprint as the baseline counts are removed. Which of several
findings of one fingerprint are new cannot be known: those on changed lines are reported
first, then those earlier in the report.

The JSON parser and printer of the LLVM support library are parameters.
-/

namespace Vycor

/-- `kBaselineVersion`. -/
def kBaselineVersion : ℤ := 2

/-- `BaselineEntry`. -/
structure BaselineEntry where
  fingerprint : Bytes
  count : ℕ := 1
  check : Bytes := []
  file : Bytes := []
  message : Bytes := []
  deriving DecidableEq, Repr

/-! ### Writing -/

/-- The entry of a fingerprint and the findings that carry it, an `unsigned` count and the
fields of the first finding. -/
def baselineEntryOf (group : Bytes × List Finding) : BaselineEntry where
  fingerprint := group.1
  count := group.2.length % 2 ^ 32
  check := (group.2.head?.map (·.check)).getD []
  file := (group.2.head?.map (·.file)).getD []
  message := (group.2.head?.map (·.message)).getD []

/-- An entry of the file. -/
def baselineEntryToJson (e : BaselineEntry) : Json :=
  .object [(text "fingerprint", .string e.fingerprint), (text "count", .count e.count),
    (text "check", .string e.check), (text "file", .string e.file),
    (text "message", .string e.message)]

/-- The document of `writeBaselineFile`. -/
def baselineDocument (findings : List Finding) : Json :=
  .object [(text "version", .integer kBaselineVersion), (text "tool", .string (text "vycor-cpp check")),
    (text "findings", .array ((groupedBy (·.fingerprint) findings).map fun group =>
      baselineEntryToJson (baselineEntryOf group)))]

/-- The bytes `writeBaselineFile` writes. -/
def writeBaseline (print : Json → Bytes) (findings : List Finding) : Bytes :=
  print (baselineDocument findings) ++ [10]

/-! ### Reading -/

/-- The fingerprint of an entry; version 1 added a suffix to colliding ones. -/
def bareFingerprint (version : ℤ) (fp : Bytes) : Bytes :=
  if version = 1 then fp.takeWhile (· ≠ 45) else fp

/-- An entry is counted in: into the one of its fingerprint, or as the first of it. -/
def countEntry (entries : List BaselineEntry) (bare : Bytes) (count : ℕ) (obj : JsonObject) :
    List BaselineEntry :=
  if entries.any (·.fingerprint = bare) then
    entries.map fun e =>
      if e.fingerprint = bare then { e with count := (e.count + count) % 2 ^ 32 } else e
  else entries ++ [{
    fingerprint := bare
    count := count % 2 ^ 32
    check := (JsonObject.getString obj (text "check")).getD []
    file := (JsonObject.getString obj (text "file")).getD []
    message := (JsonObject.getString obj (text "message")).getD [] }]

/-- One round of the loop of `parseBaseline`. -/
def parseBaselineItem (version : ℤ) (entries : List BaselineEntry) (item : Json) :
    Except Bytes (List BaselineEntry) :=
  match item.getAsObject with
  | none => .error (text "a baseline entry has no \"fingerprint\"")
  | some obj =>
    match JsonObject.getString obj (text "fingerprint") with
    | none => .error (text "a baseline entry has no \"fingerprint\"")
    | some fp =>
      match JsonObject.getInteger obj (text "count") with
      | none => .ok (countEntry entries (bareFingerprint version fp) 1 obj)
      | some c =>
        if c < 1 then
          .error (text "baseline entry " ++ bareFingerprint version fp ++
            text " has a count below 1")
        else .ok (countEntry entries (bareFingerprint version fp) c.toNat obj)

/-- The version and the entries of a document. -/
def baselineItems (parse : Bytes → Except Bytes Json) (file : Bytes) :
    Except Bytes (ℤ × List Json) :=
  match parse file with
  | .error e => .error (text "not JSON: " ++ e)
  | .ok value =>
    match value.getAsObject with
    | none => .error (text "not a JSON object")
    | some root =>
      match JsonObject.getInteger root (text "version") with
      | none => .error (text "unsupported baseline version (expected 1 or 2)")
      | some version =>
        if version ≠ 1 ∧ version ≠ kBaselineVersion then
          .error (text "unsupported baseline version (expected 1 or 2)")
        else
          match JsonObject.getArray root (text "findings") with
          | none => .error (text "no \"findings\" array")
          | some items => .ok (version, items)

/-- `parseBaseline`; the entries come out of a map, in the order of their fingerprints. -/
def parseBaseline (parse : Bytes → Except Bytes Json) (file : Bytes) :
    Except Bytes (List BaselineEntry) :=
  match baselineItems parse file with
  | .error e => .error e
  | .ok (version, items) =>
    (items.foldlM (parseBaselineItem version) []).map fun entries =>
      entries.insertionSort fun a b => a.fingerprint ≤ b.fingerprint

/-! ### Changed lines -/

section Changed

variable (lib : PathLib)

/-- `patchPathMatches`. -/
def patchPathMatches (patchFile absPath : Bytes) : Bool :=
  let rel := lib.removeDots patchFile
  if rel = [] then false
  else if lib.isAbsolute rel then decide (rel = absPath)
  else decide (absPath = rel) ||
    (rel.isSuffixOf absPath && decide (absPath[absPath.length - rel.length - 1]? = some slash))

/-- `onChangedLine`. -/
def onChangedLine (f : Finding) (ranges : List PatchRange) : Bool :=
  if f.line = 0 ∨ f.path = [] then false
  else ranges.any fun r => patchPathMatches lib r.file f.path && decide (r.firstLine ≤ f.line) &&
    decide (f.line ≤ r.lastLine)

/-- A finding is on a changed line, when these are given. -/
def isChanged (changedLines : Option (List PatchRange)) (f : Finding) : Bool :=
  changedLines.any fun ranges => onChangedLine lib f ranges

end Changed

/-! ### Applying -/

/-- What the loop of `applyBaseline` over the fingerprints changes: the positions it does not
report, the number of findings it removes, and the entries that are stale. -/
structure BaselineRun where
  dropped : List ℕ := []
  removed : ℕ := 0
  stale : List BaselineEntry := []

/-- The result of `applyBaseline`. -/
structure BaselineOutcome where
  findings : List Finding
  stale : List BaselineEntry
  removed : ℕ

/-- The `std::stable_partition` of a group: what is new is taken from the front. -/
def reportOrder (changed : Finding → Bool) (members : List (Finding × ℕ)) : List (Finding × ℕ) :=
  members.filter (fun m => changed m.1) ++ members.filter fun m => !changed m.1

/-- The entry of a fingerprint. -/
def entryOf (baseline : List BaselineEntry) (fingerprint : Bytes) : Option BaselineEntry :=
  baseline.reverse.find? (·.fingerprint = fingerprint)

/-- One round of the loop of `applyBaseline`. -/
def BaselineRun.group (baseline : List BaselineEntry) (changed : Finding → Bool) (st : BaselineRun)
    (group : Bytes × List (Finding × ℕ)) : BaselineRun :=
  let entry := entryOf baseline group.1
  let known := (entry.map (·.count)).getD 0
  let members := group.2
  if members.length ≤ known then
    { dropped := st.dropped ++ members.map (·.2)
      removed := st.removed + members.length
      stale := st.stale ++ (entry.toList.filter fun e => members.length < e.count).map fun e =>
        { e with count := e.count - members.length } }
  else
    { st with
      dropped := st.dropped ++
        ((reportOrder changed members).drop (members.length - known)).map (·.2)
      removed := st.removed + known }

/-- The order of the stale entries. -/
def staleBefore (a b : BaselineEntry) : Bool :=
  decide (toLex (a.file, toLex (a.check, a.fingerprint)) <
    (toLex (b.file, toLex (b.check, b.fingerprint)) : Bytes ×ₗ Bytes ×ₗ Bytes))

/-- `applyBaseline`. -/
def applyBaseline (lib : PathLib) (findings : List Finding) (baseline : List BaselineEntry)
    (changedLines : Option (List PatchRange)) : BaselineOutcome :=
  let groups := groupedBy (fun m => m.1.fingerprint) findings.zipIdx
  let st := groups.foldl (BaselineRun.group baseline (isChanged lib changedLines)) {}
  let stale := st.stale ++
    baseline.filter fun e => ¬ groups.any fun group => group.1 = e.fingerprint
  { findings := (findings.zipIdx.filter fun m => m.2 ∉ st.dropped).map (·.1)
    stale := stale.insertionSort fun a b => staleBefore b a = false
    removed := st.removed }

end Vycor
