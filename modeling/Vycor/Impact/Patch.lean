import Vycor.Impact.Diff
import Vycor.Lib.StdSort
import Vycor.Report.Paths

/-!
# From a patch to functions

`parseUnifiedDiff` reads the after-side ranges of the hunks of a unified diff.
`mapRangesToFunctions` attributes each range to functions: those with an anchor in it, a
definition or a call site, else those whose anchors enclose it. What no file of the index
matches stays unmapped.
-/

namespace Vycor

/-! ### The diff -/

/-- `PatchRange`. -/
structure PatchRange where
  file : Bytes
  firstLine : ℕ := 0
  lastLine : ℕ := 0
  deletionOnly : Bool := false
  deriving DecidableEq, Repr

/-- The blanks that `rtrim` takes off. -/
def isBlank (c : UInt8) : Bool := c = 32 || (9 ≤ c && c ≤ 13)

/-- `stripPatchPrefix`. -/
def stripPatchPrefix (p : Bytes) : Bytes :=
  let p := ((p.takeWhile (· ≠ 9)).reverse.dropWhile isBlank).reverse
  stripDot (if text "a/" <+: p ∨ text "b/" <+: p then p.drop 2 else p)

/-- `parseHunkHeader`: the start and the count of the after side. -/
def parseHunkHeader (line : Bytes) : Option (ℕ × ℕ) :=
  if ¬ text "@@ " <+: line ∨ 43 ∉ line then none
  else
    let after := ((line.dropWhile (· ≠ 43)).drop 1).takeWhile (· ≠ 32)
    let count := (after.dropWhile (· ≠ 44)).drop 1
    match asUnsigned (after.takeWhile (· ≠ 44)) with
    | none => none
    | some start => if count = [] then some (start, 1) else (asUnsigned count).map (start, ·)

/-- What the loop over the lines changes. -/
structure DiffState where
  beforeName : Bytes := []
  afterName : Bytes := []
  inFile : Bool := false
  deletedFile : Bool := false
  ranges : List PatchRange := []
  deriving DecidableEq, Repr

/-- An `unsigned`, where arithmetic leaves its range. -/
def uint32 (n : ℤ) : ℕ := (n % 2 ^ 32).toNat

/-- The range of a hunk. A pure deletion sits between two lines of the after side. -/
def hunkRange (st : DiffState) (start count : ℕ) : PatchRange :=
  if count = 0 ∨ st.deletedFile then
    ⟨st.afterName, if start = 0 then 1 else start, if start = 0 then 1 else uint32 (start + 1), true⟩
  else ⟨st.afterName, start, uint32 (start + count - 1), false⟩

/-- A line of a diff. -/
def diffLine (st : DiffState) (line : Bytes) : DiffState :=
  if text "--- " <+: line then
    { st with beforeName := stripPatchPrefix (line.drop 4), inFile := false }
  else if text "+++ " <+: line then
    let name := stripPatchPrefix (line.drop 4)
    let deleted := decide (name = text "/dev/null")
    let afterName := if deleted then st.beforeName else name
    { st with
      deletedFile := deleted
      afterName := afterName
      inFile := afterName ≠ [] && afterName ≠ text "/dev/null" }
  else if text "diff " <+: line then { st with inFile := false }
  else if st.inFile then
    match parseHunkHeader line with
    | some (start, count) => { st with ranges := st.ranges ++ [hunkRange st start count] }
    | none => st
  else st

/-- The lines of a text; the last newline ends the last line. -/
def textLines (s : Bytes) : List Bytes :=
  let lines := s.splitOn 10
  if lines.getLast? = some [] then lines.dropLast else lines

/-- `parseUnifiedDiff`. -/
def parseUnifiedDiff (s : Bytes) : List PatchRange := ((textLines s).foldl diffLine {}).ranges

/-! ### Anchors -/

/-- `MappingVia`. -/
inductive MappingVia where
  | argument | callSite | definition | extent | file | diff
  deriving DecidableEq, Repr

/-- The value of an enumerator: the smaller, the more precise. -/
def MappingVia.value : MappingVia → ℕ
  | .argument => 0 | .callSite => 1 | .definition => 2 | .extent => 3 | .file => 4 | .diff => 5

/-- `mappingViaName`. -/
def mappingViaName : MappingVia → Bytes
  | .argument => text "argument"
  | .callSite => text "call_site"
  | .definition => text "definition"
  | .extent => text "extent"
  | .file => text "file"
  | .diff => text "diff"

/-- `MappedFunction`. -/
structure MappedFunction where
  usr : Bytes
  name : Bytes
  file : Bytes := []
  line : ℕ := 0
  via : MappingVia
  deriving DecidableEq, Repr

/-- `UnmappedRange`. -/
structure UnmappedRange where
  range : PatchRange
  reason : Bytes
  deriving DecidableEq, Repr

/-- `PatchMapping`. -/
structure PatchMapping where
  functions : List MappedFunction := []
  unmapped : List UnmappedRange := []
  viaCallSite : ℕ := 0
  viaDefinition : ℕ := 0
  viaExtent : ℕ := 0
  viaFile : ℕ := 0
  deriving DecidableEq, Repr

/-- `Located`: an anchor of a function. -/
structure Patch.Located where
  line : ℕ
  usr : Bytes
  deriving DecidableEq, Repr

/-- The order of anchors. -/
def Patch.Located.before (a b : Patch.Located) : Bool :=
  if a.line ≠ b.line then a.line < b.line else a.usr < b.usr

/-- Anchors in order. -/
def sortLocated (l : List Patch.Located) : List Patch.Located :=
  l.insertionSort fun a b => b.before a = false

/-- `FileEntry`. -/
structure FileEntry where
  defs : List Patch.Located
  sites : List Patch.Located
  deriving DecidableEq, Repr

/-- `pathsMatch`: equal, or one a suffix of the other by components. -/
def pathsMatch (a b : Bytes) : Bool :=
  let a := stripDot a
  let b := stripDot b
  if a = [] ∨ b = [] then false
  else if a = b then true
  else if b.length < a.length then decide (47 :: b <:+ a)
  else decide (47 :: a <:+ b)

/-- `splitSite`: the file and the line of a site. -/
def splitSite (site : Bytes) : Option (Bytes × ℕ) :=
  match cutLastColon site with
  | none => none
  | some (front, _) =>
    match cutLastColon front with
    | none => none
    | some (file, line) => if file = [] then none else (asUnsigned line).map (file, ·)

namespace CallGraph

variable (ll : Llvm) (g : CallGraph)

/-- The locations of the nodes by file. -/
def definitionAnchors : List (Bytes × Patch.Located) := g.allNodes.map fun n => (n.file, ⟨n.line, n.usr⟩)

/-- The call sites of the edges by file. -/
def siteAnchors : List (Bytes × Patch.Located) :=
  g.allNodes.flatMap fun n => (g.calleesOf ll n.usr).filterMap fun e =>
    (splitSite e.callSite).map fun fl => (fl.1, ⟨fl.2, e.callerUsr⟩)

/-- The anchors of one file. -/
def fileEntry (file : Bytes) : FileEntry where
  defs := (sortLocated ((g.definitionAnchors.filter (·.1 = file)).map (·.2))).dedup
  sites := sortLocated (((g.siteAnchors ll).filter (·.1 = file)).map (·.2))

/-- The files that hold an anchor, in order. -/
def anchoredFiles : List Bytes :=
  (((g.definitionAnchors ++ g.siteAnchors ll).map (·.1)).insertionSort (· ≤ ·)).dedup

/-- `attribute` of a usr to a range. -/
def attributeTo (via : MappingVia) (mapped : List MappedFunction) (usr : Bytes) :
    List MappedFunction :=
  if usr ∈ mapped.map (·.usr) then
    mapped.map fun f => if f.usr = usr ∧ via.value < f.via.value then { f with via := via } else f
  else
    mapped ++ [match g.allNodes.find? (·.usr = usr) with
      | some n => ⟨usr, n.qualifiedName, n.file, n.line, via⟩
      | none => { usr := usr, name := usr, via := via }]

/-- The attribution of several anchors. -/
def attributeAll (via : MappingVia) (anchors : List Patch.Located) (mapped : List MappedFunction) :
    List MappedFunction :=
  (anchors.map (·.usr)).foldl (g.attributeTo via) mapped

end CallGraph

/-- The anchors in a range. -/
def PatchRange.anchorsIn (range : PatchRange) (l : List Patch.Located) : List Patch.Located :=
  l.filter fun a => range.firstLine ≤ a.line ∧ a.line ≤ range.lastLine

/-- `lastBefore`. -/
def PatchRange.lastBefore (range : PatchRange) (l : List Patch.Located) : Option Patch.Located :=
  (l.filter (·.line ≤ range.firstLine)).getLast?

/-- `firstAfter`. -/
def PatchRange.firstAfter (range : PatchRange) (l : List Patch.Located) : Option Patch.Located :=
  l.find? (range.lastLine < ·.line)

/-- `sameLine`: the anchors of the line of one. -/
def sameLine (l : List Patch.Located) (at' : Patch.Located) : List Patch.Located := l.filter (·.line = at'.line)

/-- The nearest anchor before a range: the anchors of its line and its function. -/
def nearestBefore (entry : FileEntry) (range : PatchRange) : Option (List Patch.Located × Bytes) :=
  match range.lastBefore entry.defs, range.lastBefore entry.sites with
  | none, none => none
  | some d, none => some (sameLine entry.defs d, d.usr)
  | none, some s => some (sameLine entry.sites s, s.usr)
  | some d, some s =>
    if s.line ≤ d.line then some (sameLine entry.defs d, d.usr)
    else some (sameLine entry.sites s, s.usr)

/-- The nearest call site behind a range, where it is of another function than `owner` and no
definition stands before it. -/
def nearestAfter (entry : FileEntry) (range : PatchRange) (owner : Bytes) : List Patch.Located :=
  match range.firstAfter entry.sites with
  | none => []
  | some s =>
    if s.usr ≠ owner ∧ (range.firstAfter entry.defs).all (s.line < ·.line) then
      sameLine entry.sites s
    else []

namespace CallGraph

variable (ll : Llvm) (g : CallGraph)

/-- A range in its file. -/
def mapInFile (entry : FileEntry) (range : PatchRange) (out : PatchMapping) : PatchMapping :=
  let defs := range.anchorsIn entry.defs
  let sites := range.anchorsIn entry.sites
  if defs ≠ [] ∨ sites ≠ [] then
    { out with
      functions :=
        g.attributeAll .callSite sites (g.attributeAll .definition defs out.functions) }
  else if entry.defs = [] ∧ entry.sites = [] then
    { out with unmapped := out.unmapped ++ [⟨range, text "no function indexed at these lines"⟩] }
  else
    match nearestBefore entry range with
    -- above every anchor: file-scope code
    | none =>
      { out with
        functions :=
          g.attributeAll .file entry.sites (g.attributeAll .file entry.defs out.functions) }
    | some (anchors, owner) =>
      { out with
        functions := g.attributeAll .extent (nearestAfter entry range owner)
          (g.attributeAll .extent anchors out.functions) }

/-- The path of a range under the root of the patch. -/
def wantedPath (patchRoot : Bytes) (file : Bytes) : Bytes :=
  if patchRoot = [] then file
  else if patchRoot.getLast? = some 47 then patchRoot ++ file
  else patchRoot ++ 47 :: file

/-- The body of the loop over the ranges. -/
def mapRange (patchRoot : Bytes) (out : PatchMapping) (range : PatchRange) : PatchMapping :=
  match (g.anchoredFiles ll).filter fun f => pathsMatch f (wantedPath patchRoot range.file) with
  | [] =>
    { out with unmapped := out.unmapped ++
        [⟨range, text "no function or call site indexed in this file"⟩] }
  | [file] => g.mapInFile (g.fileEntry ll file) range out
  | hits =>
    { out with unmapped := out.unmapped ++
        [⟨range, text "matches " ++ decimal hits.length ++ text " indexed files; pass patch_root"⟩] }

end CallGraph

/-- The order of the unmapped ranges. -/
def unmappedBefore (a b : UnmappedRange) : Bool :=
  if a.range.file ≠ b.range.file then a.range.file < b.range.file
  else a.range.firstLine < b.range.firstLine

/-- `mapRangesToFunctions`. -/
def CallGraph.mapRangesToFunctions (ll : Llvm) (unmappedSort : Sorter unmappedBefore)
    (g : CallGraph) (ranges : List PatchRange) (patchRoot : Bytes := []) : PatchMapping :=
  let out := ranges.foldl (g.mapRange ll patchRoot) {}
  let viaCount (via : MappingVia) : ℕ := out.functions.countP (·.via = via)
  { functions := out.functions.insertionSort fun a b => a.usr ≤ b.usr
    unmapped := unmappedSort.run out.unmapped
    viaCallSite := viaCount .callSite
    viaDefinition := viaCount .definition
    viaExtent := viaCount .extent
    viaFile := viaCount .file }

end Vycor
