import Vycor.Impact.Patch
import Vycor.Text.Decimal

/-!
# Unified diffs

A unified diff as a tree: files with their header lines, hunks with their bodies. The counts of
a hunk are those of its body, so that a hunk with other counts cannot be built.
`UnifiedDiff.render` writes the text.

`parseUnifiedDiff` does not count the lines of a body. A deleted line that begins with `-- `
reads like a `--- ` header, an added line that begins with `++ ` like a `+++ ` header, and the
last of them above a hunk decides where the hunk goes (`PlacedHunk.headerAbove`). The parser is
right exactly on the diffs where none of this matters (`parseUnifiedDiff_place_iff`).
-/

namespace Vycor

/-! ### The format -/

/-- How a line of a hunk is marked. -/
inductive Marker where
  | context | deleted | added | noNewline
  deriving DecidableEq, Repr

def Marker.byte : Marker → UInt8
  | .context => 32
  | .deleted => 45
  | .added => 43
  | .noNewline => 92

/-- A line in the body of a hunk. -/
structure BodyLine where
  marker : Marker
  content : Bytes
  unbroken : 10 ∉ content

def BodyLine.render (l : BodyLine) : Bytes := l.marker.byte :: l.content

/-- The lines of a body that the before side has. -/
def beforeCount (body : List BodyLine) : ℕ :=
  body.countP fun l => l.marker = .context ∨ l.marker = .deleted

/-- The lines of a body that the after side has. -/
def afterCount (body : List BodyLine) : ℕ :=
  body.countP fun l => l.marker = .context ∨ l.marker = .added

/-- A hunk. A count of one may be left out of the header. -/
structure Hunk where
  beforeStart : ℕ
  afterStart : ℕ
  body : List BodyLine
  beforeShort : Bool := false
  afterShort : Bool := false
  heading : Bytes := []
  unbroken : 10 ∉ heading
  fits : afterStart + afterCount body < 2 ^ 32

/-- One side of a hunk header. -/
def sideText (start count : ℕ) (short : Bool) : Bytes :=
  decimal start ++ if short ∧ count = 1 then [] else 44 :: decimal count

def Hunk.header (h : Hunk) : Bytes :=
  text "@@ -" ++ sideText h.beforeStart (beforeCount h.body) h.beforeShort ++ text " +" ++
    sideText h.afterStart (afterCount h.body) h.afterShort ++ text " @@" ++ h.heading

def Hunk.lines (h : Hunk) : List Bytes := h.header :: h.body.map BodyLine.render

/-- A line between the files: none of those that the format gives a meaning. -/
structure PlainLine where
  bytes : Bytes
  unbroken : 10 ∉ bytes
  plain : ¬ text "--- " <+: bytes ∧ ¬ text "+++ " <+: bytes ∧ ¬ text "@@ " <+: bytes

/-- The file that a pair of header lines names on the after side; a deleted file keeps its
name. -/
def afterSide (before after : Bytes) : Bytes :=
  if stripPatchPrefix after = text "/dev/null" then stripPatchPrefix before
  else stripPatchPrefix after

/-- A file of a diff: what stands above it, what its `--- ` and `+++ ` lines say, its hunks. -/
structure FileDiff where
  preamble : List PlainLine := []
  before : Bytes
  after : Bytes
  hunks : List Hunk
  unbroken : 10 ∉ before ∧ 10 ∉ after
  named : afterSide before after ≠ [] ∧ afterSide before after ≠ text "/dev/null"

namespace FileDiff

variable (f : FileDiff)

def file : Bytes := afterSide f.before f.after

def deleted : Bool := stripPatchPrefix f.after = text "/dev/null"

def lines : List Bytes :=
  f.preamble.map PlainLine.bytes ++
    (text "--- " ++ f.before) :: (text "+++ " ++ f.after) :: f.hunks.flatMap Hunk.lines

end FileDiff

/-- A unified diff. -/
structure UnifiedDiff where
  files : List FileDiff
  trailer : List PlainLine := []

namespace UnifiedDiff

variable (d : UnifiedDiff)

def lines : List Bytes := d.files.flatMap FileDiff.lines ++ d.trailer.map PlainLine.bytes

/-- The text of a diff: each line ends with a newline. -/
def render : Bytes := d.lines.flatMap (· ++ [10])

end UnifiedDiff

/-! ### What a hunk covers -/

/-- The first and the last line of a hunk on the after side. Where the hunk leaves nothing
there, these are the two lines around the deletion; above the first line there is none. -/
def Hunk.afterLines (h : Hunk) (deleted : Bool) : ℕ × ℕ :=
  if afterCount h.body = 0 ∨ deleted then (max 1 h.afterStart, h.afterStart + 1)
  else (h.afterStart, h.afterStart + afterCount h.body - 1)

/-- A hunk in its file, with the lines of the bodies above it in this file. -/
structure PlacedHunk where
  file : FileDiff
  above : List BodyLine
  hunk : Hunk

/-- The hunks of a file, from one on that has these body lines above it. -/
def FileDiff.placedHunks (f : FileDiff) (above : List BodyLine) : List Hunk → List PlacedHunk
  | [] => []
  | h :: hs => ⟨f, above, h⟩ :: f.placedHunks (above ++ h.body) hs

/-- The hunks of a diff in order. -/
def UnifiedDiff.hunks (d : UnifiedDiff) : List PlacedHunk :=
  d.files.flatMap fun f => f.placedHunks [] f.hunks

/-- The file of a range and its lines. -/
def PatchRange.place (r : PatchRange) : Bytes × ℕ × ℕ := (r.file, r.firstLine, r.lastLine)

/-- The file that the header of a hunk's file names, and the lines of the hunk. -/
def PlacedHunk.place (p : PlacedHunk) : Bytes × ℕ × ℕ :=
  (p.file.file, p.hunk.afterLines p.file.deleted)

/-! ### Lines that read like headers -/

namespace BodyLine

variable (l : BodyLine)

/-- A deleted line that reads like a `--- ` header. -/
def likeBefore : Bool := l.marker = .deleted && decide (text "-- " <+: l.content)

/-- An added line that reads like a `+++ ` header. -/
def likeAfter : Bool := l.marker = .added && decide (text "++ " <+: l.content)

def likeHeader : Bool := l.likeBefore || l.likeAfter

/-- The name that such a line gives. -/
def name : Bytes := stripPatchPrefix (l.content.drop 3)

end BodyLine

namespace FileDiff

variable (f : FileDiff) (above : List BodyLine)

/-- The before side by the last line that reads like a `--- ` header, the real one included. -/
def beforeAbove : Bytes :=
  ((above.filter BodyLine.likeBefore).getLast?.map BodyLine.name).getD (stripPatchPrefix f.before)

/-- The file, and whether it is deleted, by the last line that reads like a header; `none` where
this is a `--- ` line. -/
def headerAbove : Option (Bytes × Bool) :=
  match (above.filter BodyLine.likeHeader).getLast? with
  | none => some (f.file, f.deleted)
  | some l =>
    if l.likeBefore then none
    else if l.name = text "/dev/null" then some (f.beforeAbove above, true)
    else some (l.name, false)

end FileDiff

/-- The last line above a hunk that reads like a header names the file of the hunk, and says of
its deletion nothing that changes the lines of the hunk. -/
def PlacedHunk.ReadsRight (p : PlacedHunk) : Prop :=
  ∃ deleted, p.file.headerAbove p.above = some (p.file.file, deleted) ∧
    p.hunk.afterLines deleted = p.hunk.afterLines p.file.deleted

/-- Every hunk reads right, and the line behind its start is an `unsigned` too. -/
def UnifiedDiff.Legible (d : UnifiedDiff) : Prop :=
  ∀ p ∈ d.hunks, p.ReadsRight ∧ p.hunk.afterStart + 1 < 2 ^ 32

/-! ### The text and its lines -/

theorem textLines_flatMap {ls : List Bytes} (h : ∀ l ∈ ls, 10 ∉ l) :
    textLines (ls.flatMap (· ++ [10])) = ls := by
  have hjoin : ls.flatMap (· ++ [10]) = [10].intercalate (ls ++ [[]]) := by
    clear h
    induction ls with
    | nil => rfl
    | cons l ls ih =>
      obtain ⟨m, ms, hms⟩ := List.exists_cons_of_ne_nil (List.append_ne_nil_of_right_ne_nil ls
        (List.cons_ne_nil ([] : Bytes) []))
      rw [List.flatMap_cons, ih, List.cons_append, hms, List.intercalate_cons_cons,
        List.append_assoc]
  have hsplit : (ls.flatMap (· ++ [10])).splitOn 10 = ls ++ [[]] := by
    rw [hjoin]
    refine List.splitOn_intercalate 10 (fun l hl => ?_) (by simp)
    rcases List.mem_append.mp hl with hl | hl
    · exact h l hl
    · simp [List.mem_singleton.mp hl]
  simp only [textLines, hsplit, List.getLast?_concat, if_pos, List.dropLast_concat]

/-- A byte that no side of a header has. -/
theorem notMem_sideText {c : UInt8} (hc : isDecimal c = false) (hcomma : c ≠ 44)
    (start count : ℕ) (short : Bool) : c ∉ sideText start count short := by
  rw [sideText, List.mem_append, not_or]
  refine ⟨notMem_decimal hc start, ?_⟩
  split
  · exact List.not_mem_nil
  · rw [List.mem_cons, not_or]
    exact ⟨hcomma, notMem_decimal hc count⟩

theorem Hunk.newline_notMem {h : Hunk} {l : Bytes} (hl : l ∈ h.lines) : 10 ∉ l := by
  rcases List.mem_cons.mp hl with rfl | hl
  · simp only [Hunk.header, List.mem_append, not_or]
    exact ⟨⟨⟨⟨⟨by decide +kernel, notMem_sideText rfl (by decide) _ _ _⟩, by decide +kernel⟩,
      notMem_sideText rfl (by decide) _ _ _⟩, by decide +kernel⟩, h.unbroken⟩
  · obtain ⟨b, -, rfl⟩ := List.mem_map.mp hl
    rw [BodyLine.render, List.mem_cons, not_or]
    exact ⟨by cases b.marker <;> decide, b.unbroken⟩

theorem PlainLine.newline_notMem {ls : List PlainLine} {l : Bytes}
    (hl : l ∈ ls.map PlainLine.bytes) : 10 ∉ l := by
  obtain ⟨p, -, rfl⟩ := List.mem_map.mp hl
  exact p.unbroken

theorem FileDiff.newline_notMem {f : FileDiff} {l : Bytes} (hl : l ∈ f.lines) : 10 ∉ l := by
  simp only [FileDiff.lines, List.mem_append, List.mem_cons] at hl
  rcases hl with hl | rfl | rfl | hl
  · exact PlainLine.newline_notMem hl
  · rw [List.mem_append, not_or]
    exact ⟨by decide +kernel, f.unbroken.1⟩
  · rw [List.mem_append, not_or]
    exact ⟨by decide +kernel, f.unbroken.2⟩
  · obtain ⟨h, -, hl⟩ := List.mem_flatMap.mp hl
    exact Hunk.newline_notMem hl

theorem UnifiedDiff.textLines_render (d : UnifiedDiff) : textLines d.render = d.lines := by
  refine textLines_flatMap fun l hl => ?_
  rcases List.mem_append.mp hl with hl | hl
  · obtain ⟨f, -, hl⟩ := List.mem_flatMap.mp hl
    exact FileDiff.newline_notMem hl
  · exact PlainLine.newline_notMem hl

/-! ### Hunk headers -/

/-- A text up to a byte that its beginning does not have. -/
theorem takeWhile_ne_append {c : UInt8} {s rest : Bytes} (h : c ∉ s) :
    (s ++ c :: rest).takeWhile (· ≠ c) = s := by
  have hs : ∀ a ∈ s, decide (a ≠ c) = true := fun a ha => decide_eq_true fun he => h (he ▸ ha)
  rw [List.takeWhile_append_of_pos hs, List.takeWhile_cons_of_neg (by simp), List.append_nil]

theorem dropWhile_ne_append {c : UInt8} {s rest : Bytes} (h : c ∉ s) :
    (s ++ c :: rest).dropWhile (· ≠ c) = c :: rest := by
  have hs : ∀ a ∈ s, decide (a ≠ c) = true := fun a ha => decide_eq_true fun he => h (he ▸ ha)
  rw [List.dropWhile_append_of_pos hs, List.dropWhile_cons_of_neg (by simp)]

/-- A text that does not have the byte is taken whole. -/
theorem takeWhile_ne_self {c : UInt8} {s : Bytes} (h : c ∉ s) :
    s.takeWhile (· ≠ c) = s ∧ s.dropWhile (· ≠ c) = [] :=
  ⟨List.takeWhile_eq_self_iff.mpr fun _ ha => decide_eq_true fun he => h (he ▸ ha),
    List.dropWhile_eq_nil_iff.mpr fun _ ha => decide_eq_true fun he => h (he ▸ ha)⟩

/-- **A hunk header is read back.** -/
theorem Hunk.parseHunkHeader_header (h : Hunk) :
    parseHunkHeader h.header = some (h.afterStart, afterCount h.body) := by
  set side := sideText h.afterStart (afterCount h.body) h.afterShort with hside
  have hline : h.header = (text "@@ -" ++ sideText h.beforeStart (beforeCount h.body)
      h.beforeShort ++ [32]) ++ 43 :: (side ++ 32 :: (text "@@" ++ h.heading)) := by
    have hplus : text " +" = [32, 43] := by decide +kernel
    have hend : text " @@" = 32 :: text "@@" := by decide +kernel
    simp [Hunk.header, hplus, hend, ← hside]
  have hplus : 43 ∉ text "@@ -" ++ sideText h.beforeStart (beforeCount h.body)
      h.beforeShort ++ [32] := by
    simp only [List.mem_append, not_or]
    exact ⟨⟨by decide +kernel, notMem_sideText rfl (by decide) _ _ _⟩, by decide⟩
  have hstart : text "@@ " <+: h.header := by
    have htext : text "@@ -" = text "@@ " ++ [45] := by decide +kernel
    rw [hline, htext, List.append_assoc, List.append_assoc, List.append_assoc]
    exact List.prefix_append _ _
  have hblank : 32 ∉ side := notMem_sideText rfl (by decide) _ _ _
  have hcomma := notMem_decimal (c := 44) rfl h.afterStart
  have hcount : asUnsigned (decimal (afterCount h.body)) = some (afterCount h.body) :=
    asUnsigned_decimal ((Nat.le_add_left _ _).trans_lt h.fits)
  have hfirst : asUnsigned (decimal h.afterStart) = some h.afterStart :=
    asUnsigned_decimal ((Nat.le_add_right _ _).trans_lt h.fits)
  have hfound : 43 ∈ h.header := by simp [hline]
  rw [parseHunkHeader, if_neg (by simp [hstart, hfound])]
  simp only [hline, dropWhile_ne_append hplus, List.drop_succ_cons, List.drop_zero,
    takeWhile_ne_append hblank]
  by_cases hshort : h.afterShort ∧ afterCount h.body = 1
  · -- the count of one is left out
    rw [hside, sideText, if_pos (by simpa using hshort), List.append_nil,
      (takeWhile_ne_self hcomma).1, (takeWhile_ne_self hcomma).2, hfirst, hshort.2]
    rfl
  · rw [hside, sideText, if_neg (by simpa using hshort), takeWhile_ne_append hcomma,
      dropWhile_ne_append hcomma, hfirst]
    simp [decimal_ne_nil, hcount]

/-! ### What the parser makes of a line -/

/-- A line of a body. Only what reads like a header line changes anything. -/
theorem diffLine_render (st : DiffState) (l : BodyLine) :
    diffLine st l.render =
      if l.likeBefore then { st with beforeName := l.name, inFile := false }
      else if l.likeAfter then
        { st with
          deletedFile := decide (l.name = text "/dev/null")
          afterName := if l.name = text "/dev/null" then st.beforeName else l.name
          inFile := (if l.name = text "/dev/null" then st.beforeName else l.name) ≠ [] &&
            (if l.name = text "/dev/null" then st.beforeName else l.name) ≠ text "/dev/null" }
      else st := by
  have hbefore : text "--- " <+: l.render ↔ l.likeBefore := by
    have htext : text "--- " = 45 :: text "-- " := by decide +kernel
    rw [htext, BodyLine.render, List.cons_prefix_cons, BodyLine.likeBefore]
    cases l.marker <;> simp [Marker.byte]
  have hafter : text "+++ " <+: l.render ↔ l.likeAfter := by
    have htext : text "+++ " = 43 :: text "++ " := by decide +kernel
    rw [htext, BodyLine.render, List.cons_prefix_cons, BodyLine.likeAfter]
    cases l.marker <;> simp [Marker.byte]
  have hdiff : ¬ text "diff " <+: l.render := by
    have htext : text "diff " = 100 :: text "iff " := by decide +kernel
    rw [htext, BodyLine.render, List.cons_prefix_cons]
    cases l.marker <;> simp [Marker.byte]
  have hhunk : parseHunkHeader l.render = none := by
    have htext : text "@@ " = 64 :: text "@ " := by decide +kernel
    rw [parseHunkHeader, if_pos]
    rw [htext, BodyLine.render, List.cons_prefix_cons]
    cases l.marker <;> simp [Marker.byte]
  have hname : stripPatchPrefix (l.render.drop 4) = l.name := rfl
  simp only [diffLine, hbefore, hafter, hdiff, hhunk, hname, if_false, ite_self,
    decide_eq_true_eq]

/-- The header line of a hunk gives a range where the parser is in a file. -/
theorem diffLine_header (st : DiffState) (h : Hunk) :
    diffLine st h.header =
      if st.inFile then
        { st with ranges := st.ranges ++ [hunkRange st h.afterStart (afterCount h.body)] }
      else st := by
  obtain ⟨tail, htail⟩ : ∃ tail, h.header = 64 :: tail := by
    have htext : text "@@ -" = 64 :: text "@ -" := by decide +kernel
    rw [Hunk.header, htext]
    exact ⟨_, rfl⟩
  have hbefore : ¬ text "--- " <+: h.header := by
    have htext : text "--- " = 45 :: text "-- " := by decide +kernel
    simp [htext, htail, List.cons_prefix_cons]
  have hafter : ¬ text "+++ " <+: h.header := by
    have htext : text "+++ " = 43 :: text "++ " := by decide +kernel
    simp [htext, htail, List.cons_prefix_cons]
  have hdiff : ¬ text "diff " <+: h.header := by
    have htext : text "diff " = 100 :: text "iff " := by decide +kernel
    simp [htext, htail, List.cons_prefix_cons]
  simp only [diffLine, if_neg hbefore, if_neg hafter, if_neg hdiff, h.parseHunkHeader_header]

/-- A line between the files gives no range. -/
theorem diffLine_plain (st : DiffState) (l : PlainLine) :
    (diffLine st l.bytes).ranges = st.ranges := by
  obtain ⟨hbefore, hafter, hhunk⟩ := l.plain
  have hnone : parseHunkHeader l.bytes = none := by
    rw [parseHunkHeader, if_pos (Or.inl hhunk)]
  simp only [diffLine, if_neg hbefore, if_neg hafter, hnone, ite_self]
  split <;> rfl

/-! ### A run over the lines -/

/-- What makes a name the name of a file. -/
def namesFile (name : Bytes) : Bool := name ≠ [] && name ≠ text "/dev/null"

theorem FileDiff.namesFile_file (f : FileDiff) : namesFile f.file = true := by
  rw [namesFile, Bool.and_eq_true, decide_eq_true_eq, decide_eq_true_eq]
  exact f.named

/-- What the parser holds below a file's header and some lines of its bodies: what the last line
that reads like a header says. -/
structure FileDiff.Reading (f : FileDiff) (above : List BodyLine) (st : DiffState) : Prop where
  beforeName : st.beforeName = f.beforeAbove above
  header : (if st.inFile then some (st.afterName, st.deletedFile) else none) =
    (f.headerAbove above).filter fun x => namesFile x.1

namespace FileDiff

variable {f : FileDiff} {above : List BodyLine} {st : DiffState}

theorem beforeAbove_concat (l : BodyLine) :
    f.beforeAbove (above ++ [l]) = if l.likeBefore then l.name else f.beforeAbove above := by
  rw [beforeAbove, List.filter_append]
  by_cases h : l.likeBefore <;> simp [h, beforeAbove]

theorem headerAbove_concat (l : BodyLine) :
    f.headerAbove (above ++ [l]) =
      if l.likeBefore then none
      else if l.likeAfter then
        if l.name = text "/dev/null" then some (f.beforeAbove above, true)
        else some (l.name, false)
      else f.headerAbove above := by
  rw [headerAbove, List.filter_append, beforeAbove_concat]
  by_cases hbefore : l.likeBefore
  · simp [BodyLine.likeHeader, hbefore]
  · by_cases hafter : l.likeAfter
    · simp [BodyLine.likeHeader, hbefore, hafter]
    · simp [BodyLine.likeHeader, hbefore, hafter, headerAbove]

/-- **A line of a body is read as what it reads like.** -/
theorem Reading.line (h : f.Reading above st) (l : BodyLine) :
    f.Reading (above ++ [l]) (diffLine st l.render) ∧
      (diffLine st l.render).ranges = st.ranges := by
  rw [diffLine_render]
  by_cases hbefore : l.likeBefore
  · rw [if_pos hbefore]
    exact ⟨⟨by rw [beforeAbove_concat, if_pos hbefore],
      by rw [headerAbove_concat, if_pos hbefore]; rfl⟩, rfl⟩
  by_cases hafter : l.likeAfter
  · rw [if_neg hbefore, if_pos hafter]
    refine ⟨⟨by rw [beforeAbove_concat, if_neg hbefore]; exact h.beforeName, ?_⟩, rfl⟩
    rw [headerAbove_concat, if_neg hbefore, if_pos hafter]
    by_cases hnull : l.name = text "/dev/null"
    · simp [hnull, h.beforeName, Option.filter, namesFile]
    · simp [hnull, Option.filter, namesFile]
  · rw [if_neg hbefore, if_neg hafter]
    exact ⟨⟨by rw [beforeAbove_concat, if_neg hbefore]; exact h.beforeName,
      by rw [headerAbove_concat, if_neg hbefore, if_neg hafter]; exact h.header⟩, rfl⟩

theorem Reading.lines (h : f.Reading above st) (body : List BodyLine) :
    f.Reading (above ++ body) ((body.map BodyLine.render).foldl diffLine st) ∧
      ((body.map BodyLine.render).foldl diffLine st).ranges = st.ranges := by
  induction body generalizing above st with
  | nil => exact ⟨by simpa using h, rfl⟩
  | cons l body ih =>
    obtain ⟨hline, hranges⟩ := h.line l
    obtain ⟨hbody, hrest⟩ := ih hline
    exact ⟨by simpa using hbody, hrest.trans hranges⟩

/-- **The two header lines of a file are read as such**, whatever stands above. -/
theorem reading_header (st : DiffState) :
    f.Reading [] (diffLine (diffLine st (text "--- " ++ f.before)) (text "+++ " ++ f.after)) ∧
      (diffLine (diffLine st (text "--- " ++ f.before)) (text "+++ " ++ f.after)).ranges =
        st.ranges := by
  have hbefore : diffLine st (text "--- " ++ f.before) =
      { st with beforeName := stripPatchPrefix f.before, inFile := false } := by
    rw [diffLine, if_pos (List.prefix_append _ _)]
    rfl
  have hother : ¬ text "--- " <+: text "+++ " ++ f.after := by
    have hminus : text "--- " = 45 :: text "-- " := by decide +kernel
    have hplus : text "+++ " = 43 :: text "++ " := by decide +kernel
    simp [hminus, hplus, List.cons_prefix_cons]
  have hdrop : (text "+++ " ++ f.after).drop 4 = f.after := rfl
  rw [hbefore, diffLine, if_neg hother, if_pos (List.prefix_append _ _), hdrop]
  have hfile : (if stripPatchPrefix f.after = text "/dev/null" then stripPatchPrefix f.before
      else stripPatchPrefix f.after) = f.file := rfl
  have hnamed : f.file ≠ [] ∧ f.file ≠ text "/dev/null" := f.named
  refine ⟨⟨rfl, ?_⟩, rfl⟩
  simp [hfile, hnamed, headerAbove, Option.filter, f.namesFile_file, deleted]

end FileDiff

/-! ### The ranges -/

/-- The lines of a range that the parser makes of a hunk. -/
def Hunk.readLines (h : Hunk) (deleted : Bool) : ℕ × ℕ :=
  if afterCount h.body = 0 ∨ deleted then
    (if h.afterStart = 0 then 1 else h.afterStart,
      if h.afterStart = 0 then 1 else uint32 (h.afterStart + 1))
  else (h.afterStart, uint32 (h.afterStart + afterCount h.body - 1))

/-- What the parser makes of a hunk in its place. -/
def PlacedHunk.read (p : PlacedHunk) : Option (Bytes × ℕ × ℕ) :=
  ((p.file.headerAbove p.above).filter fun x => namesFile x.1).map fun x =>
    (x.1, p.hunk.readLines x.2)

theorem place_hunkRange (st : DiffState) (h : Hunk) :
    (hunkRange st h.afterStart (afterCount h.body)).place =
      (st.afterName, h.readLines st.deletedFile) := by
  rw [hunkRange, Hunk.readLines]
  split <;> rfl

namespace FileDiff

variable {f : FileDiff}

/-- **The hunks of a file give what stands above them says.** -/
theorem Reading.hunks {above : List BodyLine} {st : DiffState} (h : f.Reading above st)
    (hs : List Hunk) :
    ((hs.flatMap Hunk.lines).foldl diffLine st).ranges.map PatchRange.place =
      st.ranges.map PatchRange.place ++ (f.placedHunks above hs).filterMap PlacedHunk.read := by
  induction hs generalizing above st with
  | nil => simp [placedHunks]
  | cons k hs ih =>
    -- the header line leaves everything but the ranges
    have hheader : f.Reading above (diffLine st k.header) ∧
        (diffLine st k.header).ranges.map PatchRange.place =
          st.ranges.map PatchRange.place ++ (PlacedHunk.read ⟨f, above, k⟩).toList := by
      have hread : PlacedHunk.read ⟨f, above, k⟩ =
          (if st.inFile then some (st.afterName, st.deletedFile) else none).map fun x =>
            (x.1, k.readLines x.2) := by rw [PlacedHunk.read, h.header]
      rw [diffLine_header, hread]
      by_cases hin : st.inFile
      · refine ⟨⟨?_, ?_⟩, ?_⟩
        · simpa [hin] using h.beforeName
        · simpa [hin] using h.header
        · simp [hin, place_hunkRange]
      · refine ⟨?_, ?_⟩
        · simpa [hin] using h
        · simp [hin]
    obtain ⟨hbody, hranges⟩ := hheader.1.lines k.body
    rw [List.flatMap_cons, List.foldl_append, Hunk.lines, List.foldl_cons, ih hbody, hranges,
      hheader.2, placedHunks, List.filterMap_cons]
    cases PlacedHunk.read ⟨f, above, k⟩ <;> simp

theorem foldl_plain (ls : List PlainLine) (st : DiffState) :
    ((ls.map PlainLine.bytes).foldl diffLine st).ranges = st.ranges := by
  induction ls generalizing st with
  | nil => rfl
  | cons l ls ih => exact (ih _).trans (diffLine_plain st l)

theorem foldl_lines (st : DiffState) :
    (f.lines.foldl diffLine st).ranges.map PatchRange.place =
      st.ranges.map PatchRange.place ++
        (f.placedHunks [] f.hunks).filterMap PlacedHunk.read := by
  obtain ⟨hreading, hranges⟩ := f.reading_header ((f.preamble.map PlainLine.bytes).foldl diffLine st)
  rw [lines, List.foldl_append, List.foldl_cons, List.foldl_cons, hreading.hunks, hranges,
    foldl_plain]

end FileDiff

/-- **A diff gives the range of each hunk by what reads like a header above it.** -/
theorem UnifiedDiff.place_parseUnifiedDiff (d : UnifiedDiff) :
    (parseUnifiedDiff d.render).map PatchRange.place = d.hunks.filterMap PlacedHunk.read := by
  have hfiles (fs : List FileDiff) (st : DiffState) :
      ((fs.flatMap FileDiff.lines).foldl diffLine st).ranges.map PatchRange.place =
        st.ranges.map PatchRange.place ++
          (fs.flatMap fun f => f.placedHunks [] f.hunks).filterMap PlacedHunk.read := by
    induction fs generalizing st with
    | nil => simp
    | cons f fs ih =>
      rw [List.flatMap_cons, List.foldl_append, ih, f.foldl_lines, List.flatMap_cons,
        List.filterMap_append, List.append_assoc]
  rw [parseUnifiedDiff, d.textLines_render, lines, List.foldl_append, FileDiff.foldl_plain,
    hfiles]
  rfl

/-! ### Where the parser is right -/

theorem Hunk.readLines_eq {h : Hunk} (hsmall : h.afterStart + 1 < 2 ^ 32) (deleted : Bool) :
    h.readLines deleted = h.afterLines deleted := by
  have hfits := h.fits
  have hnext : uint32 (h.afterStart + 1) = h.afterStart + 1 := by
    rw [uint32]
    omega
  rw [readLines, afterLines, hnext]
  split
  · by_cases hzero : h.afterStart = 0
    · simp [hzero]
    · rw [if_neg hzero, if_neg hzero, max_eq_right (Nat.pos_of_ne_zero hzero)]
  · have hlast : uint32 (h.afterStart + afterCount h.body - 1) =
        h.afterStart + afterCount h.body - 1 := by
      rw [uint32]
      omega
    rw [hlast]

/-- Behind the last `unsigned` there is no line: the range of a deletion there wraps around. -/
theorem Hunk.readLines_ne {h : Hunk} (hlarge : ¬ h.afterStart + 1 < 2 ^ 32) (a b : Bool) :
    h.readLines a ≠ h.afterLines b := by
  have hfits := h.fits
  have hcount : afterCount h.body = 0 := by omega
  have hstart : h.afterStart = 2 ^ 32 - 1 := by omega
  have hwrap : uint32 ((2 ^ 32 - 1 : ℕ) + 1) = 0 := by decide
  rw [readLines, afterLines, if_pos (Or.inl hcount), if_pos (Or.inl hcount), hstart, hwrap]
  decide

theorem PlacedHunk.read_eq_iff (p : PlacedHunk) :
    p.read = some p.place ↔ p.ReadsRight ∧ p.hunk.afterStart + 1 < 2 ^ 32 := by
  by_cases hsmall : p.hunk.afterStart + 1 < 2 ^ 32
  · rw [and_iff_left hsmall, read, ReadsRight, place]
    cases hheader : p.file.headerAbove p.above with
    | none => simp
    | some x =>
      obtain ⟨name, deleted⟩ := x
      simp only [Option.some.injEq, Prod.mk.injEq, Option.filter, Hunk.readLines_eq hsmall]
      constructor
      · intro h
        by_cases hname : namesFile name = true
        · rw [if_pos hname, Option.map_some, Option.some.injEq,
            Prod.mk.injEq] at h
          exact ⟨deleted, ⟨h.1, rfl⟩, h.2⟩
        · rw [if_neg hname] at h
          cases h
      · rintro ⟨_, ⟨rfl, rfl⟩, hlines⟩
        rw [if_pos p.file.namesFile_file, Option.map_some, hlines]
  · refine iff_of_false (fun h => ?_) fun h => hsmall h.2
    obtain ⟨x, -, hx⟩ := Option.map_eq_some_iff.mp h
    exact Hunk.readLines_ne hsmall _ _ (congrArg Prod.snd hx)

/-- **The ranges of a diff are those of its hunks exactly when every hunk reads right.** -/
theorem parseUnifiedDiff_place_iff (d : UnifiedDiff) :
    (parseUnifiedDiff d.render).map PatchRange.place = d.hunks.map PlacedHunk.place ↔
      d.Legible := by
  rw [d.place_parseUnifiedDiff, List.filterMap_eq_map_iff_forall_eq_some]
  exact forall₂_congr fun p _ => p.read_eq_iff

/-- The change of a file whose first hunk deletes a comment that begins with two dashes. -/
def commentDiff : UnifiedDiff where
  files := [
    { before := text "a/q.sql"
      after := text "b/q.sql"
      hunks := [
        { beforeStart := 1
          afterStart := 0
          body := [⟨.deleted, text "-- x", by decide +kernel⟩]
          unbroken := by decide
          fits := by decide },
        { beforeStart := 5
          afterStart := 4
          body := [⟨.deleted, text "y", by decide +kernel⟩, ⟨.added, text "z", by decide +kernel⟩]
          unbroken := by decide
          fits := by decide }]
      unbroken := by decide +kernel
      named := by decide +kernel }]

/-- The deleted comment reads like the header of another file, and the second hunk is lost. -/
theorem parseUnifiedDiff_comment_fails :
    ¬ ∀ d : UnifiedDiff,
      (parseUnifiedDiff d.render).map PatchRange.place = d.hunks.map PlacedHunk.place := by
  intro h
  have hlost : (parseUnifiedDiff commentDiff.render).map PatchRange.place ≠
      commentDiff.hunks.map PlacedHunk.place := by decide +kernel
  exact hlost (h commentDiff)

/-- A diff without lines that read like headers is legible. -/
theorem UnifiedDiff.legible_of_unlike (d : UnifiedDiff)
    (hsmall : ∀ p ∈ d.hunks, p.hunk.afterStart + 1 < 2 ^ 32)
    (hlike : ∀ p ∈ d.hunks, ∀ l ∈ p.above, l.likeHeader = false) : d.Legible := by
  intro p hp
  have hnone : p.above.filter BodyLine.likeHeader = [] :=
    List.filter_eq_nil_iff.mpr fun l hl => by simp [hlike p hp l hl]
  refine ⟨⟨p.file.deleted, ?_, rfl⟩, hsmall p hp⟩
  rw [FileDiff.headerAbove, hnone]
  rfl

/-! ### Names in headers -/

/-- A path as git writes it, `a/` or `b/` before it and perhaps a tab and a time behind it, is
read back. -/
theorem stripPatchPrefix_git {side path stamp : Bytes}
    (hside : side = text "a/" ∨ side = text "b/") (hne : path ≠ []) (htab : 9 ∉ path)
    (hlast : ∀ c ∈ path.getLast?, isBlank c = false) (hdot : stripDot path = path)
    (hstamp : ∀ c ∈ stamp.head?, c = 9) :
    stripPatchPrefix (side ++ path ++ stamp) = path := by
  have hletters : 9 ∉ side ∧ side.length = 2 ∧ (text "a/" <+: side ∨ text "b/" <+: side) := by
    rcases hside with rfl | rfl <;> decide +kernel
  have hfree : 9 ∉ side ++ path := by simp [hletters.1, htab]
  have htake : (side ++ path ++ stamp).takeWhile (· ≠ 9) = side ++ path := by
    cases stamp with
    | nil => rw [List.append_nil, (takeWhile_ne_self hfree).1]
    | cons c stamp =>
      obtain rfl : c = 9 := hstamp c rfl
      exact takeWhile_ne_append hfree
  have htrim : ((side ++ path).reverse.dropWhile isBlank).reverse = side ++ path := by
    rw [List.getLast?_eq_some_getLast hne] at hlast
    rw [← List.dropLast_append_getLast hne, ← List.append_assoc, List.reverse_concat,
      List.dropWhile_cons_of_neg (by simp [hlast _ rfl]), List.reverse_cons, List.reverse_reverse]
  have hprefix : text "a/" <+: side ++ path ∨ text "b/" <+: side ++ path :=
    hletters.2.2.imp (·.trans (List.prefix_append _ _)) (·.trans (List.prefix_append _ _))
  simp only [stripPatchPrefix, htake, htrim, if_pos hprefix]
  rw [← hletters.2.1, List.drop_left, hdot]

end Vycor
