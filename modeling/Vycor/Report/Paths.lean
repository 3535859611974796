import Vycor.Lib.Cut
import Vycor.Text.Utf8

/-!
# Paths of a report

Locations and files of a finding go through path arithmetic (`absolutePath`,
`relativeToRoot`), its message through a search for the text of the project root
(`stripProjectRoot`). Both are meant to give the same result wherever the project lies.

The path functions of the LLVM support library are the parameter `PathLib`; what the code
relies on is what their documentation says of POSIX paths (`PathLib.Posix`). The file system
enters through `realPath`, which is `none` where `real_path` reports an error.
-/

namespace Vycor

/-- `"/"`. -/
def slash : UInt8 := 47

/-- The functions of `llvm::sys::path` on strings; `removeDots` is `remove_dots` with
`remove_dot_dot`. -/
structure PathLib where
  isAbsolute : Bytes → Bool
  append : Bytes → Bytes → Bytes
  removeDots : Bytes → Bytes

/-- One component on top of the stack of those before it: empty components and `.` are
skipped, `..` takes one off. -/
def pushComponent (stack : List Bytes) (c : Bytes) : List Bytes :=
  if c = [] ∨ c = [46] then stack else if c = [46, 46] then stack.tail else c :: stack

/-- The components left of a list of components below the root directory. -/
def resolveDots (cs : List Bytes) : List Bytes := (cs.foldl pushComponent []).reverse

/-- The documented behaviour on POSIX paths. A path that begins with two slashes names a
network root and is left out. -/
structure PathLib.Posix (lib : PathLib) : Prop where
  isAbsolute : ∀ p, lib.isAbsolute p = decide (p.head? = some slash)
  append : ∀ base p, base ≠ [] → base.getLast? ≠ some slash → p.head? ≠ some slash →
    lib.append base p = base ++ slash :: p
  removeDots : ∀ p, p.head? ≠ some slash →
    lib.removeDots (slash :: p) = slash :: [slash].intercalate (resolveDots (p.splitOn slash))

/-! ### Locations -/

/-- The text before and behind the last `:`. -/
def cutLastColon : Bytes → Option (Bytes × Bytes)
  | [] => none
  | c :: rest =>
    match cutLastColon rest with
    | some (before, behind) => some (c :: before, behind)
    | none => if c = 58 then some ([], rest) else none

/-- A decimal digit. -/
def isDecimal (c : UInt8) : Bool := 48 ≤ c && c ≤ 57

/-- `getAsInteger(10, value)` for an `unsigned`. -/
def asUnsigned (s : Bytes) : Option ℕ :=
  if s ≠ [] ∧ s.all isDecimal = true then
    let value := s.foldl (fun n c => 10 * n + (c.toNat - 48)) 0
    if value < 2 ^ 32 then some value else none
  else none

/-- One round of the loop of `splitLocation`: the number behind the last colon. -/
def trailingNumber (rest : Bytes) : Option (Bytes × ℕ) :=
  match cutLastColon rest with
  | none => none
  | some (before, behind) => (asUnsigned behind).map fun n => (before, n)

/-- `splitLocation`: the path, the line and the column. -/
def splitLocation (loc : Bytes) : Bytes × ℕ × ℕ :=
  match trailingNumber loc with
  | none => (loc, 0, 0)
  | some (rest, n) =>
    match trailingNumber rest with
    | none => (rest, n, 0)
    | some (path, line) => (path, line, n)

/-! ### Paths under the root -/

/-- A root without the slashes at its end; `"/"` keeps its own. -/
def trimSlashes : ℕ → Bytes → Bytes
  | 0, r => r
  | fuel + 1, r =>
    if 1 < r.length ∧ r.getLast? = some slash then trimSlashes fuel r.dropLast else r

section Paths

variable (lib : PathLib) (realPath : Bytes → Option Bytes)

/-- `absolutePath`. -/
def absolutePath (path base : Bytes) : Bytes :=
  if path = [] then []
  else
    let abs := if lib.isAbsolute path then path else lib.append base path
    lib.removeDots abs

/-- `tryRelative`. -/
def tryRelative (p r : Bytes) : Option Bytes :=
  let r := trimSlashes r.length r
  if p = r then some [46]
  else if r = [slash] then some (p.drop 1)
  else if r.isPrefixOf p ∧ p[r.length]? = some slash then some (p.drop (r.length + 1))
  else none

/-- `relativeToRoot`. -/
def relativeToRoot (path root : Bytes) : Bytes :=
  if root = [] ∨ path = [] then path
  else
    match tryRelative path root with
    | some rel => rel
    | none =>
      let realRoot := (realPath root).getD []
      let byRealRoot := if (realPath root).isSome ∧ realRoot ≠ root then
        tryRelative path realRoot else none
      match byRealRoot with
      | some rel => rel
      | none =>
        match realPath path with
        | none => path
        | some real =>
          if real ≠ path then
            match tryRelative real root with
            | some rel => rel
            | none =>
              match (if realRoot ≠ [] then tryRelative real realRoot else none) with
              | some rel => rel
              | none => path
          else path

/-- `stripOne`: the text without the occurrences of one root and the slash behind it. -/
def stripOne (r text : Bytes) : Bytes :=
  let r := trimSlashes r.length r
  if r.length ≤ 1 then text else cutAll (r ++ [slash]) text.length text

/-- `stripProjectRoot`. -/
def stripProjectRoot (text projectRoot : Bytes) : Bytes :=
  if projectRoot = [] ∨ text = [] then text
  else
    let out := stripOne projectRoot text
    match realPath projectRoot with
    | none => out
    | some realRoot => if realRoot ≠ projectRoot then stripOne realRoot out else out

end Paths

end Vycor
