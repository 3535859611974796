import Vycor.CallGraph.Query
import Mathlib.Data.List.Sort
import Mathlib.Data.List.Dedup

/-!
# Identity across indexes

`IdentityTable::build` gives every function of a graph a comparison key that no source
position enters: a lambda is named by its rank among the lambdas of one file and enclosing
function, and every byte offset inside a usr by its rank among the offsets of one file and
context. The ranks are drawn from groups; `markAmbiguousGroups` marks the keys of the groups
that two graphs hold in different sizes.

The loops of the source leave for each usr they rewrite an entry (`Rewritten`), from which
the maps of the table are read off. The nodes of a graph come in the order of their ids;
every use sorts them by usr, which no two nodes share.
-/

namespace Vycor

/-! ### Parsing -/

/-- `std::isdigit`. -/
def isDigit (c : UInt8) : Bool := 48 ≤ c && c ≤ 57

/-- `std::isalnum`. -/
def isAlnum (c : UInt8) : Bool := isDigit c || (65 ≤ c && c ≤ 90) || (97 ≤ c && c ≤ 122)

/-- `allDigits`. -/
def allDigits (s : Bytes) : Bool := s ≠ [] && s.all isDigit

/-- The number a run of digits spells. -/
def digitsValue (s : Bytes) : ℕ := s.foldl (fun n c => 10 * n + (c.toNat - 48)) 0

/-- `getAsInteger` into a zeroed field of `2 ^ bits` values, which an overflow leaves at
zero. -/
def getAsInteger (bits : ℕ) (s : Bytes) : ℕ :=
  if digitsValue s < 2 ^ bits then digitsValue s else 0

/-- `LambdaParts`. -/
structure LambdaParts where
  file : Bytes
  line : ℕ
  col : ℕ
  enclosing : Bytes
  deriving DecidableEq, Repr

/-- `kLambdaPrefix`. -/
def kLambdaPrefix : Bytes := text "vycor-lambda:lambda#"

/-- A site `<file>:<line>:<col>`, split at its last two colons. -/
def parseSite (site : Bytes) : Option (Bytes × ℕ × ℕ) :=
  let col := (site.reverse.takeWhile (· ≠ 58)).reverse
  let front := (site.reverse.dropWhile (· ≠ 58)).drop 1
  let line := (front.takeWhile (· ≠ 58)).reverse
  let file := ((front.dropWhile (· ≠ 58)).drop 1).reverse
  if 58 ∈ front ∧ file ≠ [] ∧ allDigits line ∧ allDigits col then
    some (file, getAsInteger 32 line, getAsInteger 32 col)
  else none

/-- The loop of `parseLambda` over the `#`s, behind `site`. -/
def parseLambdaFrom (site : Bytes) : Bytes → Option LambdaParts
  | [] => none
  | c :: rest =>
    if c = 35 then
      match parseSite site with
      | some (file, line, col) => some ⟨file, line, col, rest⟩
      | none => parseLambdaFrom (site ++ [c]) rest
    else parseLambdaFrom (site ++ [c]) rest

/-- `parseLambda`. -/
def parseLambda (usr : Bytes) : Option LambdaParts :=
  if kLambdaPrefix.isPrefixOf usr then parseLambdaFrom [] (usr.drop kLambdaPrefix.length) else none

/-- `LocationFragment`: the digits of an offset, at `[first, last)`. -/
structure LocationFragment where
  first : ℕ
  last : ℕ
  file : Bytes
  offset : ℕ
  group : Bytes
  deriving DecidableEq, Repr

/-- `isUsrSeparator`. -/
def isUsrSeparator (c : UInt8) : Bool := (text "@#$<>(),&*:").contains c

/-- The text up to the end of the first anonymous tag: `@Sa`, `@Ua` or `@Ea`. -/
def upToTag : Bytes → Option Bytes
  | c₀ :: c₁ :: c₂ :: rest =>
    if c₀ = 64 ∧ (c₁ = 83 ∨ c₁ = 85 ∨ c₁ = 69) ∧ c₂ = 97 then some [c₀, c₁, c₂]
    else (upToTag (c₁ :: c₂ :: rest)).map (c₀ :: ·)
  | _ => none

/-- The fragment at an `@`, between the text `before` it, last character first, and the text
behind it. -/
def fragmentAt (before rest : Bytes) : Option LocationFragment :=
  let digits := rest.takeWhile isDigit
  let after := rest.dropWhile isDigit
  let file := (before.takeWhile fun c => !isUsrSeparator c).reverse
  if digits = [] then none
  -- digits that begin a longer name
  else if after.head?.any fun c => isAlnum c || c = 95 then none
  else if file = [] ∨ 46 ∉ file then none
  else some {
    first := before.length + 1
    last := before.length + 1 + digits.length
    file := file
    offset := getAsInteger 64 digits
    group := text "closure:" ++ file ++ (upToTag after).getD [] }

/-- The loop of `locationFragments` over the `@`s. -/
def fragmentsFrom (before : Bytes) : Bytes → List LocationFragment
  | [] => []
  | c :: rest =>
    (if c = 64 then fragmentAt before rest else none).toList ++ fragmentsFrom (c :: before) rest

/-- `locationFragments`. -/
def locationFragments (usr : Bytes) : List LocationFragment := fragmentsFrom [] usr

/-! ### The rewritten usrs -/

/-- A usr with a source position in it: its key and the group the table files it under.
`ordinals` are the groups whose ranks the key embeds, which the source does not keep. -/
structure Rewritten where
  usr : Bytes
  key : Bytes
  group : Bytes
  ordinals : List Bytes
  deriving DecidableEq, Repr

/-- A lambda of the graph. -/
structure LambdaNode where
  usr : Bytes
  parts : LambdaParts
  deriving DecidableEq, Repr

/-- The order of the lambdas: file, line, column, usr. -/
def LambdaNode.before (a b : LambdaNode) : Bool :=
  if a.parts.file ≠ b.parts.file then a.parts.file < b.parts.file
  else if a.parts.line ≠ b.parts.line then a.parts.line < b.parts.line
  else if a.parts.col ≠ b.parts.col then a.parts.col < b.parts.col
  else a.usr < b.usr

/-- One round of the loop over the lambdas. -/
def rewriteLambda (done : List Rewritten) (l : LambdaNode) : List Rewritten :=
  let outer :=
    if (text "lambda#").isPrefixOf l.parts.enclosing then
      done.find? fun e => e.usr = text "vycor-lambda:" ++ l.parts.enclosing
    else none
  let group := l.parts.file ++ text "#" ++ (outer.map (·.key)).getD l.parts.enclosing
  let members := done.countP fun e => e.group = group
  done ++ [{
    usr := l.usr
    key := text "vycor-lambda:" ++ group ++ text "#" ++ decimal members
    group := group
    ordinals := group :: ((outer.map (·.ordinals)).getD []) }]

/-- A usr and its location fragments. -/
structure Located where
  usr : Bytes
  fragments : List LocationFragment
  deriving DecidableEq, Repr

/-- The offsets of a group, each once. -/
def offsetsOf (located : List Located) (group : Bytes) : List ℕ :=
  ((located.flatMap (·.fragments)).filter fun f => f.group = group).map (·.offset) |>.dedup

/-- The rank of an offset in its group. -/
def ordinalOf (located : List Located) (f : LocationFragment) : ℕ :=
  (offsetsOf located f.group).countP (· < f.offset)

/-- The key of a located usr: every offset is replaced by its rank, from the last one on. -/
def rewriteOffsets (located : List Located) (l : Located) : Bytes :=
  l.fragments.reverse.foldl (fun key f =>
    key.take f.first ++ (text "%" ++ decimal (ordinalOf located f)) ++ key.drop f.last) l.usr

/-- The entry of a located usr; it is filed under the group of its first fragment. -/
def rewriteLocated (located : List Located) (l : Located) : Rewritten :=
  { usr := l.usr
    key := rewriteOffsets located l
    group := (l.fragments.head?.map (·.group)).getD []
    ordinals := l.fragments.map (·.group) }

namespace CallGraph

variable (ll : Llvm) (g : CallGraph)

/-- `CallGraph::allNodes`. -/
def allNodes : List CallGraphNode := (List.range g.interner.size).filterMap g.nodes

/-- `nodesByUsr`. -/
def nodesByUsr : List CallGraphNode := g.allNodes.insertionSort fun a b => a.usr ≤ b.usr

/-- The lambdas of a graph in their order. -/
def lambdas : List LambdaNode :=
  (g.allNodes.filterMap fun n => (parseLambda n.usr).map (LambdaNode.mk n.usr)).insertionSort
    fun a b => b.before a = false

/-- The entries of the lambdas. -/
def rewrittenLambdas : List Rewritten := g.lambdas.foldl rewriteLambda []

/-- Every usr the graph mentions, sorted, each once. -/
def mentioned : List Bytes :=
  ((g.allNodes.flatMap fun n => n.usr :: (g.calleesOf ll n.usr).map (·.calleeUsr)).dedup).insertionSort
    (· ≤ ·)

/-- The mentioned usrs with location fragments, lambdas apart. -/
def located : List Located :=
  ((g.mentioned ll).filter fun usr => !(g.rewrittenLambdas.any fun e => e.usr = usr)).filterMap
    fun usr =>
      let frags := locationFragments usr
      if frags = [] then none else some ⟨usr, frags⟩

/-- The entries of the located usrs. -/
def rewrittenLocated : List Rewritten :=
  (g.located ll).map (rewriteLocated (g.located ll))

end CallGraph

/-! ### The table -/

/-- `IdentityTable`. `groups` lists the keys pushed under each group, in order. -/
structure IdentityTable where
  keyByUsr : Bytes → Option Bytes
  usrByKey : Bytes → Option Bytes
  groups : List (Bytes × Bytes)
  groupSizes : Bytes → Option ℕ
  groupByKey : Bytes → Option Bytes
  ambiguousKeys : Bytes → Bool := fun _ => false

namespace IdentityTable

/-- `IdentityTable::build`. -/
def build (ll : Llvm) (g : CallGraph) : IdentityTable :=
  let lambdas := g.rewrittenLambdas
  let located := g.rewrittenLocated ll
  let plain := g.allNodes.filter fun n => !((lambdas ++ located).any fun e => e.usr = n.usr)
  { keyByUsr := fun usr =>
      ((lambdas ++ located).find? fun e => e.usr = usr).map (·.key) <|>
        (plain.find? fun n => n.usr = usr).map (·.usr)
    -- a plain node is entered last; a located usr only when it is a node
    usrByKey := fun key =>
      (plain.find? fun n => n.usr = key).map (·.usr) <|>
        ((lambdas ++ located.filter fun e => (g.findNode ll e.usr).isSome).reverse.find?
          fun e => e.key = key).map (·.usr)
    groups := (lambdas ++ located).map fun e => (e.group, e.key)
    groupSizes := fun group =>
      if (offsetsOf (g.located ll) group) ≠ [] then some (offsetsOf (g.located ll) group).length
      else if (lambdas.countP fun e => e.group = group) ≠ 0 then
        some (lambdas.countP fun e => e.group = group)
      else none
    groupByKey := fun key =>
      ((lambdas ++ located).reverse.find? fun e => e.key = key).map (·.group) }

variable (t : IdentityTable)

/-- `IdentityTable::groupOf`. -/
def groupOf (key : Bytes) : Bytes := (t.groupByKey key).getD []

/-- `IdentityTable::keyOf`. -/
def keyOf (usr : Bytes) : Bytes := (t.keyByUsr usr).getD usr

/-- `IdentityTable::usrOf`. -/
def usrOf (key : Bytes) : Option Bytes := t.usrByKey key

/-- `IdentityTable::isAmbiguous`. -/
def isAmbiguous (key : Bytes) : Bool := t.ambiguousKeys key

/-- Both tables file keys under the group, in different numbers. -/
def sizesDiffer (a b : IdentityTable) (group : Bytes) : Bool :=
  decide (group ∈ a.groups.map Prod.fst) && decide (group ∈ b.groups.map Prod.fst) &&
    decide (a.groupSizes group ≠ b.groupSizes group)

/-- What `markAmbiguousGroups` leaves in the first of its tables. -/
def markedAgainst (a b : IdentityTable) : IdentityTable :=
  { a with ambiguousKeys := fun key =>
      a.ambiguousKeys key || a.groups.any fun p => p.2 = key && sizesDiffer a b p.1 }

/-- `IdentityTable::markAmbiguousGroups`. -/
def markAmbiguousGroups (a b : IdentityTable) : IdentityTable × IdentityTable :=
  (a.markedAgainst b, b.markedAgainst a)

end IdentityTable

end Vycor
