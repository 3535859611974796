import Vycor.Impact.Identity
import Vycor.Query.Args
import Vycor.Query.Typo

/-!
# From names to functions

Every tool about a function takes its name, its usr or a call site that calls it, and
`resolveIdentity` turns what is given into one usr, or into the payload that says why there is
none: nothing known has the name, or several functions do. A call site is looked up in the
control-flow index, which is the one read of it that all these tools share.
-/

namespace Vycor

/-! ### Text -/

/-- What stands behind the last `::`. -/
def afterLastScope : Bytes → Option Bytes
  | [] => none
  | [_] => none
  | a :: b :: rest =>
    match afterLastScope (b :: rest) with
    | some tail => some tail
    | none => if a = 58 ∧ b = 58 then some rest else none

/-- `unqualifiedName`. -/
def unqualifiedName (qualified : Bytes) : Bytes := (afterLastScope qualified).getD qualified

/-- `StringRef::consume_back`. -/
def consumeBack (s suffix : Bytes) : Option Bytes :=
  if suffix <:+ s then some (s.take (s.length - suffix.length)) else none

/-! ### Ranking and suggestions -/

/-- The tier of a hit of `rankFunctionMatches`, none where the needle is not contained. -/
def matchTier (needle qualified : Bytes) : Option ℕ :=
  if needle <:+: asciiLower qualified then
    let unqualified := asciiLower (unqualifiedName qualified)
    some (if unqualified = needle then 0 else if needle <+: unqualified then 1 else 2)
  else none

/-- The order of nodes by a leading number, then length of the name, name and usr. -/
def rankedBefore (a b : ℕ × CallGraphNode) : Bool :=
  if a.1 ≠ b.1 then a.1 < b.1
  else if a.2.qualifiedName.length ≠ b.2.qualifiedName.length then
    a.2.qualifiedName.length < b.2.qualifiedName.length
  else if a.2.qualifiedName ≠ b.2.qualifiedName then a.2.qualifiedName < b.2.qualifiedName
  else a.2.usr < b.2.usr

/-- Nodes with numbers, in that order. -/
def ranked (hits : List (ℕ × CallGraphNode)) : List CallGraphNode :=
  (hits.mergeSort fun a b => !rankedBefore b a).map (·.2)

/-- `rankFunctionMatches`. -/
def rankFunctionMatches (g : CallGraph) (query : Bytes) : List CallGraphNode :=
  ranked (g.allNodes.filterMap fun n =>
    (matchTier (asciiLower query) n.qualifiedName).map fun tier => (tier, n))

/-- `kMaxSuggestions`. -/
def kMaxSuggestions : ℕ := 5

/-- `take` of `suggestFunctions`. -/
def takeSuggestions (max : ℕ) (out : List CallGraphNode) (more : List CallGraphNode) :
    List CallGraphNode :=
  more.foldl (fun out n => if max ≤ out.length ∨ n ∈ out then out else out ++ [n]) out

/-- The bound of `suggestFunctions` on the distance. -/
def typoBound (tail : Bytes) : UInt32 :=
  let third := UInt32.ofNat (tail.length / 3)
  if third < 1 then 1 else if 3 < third then 3 else third

/-- The nodes near a misspelt name. -/
def nearFunctions (g : CallGraph) (tail : Bytes) (seen : List CallGraphNode) :
    List CallGraphNode :=
  let bound := typoBound tail
  ranked ((g.allNodes.filter (· ∉ seen)).filterMap fun n =>
    let unq := unqualifiedName n.qualifiedName
    if bound.toNat < (unq.length - tail.length) + (tail.length - unq.length) then none
    else
      let d := typoDistance tail unq bound
      if d ≤ bound then some (d.toNat, n) else none)

/-- `suggestFunctions`. -/
def suggestFunctions (g : CallGraph) (name : Bytes) (max : ℕ := kMaxSuggestions) :
    List CallGraphNode :=
  if name = [] ∨ max = 0 then []
  else
    let out := takeSuggestions max [] (rankFunctionMatches g name)
    let tail := unqualifiedName name
    let out :=
      if out.length < max ∧ tail.length ≠ name.length ∧ tail ≠ [] then
        takeSuggestions max out (rankFunctionMatches g tail)
      else out
    if max ≤ out.length then out
    else out ++ (nearFunctions g tail out).take (max - out.length)

section Identity

variable (ll : Llvm)

/-- `isKnownIdentity`. -/
def isKnownIdentity (g : CallGraph) (ident : Bytes) : Bool :=
  (g.findNode ll ident).isSome ||
    (match g.interner.find ident with
      | none => false
      | some id => !(g.callerRefsOf id).isEmpty || !(g.calleeRefsOf id).isEmpty)

/-- `unknownFunctionResult`. -/
def unknownFunctionResult (g : CallGraph) (paramName name : Bytes) : Json :=
  let suggestions := suggestFunctions g name
  let message := text "Function not found: '" ++ name ++
    text "' names no function and no call-graph edge in this index" ++
    (match suggestions.head? with
      | some s => text " (did you mean '" ++ s.qualifiedName ++ text "'?)"
      | none => []) ++
    text ". Use search_functions to find the indexed name."
  .object (errorResult ll .notFound message ++
    [(text "parameter", .string paramName), (text "name", .string name),
      (text "didYouMean", .array (suggestions.map fun n => .object
        [(text "qualifiedName", .string n.qualifiedName), (text "usr", .string n.usr),
          (text "file", .string n.file), (text "line", .count n.line)]))])

/-- `identityAlias`. -/
def identityAlias (nameParam : Bytes) : Bytes :=
  if nameParam = text "name" then text "function"
  else if nameParam = text "function" then text "name"
  else []

/-- The key and the value of a name argument, or of its alias. -/
def namedArg (args : JsonObject) (nameParam : Bytes) : Option (Bytes × Bytes) :=
  match args.getString nameParam with
  | some v => some (nameParam, v)
  | none =>
    if identityAlias nameParam = [] then none
    else (args.getString (identityAlias nameParam)).map fun v => (identityAlias nameParam, v)

/-- `identityName`. -/
def identityName (args : JsonObject) (nameParam : Bytes) : Option Bytes :=
  (namedArg args nameParam).map (·.2)

/-- `kMaxAmbiguousCandidates`. -/
def kMaxAmbiguousCandidates : ℕ := 25

/-- A candidate of an ambiguous name. -/
def candidateToJson (g : CallGraph) (name usr : Bytes) : Json :=
  .object ((text "usr", .string usr) ::
    (match g.findNode ll usr with
      | some n => [(text "qualifiedName", .string n.qualifiedName), (text "file", .string n.file),
          (text "line", .count n.line)]
      | none => [(text "qualifiedName", .string name)]))

/-- `makeAmbiguousNameResult`. -/
def makeAmbiguousNameResult (g : CallGraph) (paramName name : Bytes) (usrs : List Bytes)
    (filterNote : Bytes := []) : Json :=
  let usrs := usrs.insertionSort (· ≤ ·)
  let total := usrs.length
  let truncated := decide (kMaxAmbiguousCandidates < total)
  let files := usrs.filterMap fun usr => (g.findNode ll usr).map (·.file)
  let note := text "Multiple functions share this name. Re-run with the 'usr' parameter of the " ++
    text "intended candidate, or narrow with 'site' (a call-site 'file:line:col' resolves to the " ++
    text "exact overload/instantiation called there) or 'filter' (a literal substring matched " ++
    text "against candidate usr/name/file — not type-aware)." ++
    (if truncated then text " Candidate list truncated to " ++ decimal kMaxAmbiguousCandidates ++
      text " of " ++ decimal total ++ text "." else []) ++
    (if filterNote = [] then [] else text " " ++ filterNote)
  .object ([(text "ambiguous", .boolean true), (text "parameter", .string paramName),
    (text "name", .string name), (text "total_candidates", .count total),
    (text "candidates",
      .array ((usrs.take kMaxAmbiguousCandidates).map (candidateToJson ll g name)))] ++
    (if truncated then
      [(text "truncated", .boolean true),
        (text "candidates_by_file", .array ((files.dedup.insertionSort (· ≤ ·)).map fun f =>
          .object [(text "file", .string f), (text "count", .count (files.count f))]))]
      else []) ++
    [(text "note", .string note)])

/-- `companionParam`. -/
def companionParam (usrParam suffix : Bytes) : Bytes :=
  (consumeBack usrParam (text "usr")).getD usrParam ++ suffix

/-- What `resolveIdentity` answers: a usr, the payload to return instead, or that no identity
was given. -/
inductive Resolution where
  | found (ident : Bytes)
  | answered (payload : Json)
  | absent

/-- The functions called at a site, in usr order. -/
def siteCallees (contexts : List CallSiteContext) : List Bytes :=
  ((contexts.map fun c => if c.calleeUsr = [] then c.calleeName else c.calleeUsr).dedup).insertionSort
    (· ≤ ·)

/-- What is said of a site at which nothing is called. -/
def noSiteMessage (site : Bytes) : Bytes :=
  text "No call site found at '" ++ site ++
    text "' (expected 'file:line:col' as spelled in the compile command; " ++
    text "use query_call_site_context to inspect a site)."

/-- The functions called at a site that a name, if given, stands for. -/
def agreeingCallees (g : CallGraph) (name : Option Bytes) (callees : List Bytes) : List Bytes :=
  match name with
  | none => callees
  | some n => callees.filter fun c => c ∈ n :: g.usrsForName ll n

/-- The branch of `resolveIdentity` for a call site. -/
def resolveSite (g : CallGraph) (usrParam site : Bytes) (name : Option Bytes)
    (callees : List Bytes) : Resolution :=
  if callees = [] then
    .answered (notFoundError ll (noSiteMessage site))
  else
    let agreeing := agreeingCallees ll g name callees
    if agreeing = [] then
      .answered (notFoundError ll (text "Call site '" ++ site ++ text "' does not call '" ++
        name.getD [] ++ text "' (it calls: " ++ callees.headD [] ++
        (if 1 < callees.length then text ", ..." else []) ++ text ")."))
    else
      match agreeing with
      | [usr] => .found usr
      | _ => .answered (makeAmbiguousNameResult ll g usrParam (name.getD site) agreeing
          (text "Several distinct functions are called at this spelling " ++
            text "(macro-expanded call site)."))

/-- The candidates that a filter leaves. -/
def filterCandidates (g : CallGraph) (filter : Bytes) (usrs : List Bytes) : List Bytes :=
  usrs.filter fun u => filter <:+: u ||
    ((g.findNode ll u).any fun n => filter <:+: n.qualifiedName || filter <:+: n.file)

/-- The branch of `resolveIdentity` for a name. -/
def resolveName (g : CallGraph) (nameKey name : Bytes) (filter : Option Bytes) : Resolution :=
  match g.usrsForName ll name with
  | [] =>
    if isKnownIdentity ll g name then .found name
    else .answered (unknownFunctionResult ll g nameKey name)
  | [usr] =>
    if isKnownIdentity ll g usr then .found usr
    else .answered (unknownFunctionResult ll g nameKey name)
  | usrs =>
    match filter with
    | none => .answered (makeAmbiguousNameResult ll g nameKey name usrs)
    | some f =>
      match filterCandidates ll g f usrs with
      | [usr] => .found usr
      | [] => .answered (makeAmbiguousNameResult ll g nameKey name usrs
          (text "The filter '" ++ f ++
            text "' matched no candidate; showing the unfiltered set."))
      | kept => .answered (makeAmbiguousNameResult ll g nameKey name kept
          (text "Candidates already narrowed by filter '" ++ f ++ text "'."))

/-- `resolveIdentity`. The outer `Option` is the read of the control-flow index. -/
def resolveIdentity (args : JsonObject) (ctx : ToolContext) (nameParam usrParam : Bytes) :
    Option Resolution :=
  match args.getString usrParam with
  | some usr =>
    some (if isKnownIdentity ll ctx.graph usr then .found usr
      else .answered (unknownFunctionResult ll ctx.graph usrParam usr))
  | none =>
    match args.getString (companionParam usrParam (text "site")) with
    | some site => do
      let contexts ← ctx.cfIndex.contextsAtSite ll site
      some (resolveSite ll ctx.graph usrParam site (identityName args nameParam)
        (siteCallees contexts))
    | none =>
      match namedArg args nameParam with
      | none => some .absent
      | some (key, name) =>
        some (resolveName ll ctx.graph key name
          (args.getString (companionParam usrParam (text "filter"))))

/-- `attachUsr`, the member it adds. -/
def usrMember (g : CallGraph) (ident : Bytes) (key : Bytes := text "usr") : JsonObject :=
  match g.findNode ll ident with
  | some n => [(key, .string n.usr)]
  | none =>
    let marker := match consumeBack key (text "Usr") with
      | some stem => stem ++ text "ResolvedAs"
      | none =>
        match consumeBack key (text "usr") with
        | some stem => stem ++ text "resolvedAs"
        | none => key ++ text "ResolvedAs"
    [(marker, .string (text "name"))]

end Identity

end Vycor
