import Vycor.Lib.Cut
import Vycor.Text.Trim

/-!
# Replacement templates

A rewrite rule gives its replacement as a template: literal text with expressions
`{{nodeId | op("arg") | op}}` in between. `parseTemplate` finds the braces, the bars, the
parentheses and the quotes by scans of their own, and only the scan for the bars knows that
an argument stands in quotes.

The scan for the parentheses gets by without it: it looks for the first one that opens and
the last one that closes. The scan for the braces does not. An argument that holds two
closing braces ends the expression, and a template is read back as it was written exactly
when none of its arguments does (`parseTemplate_render_iff`).
-/

namespace Vycor

/-! ### What a template is parsed into -/

/-- `PipeOp`. -/
structure PipeOp where
  name : Bytes
  arg : Bytes
  deriving DecidableEq, Repr

/-- `TemplateExpr`. -/
structure TemplateExpr where
  nodeId : Bytes
  pipes : List PipeOp
  deriving DecidableEq, Repr

/-- `ParsedTemplate`. -/
structure ParsedTemplate where
  literals : List Bytes := []
  exprs : List TemplateExpr := []
  deriving DecidableEq, Repr

/-! ### The parser -/

/-- The quotes around an argument are dropped when both are there. -/
def stripQuotes (argRaw : Bytes) : Bytes :=
  if 2 ≤ argRaw.length ∧ argRaw.head? = some 34 ∧ argRaw.getLast? = some 34 then
    (argRaw.drop 1).take (argRaw.length - 2)
  else argRaw

/-- `parsePipeOp`. -/
def parsePipeOp (raw : Bytes) : Except Bytes PipeOp :=
  let raw := trimBlanks raw
  if raw = [] then .error (text "empty pipe operation")
  else
    match cutFirst [40] raw with
    | none => .ok ⟨raw, []⟩
    | some (before, rest) =>
      let name := trimBlanks before
      match beforeLast 41 rest with
      | none => .error (text "unclosed parenthesis in pipe: " ++ name)
      | some inner => .ok ⟨name, stripQuotes (trimBlanks inner)⟩

/-- The loop of `splitPipes`, inside quotes or not. -/
def splitPipesFrom : Bool → Bytes → List Bytes
  | _, [] => [[]]
  | inQuotes, c :: body =>
    let inQuotes := if c = 34 then !inQuotes else inQuotes
    if c = 124 ∧ inQuotes = false then [] :: splitPipesFrom inQuotes body
    else
      match splitPipesFrom inQuotes body with
      | [] => [[c]]
      | part :: parts => (c :: part) :: parts

/-- `splitPipes`. -/
def splitPipes (body : Bytes) : List Bytes := splitPipesFrom false body

/-- What `parseTemplate` makes of the text between the braces. -/
def parseExpr (exprBody : Bytes) : Except Bytes TemplateExpr :=
  match splitPipes exprBody with
  | [] => .error (text "empty expression in template")
  | part :: parts =>
    let nodeId := trimBlanks part
    if nodeId = [] then .error (text "empty node ID in template expression")
    else (parts.mapM parsePipeOp).map fun pipes => ⟨nodeId, pipes⟩

/-- The loop of `parseTemplate`; the number is fuel. -/
def parseLoop : ℕ → Bytes → ParsedTemplate → Except Bytes ParsedTemplate
  | 0, _, result => .ok result
  | fuel + 1, remaining, result =>
    if remaining = [] then .ok result
    else
      match cutFirst [123, 123] remaining with
      | none => .ok { result with literals := result.literals ++ [remaining] }
      | some (literal, remaining) =>
        match cutFirst [125, 125] remaining with
        | none => .error (text "unclosed \x7b\x7b in template")
        | some (exprBody, remaining) =>
          match parseExpr exprBody with
          | .error message => .error message
          | .ok expr =>
            parseLoop fuel remaining
              { literals := result.literals ++ [literal], exprs := result.exprs ++ [expr] }

/-- There is one literal more than there are expressions. -/
def closeTemplate (result : ParsedTemplate) : ParsedTemplate :=
  if result.literals.length = result.exprs.length then
    { result with literals := result.literals ++ [[]] }
  else result

/-- `parseTemplate`. -/
def parseTemplate (templateStr : Bytes) : Except Bytes ParsedTemplate :=
  -- a round of the loop takes four braces at least
  (parseLoop (templateStr.length + 1) templateStr {}).map closeTemplate

/-! ### What is written -/

/-- A node id or the name of a pipe. -/
structure PlainName (s : Bytes) : Prop where
  ne_nil : s ≠ []
  trimmed : trimBlanks s = s
  plain : ∀ c ∈ s, c ≠ 124 ∧ c ≠ 34 ∧ c ≠ 40 ∧ c ≠ 41 ∧ c ≠ 123 ∧ c ≠ 125

namespace PipeOp

/-- A pipe behind its bar, the argument in quotes. -/
def render (p : PipeOp) : Bytes :=
  text " | " ++ p.name ++ text "(\"" ++ p.arg ++ text "\")"

/-- An argument is any text without a quote. -/
structure Plain (p : PipeOp) : Prop where
  name : PlainName p.name
  arg : 34 ∉ p.arg

end PipeOp

namespace TemplateExpr

/-- The text between the braces. -/
def body (e : TemplateExpr) : Bytes := e.nodeId ++ e.pipes.flatMap PipeOp.render

/-- Names and arguments as the syntax has room for. -/
structure Plain (e : TemplateExpr) : Prop where
  nodeId : PlainName e.nodeId
  pipes : ∀ p ∈ e.pipes, p.Plain

end TemplateExpr

/-- Literals with an expression after each but the last. -/
def interleave : List Bytes → List TemplateExpr → Bytes
  | [], _ => []
  | literal :: _, [] => literal
  | literal :: literals, e :: exprs =>
    literal ++ 123 :: 123 :: (e.body ++ 125 :: 125 :: interleave literals exprs)

/-- A template as it is meant: literals, and expressions one fewer. -/
structure Template extends ParsedTemplate where
  length_eq : literals.length = exprs.length + 1
  -- no two braces open in a literal, and none at its end
  plain_literals : ∀ literal ∈ literals, Undoubled 123 literal
  plain_exprs : ∀ e ∈ exprs, e.Plain

/-- The text of a template. -/
def Template.render (t : Template) : Bytes := interleave t.literals t.exprs

/-! ### Bars and quotes -/

/-- Letters in front of the first part. -/
def onFirst (s : Bytes) : List Bytes → List Bytes
  | [] => [s]
  | part :: parts => (s ++ part) :: parts

theorem splitPipesFrom_ne_nil (inQuotes : Bool) (body : Bytes) :
    splitPipesFrom inQuotes body ≠ [] := by
  cases body with
  | nil => exact List.cons_ne_nil _ _
  | cons c body =>
    rw [splitPipesFrom]
    split_ifs
    all_goals first | exact List.cons_ne_nil _ _ | split <;> exact List.cons_ne_nil _ _

theorem onFirst_append (s t : Bytes) (parts : List Bytes) :
    onFirst (s ++ t) parts = onFirst s (onFirst t parts) := by
  cases parts with
  | nil => rfl
  | cons part parts => rw [onFirst, onFirst, onFirst, List.append_assoc]

theorem splitPipesFrom_cons (inQuotes : Bool) (c : UInt8) (body : Bytes)
    (h : c ≠ 124 ∨ inQuotes = true) (hc : c ≠ 34) :
    splitPipesFrom inQuotes (c :: body) = onFirst [c] (splitPipesFrom inQuotes body) := by
  have hno : ¬ (c = 124 ∧ inQuotes = false) := by
    rintro ⟨rfl, rfl⟩
    simp at h
  rw [splitPipesFrom, if_neg hc, if_neg hno]
  cases splitPipesFrom inQuotes body <;> rfl

/-- A quote opens or closes, and stays in its part. -/
theorem splitPipesFrom_quote (inQuotes : Bool) (body : Bytes) :
    splitPipesFrom inQuotes (34 :: body) = onFirst [34] (splitPipesFrom (!inQuotes) body) := by
  rw [splitPipesFrom, if_pos rfl, if_neg (by simp)]
  cases splitPipesFrom (!inQuotes) body <;> rfl

theorem splitPipesFrom_bar (body : Bytes) :
    splitPipesFrom false (124 :: body) = [] :: splitPipesFrom false body := by
  rw [splitPipesFrom]
  rfl

/-- Text without quotes stays in one part, bars in it only inside quotes. -/
theorem splitPipesFrom_append {inQuotes : Bool} {s : Bytes} (body : Bytes)
    (h : ∀ c ∈ s, c ≠ 34 ∧ (c ≠ 124 ∨ inQuotes = true)) :
    splitPipesFrom inQuotes (s ++ body) = onFirst s (splitPipesFrom inQuotes body) := by
  induction s with
  | nil =>
    rw [List.nil_append]
    cases hparts : splitPipesFrom inQuotes body with
    | nil => exact absurd hparts (splitPipesFrom_ne_nil _ _)
    | cons part parts => rfl
  | cons c s ih =>
    rw [List.forall_mem_cons] at h
    rw [List.cons_append, splitPipesFrom_cons _ _ _ h.1.2 h.1.1, ih h.2, ← onFirst_append]
    rfl

/-! ### One pipe -/

namespace PipeOp

/-- A pipe between its bar and what follows. -/
def call (p : PipeOp) : Bytes := 32 :: ((p.name ++ [40, 34]) ++ (p.arg ++ [34, 41]))

theorem render_eq (p : PipeOp) : p.render = 32 :: 124 :: p.call := by
  have hbar : text " | " = [32, 124, 32] := by decide +kernel
  have hopen : text "(\"" = [40, 34] := by decide +kernel
  have hclose : text "\")" = [34, 41] := by decide +kernel
  rw [render, call, hbar, hopen, hclose]
  simp only [List.cons_append, List.nil_append, List.append_assoc]

end PipeOp

theorem PlainName.notMem {s : Bytes} (h : PlainName s) :
    124 ∉ s ∧ 34 ∉ s ∧ 40 ∉ s ∧ 41 ∉ s ∧ 123 ∉ s ∧ 125 ∉ s := by
  refine ⟨fun hm => ?_, fun hm => ?_, fun hm => ?_, fun hm => ?_, fun hm => ?_, fun hm => ?_⟩
  all_goals
    have hc := h.plain _ hm
    simp at hc

theorem PlainName.trimmed_append {s t : Bytes} (h : PlainName s) (ht : t ≠ [])
    (hlast : ∀ c ∈ t.getLast?, isPadding c = false) : Trimmed (s ++ t) := by
  obtain ⟨a, s', rfl⟩ := List.exists_cons_of_ne_nil h.ne_nil
  refine ⟨(trimmed_of_trimBlanks h.trimmed).1, fun c hc => hlast c ?_⟩
  rwa [List.getLast?_append_of_ne_nil _ ht] at hc

/-- A whole pipe is read back, whatever its argument holds. -/
theorem parsePipeOp_call {p : PipeOp} (hp : p.Plain) {w : Bytes}
    (hw : ∀ c ∈ w, isPadding c = true) : parsePipeOp (p.call ++ w) = .ok p := by
  have hends : Trimmed ((p.name ++ [40, 34]) ++ (p.arg ++ [34, 41])) := by
    rw [List.append_assoc]
    refine hp.name.trimmed_append (List.cons_ne_nil _ _) fun c hc => ?_
    obtain rfl : 41 = c := by simpa [List.getLast?_cons] using hc
    rfl
  have htrim : trimBlanks (p.call ++ w) = (p.name ++ [40, 34]) ++ (p.arg ++ [34, 41]) :=
    trimBlanks_pad (w := [32]) (List.forall_mem_singleton.mpr rfl) hends (by simp) hw
  have hopen : cutFirst [40] ((p.name ++ [40, 34]) ++ (p.arg ++ [34, 41])) =
      some (p.name, 34 :: (p.arg ++ [34, 41])) := by
    rw [List.append_assoc]
    exact cutFirst_letter hp.name.notMem.2.2.1
  have hclose : beforeLast 41 (34 :: (p.arg ++ [34, 41])) = some (34 :: (p.arg ++ [34])) := by
    have hlast := beforeLast_append (c := (41 : UInt8)) (s := 34 :: (p.arg ++ [34])) List.not_mem_nil
    rwa [List.cons_append, List.append_assoc] at hlast
  have hquoted : Trimmed (34 :: (p.arg ++ [34])) := by
    refine ⟨fun c hc => ?_, fun c hc => ?_⟩
    all_goals
      obtain rfl : 34 = c := by simpa [List.getLast?_cons] using hc
      rfl
  have hstrip : stripQuotes (34 :: (p.arg ++ [34])) = p.arg := by
    simp [stripQuotes, List.getLast?_cons]
  rw [parsePipeOp, htrim]
  dsimp only
  rw [if_neg (by simp), hopen]
  dsimp only
  rw [hclose]
  dsimp only
  rw [trimBlanks_self hquoted (List.cons_ne_nil _ _), hstrip, hp.name.trimmed]

/-- A pipe that is cut off in its argument: an error, or an argument with the quote left in. -/
theorem quote_mem_of_parsePipeOp_cut {name pre : Bytes} (hname : PlainName name)
    (hpre : 34 ∉ pre) {p : PipeOp}
    (hp : parsePipeOp (32 :: ((name ++ [40, 34]) ++ pre)) = .ok p) : 34 ∈ p.arg := by
  have hends : Trimmed (name ++ [40, 34]) := by
    refine hname.trimmed_append (List.cons_ne_nil _ _) fun c hc => ?_
    obtain rfl : 34 = c := by simpa using hc
    rfl
  have htrim : trimBlanks (32 :: ((name ++ [40, 34]) ++ pre)) =
      (name ++ [40, 34]) ++ pre.rdropWhile isPadding :=
    trimBlanks_append (w := [32]) (List.forall_mem_singleton.mpr rfl) hends (by simp)
  have hrest : 34 ∉ pre.rdropWhile isPadding := fun h =>
    hpre ((List.rdropWhile_prefix _ _).subset h)
  have hopen : cutFirst [40] ((name ++ [40, 34]) ++ pre.rdropWhile isPadding) =
      some (name, 34 :: pre.rdropWhile isPadding) := by
    rw [List.append_assoc]
    exact cutFirst_letter hname.notMem.2.2.1
  rw [parsePipeOp, htrim] at hp
  dsimp only at hp
  rw [if_neg (by simp), hopen] at hp
  dsimp only at hp
  rw [beforeLast] at hp
  cases hclose : beforeLast 41 (pre.rdropWhile isPadding) with
  | none =>
    rw [hclose] at hp
    cases hp
  | some inner =>
    have hinner : 34 ∉ inner := fun h => hrest ((prefix_of_beforeLast hclose).subset h)
    have htail : 34 ∉ inner.rdropWhile isPadding := fun h =>
      hinner ((List.rdropWhile_prefix _ _).subset h)
    have hquote : trimBlanks (34 :: inner) = 34 :: inner.rdropWhile isPadding :=
      trimBlanks_append (w := []) (s := [34]) (by simp) (by simp [Trimmed, isPadding]) (by simp)
    rw [hclose] at hp
    obtain rfl := Except.ok.inj hp
    dsimp only
    rw [hquote, stripQuotes]
    -- the closing quote is behind the cut
    refine (if_neg ?_).symm ▸ List.mem_cons_self
    rintro ⟨hlen, -, hlast⟩
    cases hne : inner.rdropWhile isPadding with
    | nil => simp [hne] at hlen
    | cons a rest =>
      rw [hne] at hlast htail
      rw [List.getLast?_cons_cons] at hlast
      exact htail (List.mem_of_getLast? hlast)

/-! ### One expression -/

/-- How the text behind a node id falls into pipes: blanks that go with the id, and parts
that are read as `r`. -/
def SplitsInto (t : Bytes) (r : Except Bytes (List PipeOp)) : Prop :=
  ∃ w parts, splitPipes t = w :: parts ∧ (∀ c ∈ w, isPadding c = true) ∧
    parts.mapM parsePipeOp = r

theorem splitsInto_nil : SplitsInto [] (.ok []) :=
  ⟨[], [], rfl, List.forall_mem_nil _, rfl⟩

/-- Up to its opening quote a pipe stays in one part. -/
theorem splitPipesFrom_open {name : Bytes} (hname : PlainName name) (t : Bytes) :
    splitPipesFrom false (32 :: ((name ++ [40, 34]) ++ t)) =
      onFirst (32 :: (name ++ [40, 34])) (splitPipesFrom true t) := by
  have hplain : ∀ c ∈ 32 :: (name ++ [40]), c ≠ 34 ∧ (c ≠ 124 ∨ false = true) := by
    rw [List.forall_mem_cons, List.forall_mem_append, List.forall_mem_singleton]
    exact ⟨by decide, fun c hc => ⟨(hname.plain c hc).2.1, .inl (hname.plain c hc).1⟩, by decide⟩
  have hsplit : 32 :: ((name ++ [40, 34]) ++ t) = (32 :: (name ++ [40])) ++ 34 :: t := by simp
  rw [hsplit, splitPipesFrom_append _ hplain, splitPipesFrom_quote, ← onFirst_append,
    Bool.not_false]
  simp

theorem splitPipesFrom_arg {arg : Bytes} (harg : 34 ∉ arg) (t : Bytes) :
    splitPipesFrom true (arg ++ t) = onFirst arg (splitPipesFrom true t) :=
  splitPipesFrom_append _ fun _ hc => ⟨fun h => harg (h ▸ hc), .inr rfl⟩

theorem splitPipesFrom_call {p : PipeOp} (hp : p.Plain) (t : Bytes) :
    splitPipesFrom false (p.call ++ t) = onFirst p.call (splitPipesFrom false t) := by
  have hcall : p.call ++ t = 32 :: ((p.name ++ [40, 34]) ++ (p.arg ++ 34 :: 41 :: t)) := by
    simp [PipeOp.call]
  rw [hcall, splitPipesFrom_open hp.name, splitPipesFrom_arg hp.arg, splitPipesFrom_quote,
    Bool.not_true, splitPipesFrom_cons _ _ _ (by decide) (by decide), ← onFirst_append,
    ← onFirst_append, ← onFirst_append]
  simp [PipeOp.call]

/-- One more pipe in front. -/
theorem SplitsInto.cons {p : PipeOp} (hp : p.Plain) {t : Bytes} {r : Except Bytes (List PipeOp)}
    (h : SplitsInto t r) : SplitsInto (p.render ++ t) (r.map (p :: ·)) := by
  obtain ⟨w, parts, hsplit, hw, rfl⟩ := h
  refine ⟨[32], (p.call ++ w) :: parts, ?_, List.forall_mem_singleton.mpr rfl, ?_⟩
  · rw [splitPipes] at hsplit
    rw [splitPipes, p.render_eq, List.cons_append, List.cons_append,
      splitPipesFrom_cons _ _ _ (by decide) (by decide), splitPipesFrom_bar,
      splitPipesFrom_call hp, hsplit]
    rfl
  · rw [List.mapM_cons, parsePipeOp_call hp hw]
    cases parts.mapM parsePipeOp <;> rfl

theorem SplitsInto.append {ps : List PipeOp} (hps : ∀ p ∈ ps, p.Plain) {t : Bytes}
    {r : Except Bytes (List PipeOp)} (h : SplitsInto t r) :
    SplitsInto (ps.flatMap PipeOp.render ++ t) (r.map (ps ++ ·)) := by
  induction ps with
  | nil =>
    have hr : r.map ([] ++ ·) = r := by cases r <;> rfl
    rwa [List.flatMap_nil, List.nil_append, hr]
  | cons p ps ih =>
    rw [List.forall_mem_cons] at hps
    have hr : r.map (p :: ps ++ ·) = (r.map (ps ++ ·)).map (p :: ·) := by cases r <;> rfl
    rw [List.flatMap_cons, List.append_assoc, hr]
    exact (ih hps.2).cons hps.1

/-- A pipe cut off in its argument is the last one. -/
theorem splitsInto_cut {name pre : Bytes} (hname : PlainName name) (hpre : 34 ∉ pre) :
    SplitsInto (32 :: 124 :: 32 :: ((name ++ [40, 34]) ++ pre))
      ((parsePipeOp (32 :: ((name ++ [40, 34]) ++ pre))).map ([·])) := by
  refine ⟨[32], [32 :: ((name ++ [40, 34]) ++ pre)], ?_, List.forall_mem_singleton.mpr rfl, ?_⟩
  · have hpart := splitPipesFrom_arg hpre []
    rw [List.append_nil] at hpart
    rw [splitPipes, splitPipesFrom_cons _ _ _ (by decide) (by decide), splitPipesFrom_bar,
      splitPipesFrom_open hname, hpart, ← onFirst_append]
    simp [onFirst, splitPipesFrom]
  · rw [List.mapM_cons, List.mapM_nil]
    cases parsePipeOp (32 :: ((name ++ [40, 34]) ++ pre)) <;> rfl

theorem parseExpr_of_splitsInto {nodeId t : Bytes} {r : Except Bytes (List PipeOp)}
    (hid : PlainName nodeId) (h : SplitsInto t r) :
    parseExpr (nodeId ++ t) = r.map fun pipes => ⟨nodeId, pipes⟩ := by
  obtain ⟨w, parts, hsplit, hw, rfl⟩ := h
  have hplain : ∀ c ∈ nodeId, c ≠ 34 ∧ (c ≠ 124 ∨ false = true) := fun c hc =>
    ⟨(hid.plain c hc).2.1, .inl (hid.plain c hc).1⟩
  have htrim : trimBlanks (nodeId ++ w) = nodeId :=
    trimBlanks_pad (w := []) (List.forall_mem_nil _) (trimmed_of_trimBlanks hid.trimmed) hid.ne_nil hw
  rw [splitPipes] at hsplit
  rw [parseExpr, splitPipes, splitPipesFrom_append _ hplain, hsplit, onFirst]
  dsimp only
  rw [htrim, if_neg hid.ne_nil]

/-- **An expression is read back as it was written**, once its end is found. -/
theorem parseExpr_body {e : TemplateExpr} (he : e.Plain) : parseExpr e.body = .ok e := by
  have hsplit := splitsInto_nil.append he.pipes
  rw [List.append_nil] at hsplit
  rw [TemplateExpr.body, parseExpr_of_splitsInto he.nodeId hsplit]
  simp [Except.map]

/-! ### Where an expression ends -/

/-- No argument of an expression holds two closing braces. -/
def TemplateExpr.ClosesOnce (e : TemplateExpr) : Prop :=
  ∀ p ∈ e.pipes, ¬ [125, 125] <:+: p.arg

theorem PlainName.undoubled {name : Bytes} (hname : PlainName name) : Undoubled 125 name :=
  undoubled_of_notMem hname.notMem.2.2.2.2.2

theorem PlainName.undoubled_open {name : Bytes} (hname : PlainName name) :
    Undoubled 125 (32 :: 124 :: 32 :: (name ++ [40, 34])) := by
  have hbar : Undoubled (125 : UInt8) [32, 124, 32] := undoubled_of_notMem (by decide)
  have hopen : Undoubled (125 : UInt8) [40, 34] := undoubled_of_notMem (by decide)
  exact hbar.append (hname.undoubled.append hopen)

theorem PipeOp.Plain.undoubled {p : PipeOp} (hp : p.Plain) (h : ¬ [125, 125] <:+: p.arg) :
    Undoubled 125 p.render := by
  have hclose : Undoubled (125 : UInt8) [34, 41] := undoubled_of_notMem (by decide)
  have htail : Undoubled 125 (p.arg ++ [34, 41]) := by
    refine ⟨fun hd => ?_, by simp [List.getLast?_append]⟩
    rcases doubled_infix_append.mp hd with hd | hd | hd
    exacts [h hd, hclose.no_double hd, absurd hd.2 (by decide)]
  rw [p.render_eq, PipeOp.call]
  exact hp.name.undoubled_open.append htail

theorem TemplateExpr.Plain.undoubled {e : TemplateExpr} (he : e.Plain) (h : e.ClosesOnce) :
    Undoubled 125 e.body :=
  he.nodeId.undoubled.append (undoubled_flatMap fun p hp => (he.pipes p hp).undoubled (h p hp))

/-- An argument with two closing braces ends its expression early, and what stands before
is not read as that expression. -/
theorem TemplateExpr.Plain.exists_cut {e : TemplateExpr} (he : e.Plain) (h : ¬ e.ClosesOnce) :
    ∃ before rest, e.body = before ++ 125 :: 125 :: rest ∧ Undoubled 125 before ∧
      parseExpr before ≠ .ok e := by
  have hsome : (e.pipes.find? fun p => decide ([125, 125] <:+: p.arg)).isSome := by
    simpa [TemplateExpr.ClosesOnce] using h
  obtain ⟨p, hp⟩ := Option.isSome_iff_exists.mp hsome
  obtain ⟨hdouble, ps, qs, hpipes, hps⟩ := List.find?_eq_some_iff_append.mp hp
  simp only [decide_eq_true_eq] at hdouble
  simp only [Bool.not_eq_true', decide_eq_false_iff_not] at hps
  obtain ⟨pre, post, harg, hpre⟩ := exists_first_doubled hdouble
  have hplain := he.pipes
  rw [hpipes, List.forall_mem_append, List.forall_mem_cons] at hplain
  obtain ⟨hplainps, hplainp, -⟩ := hplain
  have hquote : 34 ∉ pre := fun hq => hplainp.arg (harg ▸ List.mem_append_left _ hq)
  refine ⟨e.nodeId ++ (ps.flatMap PipeOp.render ++ (32 :: 124 :: 32 :: ((p.name ++ [40, 34]) ++ pre))),
    post ++ [34, 41] ++ qs.flatMap PipeOp.render, ?_, ?_, fun hparse => ?_⟩
  · rw [TemplateExpr.body, hpipes, List.flatMap_append, List.flatMap_cons, p.render_eq, PipeOp.call,
      harg]
    simp only [List.append_assoc, List.cons_append]
  · have hrender := undoubled_flatMap (f := PipeOp.render) fun q hq =>
      (hplainps q hq).undoubled (hps q hq)
    exact he.nodeId.undoubled.append (hrender.append (hplainp.name.undoubled_open.append hpre))
  · -- the quote that opened the argument is still in it
    rw [parseExpr_of_splitsInto he.nodeId ((splitsInto_cut hplainp.name hquote).append hplainps)]
      at hparse
    cases hcut : parsePipeOp (32 :: ((p.name ++ [40, 34]) ++ pre)) with
    | error message =>
      rw [hcut] at hparse
      cases hparse
    | ok p' =>
      rw [hcut] at hparse
      have hexpr := Except.ok.inj hparse
      have hmem : p' ∈ e.pipes := by
        rw [← hexpr]
        exact List.mem_append_right _ (List.mem_singleton_self p')
      exact (he.pipes p' hmem).arg (quote_mem_of_parsePipeOp_cut hplainp.name hquote hcut)

/-! ### The whole template -/

/-- One round of the loop. -/
theorem parseLoop_expr {literal exprBody rest : Bytes} (hliteral : Undoubled 123 literal)
    (hbody : Undoubled 125 exprBody) (fuel : ℕ) (result : ParsedTemplate) :
    parseLoop (fuel + 1) (literal ++ 123 :: 123 :: (exprBody ++ 125 :: 125 :: rest)) result =
      match parseExpr exprBody with
      | .error message => .error message
      | .ok expr => parseLoop fuel rest
          { literals := result.literals ++ [literal], exprs := result.exprs ++ [expr] } := by
  rw [parseLoop, if_neg (by simp), cutFirst_doubled hliteral]
  dsimp only
  rw [cutFirst_doubled hbody]

/-- The loop only adds expressions. -/
theorem exprs_prefix_of_parseLoop {fuel : ℕ} {remaining : Bytes} {result r : ParsedTemplate}
    (h : parseLoop fuel remaining result = .ok r) : result.exprs <+: r.exprs := by
  induction fuel generalizing remaining result with
  | zero => exact Except.ok.inj h ▸ List.prefix_rfl
  | succ fuel ih =>
    rw [parseLoop] at h
    split at h
    · exact Except.ok.inj h ▸ List.prefix_rfl
    · split at h
      · exact Except.ok.inj h ▸ List.prefix_rfl
      · split at h
        · cases h
        · split at h
          · cases h
          · exact (List.prefix_append _ _).trans (ih h)

/-- Without doubled closing braces in its arguments, the text is read back. -/
theorem parseLoop_interleave {exprs : List TemplateExpr} (hplain : ∀ e ∈ exprs, e.Plain)
    (hcloses : ∀ e ∈ exprs, e.ClosesOnce) {literals : List Bytes}
    (hlen : literals.length = exprs.length + 1) (hliterals : ∀ l ∈ literals, Undoubled 123 l)
    {fuel : ℕ} (hfuel : (interleave literals exprs).length < fuel) {result : ParsedTemplate}
    (hresult : result.literals.length = result.exprs.length) :
    (parseLoop fuel (interleave literals exprs) result).map closeTemplate =
      .ok ⟨result.literals ++ literals, result.exprs ++ exprs⟩ := by
  obtain ⟨fuel, rfl⟩ := Nat.exists_eq_add_one_of_ne_zero (Nat.ne_of_gt (Nat.zero_lt_of_lt hfuel))
  induction exprs generalizing literals fuel result with
  | nil =>
    obtain ⟨literal, rfl⟩ := List.length_eq_one_iff.mp hlen
    rw [interleave, parseLoop, List.append_nil]
    split_ifs with hempty
    · rw [hempty, Except.map, closeTemplate, if_pos hresult]
    · rw [cutFirst_eq_none (List.cons_ne_nil _ _) (hliterals literal List.mem_cons_self).no_double,
        Except.map, closeTemplate, if_neg (by simp; omega)]
  | cons e exprs ih =>
    obtain ⟨literal, literals, rfl⟩ := List.exists_cons_of_length_pos (by omega : 0 < literals.length)
    rw [List.forall_mem_cons] at hplain hcloses hliterals
    rw [interleave] at hfuel ⊢
    rw [parseLoop_expr hliterals.1 (hplain.1.undoubled hcloses.1), parseExpr_body hplain.1]
    simp only [List.length_append, List.length_cons] at hfuel hlen
    obtain ⟨fuel, rfl⟩ := Nat.exists_eq_add_one_of_ne_zero (by omega : fuel ≠ 0)
    dsimp only
    rw [ih hplain.2 hcloses.2 (by omega) hliterals.2 (by simp [hresult]) fuel (by omega)]
    simp

/-- An argument with doubled closing braces is never read back, wherever it stands. -/
theorem exprs_ne_of_parseLoop {exprs : List TemplateExpr} (hplain : ∀ e ∈ exprs, e.Plain)
    (hcloses : ¬ ∀ e ∈ exprs, e.ClosesOnce) {literals : List Bytes}
    (hlen : literals.length = exprs.length + 1) (hliterals : ∀ l ∈ literals, Undoubled 123 l)
    {fuel : ℕ} {result r : ParsedTemplate}
    (h : parseLoop fuel (interleave literals exprs) result = .ok r) :
    r.exprs ≠ result.exprs ++ exprs := by
  induction exprs generalizing literals fuel result with
  | nil => exact absurd (List.forall_mem_nil _) hcloses
  | cons e exprs ih =>
    obtain ⟨literal, literals, rfl⟩ := List.exists_cons_of_length_pos (by omega : 0 < literals.length)
    rw [List.forall_mem_cons] at hplain hcloses hliterals
    cases fuel with
    | zero =>
      obtain rfl := Except.ok.inj h
      simp
    | succ fuel =>
      rw [interleave] at h
      by_cases he : e.ClosesOnce
      · rw [parseLoop_expr hliterals.1 (hplain.1.undoubled he), parseExpr_body hplain.1] at h
        have hne := ih hplain.2 (fun hall => hcloses ⟨he, hall⟩) (by simpa using hlen) hliterals.2 h
        rwa [List.append_assoc] at hne
      · -- the expression ends inside the argument, and something else is read
        obtain ⟨before, rest, hbody, hbefore, hother⟩ := hplain.1.exists_cut he
        rw [hbody, List.append_assoc, List.cons_append, List.cons_append,
          parseLoop_expr hliterals.1 hbefore] at h
        cases hparse : parseExpr before with
        | error message =>
          rw [hparse] at h
          cases h
        | ok e' =>
          rw [hparse] at h
          obtain ⟨more, hmore⟩ := exprs_prefix_of_parseLoop h
          intro heq
          rw [← hmore, List.append_assoc, List.append_cancel_left_eq] at heq
          rw [(List.cons_eq_cons.mp heq).1] at hparse
          exact hother hparse

theorem exprs_closeTemplate (r : ParsedTemplate) : (closeTemplate r).exprs = r.exprs := by
  rw [closeTemplate]
  split_ifs <;> rfl

/-- **A template is read back as it was written exactly when no argument holds two closing
braces.** Bars, parentheses and opening braces in the arguments do no harm. -/
theorem parseTemplate_render_iff (t : Template) :
    parseTemplate t.render = .ok t.toParsedTemplate ↔
      ∀ e ∈ t.exprs, ∀ p ∈ e.pipes, ¬ [125, 125] <:+: p.arg := by
  constructor
  · intro h
    by_contra hcloses
    rw [parseTemplate] at h
    cases hloop : parseLoop (t.render.length + 1) t.render {} with
    | error message =>
      rw [hloop] at h
      cases h
    | ok r =>
      rw [hloop] at h
      have hr : closeTemplate r = t.toParsedTemplate := Except.ok.inj h
      have hne := exprs_ne_of_parseLoop t.plain_exprs hcloses t.length_eq t.plain_literals hloop
      exact hne (by rw [← exprs_closeTemplate, hr]; rfl)
  · intro hcloses
    exact parseLoop_interleave t.plain_exprs hcloses t.length_eq t.plain_literals
      (Nat.lt_succ_self _) rfl

/-- `{{x | join(")}}")}}`, with the argument `)}}`. -/
def closingArg : Template where
  literals := [[], []]
  exprs := [⟨text "x", [⟨text "join", text ")\x7d\x7d"⟩]⟩]
  length_eq := rfl
  plain_literals := by
    intro literal h
    obtain rfl : literal = [] := by simpa using h
    exact undoubled_of_notMem List.not_mem_nil
  plain_exprs := by
    intro e h
    obtain rfl := List.mem_singleton.mp h
    refine ⟨⟨?_, ?_, ?_⟩, fun p hp => ?_⟩
    · decide +kernel
    · decide +kernel
    · decide +kernel
    · obtain rfl := List.mem_singleton.mp hp
      refine ⟨⟨?_, ?_, ?_⟩, ?_⟩
      all_goals decide +kernel

/-- The expression ends inside its argument: the pipe gets a quote for an argument, and the
rest of the expression becomes text of the replacement. -/
theorem parseTemplate_render_fails :
    ¬ ∀ t : Template, parseTemplate t.render = .ok t.toParsedTemplate := by
  intro h
  have hread : parseTemplate closingArg.render =
      .ok ⟨[[], text "\")\x7d\x7d"], [⟨text "x", [⟨text "join", text "\""⟩]⟩]⟩ := by
    decide +kernel
  have hother := Except.ok.inj ((h closingArg).symm.trans hread)
  exact absurd (congrArg ParsedTemplate.literals hother) (by decide +kernel)

end Vycor
