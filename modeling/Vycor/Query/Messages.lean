import Vycor.Query.GraphTools
import Vycor.CallGraph.Answers

/-!
# Telling answers apart

Two answers whose error messages begin differently differ, however they were completed. The
messages of the handlers begin with literals, and the first byte of a message survives its
conversion to index text (`head?_lookupText`). A payload whose members are all named otherwise
carries no message (`Silent`).
-/

namespace Vycor

/-- Literals are told apart by their characters. -/
@[simp] theorem text_inj {s t : String} : text s = text t ↔ s = t := by
  refine ⟨fun h => ?_, fun h => h ▸ rfl⟩
  rw [text, text, Array.toList_inj] at h
  exact String.toByteArray_inj.mp (ByteArray.ext h)

theorem Utf8Text.append {s t : Bytes} (hs : Utf8Text s) (ht : Utf8Text t) : Utf8Text (s ++ t) := by
  induction hs with
  | nil => exact ht
  | cons hc _ ih =>
    rw [List.append_assoc]
    exact .cons hc ih

theorem utf8Text_of_ascii {s : Bytes} (h : s.all (· < 0x80) = true) : Utf8Text s := by
  induction s with
  | nil => exact .nil
  | cons a s ih =>
    rw [List.all_cons, Bool.and_eq_true, decide_eq_true_eq] at h
    exact .cons (.one h.1) (ih h.2)

variable {ll : Llvm}

theorem head?_lookupText {m : Bytes} {c : UInt8} (h : m.head? = some c) (hc : c < 0x80) :
    (lookupText ll m).head? = some c := by
  obtain ⟨rest, rfl⟩ : ∃ rest, m = c :: rest := by
    cases m with
    | nil => simp at h
    | cons b rest => exact ⟨rest, by simpa using h⟩
  rw [lookupText]
  split_ifs
  · rfl
  · have hplain : escapesAt (c :: rest) = false := by simp [escapesAt, seqLen, hc]
    rw [toIndexText_eq, escapeFrom, if_neg (by simp [hplain]), List.head?_cons]

/-- The first byte of the message of an answer. -/
def errorHead (payload : Json) : Option UInt8 := (errorMessage payload).bind List.head?

/-- The message of an error payload, whatever stands behind its members. -/
theorem errorMessage_errorResult (kind : ResultStatus) (message : Bytes) (more : JsonObject) :
    errorMessage (.object (errorResult ll kind message ++ more)) = some (lookupText ll message) :=
  rfl

theorem errorMessage_notFoundError (message : Bytes) :
    errorMessage (notFoundError ll message) = some (lookupText ll message) := rfl

theorem errorHead_errorResult {kind : ResultStatus} {message : Bytes} {more : JsonObject}
    {c : UInt8} (h : message.head? = some c) (hc : c < 0x80) :
    errorHead (.object (errorResult ll kind message ++ more)) = some c := by
  rw [errorHead, errorMessage_errorResult, Option.bind_some, head?_lookupText h hc]

theorem errorHead_usageError {message : Bytes} {c : UInt8} (h : message.head? = some c)
    (hc : c < 0x80) : errorHead (usageError ll message) = some c := by
  rw [usageError, ← List.append_nil (errorResult _ _ _), errorHead_errorResult h hc]

theorem errorHead_notFoundError {message : Bytes} {c : UInt8} (h : message.head? = some c)
    (hc : c < 0x80) : errorHead (notFoundError ll message) = some c := by
  rw [notFoundError, ← List.append_nil (errorResult _ _ _), errorHead_errorResult h hc]

/-! ### Payloads without a message -/

/-- No member is an error message. -/
def Silent (o : JsonObject) : Prop := ∀ m ∈ o, m.1 ≠ text "error"

@[simp] theorem silent_nil : Silent [] := by simp [Silent]

@[simp] theorem silent_cons {key : Bytes} {v : Json} {o : JsonObject} :
    Silent ((key, v) :: o) ↔ key ≠ text "error" ∧ Silent o := by
  simp [Silent]

@[simp] theorem silent_append {o o' : JsonObject} : Silent (o ++ o') ↔ Silent o ∧ Silent o' := by
  simp [Silent, or_imp, forall_and]

@[simp] theorem silent_ite {c : Prop} [Decidable c] {o o' : JsonObject} :
    Silent (if c then o else o') ↔ if c then Silent o else Silent o' := by
  split_ifs <;> rfl

theorem errorMessage_of_silent {o : JsonObject} (h : Silent o) :
    errorMessage (.object o) = none := by
  have hget : JsonObject.get o (text "error") = none := by
    rw [JsonObject.get, Option.map_eq_none_iff, List.find?_eq_none]
    exact fun m hm => by simpa using h m hm
  rw [errorMessage, Json.getAsObject, Option.bind_some, JsonObject.getString, hget, Option.bind_none]

theorem silent_classMember (n : CallGraphNode) : Silent (classMember n) := by
  simp [classMember]

/-- The marker of a usr that was not found ends in another letter than `error`. -/
theorem silent_usrMember {g : CallGraph} {ident key : Bytes} (hkey : key ≠ text "error") :
    Silent (usrMember ll g ident key) := by
  have hne : ∀ (stem : Bytes) (s : String), (text s).getLast? = some 115 →
      stem ++ text s ≠ text "error" := by
    intro stem s hs heq
    have hlast := congrArg List.getLast? heq
    rw [List.getLast?_append, hs, Option.some_or] at hlast
    exact absurd hlast (by decide)
  rw [usrMember]
  cases g.findNode ll ident with
  | some n => simp [hkey]
  | none =>
    dsimp only
    split
    · simp [hne _ "ResolvedAs" (by decide)]
    · split
      · simp [hne _ "resolvedAs" (by decide)]
      · simp [hne _ "ResolvedAs" (by decide)]

theorem silent_windowMembers (page : Page) (truncated : Bool) :
    Silent (page.windowMembers truncated) := by
  simp [Page.windowMembers]

theorem silent_pageMembers (page : Page) (total : ℕ) : Silent (page.members total) := by
  simp [Page.members, silent_windowMembers]

theorem silent_searchFacts (stops : Stops) (complete exhaustive : Bool)
    (hubs : List SkippedHub) : Silent (searchFacts stops complete exhaustive hubs) := by
  simp [searchFacts]

end Vycor
