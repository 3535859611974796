import Vycor.Text.Utf8
import Vycor.Lib.Tables

/-!
# JSON values and results

Arguments and payloads of the query tools are JSON objects. An object lists its members in
the order in which they were set; the order means nothing to a reader. Of a number only what
`getInteger` reads of it is kept.

Every payload gets a status, and an error is a payload with an `error` member
(`errorResult`). `completeResult` stamps the status and the scope of the index on what a
handler returned and leaves the other members alone (`get_completeResult`).
-/

namespace Vycor

/-- `llvm::json::Value`. -/
inductive Json where
  | null
  | boolean (b : Bool)
  | number (asInteger : Option ℤ)
  | string (s : Bytes)
  | array (items : List Json)
  | object (members : List (Bytes × Json))
  deriving Inhabited

/-- `llvm::json::Object`. -/
abbrev JsonObject := List (Bytes × Json)

/-- An integer. -/
def Json.integer (i : ℤ) : Json := .number (some i)

/-- A count. -/
def Json.count (n : ℕ) : Json := .integer n

/-- A list of strings. -/
def Json.strings (l : List Bytes) : Json := .array (l.map .string)

namespace Json

/-- `Value::getAsString`. -/
def getAsString : Json → Option Bytes
  | .string s => some s
  | _ => none

/-- `Value::getAsObject`. -/
def getAsObject : Json → Option JsonObject
  | .object o => some o
  | _ => none

end Json

namespace JsonObject

/-- `Object::get`. -/
def get (o : JsonObject) (key : Bytes) : Option Json := (o.find? (·.1 = key)).map (·.2)

/-- `Object::getString`. -/
def getString (o : JsonObject) (key : Bytes) : Option Bytes := (get o key).bind Json.getAsString

/-- `Object::getInteger`. -/
def getInteger (o : JsonObject) (key : Bytes) : Option ℤ :=
  match get o key with
  | some (.number i) => i
  | _ => none

/-- `Object::getBoolean`. -/
def getBoolean (o : JsonObject) (key : Bytes) : Option Bool :=
  match get o key with
  | some (.boolean b) => some b
  | _ => none

/-- `Object::getArray`. -/
def getArray (o : JsonObject) (key : Bytes) : Option (List Json) :=
  match get o key with
  | some (.array items) => some items
  | _ => none

/-- `obj[key] = v`. -/
def set (o : JsonObject) (key : Bytes) (v : Json) : JsonObject :=
  o.filter (·.1 ≠ key) ++ [(key, v)]

/-- The strings of an array argument; other items are passed over. -/
def getStrings (o : JsonObject) (key : Bytes) : List Bytes :=
  ((getArray o key).getD []).filterMap Json.getAsString

variable {o : JsonObject} {key key' : Bytes} {v : Json}

theorem get_set_of_ne (h : key' ≠ key) : get (set o key v) key' = get o key' := by
  rw [get, get, set, List.find?_append, List.find?_filter]
  have hlast : List.find? (fun m => decide (m.1 = key')) [(key, v)] = none := by
    simp [Ne.symm h]
  rw [hlast, Option.or_none]
  congr 2
  funext m
  by_cases hm : m.1 = key'
  · simp [hm, h]
  · simp [hm]

theorem get_set_self : get (set o key v) key = some v := by
  rw [get, set, List.find?_append, List.find?_filter, List.find?_eq_none.mpr fun m _ => by simp,
    Option.none_or]
  simp

end JsonObject

/-! ### Results -/

/-- `ResultStatus`. -/
inductive ResultStatus where
  | ok | ambiguous | usageError | notFound | unavailable
  deriving DecidableEq, Repr

/-- `resultStatusName`. -/
def resultStatusName : ResultStatus → Bytes
  | .ok => text "ok"
  | .ambiguous => text "ambiguous"
  | .usageError => text "usage_error"
  | .notFound => text "not_found"
  | .unavailable => text "unavailable"

/-- `parseResultStatus`. -/
def parseResultStatus (name : Bytes) : Option ResultStatus :=
  [ResultStatus.ok, .ambiguous, .usageError, .notFound, .unavailable].find?
    fun s => name = resultStatusName s

section Errors

variable (ll : Llvm)

/-- `errorResult`. -/
def errorResult (kind : ResultStatus) (message : Bytes) : JsonObject :=
  [(text "error", .string (lookupText ll message)), (text "status", .string (resultStatusName kind))]

/-- `usageError`. -/
def usageError (message : Bytes) : Json := .object (errorResult ll .usageError message)

/-- `notFoundError`. -/
def notFoundError (message : Bytes) : Json := .object (errorResult ll .notFound message)

/-- `unavailableError`. -/
def unavailableError (message : Bytes) : Json := .object (errorResult ll .unavailable message)

end Errors

/-- `errorMessage`. -/
def errorMessage (result : Json) : Option Bytes :=
  result.getAsObject.bind fun o => JsonObject.getString o (text "error")

/-- `isAmbiguousResult`. -/
def isAmbiguousResult (result : Json) : Bool :=
  ((result.getAsObject.bind fun o => JsonObject.getBoolean o (text "ambiguous")).getD false)

/-- `statusOf`. -/
def statusOf (result : Json) : ResultStatus :=
  match result.getAsObject with
  | none => .ok
  | some o =>
    match (JsonObject.getString o (text "status")).bind parseResultStatus with
    | some parsed => parsed
    | none =>
      if (JsonObject.get o (text "error")).isSome then .notFound
      else if isAmbiguousResult result then .ambiguous
      else .ok

end Vycor
