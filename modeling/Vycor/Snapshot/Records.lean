import Vycor.ControlFlow.Basic
import Vycor.Lib.InPlace

/-!
# Reading the sections of a snapshot

The reader of the snapshot format knows two reads more: index text, which must be UTF-8, and
a number of elements, which cannot exceed the number of the bytes that are left. A section is
decoded by a reader of its own and has to be consumed exactly. The rules for `Codes` follow.
-/

namespace Vycor

namespace Reader

/-- `Reader::text`. -/
def indexText (ll : Llvm) : Read Bytes := do
  let s ← str
  if (← isOk) && !ll.isUTF8 s then
    fail
    return []
  else return s

/-- `Reader::count`. -/
def count : Read UInt32 := do
  let n ← u32
  let r ← get
  if r.ok && decide (r.rest.length < n.toNat) then
    fail
    return 0
  else return n

/-- As many items as `count` says. -/
def countedIn {α : Type} (item : Read α) : Read (List α) := do
  let n ← count
  times item n.toNat

/-- A value that has to pass a check. -/
def checked {α : Type} (item : Read α) (p : α → Bool) : Read α := do
  let a ← item
  if p a then return a
  else
    fail
    return a

/-- One item for each element of a list. -/
def each {α β : Type} (item : α → Read β) : List α → Read (List β)
  | [] => return []
  | a :: l => do
    if ← isOk then
      let b ← item a
      let rest ← each item l
      return b :: rest
    else return []

end Reader

/-- `cond ? 1 : 0`. -/
def putFlag (b : Bool) : Bytes := putU8 (if b then 1 else 0)

/-- `r.u8() != 0`. -/
def Reader.flag : Read Bool := do
  let v ← u8
  return v != 0

/-- A section is decoded by a reader of its own and has to be consumed exactly. -/
def decodeSection {α : Type} (dec : Read α) (bytes : Bytes) : Option α :=
  let r := dec ⟨bytes, 0, true⟩
  if r.2.ok && r.2.rest.isEmpty then some r.1 else none

namespace Codes

open Reader

variable {α β : Type} {φ ψ : Prop} {dec : Read α} {bs : Bytes} {a : α}

theorem decodeSection (h : Codes φ dec bs a) (hφ : φ) : Vycor.decodeSection dec bs = some a := by
  have hrun := h.reads hφ [] 0
  rw [List.append_nil] at hrun
  rw [Vycor.decodeSection, hrun]
  rfl

theorem flag (b : Bool) : Codes True Reader.flag (putFlag b) b := by
  have h : Codes True Reader.flag (putFlag b) ((if b then 1 else 0 : UInt8) != 0) := (u8 _).last
  cases b <;> exact h

/-- A string that is UTF-8. -/
theorem indexText {ll : Llvm} {s : Bytes} (hs : ll.isUTF8 s = true) :
    Codes (s.length < 2 ^ 32) (Reader.indexText ll) (putStr s) s := by
  refine ⟨fun hlen post pos => ?_, (Codes.str s).fits⟩
  have hstr := (Codes.str s).reads hlen post pos
  rw [Reader.indexText, bind_apply, hstr, bind_apply]
  simp only [hs, Bool.not_true, Bool.and_false, Bool.false_eq_true, if_false]
  rfl

/-- A value that passes its check. -/
theorem checked {p : α → Bool} (h : Codes φ dec bs a) (hp : p a = true) :
    Codes φ (Reader.checked dec p) bs a := by
  refine ⟨fun hφ post pos => ?_, h.fits⟩
  have hdec := h.reads hφ post pos
  rw [Reader.checked, bind_apply, hdec]
  simp only [hp, if_true]
  rfl

/-- Items of a list, one after the other. -/
theorem timesOf {φ : α → Prop} {item : Read α} {put : α → Bytes} {l : List α}
    (h : ∀ a ∈ l, Codes (φ a) item (put a) a) :
    Codes (∀ a ∈ l, φ a) (Reader.times item l.length) (l.flatMap put) l := by
  induction l with
  | nil => exact (Codes.pure []).congr (by simp)
  | cons a l ih =>
    have hitems := (h a (.head _)).bind (ih fun b hb => h b (.tail _ hb)).last
      (f := fun a => do return a :: (← Reader.times item l.length))
    refine ⟨fun hφ post pos => ?_, fun hlen => List.forall_mem_cons.mpr (hitems.fits hlen)⟩
    exact hitems.reads (List.forall_mem_cons.mp hφ) post pos

/-- What follows the number of the elements of a list, each of them taking room. -/
theorem countedBy (items : ℕ → Read β) {put : α → Bytes} {l : List α} {b : β}
    (h : Codes φ (items l.length) (l.flatMap put) b) (hput : ∀ a, put a ≠ []) :
    Codes (l.length < 2 ^ 32 ∧ φ) (Reader.count >>= fun n => items n.toNat) (putCounted put l) b := by
  have hcount : l.length ≤ (l.flatMap put).length := by
    rw [List.length_flatMap]
    calc l.length = (l.map fun _ => 1).sum := by simp
      _ ≤ (l.map fun a => (put a).length).sum :=
        List.sum_le_sum fun a _ => List.length_pos_iff.mpr (hput a)
  refine ⟨fun hφ post pos => ?_, fun hlen => ?_⟩
  · have hn := UInt32.toNat_ofNat_of_lt' hφ.1
    have hitems := h.reads hφ.2 post (pos + (putU32 (UInt32.ofNat l.length)).length)
    have hnumber := (u32 (UInt32.ofNat l.length)).reads trivial (l.flatMap put ++ post) pos
    rw [← List.append_assoc] at hnumber
    change Reader.u32 ⟨putCounted put l ++ post, pos, true⟩ = _ at hnumber
    have hroom : ¬ (l.flatMap put ++ post).length < l.length := by
      rw [List.length_append]
      omega
    have hread : Reader.count ⟨putCounted put l ++ post, pos, true⟩ =
        (UInt32.ofNat l.length, ⟨l.flatMap put ++ post,
          pos + (putU32 (UInt32.ofNat l.length)).length, true⟩) := by
      rw [Reader.count, bind_apply, hnumber, bind_apply]
      change (if true && decide ((l.flatMap put ++ post).length < (UInt32.ofNat l.length).toNat)
        then _ else _ : Read UInt32) _ = _
      rw [hn, Bool.true_and, if_neg (decide_eq_true_iff.not.mpr hroom)]
      rfl
    rw [bind_apply, hread]
    change items (UInt32.ofNat l.length).toNat _ = _
    rw [hn, hitems, putCounted, List.length_append, Nat.add_assoc]
  · simp only [putCounted, List.length_append] at hlen
    exact ⟨by omega, h.fits (by omega)⟩

/-- A list behind its number, each of its items taking room. -/
theorem countedIn {φ : α → Prop} {item : Read α} {put : α → Bytes} {l : List α}
    (h : ∀ a ∈ l, Codes (φ a) item (put a) a) (hput : ∀ a, put a ≠ []) :
    Codes (l.length < 2 ^ 32 ∧ ∀ a ∈ l, φ a) (Reader.countedIn item) (putCounted put l) l :=
  countedBy (Reader.times item) (timesOf h) hput

/-- One item for each element of a list. -/
theorem each {ι : Type} {φ : ι → Prop} {item : ι → Read α} {put : ι → Bytes} {f : ι → α}
    {l : List ι} (h : ∀ i ∈ l, Codes (φ i) (item i) (put i) (f i)) :
    Codes (∀ i ∈ l, φ i) (Reader.each item l) (l.flatMap put) (l.map f) := by
  induction l with
  | nil => exact (Codes.pure []).congr (by simp)
  | cons i l ih =>
    have hitems := (h i (.head _)).bind (ih fun j hj => h j (.tail _ hj)).last
      (f := fun a => do return a :: (← Reader.each item l))
    refine ⟨fun hφ post pos => ?_, fun hlen => List.forall_mem_cons.mpr (hitems.fits hlen)⟩
    exact hitems.reads (List.forall_mem_cons.mp hφ) post pos

end Codes

/-- A record that starts with a string takes room. -/
theorem flatten_str_ne_nil (s : Bytes) (rest : List Bytes) : (putStr s :: rest).flatten ≠ [] := by
  rw [List.flatten_cons, putStr, putU32]
  refine List.append_ne_nil_of_left_ne_nil (List.append_ne_nil_of_left_ne_nil ?_ _) _
  rw [← List.length_pos_iff, length_toLe]
  exact Nat.zero_lt_succ 3

theorem putStr_not_nil (s : Bytes) : putStr s ≠ [] := by
  simpa using flatten_str_ne_nil s []

theorem putCounted_not_nil {α : Type} (put : α → Bytes) (l : List α) : putCounted put l ≠ [] := by
  rw [← List.length_pos_iff, putCounted, putU32, List.length_append, length_toLe]
  omega

/-! ### Ids and numbers -/

open Reader

/-- A number of the source's 32-bit type. -/
def putId (id : ℕ) : Bytes := putU32 (UInt32.ofNat id)

/-- An id below a bound. -/
def readId (bound : ℕ) : Read ℕ :=
  checked (do return (← u32).toNat) fun id => decide (id < bound)

/-- A number. -/
def readNum : Read ℕ := do return (← u32).toNat

theorem codes_id {bound id : ℕ} (hid : id < bound) (hbound : bound ≤ 2 ^ 32) :
    Codes True (readId bound) (putId id) id := by
  have hvalue : (UInt32.ofNat id).toNat = id := UInt32.toNat_ofNat_of_lt' (hid.trans_le hbound)
  refine Codes.checked (((Codes.u32 _).last (f := UInt32.toNat)).value hvalue) ?_
  exact decide_eq_true hid

@[simp] theorem length_putId (id : ℕ) : (putId id).length = 4 := by
  rw [putId, putU32, length_toLe]

theorem putId_not_nil (id : ℕ) : putId id ≠ [] := by
  rw [← List.length_pos_iff, length_putId]
  exact Nat.zero_lt_succ 3

section Ids

variable {n : ℕ}

theorem codes_num {v : ℕ} (hv : v < 2 ^ 32) : Codes True readNum (putId v) v :=
  ((Codes.u32 _).last (f := UInt32.toNat)).value (UInt32.toNat_ofNat_of_lt' hv)

theorem codes_ids {ids : List ℕ} (hids : ∀ id ∈ ids, id < n) (hn : n ≤ 2 ^ 32)
    (hlen : ids.length < 2 ^ 32) : Codes True (countedIn (readId n)) (putCounted putId ids) ids :=
  (Codes.countedIn (fun id hid => codes_id (hids id hid) hn) putId_not_nil).congr
    (iff_of_true ⟨hlen, fun _ _ => trivial⟩ trivial)

end Ids

/-- A record that starts with a number takes room. -/
theorem flatten_id_ne_nil (id : ℕ) (rest : List Bytes) : (putId id :: rest).flatten ≠ [] := by
  rw [List.flatten_cons]
  exact List.append_ne_nil_of_left_ne_nil (putId_not_nil id) _

/-! ### Guards -/

/-- A guard. -/
def putGuard (g : ConditionalGuard) : Bytes :=
  [putStr g.conditionText, putStr g.location, putFlag g.inTrueBranch, putFlag g.isAssertion].flatten

/-- A guard. -/
def readGuard (ll : Llvm) : Read ConditionalGuard := do
  let conditionText ← indexText ll
  let location ← indexText ll
  let inTrueBranch ← flag
  let isAssertion ← flag
  return { conditionText, location, inTrueBranch, isAssertion }

/-- The strings of a guard. -/
def ConditionalGuard.texts (g : ConditionalGuard) : List Bytes := [g.conditionText, g.location]

theorem codes_guard {ll : Llvm} (hll : ll.AcceptsUtf8) {g : ConditionalGuard}
    (hg : ∀ t ∈ g.texts, Utf8Text t) :
    Codes (∀ t ∈ g.texts, t.length < 2 ^ 32) (readGuard ll) (putGuard g) g := by
  apply Codes.congr
  · apply Codes.field (Codes.indexText (hll _ (hg _ (by simp [ConditionalGuard.texts]))))
    apply Codes.field (Codes.indexText (hll _ (hg _ (by simp [ConditionalGuard.texts]))))
    apply Codes.field (Codes.flag _)
    apply Codes.field (Codes.flag _)
    exact Codes.done _
  · simp [ConditionalGuard.texts]

/-! ### Maps -/

/-- `emplace` on a map: an entry that is there stays. -/
def emplaceAt {κ α : Type*} [DecidableEq κ] (m : κ → Option α) (k : κ) (a : α) : κ → Option α :=
  if (m k).isSome then m else Function.update m k (some a)

theorem emplaceAt_of_none {κ α : Type*} [DecidableEq κ] {m : κ → Option α} {k : κ} (a : α)
    (h : m k = none) : emplaceAt m k a = Function.update m k (some a) := by
  rw [emplaceAt, h, Option.isSome_none, if_neg Bool.false_ne_true]

theorem emplaceAt_of_ne {κ α : Type*} [DecidableEq κ] (m : κ → Option α) {k k' : κ} (a : α)
    (h : k' ≠ k) : emplaceAt m k a k' = m k' := by
  unfold emplaceAt
  split_ifs
  · rfl
  · exact Function.update_of_ne h _ _

end Vycor
