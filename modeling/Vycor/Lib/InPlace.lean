import Vycor.Lib.Bisect
import Vycor.Lib.Reader

/-!
# Reading in place

A format may be read where it lies: a reader steps over an array and keeps its region, and items
are fetched from the region later. `Region.Spans` says which bytes a region holds, so that a
fetch is a read of those bytes, and `ReadsAt` is what `Codes` says of a reader at one place, for
values that name the place. `Within` says what holds of a reader on any bytes: it stays inside
them, and a value that it did not fail on has passed the checks. In an array sorted by a key, two bisections bound the items with one
key (`exists_equalRange`).
-/

namespace Vycor

namespace Region

/-- The bytes of the region. -/
structure Spans (r : Region) (buf bs : List UInt8) : Prop where
  inside : r.Inside buf
  bytes : r.bytes buf = bs

variable {r : Region} {buf bs : List UInt8}

theorem spans_of_append (pre bs post : List UInt8) :
    (⟨pre.length, bs.length⟩ : Region).Spans (pre ++ (bs ++ post)) bs := by
  refine ⟨?_, ?_⟩
  · change pre.length + bs.length ≤ (pre ++ (bs ++ post)).length
    rw [List.length_append, List.length_append]
    omega
  · rw [Region.bytes, List.drop_left, List.take_left]

theorem Spans.length_eq (h : r.Spans buf bs) : bs.length = r.length := by
  have hinside : r.start + r.length ≤ buf.length := h.inside
  rw [← h.bytes, Region.bytes, List.length_take, List.length_drop]
  omega

/-- A fetch reads the bytes of the region. -/
theorem Spans.fetch {pre v post : List UInt8} (h : r.Spans buf (pre ++ (v ++ post))) :
    r.fetch buf pre.length v.length = some v := by
  have hlen := h.length_eq
  rw [List.length_append, List.length_append] at hlen
  rw [fetch_eq (by omega) h.inside, h.bytes, List.drop_left, List.take_left]

theorem Spans.fetchLe {pre post : List UInt8} {n v : ℕ}
    (h : r.Spans buf (pre ++ (toLe n v ++ post))) (hv : v < 256 ^ n) :
    r.fetchLe buf pre.length n = some v := by
  have hfetch := h.fetch
  rw [length_toLe] at hfetch
  rw [Region.fetchLe, hfetch, Option.map_some, ofLe_toLe_of_lt hv]

/-- The tail of a region. -/
theorem Spans.tail {pre : List UInt8} (h : r.Spans buf (pre ++ bs)) :
    (⟨r.start + pre.length, r.length - pre.length⟩ : Region).Spans buf bs := by
  have hlen := h.length_eq
  have hinside : r.start + r.length ≤ buf.length := h.inside
  rw [List.length_append] at hlen
  refine ⟨?_, ?_⟩
  · change r.start + pre.length + (r.length - pre.length) ≤ buf.length
    omega
  · have hdrop := congrArg (List.drop pre.length) h.bytes
    rw [List.drop_left, Region.bytes, List.drop_take, List.drop_drop] at hdrop
    exact hdrop

/-- A block of a region. -/
theorem Spans.block {blocks : List (List UInt8)} (h : r.Spans buf blocks.flatten) {i : ℕ}
    {b : List UInt8} (hi : blocks[i]? = some b) {pos : ℕ}
    (hpos : r.start + (blocks.take i).flatten.length = pos) :
    (⟨pos, b.length⟩ : Region).Spans buf b := by
  obtain ⟨hlt, rfl⟩ := List.getElem?_eq_some_iff.mp hi
  have hsplit : blocks.flatten =
      (blocks.take i).flatten ++ (blocks[i] ++ (blocks.drop (i + 1)).flatten) := by
    conv_lhs => rw [← List.take_append_drop i blocks, List.drop_eq_getElem_cons hlt]
    rw [List.flatten_append, List.flatten_cons]
  rw [hsplit] at h
  have htail := h.tail
  have hlen : blocks[i].length + (blocks.drop (i + 1)).flatten.length =
      r.length - (blocks.take i).flatten.length := by
    rw [← List.length_append]
    exact htail.length_eq
  have hinside : r.start + (blocks.take i).flatten.length +
      (r.length - (blocks.take i).flatten.length) ≤ buf.length := htail.inside
  subst hpos
  refine ⟨?_, ?_⟩
  · change r.start + (blocks.take i).flatten.length + blocks[i].length ≤ buf.length
    omega
  · have htake := congrArg (List.take blocks[i].length) htail.bytes
    have hmin : min blocks[i].length (r.length - (blocks.take i).flatten.length) =
        blocks[i].length := by omega
    rw [List.take_left, Region.bytes, List.take_take] at htake
    change List.take (min blocks[i].length (r.length - _)) _ = _ at htake
    rw [hmin] at htake
    exact htake

section Items

variable {α : Type*} {put : α → List UInt8} {l : List α} {size : ℕ}

theorem length_flatMap_of_size (hsize : ∀ a ∈ l, (put a).length = size) :
    (l.flatMap put).length = l.length * size := by
  rw [List.length_flatMap, List.map_congr_left hsize, List.map_const', List.sum_replicate,
    smul_eq_mul]

/-- The items up to one, the item and those behind it. -/
theorem flatMap_around (put : α → List UInt8) {i : ℕ} {a : α} (hi : l[i]? = some a) :
    l.flatMap put = (l.take i).flatMap put ++ (put a ++ (l.drop (i + 1)).flatMap put) := by
  obtain ⟨hlt, rfl⟩ := List.getElem?_eq_some_iff.mp hi
  conv_lhs => rw [← List.take_append_drop i l, List.drop_eq_getElem_cons hlt]
  rw [List.flatMap_append, List.flatMap_cons]

/-- A number in an item of an array is fetched at its place. -/
theorem Spans.item (h : r.Spans buf (l.flatMap put)) (hsize : ∀ a ∈ l, (put a).length = size)
    {i : ℕ} {a : α} (hi : l[i]? = some a) (front back : List UInt8) {n v : ℕ}
    (hput : put a = front ++ (toLe n v ++ back)) (hv : v < 256 ^ n) :
    r.fetchLe buf (i * size + front.length) n = some v := by
  have hlt := (List.getElem?_eq_some_iff.mp hi).1
  have hbefore : ((l.take i).flatMap put).length = i * size := by
    rw [length_flatMap_of_size fun a ha => hsize a (List.mem_of_mem_take ha), List.length_take,
      Nat.min_eq_left hlt.le]
  rw [flatMap_around put hi, hput, List.append_assoc, List.append_assoc, ← List.append_assoc] at h
  have hfetch := h.fetchLe hv
  rwa [List.length_append, hbefore] at hfetch

/-- The numbers of an array. -/
theorem Spans.number {put : ℕ → List UInt8} {l : List ℕ} {n : ℕ} (h : r.Spans buf (l.flatMap put))
    (hput : ∀ v ∈ l, put v = toLe n v ∧ v < 256 ^ n) {i v : ℕ} (hi : l[i]? = some v) :
    r.fetchLe buf (i * n) n = some v := by
  obtain ⟨hv, hlt⟩ := hput v (List.mem_of_getElem? hi)
  have hsize : ∀ v ∈ l, (put v).length = n := fun v hv => by rw [(hput v hv).1, length_toLe]
  have hitem := h.item hsize hi [] [] (by rw [hv]; simp) hlt
  rwa [List.length_nil, Nat.add_zero] at hitem

end Items

end Region

/-! ### Readers at a place -/

namespace Reader

/-- The region of the next `n` bytes, which are stepped over. -/
def region (n : ℕ) : Read Region := do
  let r ← get
  let _ ← bytes n
  return ⟨r.pos, n⟩

theorem bind_apply {α β : Type} (dec : Read α) (f : α → Read β) (r : Reader) :
    (dec >>= f) r = f (dec r).1 (dec r).2 := rfl

end Reader

/-- `dec` reads `bs` as `a` where they stand at `pos`. -/
def ReadsAt {α : Type} (pos : ℕ) (dec : Read α) (bs : List UInt8) (a : α) : Prop :=
  ∀ post, dec ⟨bs ++ post, pos, true⟩ = (a, ⟨post, pos + bs.length, true⟩)

namespace ReadsAt

variable {α β : Type} {pos : ℕ} {dec : Read α} {bs : List UInt8} {a : α} {b : β}

theorem of_codes {φ : Prop} (h : Codes φ dec bs a) (hφ : φ) : ReadsAt pos dec bs a := fun post =>
  h.reads hφ post pos

/-- A field, where the others follow. -/
theorem field {f : α → Read β} {rest : List (List UInt8)} (h : ReadsAt pos dec bs a)
    (h' : ReadsAt (pos + bs.length) (f a) rest.flatten b) :
    ReadsAt pos (dec >>= f) (bs :: rest).flatten b := by
  intro post
  change (match dec ⟨(bs :: rest).flatten ++ post, pos, true⟩ with | (a, r) => f a r) = _
  rw [List.flatten_cons, List.append_assoc, h, List.length_append, ← Nat.add_assoc]
  exact h' post

/-- The end. -/
theorem done (a : α) : ReadsAt pos (return a : Read α) ([] : List (List UInt8)).flatten a :=
  fun _ => rfl

theorem region (bs : List UInt8) : ReadsAt pos (Reader.region bs.length) bs ⟨pos, bs.length⟩ := by
  intro post
  have hbytes := (Codes.bytes (n := bs.length) rfl).reads trivial post pos
  change ((⟨pos, bs.length⟩ : Region), (Reader.bytes bs.length ⟨bs ++ post, pos, true⟩).2) = _
  rw [hbytes]

end ReadsAt

/-! ### Readers that stay inside -/

/-- A reader of the bytes up to `e` stays among them, and unless it has failed its value has `P`.
A failure stays. -/
structure Within {α : Type} (e : ℕ) (dec : Read α) (P : α → Prop) : Prop where
  place : ∀ r : Reader, r.pos + r.rest.length = e → (dec r).2.pos + (dec r).2.rest.length = e
  post : ∀ r : Reader, r.pos + r.rest.length = e → (dec r).2.ok = true →
    r.ok = true ∧ P (dec r).1

namespace Within

open Reader

variable {α β : Type} {e : ℕ} {dec : Read α} {P Q : α → Prop}

theorem mono (h : Within e dec P) (hPQ : ∀ a, P a → Q a) : Within e dec Q :=
  ⟨h.place, fun r hr hok => (h.post r hr hok).imp_right (hPQ _)⟩

theorem pure {a : α} (h : P a) : Within e (return a : Read α) P :=
  ⟨fun _ hr => hr, fun _ _ hok => ⟨hok, h⟩⟩

/-- What follows may rely on what the first value has. -/
theorem bind {f : α → Read β} {Q : β → Prop} (h : Within e dec P)
    (h' : ∀ a, Within e (f a) fun b => P a → Q b) : Within e (dec >>= f) Q := by
  constructor
  · intro r hr
    exact (h' _).place _ (h.place r hr)
  · intro r hr hok
    obtain ⟨hok', hQ⟩ := (h' _).post _ (h.place r hr) hok
    obtain ⟨hr', hP⟩ := h.post r hr hok'
    exact ⟨hr', hQ hP⟩

theorem fail : Within e Reader.fail fun _ => True :=
  ⟨fun _ hr => hr, fun _ _ hok => by cases hok⟩

theorem ite {c : Prop} [Decidable c] {dec' : Read α} (h : Within e dec P) (h' : Within e dec' P) :
    Within e (if c then dec else dec') P := by
  split_ifs
  · exact h
  · exact h'

/-- A look at the reader. -/
theorem get_bind {f : Reader → Read α}
    (h : ∀ s : Reader, s.pos + s.rest.length = e → Within e (f s) P) :
    Within e (get >>= f) P :=
  ⟨fun r hr => (h r hr).place r hr, fun r hr => (h r hr).post r hr⟩

/-- The next bytes are there, and end inside. -/
theorem bytes (n : ℕ) : Within e (Reader.bytes n) fun _ => True := by
  have hrun (r : Reader) : Reader.bytes n r =
      if r.ok && decide (n ≤ r.rest.length) then (r.rest.take n, r.advance n)
      else ([], { r with ok := false }) := by
    change (match need n r with
      | (b, r) => (if b then (do
          let r ← get
          set (r.advance n)
          return r.rest.take n) else return [] : Read _) r) = _
    rw [need]
    split_ifs <;> rfl
  constructor
  · intro r hr
    rw [hrun]
    split_ifs with hok
    · have hle := of_decide_eq_true (Bool.and_eq_true_iff.mp hok).2
      simp only [advance, List.length_drop]
      omega
    · exact hr
  · intro r _ hok
    rw [hrun] at hok
    split_ifs at hok with hcond
    · exact ⟨(Bool.and_eq_true_iff.mp hcond).1, trivial⟩

/-- A region that was stepped over lies inside. -/
theorem region (n : ℕ) :
    Within e (Reader.region n) fun reg => reg.length = n ∧ reg.start + reg.length ≤ e := by
  constructor
  · intro r hr
    exact (bytes n).place r hr
  · intro r hr hok
    have hshort : n ≤ r.rest.length := by
      by_contra hlt
      have hbytes := bytes_short (n := n) (r := r) (by omega)
      change (Reader.bytes n r).2.ok = true at hok
      rw [hbytes] at hok
      cases hok
    refine ⟨((bytes n).post r hr hok).1, rfl, ?_⟩
    change r.pos + n ≤ e
    omega

theorem u8 : Within e Reader.u8 fun _ => True := (bytes 1).bind fun _ => pure fun _ => trivial

theorem u32 : Within e Reader.u32 fun _ => True := (bytes 4).bind fun _ => pure fun _ => trivial

theorem str : Within e Reader.str fun _ => True :=
  u32.bind fun _ => (bytes _).mono fun _ _ _ => trivial

theorem times {item : Read α} (h : Within e item P) (n : ℕ) :
    Within e (Reader.times item n) fun l => ∀ a ∈ l, P a := by
  induction n with
  | zero => exact pure fun a ha => by cases ha
  | succ n ih =>
    have hok : Within e isOk fun _ => True := get_bind fun _ _ => pure trivial
    refine hok.bind fun b => ?_
    by_cases hb : b = true
    · subst hb
      refine h.bind fun a => ih.bind fun l => pure fun hl ha _ => ?_
      exact List.forall_mem_cons.mpr ⟨ha, hl⟩
    · rw [Bool.not_eq_true] at hb
      subst hb
      exact pure fun _ a ha => by cases ha

end Within

/-! ### The items with one key -/

section EqualRange

variable {α : Type*} {key : α → ℕ} {l : List α}

/-- A sorted list is the items with smaller keys, those with the key and those with greater
ones. -/
theorem eq_append_of_sorted (h : l.Pairwise fun a b => key a ≤ key b) (k : ℕ) :
    l = l.filter (fun a => decide (key a < k)) ++
      (l.filter (fun a => decide (key a = k)) ++ l.filter fun a => decide (k < key a)) := by
  induction l with
  | nil => rfl
  | cons a rest ih =>
    obtain ⟨ha, hrest⟩ := List.pairwise_cons.mp h
    have hnone (p : α → Bool) (hp : ∀ b, key a ≤ key b → p b = false) : rest.filter p = [] :=
      List.filter_eq_nil_iff.mpr fun b hb => by rw [hp b (ha b hb)]; exact Bool.false_ne_true
    rcases Nat.lt_trichotomy (key a) k with hlt | heq | hgt
    · rw [List.filter_cons_of_pos (by simpa using hlt), List.filter_cons_of_neg (by simp; omega),
        List.filter_cons_of_neg (by simp; omega), List.cons_append, ← ih hrest]
    · rw [List.filter_cons_of_neg (by simp; omega), List.filter_cons_of_pos (by simpa using heq),
        List.filter_cons_of_neg (by simp; omega), hnone _ (fun b hb => by simp; omega),
        List.nil_append, List.cons_append]
      have hless := hnone (fun b => decide (key b < k)) fun b hb => by simp; omega
      conv_lhs => rw [ih hrest, hless, List.nil_append]
    · rw [List.filter_cons_of_neg (by simp; omega), List.filter_cons_of_neg (by simp; omega),
        List.filter_cons_of_pos (by simpa using hgt), hnone _ (fun b hb => by simp; omega),
        hnone _ (fun b hb => by simp; omega), List.nil_append, List.nil_append]
      have hall : rest.filter (fun b => decide (k < key b)) = rest :=
        List.filter_eq_self.mpr fun b hb => decide_eq_true (hgt.trans_le (ha b hb))
      rw [hall]

/-- **Two bisections of a sorted list bound the items with a key.** -/
theorem exists_equalRange (h : l.Pairwise fun a b => key a ≤ key b) (k : ℕ)
    (below upTo : ℕ → Option Bool)
    (hbelow : ∀ (i : ℕ) a, l[i]? = some a → below i = some (decide (key a < k)))
    (hupTo : ∀ (i : ℕ) a, l[i]? = some a → upTo i = some (decide (key a ≤ k))) :
    ∃ first last, partitionPoint below 0 l.length = some first ∧
      partitionPoint upTo first l.length = some last ∧ first ≤ last ∧ last ≤ l.length ∧
        (l.drop first).take (last - first) = l.filter fun a => decide (key a = k) := by
  have hsplit := eq_append_of_sorted h k
  generalize hless : l.filter (fun a => decide (key a < k)) = less at hsplit
  generalize hsame : l.filter (fun a => decide (key a = k)) = same at hsplit
  generalize hmore : l.filter (fun a => decide (k < key a)) = more at hsplit
  have hmem {p : α → Prop} [DecidablePred p] {part : List α}
      (hpart : l.filter (fun a => decide (p a)) = part) {a : α} (ha : a ∈ part) : p a := by
    rw [← hpart] at ha
    exact of_decide_eq_true (List.mem_filter.mp ha).2
  have hlen : l.length = less.length + (same.length + more.length) := by
    rw [hsplit, List.length_append, List.length_append]
  -- where the items of the three parts stand
  have hbefore : ∀ i < less.length, ∃ a ∈ less, l[i]? = some a := fun i hi =>
    ⟨less[i], List.getElem_mem hi, by
      rw [hsplit, List.getElem?_append_left hi, List.getElem?_eq_getElem hi]⟩
  have hwithin : ∀ i, less.length ≤ i → i < less.length + same.length → ∃ a ∈ same, l[i]? = some a :=
    fun i hle hi => ⟨same[i - less.length], List.getElem_mem _, by
      rw [hsplit, List.getElem?_append_right hle, List.getElem?_append_left (by omega),
        List.getElem?_eq_getElem (by omega)]⟩
  have hbehind : ∀ i, less.length + same.length ≤ i → i < l.length →
      ∃ a ∈ more, l[i]? = some a := by
    intro i hle hi
    have hlt : i - less.length - same.length < more.length := by omega
    refine ⟨more[i - less.length - same.length], List.getElem_mem hlt, ?_⟩
    rw [hsplit, List.getElem?_append_right (by omega), List.getElem?_append_right (by omega),
      List.getElem?_eq_getElem hlt]
  refine ⟨less.length, less.length + same.length, ?_, ?_, Nat.le_add_right _ _, by omega, ?_⟩
  · refine partitionPoint_eq (Nat.zero_le _) (by omega) (fun i _ hi => ?_) (fun i hge hi => ?_)
    · obtain ⟨a, ha, hia⟩ := hbefore i hi
      rw [hbelow i a hia, decide_eq_true (hmem hless ha)]
    · rcases Nat.lt_or_ge i (less.length + same.length) with hlt | hge'
      · obtain ⟨a, ha, hia⟩ := hwithin i hge hlt
        rw [hbelow i a hia, decide_eq_false (hmem hsame ha).not_lt]
      · obtain ⟨a, ha, hia⟩ := hbehind i hge' hi
        rw [hbelow i a hia, decide_eq_false (hmem hmore ha).not_gt]
  · refine partitionPoint_eq (Nat.le_add_right _ _) (by omega) (fun i hge hi => ?_)
      (fun i hge hi => ?_)
    · obtain ⟨a, ha, hia⟩ := hwithin i hge hi
      rw [hupTo i a hia, decide_eq_true (hmem hsame ha).le]
    · obtain ⟨a, ha, hia⟩ := hbehind i hge hi
      rw [hupTo i a hia, decide_eq_false (hmem hmore ha).not_ge]
  · rw [hsplit, List.drop_left, Nat.add_sub_cancel_left, List.take_left]

end EqualRange

end Vycor
