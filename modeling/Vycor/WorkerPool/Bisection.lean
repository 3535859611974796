import Vycor.WorkerPool.Accounting

/-!
# Splitting failed batches

A failed batch without a marker is split in half and both halves are tried again. Two results
about that protocol.

A worker that exits cleanly but whose shard is rejected is meant to be retried like a
markerless crash. The parent hands it to the crash handler, which reads the log, and a worker
that finished has marked every unit of its batch, so the last of them is poisoned
(`settle_rejected_splits_iff`).

When the runner fails exactly on the batches with one unit, the halves close in on it, but no
unit is tried more than three times. After two halvings the whole rest is given up: what is
poisoned is the part of the batch around the culprit (`dispatchIsolated_poisons_suspects`).
-/

namespace Vycor

namespace Pool

/-! ### Counting retries -/

/-- A unit is counted once for every time it stands in the batch; nothing is poisoned exactly
when the counters have room for that, and then everything is kept. -/
theorem sift_counts (why : WorkerFailure) (retries : Tu → ℕ) (tus : List Tu) :
    (∀ tu, (sift why retries tus).1 tu = retries tu + tus.count tu) ∧
      ((sift why retries tus).2.2 = [] ↔
        ∀ tu ∈ tus, retries tu + tus.count tu ≤ kMaxTuRetries) ∧
      ((sift why retries tus).2.2 = [] → (sift why retries tus).2.1 = tus) := by
  induction tus generalizing retries with
  | nil => simp [sift]
  | cons tu rest ih =>
    obtain ⟨hcount, hnil, hkept⟩ := ih (Function.update retries tu (retries tu + 1))
    have hbump : ∀ x, Function.update retries tu (retries tu + 1) x + rest.count x =
        retries x + (tu :: rest).count x := by
      intro x
      by_cases hx : x = tu
      · subst hx
        rw [Function.update_self, List.count_cons_self]
        omega
      · rw [Function.update_of_ne hx, List.count_cons_of_ne (Ne.symm hx)]
    simp only [hbump] at hcount hnil
    have hroom : (∀ x ∈ tu :: rest, retries x + (tu :: rest).count x ≤ kMaxTuRetries) ↔
        retries tu + 1 ≤ kMaxTuRetries ∧
          ∀ x ∈ rest, retries x + (tu :: rest).count x ≤ kMaxTuRetries := by
      constructor
      · intro hall
        refine ⟨?_, fun x hx => hall x (.tail _ hx)⟩
        have hself := hall tu (.head _)
        rw [List.count_cons_self] at hself
        omega
      · rintro ⟨htu, hall⟩ x hx
        rcases List.mem_cons.mp hx with rfl | hx
        · by_cases hmem : x ∈ rest
          · exact hall x hmem
          · rw [List.count_cons_self, List.count_eq_zero_of_not_mem hmem]
            omega
        · exact hall x hx
    rw [hroom]
    unfold sift
    dsimp only
    split_ifs with hover
    · refine ⟨hcount, ?_, fun h => h.elim⟩
      exact iff_of_false id fun h => by omega
    · refine ⟨hcount, ?_, fun h => by rw [hkept h]⟩
      rw [hnil]
      exact (and_iff_right (by omega)).symm

/-- Units with no retry left are all poisoned. -/
theorem sift_over (why : WorkerFailure) (retries : Tu → ℕ) (tus : List Tu)
    (hover : ∀ tu ∈ tus, kMaxTuRetries ≤ retries tu) :
    (sift why retries tus).2 = ([], tus.map fun tu => (tu, why)) := by
  induction tus generalizing retries with
  | nil => rfl
  | cons tu rest ih =>
    have hrest := ih (Function.update retries tu (retries tu + 1)) (by
      intro x hx
      have := hover x (.tail _ hx)
      by_cases hxt : x = tu
      · subst hxt
        rw [Function.update_self]
        omega
      · rwa [Function.update_of_ne hxt])
    have htu := hover tu (.head _)
    rw [sift, hrest, if_pos (by omega), List.map_cons]

/-! ### A clean exit without a readable shard -/

/-- A batch is queued again in two halves, and nothing is poisoned. -/
structure SplitInHalf (p p' : Pool) (tus : List Tu) : Prop where
  poisoned : p'.poisoned = p.poisoned
  work : p'.work = p.work ++ [tus.take (tus.length / 2), tus.drop (tus.length / 2)]
  outstanding : p'.outstanding = p.outstanding + 1

/-- The state after both halves were handed to `requeue`. -/
def bisect (p : Pool) (tus : List Tu) (why : WorkerFailure) : Pool :=
  (p.requeue (tus.take (tus.length / 2)) why).requeue (tus.drop (tus.length / 2)) why

theorem filter_marker_eq_none {res : BatchResult}
    (hmark : ∀ tu ∈ lastWorkerTuMarker res.stderr, tu ∉ res.batch) :
    (lastWorkerTuMarker res.stderr).filter (· ∈ res.batch) = none := by
  rw [Option.filter_eq_none_iff]
  simpa using hmark

theorem handleFailure_of_no_marker (p : Pool) (res : BatchResult) (hlen : 2 ≤ res.batch.length)
    (hmark : ∀ tu ∈ lastWorkerTuMarker res.stderr, tu ∉ res.batch) :
    p.handleFailure res = p.bisect res.batch
      (if res.exitCode = kWorkerTimedOut then .timedOut else .crashed) := by
  rw [handleFailure, filter_marker_eq_none hmark]
  dsimp only
  split
  next tu heq =>
    rw [heq] at hlen
    exact absurd hlen (by simp)
  next => rfl

theorem requeue_of_room (p : Pool) {tus : List Tu} (hne : tus ≠ []) (why : WorkerFailure)
    (hroom : ∀ tu ∈ tus, p.retries tu + tus.count tu ≤ kMaxTuRetries) :
    p.requeue tus why =
      { p with
        retries := (sift why p.retries tus).1
        work := p.work ++ [tus]
        outstanding := p.outstanding + 1 } := by
  obtain ⟨-, hnil, hkept⟩ := sift_counts why p.retries tus
  have hpoison := hnil.mpr hroom
  rw [requeue, hkept hpoison, hpoison]
  simp [hne]

/-- Requeueing only adds to the poisoned units, and adds none exactly when there is room. -/
theorem poisoned_requeue (p : Pool) (tus : List Tu) (why : WorkerFailure) :
    (p.requeue tus why).poisoned = p.poisoned ++ (sift why p.retries tus).2.2 := by
  unfold requeue
  dsimp only
  split_ifs with h
  · rfl
  · rfl

theorem retries_requeue (p : Pool) (tus : List Tu) (why : WorkerFailure) :
    (p.requeue tus why).retries = (sift why p.retries tus).1 := by
  unfold requeue
  dsimp only
  split_ifs with h
  · rfl
  · rfl

/-- The room the whole batch needs is the room its halves need one after the other. -/
theorem room_halves (retries : Tu → ℕ) (tus : List Tu) (n : ℕ) :
    (∀ tu ∈ tus, retries tu + tus.count tu ≤ kMaxTuRetries) ↔
      (∀ tu ∈ tus.take n, retries tu + (tus.take n).count tu ≤ kMaxTuRetries) ∧
        ∀ tu ∈ tus.drop n, retries tu + (tus.take n).count tu + (tus.drop n).count tu ≤
          kMaxTuRetries := by
  have hcount : ∀ tu, tus.count tu = (tus.take n).count tu + (tus.drop n).count tu := by
    intro tu
    rw [← List.count_append, List.take_append_drop]
  constructor
  · intro hall
    refine ⟨fun tu htu => ?_, fun tu htu => ?_⟩
    · have := hall tu (List.mem_of_mem_take htu)
      rw [hcount] at this
      omega
    · have := hall tu (List.mem_of_mem_drop htu)
      rw [hcount] at this
      omega
  · rintro ⟨htake, hdrop⟩ tu htu
    rw [hcount]
    rw [← List.take_append_drop n tus, List.mem_append] at htu
    by_cases hmem : tu ∈ tus.drop n
    · have := hdrop tu hmem
      omega
    · rw [List.count_eq_zero_of_not_mem hmem]
      exact htake tu (htu.resolve_right hmem)

theorem take_half_ne_nil {tus : List Tu} (hlen : 2 ≤ tus.length) :
    tus.take (tus.length / 2) ≠ [] := by
  rw [ne_eq, List.take_eq_nil_iff, not_or]
  exact ⟨by omega, fun h => by simp [h] at hlen⟩

theorem drop_half_ne_nil {tus : List Tu} (hlen : 2 ≤ tus.length) :
    tus.drop (tus.length / 2) ≠ [] := by
  rw [ne_eq, List.drop_eq_nil_iff]
  omega

/-- With room for the whole batch both halves are queued. -/
theorem bisect_of_room (p : Pool) {tus : List Tu} (hlen : 2 ≤ tus.length) (why : WorkerFailure)
    (hroom : ∀ tu ∈ tus, p.retries tu + tus.count tu ≤ kMaxTuRetries) :
    p.bisect tus why =
      { p with
        retries := fun tu => p.retries tu + tus.count tu
        work := p.work ++ [tus.take (tus.length / 2), tus.drop (tus.length / 2)]
        outstanding := p.outstanding + 2 } := by
  obtain ⟨hfirst, hsecond⟩ := (room_halves p.retries tus (tus.length / 2)).mp hroom
  obtain ⟨hcount, -, -⟩ := sift_counts why p.retries (tus.take (tus.length / 2))
  have hretries : (sift why (sift why p.retries (tus.take (tus.length / 2))).1
      (tus.drop (tus.length / 2))).1 = fun tu => p.retries tu + tus.count tu := by
    funext tu
    rw [(sift_counts why _ (tus.drop (tus.length / 2))).1, hcount, Nat.add_assoc,
      ← List.count_append, List.take_append_drop]
  rw [bisect, requeue_of_room p (take_half_ne_nil hlen) why hfirst,
    requeue_of_room _ (drop_half_ne_nil hlen) why (by simpa only [hcount] using hsecond)]
  simp [hretries]

/-- Splitting keeps the whole batch exactly when there is room for it. -/
theorem splitInHalf_bisect_iff (p : Pool) {tus : List Tu} (hlen : 2 ≤ tus.length)
    (why : WorkerFailure) {out : ℕ} (hout : p.outstanding = out + 1) :
    SplitInHalf p (({ p with outstanding := out } : Pool).bisect tus why) tus ↔
      ∀ tu ∈ tus, p.retries tu + tus.count tu ≤ kMaxTuRetries := by
  constructor
  · intro hsplit
    obtain ⟨hcount, hnil, -⟩ := sift_counts why p.retries (tus.take (tus.length / 2))
    -- nothing was poisoned by either half
    have hpoison := hsplit.poisoned
    rw [bisect, poisoned_requeue, poisoned_requeue, retries_requeue, List.append_assoc,
      List.append_right_eq_self, List.append_eq_nil_iff] at hpoison
    rw [room_halves p.retries tus (tus.length / 2)]
    refine ⟨hnil.mp hpoison.1, ?_⟩
    have hsecond := (sift_counts why (sift why p.retries (tus.take (tus.length / 2))).1
      (tus.drop (tus.length / 2))).2.1.mp hpoison.2
    simpa only [hcount] using hsecond
  · intro hroom
    rw [bisect_of_room ({ p with outstanding := out }) hlen why hroom]
    exact ⟨rfl, rfl, by rw [hout]⟩

/-- **A rejected shard after a clean exit is retried in halves exactly when the log does not
end in a marker of the batch.** (A unit that stands in the batch more than once needs that
many retries left.) -/
theorem settle_rejected_splits_iff (p : Pool) (res : BatchResult) (hlen : 2 ≤ res.batch.length)
    (hexit : res.exitCode = 0) (hout : p.outstanding ≠ 0) :
    SplitInHalf p (p.settle res false) res.batch ↔
      (∀ tu ∈ lastWorkerTuMarker res.stderr, tu ∉ res.batch) ∧
        ∀ tu ∈ res.batch, p.retries tu + res.batch.count tu ≤ kMaxTuRetries := by
  obtain ⟨out, hsucc⟩ := Nat.exists_eq_succ_of_ne_zero hout
  have hsettle : p.settle res false =
      ({ p with outstanding := out } : Pool).handleFailure { res with exitCode := -1 } := by
    have hcode : (-1 : ℤ) ≠ kWorkerInterrupted := by decide
    simp [settle, hexit, hcode, hsucc]
  rw [hsettle]
  by_cases hmark : ∀ tu ∈ lastWorkerTuMarker res.stderr, tu ∉ res.batch
  · rw [handleFailure_of_no_marker _ { res with exitCode := -1 } hlen hmark]
    exact (splitInHalf_bisect_iff p hlen _ hsucc).trans (and_iff_right hmark).symm
  · -- the marked unit is poisoned
    refine iff_of_false (fun hsplit => ?_) fun h => hmark h.1
    push Not at hmark
    obtain ⟨marker, hlast, hmem⟩ := hmark
    have hfilter : (lastWorkerTuMarker res.stderr).filter (· ∈ res.batch) = some marker :=
      Option.filter_eq_some_iff.mpr ⟨hlast, by simpa using hmem⟩
    have hpoison := hsplit.poisoned
    rw [handleFailure, hfilter] at hpoison
    dsimp only at hpoison
    rw [poisoned_requeue, poison, List.append_assoc, List.append_right_eq_self] at hpoison
    cases hpoison

/-- Two units `a` and `b`, with a log that holds no marker. -/
theorem settle_rejected_splits_silent :
    SplitInHalf { outstanding := 1, idle := 1, shardSeq := 1 }
      (settle { outstanding := 1, idle := 1, shardSeq := 1 } ⟨[[97], [98]], 0, 0, some []⟩ false)
      [[97], [98]] :=
  (settle_rejected_splits_iff _ _ (by decide) rfl (by decide)).mpr ⟨by decide, by decide⟩

/-- A worker that marked `a` and `b` and exited cleanly has `b` poisoned. -/
theorem settle_rejected_poisons_marked :
    ¬ ∀ (p : Pool) (res : BatchResult), 2 ≤ res.batch.length → res.batch.Nodup →
      res.exitCode = 0 → p.outstanding ≠ 0 → (∀ tu ∈ res.batch, p.retries tu < kMaxTuRetries) →
        SplitInHalf p (p.settle res false) res.batch := by
  intro hall
  have hsplit := hall { outstanding := 1, idle := 1, shardSeq := 1 }
    ⟨[[97], [98]], 0, 0, some (workerTuTag ++ [97, 10] ++ workerTuTag ++ [98, 10])⟩ (by decide)
    (by decide) rfl (by decide) (by decide)
  exact absurd hsplit.poisoned (by decide)

/-! ### Hunting one culprit -/

/-- The pieces without room for another try are poisoned whole. -/
theorem bisect_over (p : Pool) (tus : List Tu) (why : WorkerFailure)
    (hover : ∀ tu ∈ tus, kMaxTuRetries ≤ p.retries tu) :
    (p.bisect tus why).work = p.work ∧ (p.bisect tus why).running = p.running ∧
      (p.bisect tus why).results = p.results ∧ (p.bisect tus why).accepted = p.accepted ∧
      (p.bisect tus why).poisoned.map Prod.fst = p.poisoned.map Prod.fst ++ tus := by
  have hfirst := sift_over why p.retries (tus.take (tus.length / 2))
    fun tu htu => hover tu (List.mem_of_mem_take htu)
  have hcount := (sift_counts why p.retries (tus.take (tus.length / 2))).1
  have hsecond := sift_over why (sift why p.retries (tus.take (tus.length / 2))).1
    (tus.drop (tus.length / 2)) fun tu htu => by
      have := hover tu (List.mem_of_mem_drop htu)
      rw [hcount]
      omega
  simp [bisect, requeue, hfirst, hsecond, Function.comp_def]

/-- What a runner and `consumeShard` may do with a batch. -/
structure Worker where
  runs : List Tu → ℤ → Option Bytes → Prop
  consumes : List Tu → Bool → Prop

/-- One step of a dispatch with the given worker. -/
inductive StepWith (w : Worker) : Pool → Pool → Prop
  | pull {p : Pool} {b : List Tu} {rest : List (List Tu)} (hwork : p.work = b :: rest)
      (hidle : 0 < p.idle) :
      StepWith w p
        { p with
          work := rest
          idle := p.idle - 1
          running := p.running ++ [(p.shardSeq, b)]
          shardSeq := p.shardSeq + 1
          handed := p.handed ++ [b] }
  | finish {p : Pool} {before after : List (ℕ × List Tu)} {seq : ℕ} {b : List Tu} {code : ℤ}
      {stderr : Option Bytes} (hrun : p.running = before ++ (seq, b) :: after)
      (hcode : w.runs b code stderr) :
      StepWith w p
        { p with
          running := before ++ after
          idle := p.idle + 1
          results := p.results ++ [⟨b, seq, code, stderr⟩] }
  | settle {p : Pool} {res : BatchResult} {rest : List BatchResult} {consumed : Bool}
      (hstop : p.stop = false) (hout : p.outstanding ≠ 0) (hres : p.results = res :: rest)
      (hconsumed : w.consumes res.batch consumed) :
      StepWith w p (({ p with results := rest } : Pool).settle res consumed)
  | stop {p : Pool} (hstop : p.stop = false) (hout : p.outstanding = 0) :
      StepWith w p { p with stop := true }
  | exit {p : Pool} (hstop : p.stop = true) (hwork : p.work = []) (hidle : 0 < p.idle) :
      StepWith w p { p with idle := p.idle - 1 }

/-- A state some interleaving reaches with the given worker. -/
def ReachesWith (w : Worker) (files : List Tu) (workers batchSizeOverride : ℕ) (p : Pool) : Prop :=
  Relation.ReflTransGen (StepWith w) (start files workers batchSizeOverride) p

theorem StepWith.step {w : Worker} {p p' : Pool} (hs : StepWith w p p')
    (hw : ∀ b code stderr, w.runs b code stderr → code ≠ kWorkerInterrupted) :
    Step (fun code => code ≠ kWorkerInterrupted) p p' := by
  cases hs with
  | pull hwork hidle => exact .pull hwork hidle
  | finish hrun hcode => exact .finish _ hrun (hw _ _ _ hcode)
  | settle hstop hout hres hconsumed => exact .settle _ hstop hout hres
  | stop hstop hout => exact .stop hstop hout
  | exit hstop hwork hidle => exact .exit hstop hwork hidle

theorem ReachesWith.reaches {w : Worker} {files : List Tu} {workers batchSizeOverride : ℕ}
    {p : Pool} (hp : ReachesWith w files workers batchSizeOverride p)
    (hw : ∀ b code stderr, w.runs b code stderr → code ≠ kWorkerInterrupted) :
    Reaches (fun code => code ≠ kWorkerInterrupted) files workers batchSizeOverride p := by
  induction hp with
  | refl => exact .refl
  | tail _ hs ih => exact ih.tail (hs.step hw)

/-- A worker that answers every batch is never the reason for a deadlock. -/
theorem Step.stepWith {Exits : ℤ → Prop} {w : Worker} {p p' : Pool} (hs : Step Exits p p')
    (hruns : ∀ b, ∃ code stderr, w.runs b code stderr) (hconsumes : ∀ b, ∃ ok, w.consumes b ok) :
    ∃ p'', StepWith w p p'' := by
  cases hs with
  | pull hwork hidle => exact ⟨_, .pull hwork hidle⟩
  | @finish before after seq b code stderr hrun hcode =>
    obtain ⟨code, stderr, hcode⟩ := hruns b
    exact ⟨_, .finish hrun hcode⟩
  | @settle res rest consumed hstop hout hres =>
    obtain ⟨ok, hok⟩ := hconsumes res.batch
    exact ⟨_, .settle hstop hout hres hok⟩
  | stop hstop hout => exact ⟨_, .stop hstop hout⟩
  | exit hstop hwork hidle => exact ⟨_, .exit hstop hwork hidle⟩

/-- The worker that fails, without marking a unit of the batch, exactly on the batches with `c`;
every other batch ends in an accepted shard. -/
def loneCulprit (c : Tu) : Worker where
  runs b code stderr :=
    if c ∈ b then
      code ≠ 0 ∧ code ≠ kWorkerInterrupted ∧ ∀ tu ∈ lastWorkerTuMarker stderr, tu ∉ b
    else code = 0
  consumes _ ok := ok = true

theorem loneCulprit_not_interrupted {c : Tu} (b : List Tu) (code : ℤ) (stderr : Option Bytes)
    (h : (loneCulprit c).runs b code stderr) : code ≠ kWorkerInterrupted := by
  simp only [loneCulprit] at h
  split_ifs at h with hc
  · exact h.2.1
  · rw [h]
    decide

theorem loneCulprit_runs (c : Tu) (b : List Tu) :
    ∃ code stderr, (loneCulprit c).runs b code stderr := by
  by_cases hc : c ∈ b
  · refine ⟨1, none, ?_⟩
    simp only [loneCulprit, if_pos hc]
    exact ⟨by decide, by decide, by simp [lastWorkerTuMarker]⟩
  · exact ⟨0, none, by simp only [loneCulprit, if_neg hc]⟩

/-- The half of a batch that holds `c`. -/
def halfOf (c : Tu) (tus : List Tu) : List Tu :=
  if c ∈ tus.take (tus.length / 2) then tus.take (tus.length / 2) else tus.drop (tus.length / 2)

/-- What is left of the batch that holds `c` when the units in it have been tried again `k`
times. -/
def pursued (c : Tu) (b : List Tu) (k : ℕ) : List Tu := (halfOf c)^[k] b

theorem pursued_succ (c : Tu) (b : List Tu) (k : ℕ) :
    pursued c b (k + 1) = halfOf c (pursued c b k) :=
  Function.iterate_succ_apply' _ _ _

theorem mem_halfOf {c : Tu} {tus : List Tu} (hc : c ∈ tus) : c ∈ halfOf c tus := by
  unfold halfOf
  split_ifs with h
  · exact h
  · rw [← List.take_append_drop (tus.length / 2) tus, List.mem_append] at hc
    exact hc.resolve_left h

theorem halfOf_sublist (c : Tu) (tus : List Tu) : (halfOf c tus).Sublist tus := by
  unfold halfOf
  split_ifs with h
  · exact List.take_sublist _ _
  · exact List.drop_sublist _ _

/-- In a batch without repeats only one half holds `c`. -/
theorem eq_halfOf {c : Tu} {tus half : List Tu} (hnd : tus.Nodup)
    (hhalf : half ∈ [tus.take (tus.length / 2), tus.drop (tus.length / 2)]) (hc : c ∈ half) :
    half = halfOf c tus := by
  rw [List.mem_pair] at hhalf
  unfold halfOf
  rcases hhalf with rfl | rfl
  · rw [if_pos hc]
  · have hdisj := hnd
    rw [← List.take_append_drop (tus.length / 2) tus, List.nodup_append] at hdisj
    rw [if_neg fun h => hdisj.2.2 c h c hc rfl]

theorem halfOf_singleton (c : Tu) : halfOf c [c] = [c] := by
  simp [halfOf]

theorem pursued_of_singleton {c : Tu} {b : List Tu} {k : ℕ} (h : pursued c b k = [c]) (n : ℕ) :
    pursued c b (k + n) = [c] := by
  induction n with
  | zero => exact h
  | succ n ih => rw [← Nat.add_assoc, pursued_succ, ih, halfOf_singleton]

/-- The first batch with `c`, after two halvings. -/
def suspects (files : List Tu) (workers batchSizeOverride : ℕ) (c : Tu) : List Tu :=
  pursued c (((start files workers batchSizeOverride).work.find? (c ∈ ·)).getD []) kMaxTuRetries

/-- The batches queued, running or awaiting settlement. -/
def batches (p : Pool) : List (List Tu) :=
  p.work ++ p.running.map Prod.snd ++ p.results.map BatchResult.batch

theorem flatten_batches (p : Pool) : p.batches.flatten = p.inFlight := by
  simp [batches, inFlight, List.flatMap]

/-- No unit is in two places, so a second batch with the same unit is a contradiction. -/
theorem not_mem_of_settling {p : Pool} {res : BatchResult} {rest : List BatchResult} {c : Tu}
    (hfl : p.inFlight.Nodup) (hres : p.results = res :: rest) (hc : c ∈ res.batch) {b' : List Tu}
    (hb' : b' ∈ p.work ++ p.running.map Prod.snd ++ rest.map BatchResult.batch) : c ∉ b' := by
  intro hc'
  have hperm : p.inFlight.Perm (res.batch ++
      (p.work ++ p.running.map Prod.snd ++ rest.map BatchResult.batch).flatten) := by
    rw [← flatten_batches, batches, hres, List.map_cons]
    exact (List.perm_middle (a := res.batch)).flatten
  have hnd := hperm.nodup_iff.mp hfl
  exact (List.nodup_append.mp hnd).2.2 c hc c (List.mem_flatten_of_mem hb' hc') rfl

/-- The hunt for `c` in the first batch `b`: either every batch with `c` is what two or fewer
halvings left of `b` and nothing is poisoned, or the suspects are poisoned and `c` is not in
flight. -/
def Phase (c : Tu) (b : List Tu) (p : Pool) : Prop :=
  (p.poisoned = [] ∧ ∀ b' ∈ p.batches, c ∈ b' →
      ∃ k ≤ kMaxTuRetries, b' = pursued c b k ∧ ∀ tu ∈ b', p.retries tu = k) ∨
    (p.poisoned.map Prod.fst = pursued c b kMaxTuRetries ∧ ∀ b' ∈ p.batches, c ∉ b')

/-- The phase only looks at which batches are in flight. -/
theorem Phase.of_subset {c : Tu} {b : List Tu} {p p' : Pool} (h : Phase c b p)
    (hpoisoned : p'.poisoned = p.poisoned) (hretries : p'.retries = p.retries)
    (hsub : ∀ b' ∈ p'.batches, b' ∈ p.batches) : Phase c b p' := by
  rw [Phase, hpoisoned, hretries]
  rcases h with ⟨hnone, hk⟩ | ⟨hsome, hout⟩
  · exact .inl ⟨hnone, fun b' hb' => hk b' (hsub b' hb')⟩
  · exact .inr ⟨hsome, fun b' hb' => hout b' (hsub b' hb')⟩

structure Hunt (c : Tu) (b : List Tu) (p : Pool) : Prop where
  obeyed : ∀ r ∈ p.results, (loneCulprit c).runs r.batch r.exitCode r.stderr
  accepted : ∀ a ∈ p.accepted, c ∉ a.2
  phase : Phase c b p

section Hunt

variable {files : List Tu} {workers : ℕ} {c : Tu} {b : List Tu} {p p' : Pool}

/-- A failed batch: either its halves are queued, one of them with `c`, or it is poisoned. -/
theorem Hunt.fail (h : Hunt c b p) (hfl : p.inFlight.Nodup) {res : BatchResult}
    {rest : List BatchResult} (hres : p.results = res :: rest) (hc : c ∈ res.batch)
    (consumed : Bool) : Hunt c b (({ p with results := rest } : Pool).settle res consumed) := by
  have hrun := h.obeyed res (by rw [hres]; exact .head _)
  simp only [loneCulprit, if_pos hc] at hrun
  obtain ⟨hne, hint, hmark⟩ := hrun
  have hmem : res.batch ∈ p.batches := by simp [batches, hres]
  have hother : ∀ {b'}, b' ∈ p.work ++ p.running.map Prod.snd ++ rest.map BatchResult.batch →
      c ∉ b' := fun hb' => not_mem_of_settling hfl hres hc hb'
  -- nothing was poisoned before, or `c` would not be in flight
  obtain ⟨hnone, hk⟩ := h.phase.resolve_right fun hr => hr.2 _ hmem hc
  obtain ⟨k, hkle, hpiece, hretries⟩ := hk _ hmem hc
  have hbatch : res.batch.Nodup := by
    rw [← flatten_batches] at hfl
    exact (List.nodup_flatten.mp hfl).1 _ hmem
  have hobeyed : ∀ r ∈ rest, (loneCulprit c).runs r.batch r.exitCode r.stderr :=
    fun r hr => h.obeyed r (by rw [hres]; exact .tail _ hr)
  have hsettle : ({ p with results := rest } : Pool).settle res consumed =
      ({ p with results := rest, outstanding := p.outstanding - 1 } : Pool).handleFailure res := by
    simp [settle, hne, hint]
  rw [hsettle]
  by_cases hlen : 2 ≤ res.batch.length
  · rw [handleFailure_of_no_marker _ res hlen hmark]
    rcases Nat.lt_or_ge k kMaxTuRetries with hlt | hge
    · -- both halves are queued, and `c` is in one of them
      have hroom : ∀ tu ∈ res.batch, p.retries tu + res.batch.count tu ≤ kMaxTuRetries := by
        intro tu htu
        rw [hretries tu htu, List.count_eq_one_of_mem hbatch htu]
        exact hlt
      rw [bisect_of_room ({ p with results := rest, outstanding := p.outstanding - 1 }) hlen _
        hroom]
      refine ⟨hobeyed, h.accepted, .inl ⟨hnone, fun b' hb' hcb' => ?_⟩⟩
      have hhalf : b' = halfOf c res.batch := by
        refine eq_halfOf hbatch ?_ hcb'
        by_contra hnot
        refine hother ?_ hcb'
        simp only [batches, List.mem_append] at hb' ⊢
        tauto
      refine ⟨k + 1, hlt, by rw [hhalf, pursued_succ, hpiece], fun tu htu => ?_⟩
      have hin : tu ∈ res.batch := (halfOf_sublist c res.batch).subset (hhalf ▸ htu)
      change p.retries tu + res.batch.count tu = k + 1
      rw [hretries tu hin, List.count_eq_one_of_mem hbatch hin]
    · -- no unit of the batch has a retry left
      obtain ⟨hwork, hrunning, hresults, haccepted, hpoisoned⟩ := bisect_over
        ({ p with results := rest, outstanding := p.outstanding - 1 }) res.batch
        (if res.exitCode = kWorkerTimedOut then .timedOut else .crashed)
        fun tu htu => by rw [hretries tu htu]; exact hge
      refine ⟨by rwa [hresults], by rw [haccepted]; exact h.accepted, .inr ⟨?_, fun b' hb' => ?_⟩⟩
      · rw [hpoisoned, hnone, List.map_nil, List.nil_append, hpiece, Nat.le_antisymm hkle hge]
      · rw [batches, hwork, hrunning, hresults] at hb'
        exact hother hb'
  · -- a batch of one unit: the culprit is found
    have hone : res.batch = [c] := by
      obtain ⟨x, hx⟩ := List.length_eq_one_iff.mp
        (Nat.le_antisymm (by omega) (List.length_pos_of_mem hc))
      rw [hx, List.mem_singleton] at hc
      rw [hx, hc]
    have hhandle : ({ p with results := rest, outstanding := p.outstanding - 1 } :
        Pool).handleFailure res =
          ({ p with results := rest, outstanding := p.outstanding - 1 } : Pool).poison c
            (if res.exitCode = kWorkerTimedOut then .timedOut else .crashed) := by
      rw [handleFailure, filter_marker_eq_none hmark, hone]
    rw [hhandle]
    refine ⟨hobeyed, h.accepted, .inr ⟨?_, fun b' hb' => hother hb'⟩⟩
    obtain ⟨n, hn⟩ := Nat.exists_eq_add_of_le hkle
    rw [hn, pursued_of_singleton (hpiece.symm.trans hone)]
    simp [poison, hnone]

theorem Hunt.step (h : Hunt c b p) (hinv : Inv files workers p) (hnd : files.Nodup)
    (hs : StepWith (loneCulprit c) p p') : Hunt c b p' := by
  cases hs with
  | @pull b' rest hwork hidle =>
    refine ⟨h.obeyed, h.accepted, h.phase.of_subset rfl rfl fun x hx => ?_⟩
    simp only [batches, hwork, List.map_append, List.mem_append, List.mem_cons, List.map_cons,
      List.map_nil] at hx ⊢
    tauto
  | @finish before after seq b' code stderr hrun hcode =>
    refine ⟨fun r hr => ?_, h.accepted, h.phase.of_subset rfl rfl fun x hx => ?_⟩
    · rcases List.mem_append.mp hr with hr | hr
      · exact h.obeyed r hr
      · rw [List.mem_singleton.mp hr]
        exact hcode
    · simp only [batches, hrun, List.map_append, List.mem_append, List.mem_cons, List.map_cons,
        List.map_nil] at hx ⊢
      tauto
  | @settle res rest consumed hstop hout hres hconsumed =>
    by_cases hc : c ∈ res.batch
    · exact h.fail (hinv.nodup_inFlight hnd) hres hc consumed
    · -- the batch is accepted
      have hzero := h.obeyed res (by rw [hres]; exact .head _)
      simp only [loneCulprit, if_neg hc] at hzero hconsumed
      rw [settle, if_pos ⟨hzero, hconsumed⟩]
      refine ⟨fun r hr => h.obeyed r (by rw [hres]; exact .tail _ hr), fun a ha => ?_,
        h.phase.of_subset rfl rfl fun x hx => ?_⟩
      · rcases List.mem_append.mp ha with ha | ha
        · exact h.accepted a ha
        · rw [List.mem_singleton.mp ha]
          exact hc
      · simp only [batches, hres, List.map_cons, List.mem_append, List.mem_cons] at hx ⊢
        tauto
  | stop hstop hout => exact ⟨h.obeyed, h.accepted, h.phase.of_subset rfl rfl fun _ => id⟩
  | exit hstop hwork hidle => exact ⟨h.obeyed, h.accepted, h.phase.of_subset rfl rfl fun _ => id⟩

end Hunt

/-- The dispatch ends under every interleaving, and what it poisons are the given units. -/
structure Isolates (w : Worker) (files : List Tu) (workers batchSizeOverride : ℕ)
    (culprits : List Tu) : Prop where
  terminates : ¬ ∃ run : ℕ → Pool, run 0 = start files workers batchSizeOverride ∧
    ∀ n, StepWith w (run n) (run (n + 1))
  progress : ∀ p, ReachesWith w files workers batchSizeOverride p →
    p.Finished ∨ ∃ p', StepWith w p p'
  poisons : ∀ p, ReachesWith w files workers batchSizeOverride p → p.Finished →
    p.poisoned.map Prod.fst = culprits

section Isolates

variable {files : List Tu} {c : Tu} {workers batchSizeOverride : ℕ} {p : Pool}

/-- The batches the dispatch starts with. -/
theorem batches_start (files : List Tu) (workers batchSizeOverride : ℕ) :
    (start files workers batchSizeOverride).batches =
      (start files workers batchSizeOverride).work := by
  unfold start
  split_ifs with hempty
  · rfl
  · simp [batches]

/-- The batch with `c` is the one that is looked up. -/
theorem find?_mem_eq_some {l : List (List Tu)} (hnd : l.flatten.Nodup) {b : List Tu} (hb : b ∈ l)
    (hc : c ∈ b) : l.find? (c ∈ ·) = some b := by
  induction l with
  | nil => cases hb
  | cons first rest ih =>
    rw [List.flatten_cons, List.nodup_append] at hnd
    rcases List.mem_cons.mp hb with rfl | hrest
    · simp [hc]
    · have hnot : c ∉ first := fun h => hnd.2.2 c h c (List.mem_flatten_of_mem hrest hc) rfl
      rw [List.find?_cons_of_neg (by simpa using hnot)]
      exact ih hnd.2.1 hrest

theorem hunt_start (hnd : files.Nodup) (workers batchSizeOverride : ℕ) :
    Hunt c (((start files workers batchSizeOverride).work.find? (c ∈ ·)).getD [])
      (start files workers batchSizeOverride) := by
  have hflat := (inv_start files workers batchSizeOverride).nodup_inFlight hnd
  rw [← flatten_batches, batches_start] at hflat
  have hfresh : (start files workers batchSizeOverride).results = [] ∧
      (start files workers batchSizeOverride).accepted = [] ∧
      (start files workers batchSizeOverride).poisoned = [] ∧
      (start files workers batchSizeOverride).retries = fun _ => 0 := by
    unfold start
    split_ifs with hempty
    · exact ⟨rfl, rfl, rfl, rfl⟩
    · exact ⟨rfl, rfl, rfl, rfl⟩
  obtain ⟨hresults, haccepted, hpoisoned, hretries⟩ := hfresh
  refine ⟨by rw [hresults]; simp, by rw [haccepted]; simp, .inl ⟨hpoisoned, fun b' hb' hc => ?_⟩⟩
  rw [batches_start] at hb'
  refine ⟨0, Nat.zero_le _, ?_, fun tu _ => by rw [hretries]⟩
  rw [find?_mem_eq_some hflat hb' hc]
  rfl

theorem ReachesWith.hunt (hnd : files.Nodup)
    (hp : ReachesWith (loneCulprit c) files workers batchSizeOverride p) :
    Hunt c (((start files workers batchSizeOverride).work.find? (c ∈ ·)).getD []) p := by
  induction hp with
  | refl => exact hunt_start hnd workers batchSizeOverride
  | tail hreach hs ih =>
    exact ih.step (ReachesWith.reaches hreach loneCulprit_not_interrupted |>.inv hnd) hnd hs

/-- At the end the culprit is settled and was not accepted. -/
theorem ReachesWith.poisoned_eq (hnd : files.Nodup) (hc : c ∈ files)
    (hp : ReachesWith (loneCulprit c) files workers batchSizeOverride p) (hfin : p.Finished) :
    p.poisoned.map Prod.fst = suspects files workers batchSizeOverride c := by
  have hhunt := hp.hunt hnd
  have hinv := (hp.reaches loneCulprit_not_interrupted).inv hnd
  rcases hhunt.phase with ⟨hnone, -⟩ | ⟨hsome, -⟩
  · rcases hinv.exactlyOnce hnd hfin c hc with ⟨hone, -⟩ | ⟨-, hone⟩
    · have hzero : p.accepted.countP (fun b => decide (c ∈ b.2)) = 0 := by
        rw [List.countP_eq_zero]
        simpa using hhunt.accepted
      omega
    · rw [hnone] at hone
      simp at hone
  · exact hsome

theorem ReachesWith.progress (hnd : files.Nodup)
    (hp : ReachesWith (loneCulprit c) files workers batchSizeOverride p) :
    p.Finished ∨ ∃ p', StepWith (loneCulprit c) p p' := by
  have hinv := (hp.reaches loneCulprit_not_interrupted).inv hnd
  refine (hinv.progress (show (0 : ℤ) ≠ kWorkerInterrupted by decide)
    (effectiveWorkers_pos files workers)).imp_right ?_
  rintro ⟨p', hs⟩
  exact hs.stepWith (loneCulprit_runs c) fun b => ⟨true, rfl⟩

/-- Some interleaving runs to the end. -/
theorem exists_finished (hnd : files.Nodup) (c : Tu) (workers batchSizeOverride : ℕ) :
    ∃ p, ReachesWith (loneCulprit c) files workers batchSizeOverride p ∧ p.Finished := by
  have hfuel : ∀ (n : ℕ) (p : Pool),
      ReachesWith (loneCulprit c) files workers batchSizeOverride p → p.fuel ≤ n →
        ∃ p, ReachesWith (loneCulprit c) files workers batchSizeOverride p ∧ p.Finished := by
    intro n
    induction n with
    | zero =>
      intro p hp hle
      rcases hp.progress hnd with hfin | ⟨p', hs⟩
      · exact ⟨p, hp, hfin⟩
      · have := ((hp.reaches loneCulprit_not_interrupted).inv hnd).fuel_lt hnd
          (hs.step loneCulprit_not_interrupted)
        omega
    | succ n ih =>
      intro p hp hle
      rcases hp.progress hnd with hfin | ⟨p', hs⟩
      · exact ⟨p, hp, hfin⟩
      · have := ((hp.reaches loneCulprit_not_interrupted).inv hnd).fuel_lt hnd
          (hs.step loneCulprit_not_interrupted)
        exact ih p' (hp.tail hs) (by omega)
  exact hfuel _ _ .refl le_rfl

theorem length_halfOf_le (c : Tu) (tus : List Tu) :
    (halfOf c tus).length ≤ (tus.length + 1) / 2 := by
  unfold halfOf
  split_ifs with h
  · rw [List.length_take]
    omega
  · rw [List.length_drop]
    omega

theorem length_le_of_mem_cutBatches {size fuel : ℕ} {tus b : List Tu}
    (hb : b ∈ cutBatches size fuel tus) : b.length ≤ size := by
  induction fuel generalizing tus with
  | zero => cases hb
  | succ fuel ih =>
    cases tus with
    | nil => cases hb
    | cons tu tus =>
      rcases List.mem_cons.mp hb with rfl | hrest
      · exact List.length_take_le _ _
      · exact ih hrest

/-- The batch the hunt starts from. -/
theorem exists_first_batch (hnd : files.Nodup) (hc : c ∈ files) (workers batchSizeOverride : ℕ) :
    ∃ b, (start files workers batchSizeOverride).work.find? (c ∈ ·) = some b ∧ c ∈ b ∧
      b.length ≤ effectiveBatchSize files (effectiveWorkers files workers) batchSizeOverride := by
  have hne : files ≠ [] := List.ne_nil_of_mem hc
  have hwork : (start files workers batchSizeOverride).work =
      cutBatches (effectiveBatchSize files (effectiveWorkers files workers) batchSizeOverride)
        files.length files := by
    rw [start, if_neg hne]
  have hflat := flatten_cutBatches (effectiveBatchSize_pos files (effectiveWorkers files workers)
    batchSizeOverride) (le_refl files.length)
  rw [← hwork] at hflat
  rw [← hflat] at hc hnd
  obtain ⟨b, hb, hcb⟩ := List.mem_flatten.mp hc
  exact ⟨b, find?_mem_eq_some hnd hb hcb, hcb, length_le_of_mem_cutBatches (hwork ▸ hb)⟩

/-- Four units are halved down to one before the retries run out. -/
theorem suspects_of_small_batches (hnd : files.Nodup) (hc : c ∈ files)
    (hsize : effectiveBatchSize files (effectiveWorkers files workers) batchSizeOverride ≤ 4) :
    suspects files workers batchSizeOverride c = [c] := by
  obtain ⟨b, hfind, hcb, hlen⟩ := exists_first_batch hnd hc workers batchSizeOverride
  rw [suspects, hfind, Option.getD_some]
  have hmem : c ∈ halfOf c (halfOf c b) := mem_halfOf (mem_halfOf hcb)
  have hone : (halfOf c (halfOf c b)).length = 1 := by
    have h₁ := length_halfOf_le c b
    have h₂ := length_halfOf_le c (halfOf c b)
    have h₃ := List.length_pos_of_mem hmem
    omega
  obtain ⟨x, hx⟩ := List.length_eq_one_iff.mp hone
  rw [hx, List.mem_singleton] at hmem
  change halfOf c (halfOf c b) = [c]
  rw [hx, hmem]

/-- **A lone culprit is poisoned together with the units that two halvings leave beside it**,
in every completion order; in batches of at most four units that is the culprit alone. -/
theorem dispatchIsolated_poisons_suspects (hnd : files.Nodup) (hc : c ∈ files)
    (workers batchSizeOverride : ℕ) :
    Isolates (loneCulprit c) files workers batchSizeOverride
        (suspects files workers batchSizeOverride c) ∧
      (effectiveBatchSize files (effectiveWorkers files workers) batchSizeOverride ≤ 4 →
        suspects files workers batchSizeOverride c = [c]) := by
  refine ⟨⟨?_, fun p hp => hp.progress hnd, fun p hp hfin => hp.poisoned_eq hnd hc hfin⟩,
    suspects_of_small_batches hnd hc⟩
  rintro ⟨run, hstart, hrun⟩
  exact not_run_forever hnd workers batchSizeOverride
    ⟨run, hstart, fun n => (hrun n).step loneCulprit_not_interrupted⟩

/-- Five units in one batch, the last of them fails. -/
theorem dispatchIsolated_poisons_suspects_five :
    Isolates (loneCulprit [101]) [[97], [98], [99], [100], [101]] 1 5 [[100], [101]] :=
  (dispatchIsolated_poisons_suspects (by decide) (by decide) 1 5).1

/-- In a batch of five the culprit takes its neighbour with it. -/
theorem bisection_drops_innocent :
    ¬ ∀ (files : List Tu) (workers batchSizeOverride : ℕ) (c : Tu), files.Nodup → c ∈ files →
      Isolates (loneCulprit c) files workers batchSizeOverride [c] := by
  intro hall
  have hnd : ([[97], [98], [99], [100], [101]] : List Tu).Nodup := by decide
  obtain ⟨p, hp, hfin⟩ := exists_finished hnd [101] 1 5
  have halone := (hall _ 1 5 [101] hnd (by decide)).poisons p hp hfin
  rw [hp.poisoned_eq hnd (by decide) hfin] at halone
  exact absurd halone (by decide)

end Isolates

end Pool

end Vycor
