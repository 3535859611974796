import Vycor.WorkerPool.Dispatch

/-!
# Accounting of the dispatcher

Every unit is at any time in exactly one place: queued, running, awaiting settlement,
accepted or poisoned (`Inv.accounted`), as long as no worker exits with the code reserved
for interrupts, whose batch the parent abandons. A unit in the queue was handed out as
often as it was retried, one past the queue once more, which bounds the hand-outs by three.
Every step lowers `Pool.fuel`, which charges a queued batch three steps, a running one two
and a result one, and each unit in flight three steps for every retry it has left.
-/

namespace Vycor

namespace Pool

/-! ### Failures -/

/-- What `sift` does to the counters and where the units go. -/
theorem sift_spec (why : WorkerFailure) (retries : Tu → ℕ) {tus : List Tu} (hnd : tus.Nodup) :
    ((sift why retries tus).2.1 ++ (sift why retries tus).2.2.map Prod.fst).Perm tus ∧
      (∀ tu ∈ (sift why retries tus).2.1, (sift why retries tus).1 tu = retries tu + 1 ∧
        retries tu + 1 ≤ kMaxTuRetries) ∧
      ∀ tu ∉ tus, (sift why retries tus).1 tu = retries tu := by
  induction tus generalizing retries with
  | nil => simp [sift]
  | cons tu rest ih =>
    rw [List.nodup_cons] at hnd
    obtain ⟨hperm, hkept, hframe⟩ := ih (Function.update retries tu (retries tu + 1)) hnd.2
    have hne : ∀ {x}, x ∈ rest → x ≠ tu := fun hx he => hnd.1 (he ▸ hx)
    have hmem : ∀ {x}, x ∈ (sift why (Function.update retries tu (retries tu + 1)) rest).2.1 →
        x ∈ rest := fun hx => hperm.subset (List.mem_append_left _ hx)
    have hold : ∀ x ∈ (sift why (Function.update retries tu (retries tu + 1)) rest).2.1,
        (sift why (Function.update retries tu (retries tu + 1)) rest).1 x = retries x + 1 ∧
          retries x + 1 ≤ kMaxTuRetries := by
      intro x hx
      have := hkept x hx
      rwa [Function.update_of_ne (hne (hmem hx))] at this
    have hself : (sift why (Function.update retries tu (retries tu + 1)) rest).1 tu =
        retries tu + 1 := by
      rw [hframe tu hnd.1, Function.update_self]
    have hother : ∀ x ∉ tu :: rest,
        (sift why (Function.update retries tu (retries tu + 1)) rest).1 x = retries x := by
      intro x hx
      rw [List.mem_cons, not_or] at hx
      rw [hframe x hx.2, Function.update_of_ne hx.1]
    unfold sift
    dsimp only
    split_ifs with hlim
    · refine ⟨?_, hold, hother⟩
      exact List.perm_middle.trans (hperm.cons tu)
    · refine ⟨hperm.cons tu, fun x hx => ?_, hother⟩
      rcases List.mem_cons.mp hx with rfl | hx
      · exact ⟨hself, Nat.le_of_not_lt hlim⟩
      · exact hold x hx

/-- What settling the batch `tus` may do: some of its units are queued again in non-empty
batches, each with one more retry, the others are poisoned. -/
structure Redispatched (tus : List Tu) (p p' : Pool) : Prop where
  queued : ∃ batches, p'.work = p.work ++ batches ∧
    p'.outstanding = p.outstanding + batches.length ∧ (∀ b ∈ batches, b ≠ []) ∧
    (∀ tu ∈ batches.flatten, p'.retries tu = p.retries tu + 1 ∧
      p.retries tu + 1 ≤ kMaxTuRetries) ∧
    ∃ dropped, p'.poisoned = p.poisoned ++ dropped ∧
      (batches.flatten ++ dropped.map Prod.fst).Perm tus
  retries : ∀ tu ∉ tus, p'.retries tu = p.retries tu
  running : p'.running = p.running
  results : p'.results = p.results
  shardSeq : p'.shardSeq = p.shardSeq
  idle : p'.idle = p.idle
  stop : p'.stop = p.stop
  handed : p'.handed = p.handed
  accepted : p'.accepted = p.accepted

theorem redispatched_poison (p : Pool) (tu : Tu) (why : WorkerFailure) :
    Redispatched [tu] p (p.poison tu why) :=
  ⟨⟨[], by simp [poison], rfl, by simp, by simp, [(tu, why)], rfl, by simp⟩, fun _ _ => rfl, rfl,
    rfl, rfl, rfl, rfl, rfl, rfl⟩

theorem redispatched_requeue (p : Pool) {tus : List Tu} (hnd : tus.Nodup) (why : WorkerFailure) :
    Redispatched tus p (p.requeue tus why) := by
  obtain ⟨hperm, hkept, hframe⟩ := sift_spec why p.retries hnd
  unfold requeue
  dsimp only
  split_ifs with hempty
  · rw [hempty] at hperm
    exact ⟨⟨[], by simp, rfl, by simp, by simp, _, rfl, by simpa using hperm⟩, hframe, rfl, rfl,
      rfl, rfl, rfl, rfl, rfl⟩
  · refine ⟨⟨[(sift why p.retries tus).2.1], rfl, rfl, by simpa using hempty, ?_, _, rfl, ?_⟩,
      hframe, rfl, rfl, rfl, rfl, rfl, rfl, rfl⟩
    · simpa using hkept
    · simpa using hperm

/-- Two parts of a batch settled one after the other. -/
theorem Redispatched.append {p p' p'' : Pool} {tus tus' : List Tu} (h : Redispatched tus p p')
    (h' : Redispatched tus' p' p'') (hdisj : tus.Disjoint tus') :
    Redispatched (tus ++ tus') p p'' := by
  obtain ⟨bs, hw, ho, hne, hr, ds, hp, hperm⟩ := h.queued
  obtain ⟨bs', hw', ho', hne', hr', ds', hp', hperm'⟩ := h'.queued
  have hmem : ∀ {tu}, tu ∈ bs.flatten → tu ∈ tus := fun hx =>
    hperm.subset (List.mem_append_left _ hx)
  have hmem' : ∀ {tu}, tu ∈ bs'.flatten → tu ∈ tus' := fun hx =>
    hperm'.subset (List.mem_append_left _ hx)
  refine ⟨⟨bs ++ bs', by rw [hw', hw, List.append_assoc], by rw [ho', ho, List.length_append]; omega,
    fun b hb => ?_, fun tu htu => ?_, ds ++ ds', by rw [hp', hp, List.append_assoc], ?_⟩,
    fun tu htu => ?_, h'.running.trans h.running, h'.results.trans h.results,
    h'.shardSeq.trans h.shardSeq, h'.idle.trans h.idle, h'.stop.trans h.stop,
    h'.handed.trans h.handed, h'.accepted.trans h.accepted⟩
  · exact (List.mem_append.mp hb).elim (hne b) (hne' b)
  · rw [List.flatten_append, List.mem_append] at htu
    rcases htu with htu | htu
    · rw [h'.retries tu fun h => hdisj (hmem htu) h]
      exact hr tu htu
    · rw [← h.retries tu fun h => hdisj h (hmem' htu)]
      exact hr' tu htu
  · rw [List.flatten_append, List.map_append]
    refine .trans ?_ (hperm.append hperm')
    simp only [List.append_assoc]
    refine List.Perm.append_left _ ?_
    rw [← List.append_assoc, ← List.append_assoc]
    exact List.Perm.append_right _ List.perm_append_comm
  · rw [List.mem_append, not_or] at htu
    rw [h'.retries tu htu.2, h.retries tu htu.1]

theorem Redispatched.of_perm {p p' : Pool} {tus tus' : List Tu} (h : Redispatched tus p p')
    (hperm : tus.Perm tus') : Redispatched tus' p p' := by
  obtain ⟨bs, hw, ho, hne, hr, ds, hp, hb⟩ := h.queued
  exact ⟨⟨bs, hw, ho, hne, hr, ds, hp, hb.trans hperm⟩,
    fun tu htu => h.retries tu fun hm => htu (hperm.subset hm), h.running, h.results, h.shardSeq,
    h.idle, h.stop, h.handed, h.accepted⟩

/-- Every branch of a failure settles the whole batch. -/
theorem redispatched_handleFailure (p : Pool) (res : BatchResult) (hnd : res.batch.Nodup) :
    Redispatched res.batch p (p.handleFailure res) := by
  unfold handleFailure
  dsimp only
  split
  next marker hmark =>
    -- the marked unit and the others
    have hin : marker ∈ res.batch := by simpa using (Option.filter_eq_some_iff.mp hmark).2
    have hsplit := (redispatched_poison p marker (if res.exitCode = kWorkerTimedOut then
      WorkerFailure.timedOut else .crashed)).append
        (redispatched_requeue _ (hnd.filter (· ≠ marker)) .crashed) (by simp)
    refine hsplit.of_perm ?_
    have herase : res.batch.filter (fun tu => decide (tu ≠ marker)) = res.batch.erase marker := by
      rw [hnd.erase_eq_filter]
      refine List.filter_congr fun tu _ => ?_
      by_cases htu : tu = marker <;> simp [htu]
    rw [herase]
    exact (List.perm_cons_erase hin).symm
  next =>
    split
    next tu heq => rw [heq]; exact redispatched_poison p tu _
    next tus =>
      have hcut := List.take_append_drop (res.batch.length / 2) res.batch
      have hnd' := hnd
      rw [← hcut, List.nodup_append] at hnd'
      have h := (redispatched_requeue p hnd'.1 (if res.exitCode = kWorkerTimedOut then
        WorkerFailure.timedOut else .crashed)).append (redispatched_requeue _ hnd'.2.1
          (if res.exitCode = kWorkerTimedOut then WorkerFailure.timedOut else .crashed))
        fun tu h h' => hnd'.2.2 tu h tu h' rfl
      rwa [hcut] at h

/-! ### Where the units are -/

/-- The units queued, running or awaiting settlement. -/
def inFlight (p : Pool) : List Tu :=
  p.work.flatten ++ p.running.flatMap Prod.snd ++ p.results.flatMap BatchResult.batch

/-- The units accepted or poisoned. -/
def settled (p : Pool) : List Tu := p.accepted.flatMap Prod.snd ++ p.poisoned.map Prod.fst

/-- The invariant of a dispatch of `files` over `workers` threads. -/
structure Inv (files : List Tu) (workers : ℕ) (p : Pool) : Prop where
  accounted : (p.inFlight ++ p.settled).Perm files
  outstanding : p.outstanding = p.work.length + p.running.length + p.results.length
  threads : p.stop = false → p.idle + p.running.length = workers
  stopped : p.stop = true → p.outstanding = 0
  waiting : ∀ tu ∈ p.work.flatten, p.handed.flatten.count tu = p.retries tu ∧
    p.retries tu ≤ kMaxTuRetries
  handed : ∀ tu, tu ∈ p.running.flatMap Prod.snd ++ p.results.flatMap BatchResult.batch →
    p.handed.flatten.count tu = p.retries tu + 1 ∧ p.retries tu ≤ kMaxTuRetries
  bound : ∀ tu, p.handed.flatten.count tu ≤ kMaxTuRetries + 1
  codes : ∀ r ∈ p.results, r.exitCode ≠ kWorkerInterrupted

theorem flatten_cutBatches {size : ℕ} (hsize : 0 < size) {fuel : ℕ} {tus : List Tu}
    (hfuel : tus.length ≤ fuel) : (cutBatches size fuel tus).flatten = tus := by
  induction fuel generalizing tus with
  | zero =>
    obtain rfl := List.length_eq_zero_iff.mp (Nat.le_zero.mp hfuel)
    rfl
  | succ fuel ih =>
    cases tus with
    | nil => rfl
    | cons tu tus =>
      rw [cutBatches, List.flatten_cons, ih, List.take_append_drop]
      rw [List.length_drop]
      omega

theorem effectiveBatchSize_pos (files : List Tu) (workers batchSizeOverride : ℕ) :
    0 < effectiveBatchSize files workers batchSizeOverride := by
  unfold effectiveBatchSize
  split_ifs with h
  · omega
  · omega

theorem effectiveWorkers_pos (files : List Tu) (workers : ℕ) :
    0 < effectiveWorkers files workers := by
  unfold effectiveWorkers
  dsimp only
  split_ifs <;> omega

theorem inv_start (files : List Tu) (workers batchSizeOverride : ℕ) :
    Inv files (effectiveWorkers files workers) (start files workers batchSizeOverride) := by
  unfold start
  split_ifs with hempty
  · subst hempty
    exact ⟨by simp [inFlight, settled], by simp, by simp, by simp, by simp, by simp, by simp, by simp⟩
  · refine ⟨?_, by simp, by simp, by simp, by simp, by simp, by simp, by simp⟩
    simp [inFlight, settled, flatten_cutBatches (effectiveBatchSize_pos _ _ _)]

section Step

variable {files : List Tu} {workers : ℕ} {p p' : Pool}

theorem Inv.nodup_inFlight (h : Inv files workers p) (hnd : files.Nodup) : p.inFlight.Nodup :=
  (List.nodup_append.mp (h.accounted.nodup_iff.mpr hnd)).1

theorem Inv.pull (h : Inv files workers p) (hnd : files.Nodup) {b : List Tu}
    {rest : List (List Tu)} (hwork : p.work = b :: rest) (hidle : 0 < p.idle) :
    Inv files workers { p with
      work := rest
      idle := p.idle - 1
      running := p.running ++ [(p.shardSeq, b)]
      shardSeq := p.shardSeq + 1
      handed := p.handed ++ [b] } := by
  have hfl := h.nodup_inFlight hnd
  simp only [inFlight, hwork, List.flatten_cons, List.append_assoc] at hfl
  have hb := (List.nodup_append.mp hfl).1
  -- a unit of the batch is nowhere else in flight
  have hother : ∀ {tu}, tu ∈ rest.flatten ++ (p.running.flatMap Prod.snd ++
      p.results.flatMap BatchResult.batch) → tu ∉ b :=
    fun htu hm => (List.nodup_append.mp hfl).2.2 _ hm _ htu rfl
  have hcount : ∀ tu, (p.handed ++ [b]).flatten.count tu =
      p.handed.flatten.count tu + if tu ∈ b then 1 else 0 := by
    intro tu
    rw [List.flatten_append, List.count_append, List.flatten_singleton]
    split_ifs with hm
    · rw [List.count_eq_one_of_mem hb hm]
    · rw [List.count_eq_zero_of_not_mem hm]
  have hwait := h.waiting
  rw [hwork, List.flatten_cons] at hwait
  refine ⟨?_, ?_, fun hs => ?_, fun hs => ?_, fun tu htu => ?_, fun tu htu => ?_, fun tu => ?_,
    h.codes⟩
  · refine .trans ?_ h.accounted
    refine List.perm_iff_count.mpr fun tu => ?_
    simp only [inFlight, settled, hwork, List.flatten_cons, List.flatMap_append,
      List.flatMap_singleton, List.count_append]
    omega
  · have := h.outstanding
    simp [hwork] at this ⊢
    omega
  · have := h.threads hs
    simp
    omega
  · exact h.stopped hs
  · dsimp only at htu ⊢
    rw [hcount, if_neg (hother (List.mem_append_left _ htu))]
    exact hwait tu (List.mem_append_right _ htu)
  · dsimp only at htu ⊢
    rw [hcount]
    by_cases hm : tu ∈ b
    · rw [if_pos hm]
      have := hwait tu (List.mem_append_left _ hm)
      omega
    · rw [if_neg hm]
      refine h.handed tu ?_
      simpa [hm] using htu
  · dsimp only
    rw [hcount]
    split_ifs with hm
    · have := hwait tu (List.mem_append_left _ hm)
      omega
    · exact h.bound tu

theorem Inv.finish (h : Inv files workers p) {before after : List (ℕ × List Tu)} {seq : ℕ}
    {b : List Tu} {code : ℤ} (stderr : Option Bytes)
    (hrun : p.running = before ++ (seq, b) :: after) (hcode : code ≠ kWorkerInterrupted) :
    Inv files workers { p with
      running := before ++ after
      idle := p.idle + 1
      results := p.results ++ [⟨b, seq, code, stderr⟩] } := by
  refine ⟨?_, ?_, fun hs => ?_, h.stopped, h.waiting, fun tu htu => h.handed tu ?_, h.bound,
    fun r hr => ?_⟩
  · refine .trans ?_ h.accounted
    refine List.perm_iff_count.mpr fun tu => ?_
    simp only [inFlight, settled, hrun, List.flatMap_append, List.flatMap_cons, List.flatMap_nil,
      List.count_append, List.count_nil]
    omega
  · have := h.outstanding
    simp [hrun] at this ⊢
    omega
  · have := h.threads hs
    simp [hrun] at this ⊢
    omega
  · simp only [hrun, List.flatMap_append, List.flatMap_cons, List.flatMap_nil, List.append_nil,
      List.mem_append] at htu ⊢
    tauto
  · rcases List.mem_append.mp hr with hr | hr
    · exact h.codes r hr
    · obtain rfl := List.mem_singleton.mp hr
      exact hcode

/-- Removing a result leaves the others and frees one outstanding batch. -/
theorem Inv.redispatch (h : Inv files workers p) (hnd : files.Nodup) {res : BatchResult}
    {rest : List BatchResult} (hstop : p.stop = false) (hres : p.results = res :: rest)
    (hred : Redispatched res.batch { p with results := rest, outstanding := p.outstanding - 1 } p') :
    Inv files workers p' := by
  obtain ⟨bs, hw, ho, hne, hr, ds, hp, hperm⟩ := hred.queued
  dsimp only at hw ho hr hp
  have hfl := h.nodup_inFlight hnd
  simp only [inFlight, hres, List.flatMap_cons] at hfl
  have hother : ∀ {tu}, tu ∈ p.work.flatten ++ p.running.flatMap Prod.snd ∨
      tu ∈ rest.flatMap BatchResult.batch → tu ∉ res.batch := by
    rintro tu (htu | htu) hm
    · exact (List.nodup_append.mp hfl).2.2 tu htu tu (List.mem_append_left _ hm) rfl
    · have := (List.nodup_append.mp (List.nodup_append.mp hfl).2.1).2.2
      exact this tu hm tu htu rfl
  have hkept : ∀ {tu}, tu ∈ bs.flatten → tu ∈ res.batch := fun htu =>
    hperm.subset (List.mem_append_left _ htu)
  have hhand := h.handed
  rw [hres, List.flatMap_cons] at hhand
  refine ⟨?_, ?_, fun hs => ?_, fun hs => ?_, fun tu htu => ?_, fun tu htu => ?_, fun tu => ?_,
    fun r hr' => ?_⟩
  · refine .trans ?_ h.accounted
    refine List.perm_iff_count.mpr fun tu => ?_
    have hcount := List.perm_iff_count.mp hperm tu
    simp only [inFlight, settled, hw, hp, hred.running, hred.results, hred.accepted, hres,
      List.flatten_append, List.flatMap_cons, List.map_append, List.count_append] at hcount ⊢
    omega
  · have := h.outstanding
    rw [hres] at this
    rw [ho, hw, hred.running, hred.results]
    simp at this ⊢
    omega
  · rw [hred.idle, hred.running]
    exact h.threads hstop
  · rw [hred.stop] at hs
    rw [show p.stop = true from hs] at hstop
    cases hstop
  · rw [hred.handed]
    rw [hw, List.flatten_append, List.mem_append] at htu
    rcases htu with htu | htu
    · rw [hred.retries tu (hother (.inl (List.mem_append_left _ htu)))]
      exact h.waiting tu htu
    · obtain ⟨hr1, hr2⟩ := hr tu htu
      have := hhand tu (by simp [hkept htu])
      rw [hr1]
      exact ⟨this.1, hr2⟩
  · rw [hred.running, hred.results] at htu
    rw [hred.handed, hred.retries tu (hother ?_)]
    · refine hhand tu ?_
      simp only [List.mem_append] at htu ⊢
      tauto
    · simp only [List.mem_append] at htu ⊢
      tauto
  · rw [hred.handed]
    exact h.bound tu
  · rw [hred.results] at hr'
    exact h.codes r (by rw [hres]; exact .tail _ hr')

theorem Inv.accept (h : Inv files workers p) {res : BatchResult} {rest : List BatchResult}
    (hres : p.results = res :: rest) (hout : p.outstanding ≠ 0) :
    Inv files workers { p with
      results := rest
      outstanding := p.outstanding - 1
      accepted := p.accepted ++ [(res.seq, res.batch)] } := by
  refine ⟨?_, ?_, h.threads, fun hs => absurd (h.stopped hs) hout, h.waiting,
    fun tu htu => h.handed tu ?_, h.bound, fun r hr => h.codes r (by rw [hres]; exact .tail _ hr)⟩
  · refine .trans ?_ h.accounted
    refine List.perm_iff_count.mpr fun tu => ?_
    simp only [inFlight, settled, hres, List.flatMap_append, List.flatMap_cons, List.flatMap_nil,
      List.count_append, List.count_nil]
    omega
  · have := h.outstanding
    simp [hres] at this ⊢
    omega
  · simp only [hres, List.flatMap_cons, List.mem_append] at htu ⊢
    tauto

/-- A result that is not accepted is redispatched. -/
theorem settle_cases (p : Pool) (res : BatchResult) (consumed : Bool) (hnd : res.batch.Nodup)
    (hcode : res.exitCode ≠ kWorkerInterrupted) :
    p.settle res consumed = { p with
        outstanding := p.outstanding - 1
        accepted := p.accepted ++ [(res.seq, res.batch)] } ∨
      Redispatched res.batch { p with outstanding := p.outstanding - 1 }
        (p.settle res consumed) := by
  unfold settle
  dsimp only
  split_ifs with hacc hz hfail
  · exact .inl rfl
  · exact .inr (redispatched_handleFailure _ { res with exitCode := -1 } hnd)
  · exact absurd (show (-1 : ℤ) ≠ kWorkerInterrupted by decide) hfail
  · exact .inr (redispatched_handleFailure _ res hnd)

/-- **One step keeps the invariant**, unless a worker exits with the interrupt code. -/
theorem Inv.step {Exits : ℤ → Prop} (hE : ∀ c, Exits c → c ≠ kWorkerInterrupted)
    (h : Inv files workers p) (hnd : files.Nodup) (hs : Step Exits p p') : Inv files workers p' := by
  cases hs with
  | pull hwork hidle => exact h.pull hnd hwork hidle
  | finish stderr hrun hcode => exact h.finish stderr hrun (hE _ hcode)
  | @settle res rest consumed hstop hout hres =>
    have hbatch : res.batch.Nodup := by
      have := h.nodup_inFlight hnd
      simp only [inFlight, hres, List.flatMap_cons] at this
      exact (List.nodup_append.mp (List.nodup_append.mp this).2.1).1
    rcases settle_cases { p with results := rest } res consumed hbatch
      (h.codes res (by rw [hres]; exact .head _)) with heq | hred
    · rw [heq]
      exact h.accept hres hout
    · exact h.redispatch hnd hstop hres hred
  | stop hstop hout =>
    exact ⟨h.accounted, h.outstanding, fun hs => (by cases hs), fun _ => hout, h.waiting, h.handed,
      h.bound, h.codes⟩
  | exit hstop hwork hidle =>
    refine ⟨h.accounted, h.outstanding, fun hs => ?_, h.stopped, h.waiting, h.handed, h.bound,
      h.codes⟩
    rw [show p.stop = false from hs] at hstop
    cases hstop

/-! ### Termination -/

/-- The steps a dispatch may still take: three for a queued batch, two for a running one,
one for a result, three for every retry left to a unit in flight, one for every thread and
one for the end of the loop. -/
def fuel (p : Pool) : ℕ :=
  3 * (p.inFlight.map fun tu => kMaxTuRetries - p.retries tu).sum + 3 * p.work.length +
    2 * p.running.length + p.results.length + (p.idle + p.running.length) +
    if p.stop then 0 else 1

theorem length_le_length_flatten {l : List (List Tu)} (h : ∀ b ∈ l, b ≠ []) :
    l.length ≤ l.flatten.length := by
  induction l with
  | nil => simp
  | cons b l ih =>
    have := List.length_pos_iff.mpr (h b (.head _))
    have := ih fun b' hb' => h b' (.tail _ hb')
    rw [List.flatten_cons, List.length_append, List.length_cons]
    omega

/-- Redispatching a batch costs less than its units had left. -/
theorem Redispatched.fuel_lt {res : BatchResult} {rest : List BatchResult} {out : ℕ}
    (hfl : p.inFlight.Nodup) (hres : p.results = res :: rest)
    (hred : Redispatched res.batch { p with results := rest, outstanding := out } p') :
    p'.fuel < p.fuel := by
  obtain ⟨bs, hw, -, hne, hr, ds, -, hperm⟩ := hred.queued
  dsimp only at hw hr
  simp only [inFlight, hres, List.flatMap_cons] at hfl
  have hother : ∀ tu, tu ∈ p.work.flatten ∨ tu ∈ p.running.flatMap Prod.snd ∨
      tu ∈ rest.flatMap BatchResult.batch → p'.retries tu = p.retries tu := by
    intro tu htu
    refine hred.retries tu fun hm => ?_
    have hout := (List.nodup_append.mp hfl).2.2
    have hin := (List.nodup_append.mp (List.nodup_append.mp hfl).2.1).2.2
    rcases htu with htu | htu | htu
    · exact hout tu (List.mem_append_left _ htu) tu (List.mem_append_left _ hm) rfl
    · exact hout tu (List.mem_append_right _ htu) tu (List.mem_append_left _ hm) rfl
    · exact hin tu hm tu htu rfl
  -- a unit queued again gives up one retry
  have hkept : (bs.flatten.map fun tu => kMaxTuRetries - p'.retries tu).sum + bs.flatten.length =
      (bs.flatten.map fun tu => kMaxTuRetries - p.retries tu).sum := by
    have : ∀ l : List Tu, (∀ tu ∈ l, p'.retries tu = p.retries tu + 1 ∧
        p.retries tu + 1 ≤ kMaxTuRetries) →
        (l.map fun tu => kMaxTuRetries - p'.retries tu).sum + l.length =
          (l.map fun tu => kMaxTuRetries - p.retries tu).sum := by
      intro l hl
      induction l with
      | nil => rfl
      | cons tu l ih =>
        have h₁ := hl tu (.head _)
        have h₂ := ih fun tu' htu' => hl tu' (.tail _ htu')
        simp only [List.map_cons, List.sum_cons, List.length_cons]
        omega
    exact this _ hr
  have hbatch : (res.batch.map fun tu => kMaxTuRetries - p.retries tu).sum =
      (bs.flatten.map fun tu => kMaxTuRetries - p.retries tu).sum +
        ((ds.map Prod.fst).map fun tu => kMaxTuRetries - p.retries tu).sum := by
    rw [← List.sum_append, ← List.map_append]
    exact ((hperm.map _).sum_eq).symm
  have hlen := length_le_length_flatten hne
  have hsame : ∀ l : List Tu, (∀ tu ∈ l, p'.retries tu = p.retries tu) →
      (l.map fun tu => kMaxTuRetries - p'.retries tu).sum =
        (l.map fun tu => kMaxTuRetries - p.retries tu).sum := by
    intro l hl
    rw [List.map_congr_left fun tu htu => by rw [hl tu htu]]
  have h₁ := hsame p.work.flatten fun tu h => hother tu (.inl h)
  have h₂ := hsame (p.running.flatMap Prod.snd) fun tu h => hother tu (.inr (.inl h))
  have h₃ := hsame (rest.flatMap BatchResult.batch) fun tu h => hother tu (.inr (.inr h))
  simp only [fuel, inFlight, hw, hred.running, hred.results, hred.idle, hred.stop, hres,
    List.flatten_append, List.flatMap_cons, List.map_append, List.sum_append,
    List.length_append, List.length_cons]
  omega

/-- **Every step lowers the fuel.** -/
theorem Inv.fuel_lt {Exits : ℤ → Prop} (h : Inv files workers p) (hnd : files.Nodup)
    (hs : Step Exits p p') : p'.fuel < p.fuel := by
  cases hs with
  | pull hwork hidle =>
    simp only [fuel, inFlight, hwork, List.flatten_cons, List.flatMap_append, List.flatMap_cons,
      List.flatMap_nil, List.append_nil, List.map_append, List.sum_append, List.length_append,
      List.length_cons, List.length_nil]
    omega
  | finish stderr hrun hcode =>
    simp only [fuel, inFlight, hrun, List.flatMap_append, List.flatMap_cons, List.flatMap_nil,
      List.append_nil, List.map_append, List.sum_append, List.length_append, List.length_cons,
      List.length_nil]
    omega
  | @settle res rest consumed hstop hout hres =>
    have hfl := h.nodup_inFlight hnd
    have hbatch : res.batch.Nodup := by
      have := hfl
      simp only [inFlight, hres, List.flatMap_cons] at this
      exact (List.nodup_append.mp (List.nodup_append.mp this).2.1).1
    rcases settle_cases { p with results := rest } res consumed hbatch
      (h.codes res (by rw [hres]; exact .head _)) with heq | hred
    · rw [heq]
      simp only [fuel, inFlight, hres, List.flatMap_cons, List.map_append, List.sum_append,
        List.length_cons]
      omega
    · exact hred.fuel_lt hfl hres
  | stop hstop hout =>
    simp [fuel, inFlight, hstop]
  | exit hstop hwork hidle =>
    simp only [fuel, inFlight]
    omega

/-- **No deadlock**: a dispatch that has not finished can take a step. -/
theorem Inv.progress {Exits : ℤ → Prop} {code : ℤ} (hcode : Exits code)
    (h : Inv files workers p) (hworkers : 0 < workers) : p.Finished ∨ ∃ p', Step Exits p p' := by
  have hout := h.outstanding
  rcases hstop : p.stop
  · right
    by_cases hz : p.outstanding = 0
    · exact ⟨_, .stop hstop hz⟩
    · rcases hres : p.results with _ | ⟨res, rest⟩
      · rcases hrun : p.running with _ | ⟨⟨seq, b⟩, after⟩
        · rcases hwork : p.work with _ | ⟨b, rest⟩
          · simp [hres, hrun, hwork] at hout
            exact absurd hout hz
          · have := h.threads hstop
            rw [hrun, List.length_nil] at this
            exact ⟨_, .pull hwork (by omega)⟩
        · exact ⟨_, .finish none (by rw [hrun, List.nil_append]) hcode⟩
      · exact ⟨_, .settle true hstop hz hres⟩
  · have hz := h.stopped hstop
    have hwork : p.work = [] := List.length_eq_zero_iff.mp (by omega)
    have hrun : p.running = [] := List.length_eq_zero_iff.mp (by omega)
    rcases Nat.eq_zero_or_pos p.idle with hidle | hidle
    · exact .inl ⟨hstop, hidle, hrun⟩
    · exact .inr ⟨_, .exit hstop hwork hidle⟩

end Step

/-! ### Exactly once -/

/-- Every unit belongs to exactly one accepted batch or was poisoned exactly once, and not
both. -/
def ExactlyOnce (files : List Tu) (p : Pool) : Prop :=
  ∀ tu ∈ files, (p.accepted.countP (fun b => decide (tu ∈ b.2)) = 1 ∧
      (p.poisoned.map Prod.fst).count tu = 0) ∨
    (p.accepted.countP (fun b => decide (tu ∈ b.2)) = 0 ∧ (p.poisoned.map Prod.fst).count tu = 1)

/-- What is asked of a dispatch: it ends under every interleaving, no unit is handed out
more than three times, and at the end every unit is accounted for once. -/
structure Accounts (Exits : ℤ → Prop) (files : List Tu) (workers batchSizeOverride : ℕ) :
    Prop where
  terminates : ¬ ∃ run : ℕ → Pool, run 0 = start files workers batchSizeOverride ∧
    ∀ n, Step Exits (run n) (run (n + 1))
  progress : ∀ p, Reaches Exits files workers batchSizeOverride p →
    p.Finished ∨ ∃ p', Step Exits p p'
  handed : ∀ p, Reaches Exits files workers batchSizeOverride p →
    ∀ tu, p.handed.flatten.count tu ≤ 3
  once : ∀ p, Reaches Exits files workers batchSizeOverride p → p.Finished → p.ExactlyOnce files

/-- In batches without repeats a unit is counted once for every batch it is in. -/
theorem countP_mem_eq_count {l : List (ℕ × List Tu)} (hnd : (l.flatMap Prod.snd).Nodup) (tu : Tu) :
    l.countP (fun b => decide (tu ∈ b.2)) = (l.flatMap Prod.snd).count tu := by
  induction l with
  | nil => rfl
  | cons b l ih =>
    rw [List.flatMap_cons, List.nodup_append] at hnd
    rw [List.countP_cons, List.flatMap_cons, List.count_append, ih hnd.2.1]
    by_cases hb : tu ∈ b.2
    · rw [List.count_eq_one_of_mem hnd.1 hb]
      simp [hb, Nat.add_comm]
    · rw [List.count_eq_zero_of_not_mem hb]
      simp [hb]

theorem Inv.exactlyOnce {files : List Tu} {workers : ℕ} {p : Pool} (h : Inv files workers p)
    (hnd : files.Nodup) (hfin : p.Finished) : p.ExactlyOnce files := by
  have hz := h.stopped hfin.1
  have hout := h.outstanding
  have hwork : p.work = [] := List.length_eq_zero_iff.mp (by omega)
  have hres : p.results = [] := List.length_eq_zero_iff.mp (by omega)
  have hflight : p.inFlight = [] := by simp [inFlight, hwork, hres, hfin.2.2]
  have hperm := h.accounted
  rw [hflight, List.nil_append] at hperm
  have hndS := hperm.nodup_iff.mpr hnd
  intro tu htu
  have hone : p.settled.count tu = 1 := by
    rw [List.perm_iff_count.mp hperm tu, List.count_eq_one_of_mem hnd htu]
  rw [settled, List.count_append, ← countP_mem_eq_count (List.nodup_append.mp hndS).1] at hone
  omega

theorem Reaches.inv {files : List Tu} {workers batchSizeOverride : ℕ} {p : Pool}
    (hp : Reaches (fun code => code ≠ kWorkerInterrupted) files workers batchSizeOverride p)
    (hnd : files.Nodup) : Inv files (effectiveWorkers files workers) p := by
  induction hp with
  | refl => exact inv_start files workers batchSizeOverride
  | tail _ hs ih => exact ih.step (fun _ => id) hnd hs

/-- The fuel of the start bounds the number of steps. -/
theorem not_run_forever {files : List Tu} (hnd : files.Nodup) (workers batchSizeOverride : ℕ) :
    ¬ ∃ run : ℕ → Pool, run 0 = start files workers batchSizeOverride ∧
      ∀ n, Step (fun code => code ≠ kWorkerInterrupted) (run n) (run (n + 1)) := by
  rintro ⟨run, hstart, hrun⟩
  have hreach : ∀ n, Reaches (fun code => code ≠ kWorkerInterrupted) files workers
      batchSizeOverride (run n) := by
    intro n
    induction n with
    | zero => rw [hstart]; exact .refl
    | succ n ih => exact ih.tail (hrun n)
  have hfuel : ∀ n, (run n).fuel + n ≤ (run 0).fuel := by
    intro n
    induction n with
    | zero => exact le_rfl
    | succ n ih =>
      have := ((hreach n).inv hnd).fuel_lt hnd (hrun n)
      omega
  have := hfuel ((run 0).fuel + 1)
  omega

/-- **Exactly-once accounting**: for distinct units, any number of workers and any batch
size, the dispatch ends, hands no unit out more than three times and accounts for each unit
once, whatever the workers do, as long as none exits with the code of an interrupt. -/
theorem dispatchIsolated_accounts {files : List Tu} (hnd : files.Nodup)
    (workers batchSizeOverride : ℕ) :
    Accounts (fun code => code ≠ kWorkerInterrupted) files workers batchSizeOverride := by
  refine ⟨not_run_forever hnd workers batchSizeOverride, fun p hp => ?_,
    fun p hp => (hp.inv hnd).bound, fun p hp hfin => (hp.inv hnd).exactlyOnce hnd hfin⟩
  exact (hp.inv hnd).progress (show (0 : ℤ) ≠ kWorkerInterrupted by decide)
    (effectiveWorkers_pos files workers)

/-- Two units and two workers. -/
theorem dispatchIsolated_accounts_two :
    ([[97], [98]] : List Tu).Nodup ∧
      Accounts (fun code => code ≠ kWorkerInterrupted) [[97], [98]] 2 0 :=
  ⟨by decide, dispatchIsolated_accounts (by decide) 2 0⟩

/-- A worker that exits with the interrupt code has its batch abandoned. -/
theorem interrupted_batch_lost :
    ¬ ∀ (files : List Tu) (workers batchSizeOverride : ℕ), files.Nodup →
      Accounts (fun _ => True) files workers batchSizeOverride := by
  intro hall
  let res : BatchResult := ⟨[[97]], 0, kWorkerInterrupted, none⟩
  let p : Pool := { shardSeq := 1, handed := [[[97]]], stop := true }
  have hreach : Reaches (fun _ => True) [[97]] 1 1 p := by
    exact Relation.ReflTransGen.refl
      |>.tail (@Step.pull _ _ [[97]] [] rfl (by decide))
      |>.tail (@Step.finish _ _ [] [] 0 [[97]] kWorkerInterrupted none rfl trivial)
      |>.tail (@Step.settle _ _ res [] true rfl (by decide) rfl)
      |>.tail (.stop rfl (by decide))
      |>.tail (.exit rfl rfl (by decide))
  have hone := (hall [[97]] 1 1 (by decide)).once p hreach ⟨rfl, rfl, rfl⟩ [97] (by decide)
  revert hone
  decide

end Pool

end Vycor
