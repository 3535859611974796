import Vycor.Check.IndexShards
import Vycor.WorkerPool.Accounting

/-!
# The isolated phase 1

The parent of an isolated check applies the payloads of a shard to the merged index while it
reads the shard, and settles the batch by whether the reading succeeded. `Phase1Run` is the
state of the dispatcher together with what the consumer and `onPoison` write;
`phase1_applies_at_most_once` says under which shards no TU is applied twice or applied and
poisoned, over every interleaving and for every exit code, interrupts included.
-/

namespace Vycor

/-! ### What the parent writes -/

/-- `outcomeRank`. -/
def outcomeRank : TuStatus → ℕ
  | .indexed => 0
  | .partially => 1
  | .skipped => 2
  | _ => 3

/-- `worseOutcome`. -/
def worseOutcome (a b : TuOutcome) : TuOutcome :=
  if outcomeRank b.status > outcomeRank a.status then b else a

/-- `workerFailureOutcome`. -/
def workerFailureOutcome : WorkerFailure → TuOutcome
  | .timedOut => { status := .timedOut, detail := text "worker timed out" }
  | .crashed => { status := .poisoned, detail := text "worker crashed" }

/-- `CheckCheckpoint::kMaxAttempts`. -/
def kMaxAttempts : ℕ := 2

/-- What `runAnalysis` fixes before phase 1: the TUs that have a slot for their outcome, and the
stamps, of no TU when there is no journal. -/
structure Phase1Setup where
  sourceFiles : List Tu
  stampFor : Tu → Option FileStamp

/-- What phase 1 writes: the merged index, the outcomes noted and the calls on the journal. The
payloads applied so far are logged. -/
structure Phase1 where
  index : GlobalIndex
  outcomes : Tu → Option TuOutcome := fun _ => none
  journal : List JournalCall := []
  applied : List (Tu × CheckIndexPayload) := []

namespace Phase1

/-- `noteOutcome`. -/
def noteOutcome (setup : Phase1Setup) (tu : Tu) (outcome : TuOutcome) (s : Phase1) : Phase1 :=
  if tu ∈ setup.sourceFiles then
    { s with
      outcomes := Function.update s.outcomes tu
        (some ((s.outcomes tu).elim outcome (worseOutcome · outcome))) }
  else s

/-- The functions phase 1 hands to `readCheckIndexShard`. -/
def consume (setup : Phase1Setup) (e : IndexEntry) (s : Phase1) : Phase1 :=
  let s := s.noteOutcome setup e.tu e.outcome
  { s with
    journal := s.journal ++ (setup.stampFor e.tu).toList.map
      (.recordPhase1 e.tu · e.payload e.outcome)
    index := e.payload.applyTo s.index
    applied := s.applied ++ [(e.tu, e.payload)] }

/-- `onPoison` of phase 1: the TU is journaled as having used up its attempts. -/
def onPoison (setup : Phase1Setup) (s : Phase1) (tu : Tu) (why : WorkerFailure) : Phase1 :=
  let s := s.noteOutcome setup tu (workerFailureOutcome why)
  { s with
    journal := s.journal ++ (setup.stampFor tu).toList.flatMap fun stamp =>
      List.replicate kMaxAttempts
        (.recordAttempt kPhaseIndex tu stamp (some (workerFailureOutcome why))) }

@[simp] theorem noteOutcome_applied (setup : Phase1Setup) (tu : Tu) (outcome : TuOutcome)
    (s : Phase1) : (s.noteOutcome setup tu outcome).applied = s.applied := by
  unfold noteOutcome
  split_ifs <;> rfl

@[simp] theorem noteOutcome_index (setup : Phase1Setup) (tu : Tu) (outcome : TuOutcome)
    (s : Phase1) : (s.noteOutcome setup tu outcome).index = s.index := by
  unfold noteOutcome
  split_ifs <;> rfl

theorem foldl_onPoison_applied (setup : Phase1Setup) (poisons : List (Tu × WorkerFailure))
    (s : Phase1) :
    (poisons.foldl (fun s t => s.onPoison setup t.1 t.2) s).applied = s.applied ∧
      (poisons.foldl (fun s t => s.onPoison setup t.1 t.2) s).index = s.index := by
  induction poisons generalizing s with
  | nil => exact ⟨rfl, rfl⟩
  | cons t poisons ih =>
    obtain ⟨happlied, hindex⟩ := ih (s.onPoison setup t.1 t.2)
    exact ⟨happlied.trans (noteOutcome_applied ..), hindex.trans (noteOutcome_index ..)⟩

/-- Handing entries over applies their payloads in order. -/
theorem foldl_consume (setup : Phase1Setup) (es : List IndexEntry) (s : Phase1) :
    (es.foldl (fun s e => s.consume setup e) s).applied =
        s.applied ++ es.map (fun e => (e.tu, e.payload)) ∧
      (es.foldl (fun s e => s.consume setup e) s).index =
        es.foldl (fun index e => e.payload.applyTo index) s.index := by
  induction es generalizing s with
  | nil => simp
  | cons e es ih =>
    obtain ⟨happlied, hindex⟩ := ih (s.consume setup e)
    simp only [List.foldl_cons, happlied, hindex]
    simp [consume]

end Phase1

/-! ### The run -/

/-- The dispatcher and what its parent has written. -/
structure Phase1Run where
  pool : Pool
  phase : Phase1

namespace Phase1Run

/-- The parent's treatment of one result whose shard holds the bytes `shard`: the consumer is
asked when the worker exited cleanly, and `onPoison` is called for every TU the settling
poisons. -/
def settle (setup : Phase1Setup) (r : Phase1Run) (res : BatchResult) (shard : Option Bytes) :
    Phase1Run :=
  let (consumed, phase) :=
    if res.exitCode = 0 then readCheckIndexShard (Phase1.consume setup) shard r.phase
    else (false, r.phase)
  let pool := r.pool.settle res consumed
  let poisons := pool.poisoned.drop r.pool.poisoned.length
  { pool := pool, phase := poisons.foldl (fun s t => s.onPoison setup t.1 t.2) phase }

/-- One step: a thread goes on, or the parent settles the result in front. `Delivers` are the
files that a worker may leave behind for a batch when it exits cleanly. -/
inductive Step (setup : Phase1Setup) (Delivers : List Tu → Option Bytes → Prop) :
    Phase1Run → Phase1Run → Prop
  | thread {r : Phase1Run} {p : Pool} (hstep : Pool.Step (fun _ => True) r.pool p)
      (hresults : r.pool.results <+: p.results) : Step setup Delivers r { r with pool := p }
  | settle {r : Phase1Run} {res : BatchResult} {rest : List BatchResult} (shard : Option Bytes)
      (hstop : r.pool.stop = false) (hout : r.pool.outstanding ≠ 0)
      (hres : r.pool.results = res :: rest)
      (hshard : res.exitCode = 0 → Delivers res.batch shard) :
      Step setup Delivers r
        (Phase1Run.settle setup { r with pool := { r.pool with results := rest } } res shard)

/-- The state in which phase 1 begins. -/
def start (files : List Tu) (workers batchSizeOverride : ℕ) (index : GlobalIndex) : Phase1Run :=
  { pool := .start files workers batchSizeOverride, phase := { index := index } }

/-- A state some interleaving reaches. -/
def Reaches (setup : Phase1Setup) (Delivers : List Tu → Option Bytes → Prop) (files : List Tu)
    (workers batchSizeOverride : ℕ) (index : GlobalIndex) (r : Phase1Run) : Prop :=
  Relation.ReflTransGen (Step setup Delivers) (start files workers batchSizeOverride index) r

/-- The payloads logged are what the index holds, each TU is applied at most once, and none of
the poisoned ones is. -/
structure AtMostOnce (files : List Tu) (index : GlobalIndex) (r : Phase1Run) : Prop where
  merged : r.phase.index = r.phase.applied.foldl (fun g a => a.2.applyTo g) index
  once : ∀ tu ∈ files, (r.phase.applied.map Prod.fst).count tu ≤ 1
  unpoisoned : ∀ tu ∈ files, tu ∈ r.pool.poisoned.map Prod.fst →
    tu ∉ r.phase.applied.map Prod.fst

/-- A shard that is whole wherever its first entry is, and whose entries name each TU of the
list at most once, and only a TU of the batch. -/
structure WellDelivered (files batch : List Tu) (shard : Option Bytes) : Prop where
  undamaged : FirstSound shard → ∃ es, SoundShard shard es
  own : ∀ es, SoundShard shard es → ∀ tu ∈ files,
    (es.map IndexEntry.tu).count tu ≤ if tu ∈ batch then 1 else 0

end Phase1Run

/-! ### Where the units are, interrupts included -/

namespace Pool

variable {p p' : Pool}

/-- How often a unit is in flight or settled. -/
def placed (p : Pool) (tu : Tu) : ℕ := (p.inFlight ++ p.settled).count tu

theorem settle_results (p : Pool) (res : BatchResult) (consumed : Bool) :
    (p.settle res consumed).results = p.results := by
  have hrequeue : ∀ (p : Pool) (tus : List Tu) (why : WorkerFailure),
      (p.requeue tus why).results = p.results := by
    intro p tus why
    unfold requeue
    dsimp only
    split_ifs <;> rfl
  unfold settle handleFailure
  dsimp only
  split_ifs
  · rfl
  all_goals
    first
    | rfl
    | split
      · rw [hrequeue]
        rfl
      · split
        · rfl
        · rw [hrequeue, hrequeue]

/-- A step of a thread, or of the parent without a result, keeps every unit in its place. -/
theorem Step.thread {Exits : ℤ → Prop} (hs : Step Exits p p') (hresults : p.results <+: p'.results) :
    p'.accepted = p.accepted ∧ p'.poisoned = p.poisoned ∧ ∀ tu, p'.placed tu = p.placed tu := by
  cases hs with
  | pull hwork hidle =>
    refine ⟨rfl, rfl, fun tu => ?_⟩
    simp only [placed, inFlight, settled, hwork, List.flatten_cons, List.flatMap_append,
      List.flatMap_singleton, List.count_append]
    omega
  | finish stderr hrun hcode =>
    refine ⟨rfl, rfl, fun tu => ?_⟩
    simp only [placed, inFlight, settled, hrun, List.flatMap_append, List.flatMap_cons,
      List.flatMap_nil, List.count_append, List.count_nil]
    omega
  | settle consumed hstop hout hres =>
    -- the parent takes the result in front
    have := hresults.length_le
    rw [settle_results, hres, List.length_cons] at this
    dsimp only at this
    omega
  | stop hstop hout => exact ⟨rfl, rfl, fun tu => rfl⟩
  | exit hstop hwork hidle => exact ⟨rfl, rfl, fun tu => rfl⟩

/-- Settling a batch: it is accepted, or some of its units are queued or poisoned and none is
accepted. -/
theorem settle_placed {res : BatchResult} {rest : List BatchResult}
    (hplaced : ∀ tu, p.placed tu ≤ 1) (hres : p.results = res :: rest) (consumed : Bool) :
    (∀ tu, (({ p with results := rest } : Pool).settle res consumed).placed tu ≤ p.placed tu) ∧
      (({ p with results := rest } : Pool).settle res consumed).accepted =
        p.accepted ++ if res.exitCode = 0 ∧ consumed = true then [(res.seq, res.batch)] else [] := by
  have hbatch : res.batch.Nodup := by
    rw [List.nodup_iff_count_le_one]
    intro tu
    have := hplaced tu
    simp only [placed, inFlight, settled, hres, List.flatMap_cons, List.count_append] at this
    omega
  by_cases hacc : res.exitCode = 0 ∧ consumed = true
  · refine ⟨fun tu => ?_, by simp [settle, hacc]⟩
    simp only [placed, inFlight, settled, settle, hacc, hres, and_self, if_true,
      List.flatMap_append, List.flatMap_cons, List.flatMap_nil, List.count_append, List.count_nil]
    omega
  · rw [if_neg hacc, List.append_nil]
    by_cases hcode : res.exitCode = kWorkerInterrupted
    · -- an interrupted batch is abandoned
      have hsettle : ({ p with results := rest } : Pool).settle res consumed =
          { p with results := rest, outstanding := p.outstanding - 1 } := by
        have hz : ¬ res.exitCode = 0 := by
          rw [hcode]
          decide
        have hstop : ¬ (if res.exitCode = 0 then -1 else res.exitCode) ≠ kWorkerInterrupted := by
          rw [if_neg hz, not_not]
          exact hcode
        unfold settle
        dsimp only
        rw [if_neg hacc, if_neg hstop]
      rw [hsettle]
      refine ⟨fun tu => ?_, rfl⟩
      simp only [placed, inFlight, settled, hres, List.flatMap_cons, List.count_append]
      omega
    · have hred : Redispatched res.batch
          { p with results := rest, outstanding := p.outstanding - 1 }
          (({ p with results := rest } : Pool).settle res consumed) := by
        unfold settle
        dsimp only
        rw [if_neg hacc]
        split_ifs with hz hfail
        · exact redispatched_handleFailure _ { res with exitCode := -1 } hbatch
        · exact absurd (show (-1 : ℤ) ≠ kWorkerInterrupted by decide) hfail
        · exact redispatched_handleFailure _ res hbatch
      obtain ⟨bs, hw, -, -, -, ds, hp, hperm⟩ := hred.queued
      refine ⟨fun tu => ?_, hred.accepted⟩
      have hcount := List.perm_iff_count.mp hperm tu
      simp only [placed, inFlight, settled, hw, hp, hred.running, hred.results, hred.accepted,
        hres, List.flatten_append, List.flatMap_cons, List.map_append, List.count_append] at hcount ⊢
      omega

end Pool

/-! ### At most once -/

namespace Phase1Run

section

variable {setup : Phase1Setup} {files : List Tu} {index : GlobalIndex} {r r' : Phase1Run}

/-- The invariant of a run: what is applied belongs to accepted batches. -/
structure Inv (files : List Tu) (index : GlobalIndex) (r : Phase1Run) : Prop where
  merged : r.phase.index = r.phase.applied.foldl (fun g a => a.2.applyTo g) index
  placed : ∀ tu, r.pool.placed tu ≤ 1
  applied : ∀ tu ∈ files, (r.phase.applied.map Prod.fst).count tu ≤
    (r.pool.accepted.flatMap Prod.snd).count tu

/-- What the consumer adds to the merged index for a well-delivered shard. -/
theorem consume_wellDelivered {batch : List Tu} {shard : Option Bytes}
    (hshard : WellDelivered files batch shard) (s : Phase1) :
    ∃ es : List IndexEntry, readCheckIndexShard (Phase1.consume setup) shard s =
        ((handedOver shard).1, es.foldl (fun s e => s.consume setup e) s) ∧
      ∀ tu ∈ files, (es.map IndexEntry.tu).count tu ≤
        if (handedOver shard).1 = true ∧ tu ∈ batch then 1 else 0 := by
  refine ⟨(handedOver shard).2, readCheckIndexShard_eq _ shard s, fun tu htu => ?_⟩
  cases hok : (handedOver shard).1 with
  | false =>
    rw [(handedOver_rejects_iff shard).mpr hshard.undamaged hok]
    simp
  | true =>
    have hsound : SoundShard shard (handedOver shard).2 :=
      handedOver_accepted_iff.mp (by rw [← hok])
    simpa using hshard.own _ hsound tu htu

theorem Inv.settle (h : Inv files index r) {res : BatchResult} {rest : List BatchResult}
    {shard : Option Bytes} (hres : r.pool.results = res :: rest)
    (hshard : res.exitCode = 0 → WellDelivered files res.batch shard) :
    Inv files index
      (Phase1Run.settle setup { r with pool := { r.pool with results := rest } } res shard) := by
  -- the entries handed over name units of an accepted batch
  obtain ⟨consumed, es, hconsume, hcount⟩ : ∃ (consumed : Bool) (es : List IndexEntry),
      (if res.exitCode = 0 then readCheckIndexShard (Phase1.consume setup) shard r.phase
        else (false, r.phase)) = (consumed, es.foldl (fun s e => s.consume setup e) r.phase) ∧
      ∀ tu ∈ files, (es.map IndexEntry.tu).count tu ≤
        if (res.exitCode = 0 ∧ consumed = true) ∧ tu ∈ res.batch then 1 else 0 := by
    by_cases hz : res.exitCode = 0
    · obtain ⟨es, heq, hcount⟩ := @consume_wellDelivered setup _ _ _ (hshard hz) r.phase
      exact ⟨_, es, by rw [if_pos hz, heq], by simpa [hz] using hcount⟩
    · exact ⟨false, [], by rw [if_neg hz, List.foldl_nil], by simp⟩
  obtain ⟨hplaced, haccepted⟩ := Pool.settle_placed h.placed hres consumed
  obtain ⟨happlied, hindex⟩ := Phase1.foldl_consume setup es r.phase
  unfold Phase1Run.settle
  dsimp only
  rw [hconsume]
  dsimp only
  refine ⟨?_, fun tu => (hplaced tu).trans (h.placed tu), fun tu htu => ?_⟩
  · rw [(Phase1.foldl_onPoison_applied setup _ _).1, (Phase1.foldl_onPoison_applied setup _ _).2,
      happlied, hindex, h.merged, List.foldl_append, List.foldl_map]
  · rw [(Phase1.foldl_onPoison_applied setup _ _).1, happlied, haccepted]
    have hold := h.applied tu htu
    have hnew := hcount tu htu
    simp only [List.map_append, List.map_map, List.count_append, List.flatMap_append]
    have hmap : es.map (Prod.fst ∘ fun e => (e.tu, e.payload)) = es.map IndexEntry.tu := rfl
    rw [hmap]
    by_cases hacc : res.exitCode = 0 ∧ consumed = true
    · rw [if_pos hacc, List.flatMap_singleton]
      dsimp only
      by_cases hm : tu ∈ res.batch
      · have := List.count_pos_iff.mpr hm
        rw [if_pos ⟨hacc, hm⟩] at hnew
        omega
      · rw [if_neg fun h => hm h.2] at hnew
        omega
    · rw [if_neg fun h => hacc h.1] at hnew
      rw [if_neg hacc]
      simp only [List.flatMap_nil, List.count_nil]
      omega

/-- **One step keeps the invariant.** -/
theorem Inv.step (h : Inv files index r) (hs : Step setup (WellDelivered files) r r') :
    Inv files index r' := by
  cases hs with
  | thread hstep hresults =>
    obtain ⟨haccepted, -, hplaced⟩ := hstep.thread hresults
    exact ⟨h.merged, fun tu => (hplaced tu).trans_le (h.placed tu), fun tu htu => by
      rw [haccepted]
      exact h.applied tu htu⟩
  | settle shard hstop hout hres hshard => exact h.settle hres hshard

theorem inv_start {files : List Tu} (hnd : files.Nodup) (workers batchSizeOverride : ℕ)
    (index : GlobalIndex) : Inv files index (start files workers batchSizeOverride index) := by
  refine ⟨rfl, fun tu => ?_, fun tu _ => by simp [start]⟩
  have hall := (Pool.inv_start files workers batchSizeOverride).accounted
  exact (List.perm_iff_count.mp hall tu).trans_le (List.nodup_iff_count_le_one.mp hnd tu)

theorem Inv.atMostOnce (h : Inv files index r) : AtMostOnce files index r := by
  have hsettled : ∀ tu, (r.pool.accepted.flatMap Prod.snd).count tu +
      (r.pool.poisoned.map Prod.fst).count tu ≤ 1 := by
    intro tu
    have := h.placed tu
    simp only [Pool.placed, Pool.settled, List.count_append] at this
    omega
  refine ⟨h.merged, fun tu htu => ?_, fun tu htu hpoisoned happlied => ?_⟩
  · have := h.applied tu htu
    have := hsettled tu
    omega
  · have := h.applied tu htu
    have := hsettled tu
    have := List.count_pos_iff.mpr hpoisoned
    have := List.count_pos_iff.mpr happlied
    omega

end

/-- **Phase 1 applies each TU at most once**, and none that is poisoned, in every state of every
run whose shards are well delivered; and a file is rejected with nothing handed over exactly
when it is whole wherever its first entry is. -/
theorem phase1_applies_at_most_once (setup : Phase1Setup) {files : List Tu} (hnd : files.Nodup)
    (workers batchSizeOverride : ℕ) (index : GlobalIndex) :
    (∀ r, Reaches setup (WellDelivered files) files workers batchSizeOverride index r →
      AtMostOnce files index r) ∧
    ∀ file, ((handedOver file).1 = false → (handedOver file).2 = []) ↔
      (FirstSound file → ∃ es, SoundShard file es) := by
  refine ⟨fun r hr => ?_, handedOver_rejects_iff⟩
  have hinv : Inv files index r := by
    induction hr with
    | refl => exact inv_start hnd workers batchSizeOverride index
    | tail _ hs ih => exact ih.step hs
  exact hinv.atMostOnce

/-- Two units and two workers. -/
theorem phase1_applies_at_most_once_two :
    (∀ r, Reaches ⟨[[97], [98]], fun _ => none⟩ (WellDelivered [[97], [98]]) [[97], [98]] 2 0 {} r →
      AtMostOnce [[97], [98]] {} r) ∧
    ∀ file, ((handedOver file).1 = false → (handedOver file).2 = []) ↔
      (FirstSound file → ∃ es, SoundShard file es) :=
  phase1_applies_at_most_once ⟨[[97], [98]], fun _ => none⟩ (by decide) 2 0 {}

/-- The shard entry of a TU that contributes nothing. -/
def emptyEntry (tu : Tu) : Bytes × Bytes := (tu, putOutcome {} ++ encodeIndexPayload {})

/-- The shard a worker writes for such TUs. -/
def emptyShard (tus : List Tu) : Bytes := writeShardFile kIndexShardMagic (tus.map emptyEntry)

/-- A shard torn in its second entry: the first is applied, the batch is split, and the retry
applies it again. -/
theorem damaged_entry_applied_twice :
    ¬ ∀ (setup : Phase1Setup) (files : List Tu) (workers batchSizeOverride : ℕ)
      (index : GlobalIndex), files.Nodup →
      ∀ r, Reaches setup (fun _ _ => True) files workers batchSizeOverride index r →
        AtMostOnce files index r := by
  intro hall
  let files : List Tu := [[97], [98]]
  let setup : Phase1Setup := ⟨files, fun _ => none⟩
  let entry : IndexEntry := ⟨[97], {}, {}⟩
  let torn : Option Bytes := some (emptyShard files).dropLast
  let whole : Option Bytes := some (emptyShard [[97]])
  have htorn : ∀ s : Phase1, readCheckIndexShard (Phase1.consume setup) torn s =
      (false, s.consume setup entry) := fun s => by
    have h : handedOver torn = (false, [entry]) := by decide +kernel
    rw [readCheckIndexShard_eq, h]
    rfl
  have hwhole : ∀ s : Phase1, readCheckIndexShard (Phase1.consume setup) whole s =
      (true, s.consume setup entry) := fun s => by
    have h : handedOver whole = (true, [entry]) := by decide +kernel
    rw [readCheckIndexShard_eq, h]
    rfl
  let phase : Phase1 := { index := {} }
  let once : Phase1 := phase.consume setup entry
  -- the batch of both comes back with a shard torn in its second entry and is split in half
  let split : Pool :=
    { work := [[[97]], [[98]]], outstanding := 2, shardSeq := 1, idle := 1, handed := [files],
      retries := Function.update (Function.update (fun _ => 0) [97] 1) [98] 1 }
  let both : BatchResult := ⟨files, 0, 0, none⟩
  let returned : Pool :=
    { results := [both], outstanding := 1, shardSeq := 1, idle := 1, handed := [files] }
  have hsplit : Phase1Run.settle setup
      ⟨{ returned with results := [] }, phase⟩ both torn =
        ⟨split, once⟩ := by
    unfold Phase1Run.settle
    dsimp only
    rw [if_pos rfl, htorn]
    rfl
  -- the retry of the first delivers its payload again
  let half : BatchResult := ⟨[[97]], 1, 0, none⟩
  let done : Pool :=
    { split with
      work := [[[98]]]
      shardSeq := 2
      handed := [files, [[97]]]
      outstanding := 1
      accepted := [(1, [[97]])] }
  let retried : Pool :=
    { split with
      work := [[[98]]]
      shardSeq := 2
      handed := [files, [[97]]]
      results := [half] }
  have hdone : Phase1Run.settle setup
      ⟨{ retried with results := [] }, once⟩ half whole =
        ⟨done, once.consume setup entry⟩ := by
    unfold Phase1Run.settle
    dsimp only
    rw [if_pos rfl, hwhole]
    rfl
  have hfirst : Step setup (fun _ _ => True) ⟨returned, phase⟩ ⟨split, once⟩ := by
    rw [← hsplit]
    exact .settle torn rfl (by decide) rfl fun _ => trivial
  have hsecond : Step setup (fun _ _ => True) ⟨retried, once⟩
      ⟨done, once.consume setup entry⟩ := by
    rw [← hdone]
    exact .settle whole rfl (by decide) rfl fun _ => trivial
  have hreach : Reaches setup (fun _ _ => True) files 1 2 {} ⟨done, once.consume setup entry⟩ :=
    Relation.ReflTransGen.refl
      |>.tail (.thread (@Pool.Step.pull _ _ files [] rfl (by decide)) List.nil_prefix)
      |>.tail (.thread (@Pool.Step.finish _ _ [] [] 0 files 0 none rfl trivial) List.nil_prefix)
      |>.tail hfirst
      |>.tail (.thread (@Pool.Step.pull _ _ [[97]] [[[98]]] rfl (by decide)) List.nil_prefix)
      |>.tail (.thread (@Pool.Step.finish _ _ [] [] 1 [[97]] 0 none rfl trivial) List.nil_prefix)
      |>.tail hsecond
  have honce := (hall setup files 1 2 {} (by decide) _ hreach).once [97] (by decide)
  revert honce
  decide
end Phase1Run

end Vycor
