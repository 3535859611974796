import Vycor.Text.Trim
import Mathlib.Data.List.Perm.Basic
import Mathlib.Data.List.Count
import Mathlib.Algebra.BigOperators.Group.List.Basic
import Mathlib.Logic.Relation

/-!
# The isolated dispatcher

`dispatchIsolated` cuts the translation units into batches, hands them to worker processes
through dispatch threads, and settles the results one by one on the calling thread: a shard
that is accepted, or a failed batch that loses its marked unit, is split in half, or is
poisoned. Threads and the parent interleave freely, so the dispatcher is a step relation on
the state they share under the mutex (`Step`). What the workers do is left open: any exit
code the parameter `Exits` admits, any log text, any answer of `consumeShard`.

The handed-out batches, the accepted batches and the poisoned units are logged in the
state. Wall times and the removal of temporary files are left out.
-/

namespace Vycor

/-- A translation unit, by its path. -/
abbrev Tu := Bytes

/-- `WorkerFailure`. -/
inductive WorkerFailure where
  | crashed | timedOut
  deriving DecidableEq, Repr

/-- `kWorkerTimedOut`. -/
def kWorkerTimedOut : ℤ := -124

/-- `kWorkerInterrupted`. -/
def kWorkerInterrupted : ℤ := -130

/-- `kMaxTuRetries`. -/
def kMaxTuRetries : ℕ := 2

/-! ### The marker of the unit in flight -/

/-- The lines of a log, split at each newline. -/
def logLines : Bytes → List Bytes
  | [] => []
  | c :: rest =>
    if c = 10 then [] :: logLines rest
    else
      match logLines rest with
      | [] => [[c]]
      | line :: lines => (c :: line) :: lines

/-- `"WORKER-TU "`. -/
def workerTuTag : Bytes := [87, 79, 82, 75, 69, 82, 45, 84, 85, 32]

/-- `lastWorkerTuMarker` of a log file, `none` when it cannot be read. -/
def lastWorkerTuMarker (stderr : Option Bytes) : Option Tu :=
  match stderr with
  | none => none
  | some text =>
    (((logLines text).filter (workerTuTag.isPrefixOf ·)).map fun line =>
      trimBlanks (line.drop workerTuTag.length)).getLast?

/-! ### The shared state -/

/-- `BatchResult`: the batch, the number its shard and log are named by, the exit code and
the text of the log. -/
structure BatchResult where
  batch : List Tu
  seq : ℕ
  exitCode : ℤ
  stderr : Option Bytes

/-- The state of a dispatch: the queues, the batches inside the runner, the threads waiting
for work, the retry counters, and the logs of what was handed out, accepted and poisoned. -/
structure Pool where
  work : List (List Tu) := []
  running : List (ℕ × List Tu) := []
  results : List BatchResult := []
  outstanding : ℕ := 0
  shardSeq : ℕ := 0
  idle : ℕ := 0
  stop : Bool := false
  retries : Tu → ℕ := fun _ => 0
  handed : List (List Tu) := []
  accepted : List (ℕ × List Tu) := []
  poisoned : List (Tu × WorkerFailure) := []

/-- Batches of `size` units, in order; the first argument is fuel. -/
def cutBatches (size : ℕ) : ℕ → List Tu → List (List Tu)
  | 0, _ => []
  | _ + 1, [] => []
  | fuel + 1, tu :: tus =>
    (tu :: tus).take size :: cutBatches size fuel ((tu :: tus).drop size)

/-- The number of dispatch threads. -/
def effectiveWorkers (files : List Tu) (workers : ℕ) : ℕ :=
  let workers := if workers = 0 then 1 else workers
  if files.length < workers then max 1 files.length else workers

/-- The number of units in a batch. -/
def effectiveBatchSize (files : List Tu) (workers batchSizeOverride : ℕ) : ℕ :=
  if batchSizeOverride ≠ 0 then batchSizeOverride
  else min 32 (max 1 (files.length / (workers * 4)))

namespace Pool

/-- The state in which the threads start; without files nothing is started. -/
def start (files : List Tu) (workers batchSizeOverride : ℕ) : Pool :=
  if files = [] then { stop := true }
  else
    let workers := effectiveWorkers files workers
    let work := cutBatches (effectiveBatchSize files workers batchSizeOverride) files.length files
    { work := work, outstanding := work.length, idle := workers }

/-- The `remove_if` of `requeue`: counts a retry for every unit, and drops those over the
bound. Returns the counters, the units kept and the units poisoned. -/
def sift (why : WorkerFailure) :
    (Tu → ℕ) → List Tu → (Tu → ℕ) × List Tu × List (Tu × WorkerFailure)
  | retries, [] => (retries, [], [])
  | retries, tu :: rest =>
    let s := sift why (Function.update retries tu (retries tu + 1)) rest
    if retries tu + 1 > kMaxTuRetries then (s.1, s.2.1, (tu, why) :: s.2.2)
    else (s.1, tu :: s.2.1, s.2.2)

/-- `onPoison`. -/
def poison (p : Pool) (tu : Tu) (why : WorkerFailure) : Pool :=
  { p with poisoned := p.poisoned ++ [(tu, why)] }

/-- `requeue`: the units that may be tried again form one batch. -/
def requeue (p : Pool) (tus : List Tu) (why : WorkerFailure) : Pool :=
  let s := sift why p.retries tus
  let p := { p with retries := s.1, poisoned := p.poisoned ++ s.2.2 }
  if s.2.1 = [] then p
  else { p with outstanding := p.outstanding + 1, work := p.work ++ [s.2.1] }

/-- `handleFailure`: the marked unit is poisoned and the rest tried again, a single unit is
poisoned, a batch without a marker is split in half. -/
def handleFailure (p : Pool) (res : BatchResult) : Pool :=
  let why : WorkerFailure := if res.exitCode = kWorkerTimedOut then .timedOut else .crashed
  match (lastWorkerTuMarker res.stderr).filter (· ∈ res.batch) with
  | some marker =>
    (p.poison marker why).requeue (res.batch.filter (· ≠ marker)) .crashed
  | none =>
    match res.batch with
    | [tu] => p.poison tu why
    | tus =>
      let mid := tus.length / 2
      (p.requeue (tus.take mid) why).requeue (tus.drop mid) why

/-- The parent's treatment of one result, with the answer of `consumeShard` if it is asked. -/
def settle (p : Pool) (res : BatchResult) (consumed : Bool) : Pool :=
  let p := { p with outstanding := p.outstanding - 1 }
  if res.exitCode = 0 ∧ consumed = true then
    { p with accepted := p.accepted ++ [(res.seq, res.batch)] }
  else
    -- a clean exit without a readable shard counts as a failure
    let exitCode := if res.exitCode = 0 then -1 else res.exitCode
    if exitCode ≠ kWorkerInterrupted then p.handleFailure { res with exitCode := exitCode } else p

/-- One step of a thread or of the parent, with no interrupt requested. `Exits` are the exit
codes the runner may return. -/
inductive Step (Exits : ℤ → Prop) : Pool → Pool → Prop
  | pull {p : Pool} {b : List Tu} {rest : List (List Tu)} (hwork : p.work = b :: rest)
      (hidle : 0 < p.idle) :
      Step Exits p
        { p with
          work := rest
          idle := p.idle - 1
          running := p.running ++ [(p.shardSeq, b)]
          shardSeq := p.shardSeq + 1
          handed := p.handed ++ [b] }
  | finish {p : Pool} {before after : List (ℕ × List Tu)} {seq : ℕ} {b : List Tu} {code : ℤ}
      (stderr : Option Bytes) (hrun : p.running = before ++ (seq, b) :: after)
      (hcode : Exits code) :
      Step Exits p
        { p with
          running := before ++ after
          idle := p.idle + 1
          results := p.results ++ [⟨b, seq, code, stderr⟩] }
  | settle {p : Pool} {res : BatchResult} {rest : List BatchResult} (consumed : Bool)
      (hstop : p.stop = false) (hout : p.outstanding ≠ 0) (hres : p.results = res :: rest) :
      Step Exits p (({ p with results := rest } : Pool).settle res consumed)
  | stop {p : Pool} (hstop : p.stop = false) (hout : p.outstanding = 0) :
      Step Exits p { p with stop := true }
  | exit {p : Pool} (hstop : p.stop = true) (hwork : p.work = []) (hidle : 0 < p.idle) :
      Step Exits p { p with idle := p.idle - 1 }

/-- The parent has left its loop and joined every thread. -/
def Finished (p : Pool) : Prop := p.stop = true ∧ p.idle = 0 ∧ p.running = []

/-- A state some interleaving reaches. -/
def Reaches (Exits : ℤ → Prop) (files : List Tu) (workers batchSizeOverride : ℕ) (p : Pool) :
    Prop :=
  Relation.ReflTransGen (Step Exits) (start files workers batchSizeOverride) p

end Pool

end Vycor
