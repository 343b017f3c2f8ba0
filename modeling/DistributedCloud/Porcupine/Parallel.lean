import DistributedCloud.Misc.Machine
import DistributedCloud.Porcupine.Checker

/-!
# Checking the partitions side by side

`checkParallel` runs one goroutine for each partition. Each sends its result into a channel with
room for all of them; the main goroutine receives results until one is `false`, all have come or the
time is up, and then tells the others to stop. A schedule is a list of events; the timeout may come
at any time.
-/

namespace DistributedCloud.Porcupine

variable {I O σ : Type}

/-- `CheckResult`. -/
inductive CheckResult where
  | unknown
  | ok
  | illegal
  deriving DecidableEq, Repr

/-- The goroutine of one partition. -/
inductive Worker (σ : Type) where
  | running (s : Loop σ)
  /-- `checkSingle` has returned. -/
  | returned (ok : Bool) (l : Longest)
  /-- `longest[i]` is written and the result is sent. -/
  | sent (ok : Bool) (l : Longest)

/-- Where the main goroutine is. -/
inductive Main where
  | looping
  /-- Behind the loop. -/
  | waiting
  | returned (result : CheckResult) (partialLinearizations : List (List (List Nat)))
  deriving DecidableEq

/-- The variables of `checkParallel`, with its goroutines and the channel `results`. -/
structure Parallel (σ : Type) where
  workers : List (Worker σ)
  results : List Bool
  kill : Bool
  count : Nat
  ok : Bool
  timedOut : Bool
  main : Main

/-- What `checkParallel` is called with; `timeout` tells whether there is one. -/
structure Job (I O σ : Type) where
  model : FilledModel I O σ
  history : List (List (Entry I O))
  computeInfo : Bool
  timeout : Bool

/-- What the goroutines do. -/
inductive ParallelEvent where
  /-- One turn of the loop of goroutine `i`. -/
  | turn (i : Nat)
  | send (i : Nat)
  | receive
  | timeout
  /-- The code behind the loops. -/
  | finish
  deriving DecidableEq, Repr

/-- `longest` as a set of unique linearizations; a sequence is noted in one turn only, so that equal
    ones are the same. -/
def uniqueLinearizations (longest : Longest) : List (List Nat) := (longest.filterMap id).dedup

/-- The partial linearizations of a partition, once its goroutine has sent its result. -/
def Worker.partials : Worker σ → List (List Nat)
  | .sent _ l => uniqueLinearizations l
  | _ => []

namespace Job

variable (job : Job I O σ)

/-- The results still to be waited for behind the loop. -/
def mustWait (p : Parallel σ) : Bool := job.computeInfo && decide (p.count < job.history.length)

/-- A turn of the loop in `checkSingle`, which may be the last. -/
def takeTurn (p : Parallel σ) (i : Nat) : Option (Parallel σ) := do
  let subhistory ← job.history[i]?
  match p.workers[i]? with
  | some (.running s) =>
    match ← (setUp job.model subhistory job.computeInfo).1.turn p.kill s with
    | .inl s => return { p with workers := p.workers.set i (.running s) }
    | .inr (ok, l) => return { p with workers := p.workers.set i (.returned ok l) }
  | _ => none

/-- `longest[i] = l` and `results <- ok`. -/
def sendResult (p : Parallel σ) (i : Nat) : Option (Parallel σ) :=
  match p.workers[i]? with
  | some (.returned ok l) =>
    some { p with workers := p.workers.set i (.sent ok l), results := p.results ++ [ok] }
  | _ => none

/-- `case result := <-results`. -/
def receiveInLoop (p : Parallel σ) (result : Bool) (results : List Bool) : Parallel σ :=
  let p := { p with results, count := p.count + 1, ok := p.ok && result }
  if !p.ok && !job.computeInfo then { p with kill := true, main := .waiting }
  else if p.count ≥ job.history.length then { p with main := .waiting }
  else p

/-- The main goroutine takes a result out of the channel, in the loop or behind it. -/
def receive (p : Parallel σ) : Option (Parallel σ) :=
  match p.results with
  | [] => none
  | result :: results =>
    match p.main with
    | .looping => some (job.receiveInLoop p result results)
    | .waiting =>
      if job.mustWait p then some { p with results, count := p.count + 1 } else none
    | .returned _ _ => none

/-- `case <-timeoutChan`. -/
def onTimeout (p : Parallel σ) : Option (Parallel σ) :=
  match p.main with
  | .looping =>
    if job.timeout then some { p with timedOut := true, kill := true, main := .waiting } else none
  | _ => none

/-- The result of the check. -/
def result (p : Parallel σ) : CheckResult :=
  if !p.ok then .illegal else if p.timedOut then .unknown else .ok

/-- The main goroutine returns once it has nothing to wait for. -/
def finish (p : Parallel σ) : Option (Parallel σ) :=
  match p.main with
  | .waiting =>
    if job.mustWait p then none
    else
      let partialLinearizations := if job.computeInfo then p.workers.map Worker.partials else []
      some { p with main := .returned (result p) partialLinearizations }
  | _ => none

/-- One event. -/
def step (p : Parallel σ) : ParallelEvent → Option (Parallel σ)
  | .turn i => job.takeTurn p i
  | .send i => sendResult p i
  | .receive => job.receive p
  | .timeout => job.onTimeout p
  | .finish => job.finish p

/-- The goroutines are started. -/
def checkParallel : Machine (Parallel σ) ParallelEvent where
  init :=
    { workers := job.history.map fun subhistory =>
        .running (setUp job.model subhistory job.computeInfo).2
      results := []
      kill := false
      count := 0
      ok := true
      timedOut := false
      main := .looping }
  step := job.step

end Job

section Check

variable [DecidableEq σ] (sort : List (Entry I O) → List (Entry I O)) (model : Model I O σ)

/-- `checkOperations` up to the call of `checkParallel`. -/
def checkOperations (history : List (Operation I O)) (verbose timeout : Bool) : Job I O σ :=
  let model := fillDefault model
  { model
    history := (model.partition history).map (makeEntries sort)
    computeInfo := verbose
    timeout }

/-- `checkEvents` up to the call of `checkParallel`. -/
def checkEvents (history : List (Event I O)) (verbose timeout : Bool) : Job I O σ :=
  let model := fillDefault model
  { model
    history := (model.partitionEvent history).map fun subhistory =>
      convertEntries (renumber subhistory)
    computeInfo := verbose
    timeout }

end Check

end DistributedCloud.Porcupine
