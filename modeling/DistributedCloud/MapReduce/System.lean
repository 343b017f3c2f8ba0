import DistributedCloud.MapReduce.Coordinator
import DistributedCloud.Misc.Machine
import Mathlib.Logic.Function.Basic

/-!
# A MapReduce job

The coordinator with any number of workers. One event is one critical section of the
coordinator, one execution of `DoMapTask` or `DoReduceTask`, or the crash of a worker. A worker
may stop between any two of its events, for any time; a worker that is restarted is a new one.
-/

namespace DistributedCloud.MapReduce

/-- Where a worker stands in the loop of `Worker`. -/
inductive Worker where
  | idle
  /-- Its `AssignedTask` has been through `Check`. -/
  | checked
  | doing (reply : TaskAssingnemnt)
  /-- The task function has returned; `MarkTaskDone` has not run yet. -/
  | executed (reply : TaskAssingnemnt)
  | exited
  deriving DecidableEq, Repr

/-- The coordinator and its workers. -/
structure Job where
  coordinator : Coordinator
  workers : Nat → Worker

/-- What a worker does, in the order of its loop, or its crash. -/
inductive Event where
  | check (worker : Nat)
  | assign (worker : Nat) (now : Nat → Int)
  | execute (worker : Nat)
  | report (worker : Nat)
  | crash (worker : Nat)

/-- The worker after the reply of `AssignedTask`; a `WaitTask` lets it ask again later. -/
def Worker.receive (reply : TaskAssingnemnt) : Worker :=
  match reply.taskType with
  | .mapTask => .doing reply
  | .reduceTask => .doing reply
  | .waitTask => .idle
  | .finished => .exited

/-- The worker gets on. -/
def Job.setWorker (s : Job) (worker : Nat) (state : Worker) : Job :=
  { s with workers := Function.update s.workers worker state }

/-- One event. -/
def Job.step (s : Job) : Event → Option Job
  | .check worker =>
    match s.workers worker with
    | .idle => some { s.setWorker worker .checked with coordinator := s.coordinator.check }
    | _ => none
  | .assign worker now =>
    match s.workers worker with
    | .checked => do
      let (c, reply) ← s.coordinator.assignedTask now
      return { s.setWorker worker (.receive reply) with coordinator := c }
    | _ => none
  | .execute worker =>
    match s.workers worker with
    | .doing reply => some (s.setWorker worker (.executed reply))
    | _ => none
  | .report worker =>
    match s.workers worker with
    | .executed reply => do
      let c ← s.coordinator.markTaskDone reply.taskID
      return { s.setWorker worker .idle with coordinator := c }
    | _ => none
  | .crash worker => some (s.setWorker worker .exited)

/-- The job on the given input files. -/
def job (files : List String) (nReduce : Nat) : Machine Job Event where
  init := ⟨makeCoordinator files nReduce, fun _ => .idle⟩
  step := Job.step

/-! ## One worker at work -/

/-- One round of the loop of `Worker` with the clock standing at `t`, while nobody else moves: a
    request, and if it is answered with a task, its execution and the report. -/
def Job.goRound (s : Job) (worker : Nat) (t : Int) : Option Job := do
  let s ← s.step (.check worker)
  let s ← s.step (.assign worker (fun _ => t))
  match s.workers worker with
  | .doing _ => (s.step (.execute worker)).bind (fun s => s.step (.report worker))
  | _ => some s

/-- The worker's rounds at the given times. -/
def Job.workAlone (worker : Nat) : Job → List Int → Option Job
  | s, [] => some s
  | s, t :: times => (s.goRound worker t).bind (fun s => s.workAlone worker times)

/-! ## What happened in a run -/

/-- A worker's dealings with one task. -/
structure Dealing where
  worker : Nat
  taskType : TaskType
  taskID : Nat
  deriving DecidableEq, Repr

/-- Who was assigned what, who finished executing it and whose report was handled. -/
structure History where
  assigned : List Dealing
  executed : List Dealing
  reported : List Dealing

/-- Nothing has happened. -/
def History.start : History := ⟨[], [], []⟩

/-- What an event adds to the history. -/
def History.record (s : Job) (e : Event) (s' : Job) (h : History) : History :=
  match e with
  | .assign worker _ =>
    match s'.workers worker with
    | .doing reply =>
      { h with assigned := h.assigned ++ [⟨worker, reply.taskType, reply.taskID⟩] }
    | _ => h
  | .execute worker =>
    match s.workers worker with
    | .doing reply =>
      { h with executed := h.executed ++ [⟨worker, reply.taskType, reply.taskID⟩] }
    | _ => h
  | .report worker =>
    match s.workers worker with
    | .executed reply =>
      { h with reported := h.reported ++ [⟨worker, reply.taskType, reply.taskID⟩] }
    | _ => h
  | _ => h

/-- The job with its history. -/
def recordedJob (files : List String) (nReduce : Nat) : Machine (Job × History) Event :=
  (job files nReduce).withHistory History.start History.record

end DistributedCloud.MapReduce
