import Mathlib.Data.List.Basic

/-!
# The MapReduce coordinator

The records of `mr/rpc.go` and the functions of `mr/coordinator.go`, each from taking `c.mtx` to
releasing it. `AssignedTask` takes the lock twice, in `Check` and after it, so it appears as
`check` and `assignedTask`. `none` is an index out of range, which ends the coordinator.

`now` stands for the readings of the clock in one critical section; nothing is assumed about
them.
-/

namespace DistributedCloud.MapReduce

/-- `SchedulePahse`. -/
inductive SchedulePahse where
  | mapPhase
  | reducePhase
  | finishPhase
  deriving DecidableEq, Repr

/-- `TaskType`. -/
inductive TaskType where
  | mapTask
  | reduceTask
  | waitTask
  | finished
  deriving DecidableEq, Repr

/-- `TaskStatus`. -/
inductive TaskStatus where
  | completed
  | doing
  | pending
  | error
  deriving DecidableEq, Repr

/-- `Task`; instants are in nanoseconds. -/
structure Task where
  fileName : String
  taskID : Nat
  startTime : Int
  status : TaskStatus
  deriving DecidableEq, Repr

/-- The reply of `AssignedTask`. `tas` is `none` where the code leaves it at its zero value. -/
structure TaskAssingnemnt where
  tas : Option Task
  nReduce : Nat
  taskType : TaskType
  deriving DecidableEq, Repr

/-- The `TaskID` that a worker reads off its reply. -/
def TaskAssingnemnt.taskID (reply : TaskAssingnemnt) : Nat :=
  (reply.tas.map Task.taskID).getD 0

/-- `Coordinator`. -/
structure Coordinator where
  file : List String
  nReduce : Nat
  nCurrentAssignedReduceTask : Nat
  nCurrentAssignedMapTask : Nat
  phase : SchedulePahse
  tasks : List Task
  rePendingTask : List Task
  deriving DecidableEq, Repr

/-- `MakeCoordinator`. -/
def makeCoordinator (files : List String) (nReduce : Nat) : Coordinator where
  file := files
  nReduce := nReduce
  nCurrentAssignedReduceTask := 0
  nCurrentAssignedMapTask := 0
  phase := .mapPhase
  tasks := []
  rePendingTask := []

/-- Ten seconds, in nanoseconds. -/
def outTime : Int := 10 * 1000000000

/-- The loop of `HandleTimeOutTask` from position `i` on: a copy of the first task in progress
    that has timed out. -/
def firstTimeOut (now : Nat → Int) : Nat → List Task → Option Task
  | _, [] => none
  | i, task :: rest =>
    if task.status = .doing ∧ now i - task.startTime > outTime then
      some { task with startTime := now (i + 1), status := .pending }
    else firstTimeOut now (i + 1) rest

namespace Coordinator

variable (c : Coordinator)

/-- Only the copy that goes to `rePendingTask` becomes `Pending`; the entry of `c.tasks` does
    not change. -/
def handleTimeOutTask (now : Nat → Int) : Coordinator :=
  if c.phase = .finishPhase then c
  else
    match firstTimeOut now 0 c.tasks with
    | none => c
    | some task => { c with rePendingTask := c.rePendingTask ++ [task] }

/-- `AllTaskDone`, which is false if there are no tasks. -/
def allTaskDone : Bool :=
  if c.tasks.length = 0 then false
  else c.tasks.all (fun task => task.status = .completed)

/-- `Check` goes to the next phase if the tasks of this one are done. -/
def check : Coordinator :=
  match c.phase with
  | .mapPhase =>
    if c.allTaskDone ∧ c.file.length = 0 then
      if c.rePendingTask.length = 0 then { c with phase := .reducePhase, tasks := [] } else c
    else c
  | .reducePhase =>
    if c.allTaskDone ∧ c.nCurrentAssignedReduceTask = c.nReduce then
      if c.rePendingTask.length = 0 then { c with phase := .finishPhase } else c
    else c
  | .finishPhase => c

/-- `Done`, which `mrcoordinator` calls until it is true; the time it sleeps is left out. -/
def done : Bool := c.phase = .finishPhase

/-- What `AssignedTask` does when every task of the phase has been handed out: it hands out a
    timed-out one again, or looks for one and lets the worker wait. -/
def assignedRePending (now : Nat → Int) (nReduce : Nat) (taskType : TaskType) :
    Option (Coordinator × TaskAssingnemnt) :=
  match c.rePendingTask with
  | task :: rest => do
    let entry ← c.tasks[task.taskID]?
    return ({ c with
        tasks := c.tasks.set task.taskID { entry with startTime := now 0 }
        rePendingTask := rest },
      ⟨some { task with startTime := now 1, status := .doing }, nReduce, taskType⟩)
  | [] => some (c.handleTimeOutTask now, ⟨none, 0, .waitTask⟩)

/-- `AssignedTask` after its call of `Check`. Only a map task's reply carries `NReduce`. -/
def assignedTask (now : Nat → Int) : Option (Coordinator × TaskAssingnemnt) :=
  match c.phase with
  | .mapPhase =>
    match c.file with
    | name :: files =>
      let tas : Task := ⟨name, c.nCurrentAssignedMapTask, now 0, .doing⟩
      some ({ c with
          tasks := c.tasks ++ [tas]
          file := files
          nCurrentAssignedMapTask := c.nCurrentAssignedMapTask + 1 },
        ⟨some tas, c.nReduce, .mapTask⟩)
    | [] => c.assignedRePending now c.nReduce .mapTask
  | .reducePhase =>
    if c.nCurrentAssignedReduceTask ≠ c.nReduce then
      let tas : Task := ⟨"", c.nCurrentAssignedReduceTask, now 0, .doing⟩
      some ({ c with
          tasks := c.tasks ++ [tas]
          nCurrentAssignedReduceTask := c.nCurrentAssignedReduceTask + 1 },
        ⟨some tas, 0, .reduceTask⟩)
    else c.assignedRePending now 0 .reduceTask
  | .finishPhase => some (c, ⟨none, 0, .finished⟩)

/-- The report names the task by its id alone; the phase it belongs to is not part of it. -/
def markTaskDone (taskID : Nat) : Option Coordinator := do
  let entry ← c.tasks[taskID]?
  return { c with tasks := c.tasks.set taskID { entry with status := .completed } }

end Coordinator

end DistributedCloud.MapReduce
