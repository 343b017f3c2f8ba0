import DistributedCloud.MapReduce.Worker

/-!
# Any schedule of the tasks

Workers that execute map and reduce tasks of a job in any order, any number of times and side by
side, with no coordinator to tell them.
-/

namespace DistributedCloud.MapReduce

/-- A task by its number. -/
inductive JobTask where
  | map (m : Nat)
  | reduce (r : Nat)
  deriving DecidableEq, Repr

/-- The call that begins a task of the job. -/
def JobTask.execution (files : List String) (nReduce : Nat) : JobTask → Option Execution
  | map m => files[m]?.map fun fileName => .map fileName m nReduce .reading
  | reduce r => if r < nReduce then some (.reduce r .listing) else none

/-- The task that the call is for. -/
def Execution.task : Execution → JobTask
  | map _ taskID _ _ => .map taskID
  | reduce taskID _ => .reduce taskID

/-- A call of a task function is begun, does something or is cut off. -/
inductive ScheduleEvent where
  | start (worker : Nat) (task : JobTask)
  | work (worker : Nat) (action : Action)
  | crash (worker : Nat)
  deriving DecidableEq, Repr

/-- The file-system call of the event, if there is one, succeeds. -/
def ScheduleEvent.Succeeds : ScheduleEvent → Prop
  | work _ action => action.Succeeds
  | _ => True

instance : DecidablePred ScheduleEvent.Succeeds
  | .start _ _ => isTrue trivial
  | .work _ action => inferInstanceAs (Decidable action.Succeeds)
  | .crash _ => isTrue trivial

namespace Pool

/-- One event of workers that are given any tasks at any time. -/
def schedule (setting : Setting) (files : List String) (nReduce : Nat) (pool : Pool) :
    ScheduleEvent → Option Pool
  | .start worker task =>
    match pool.running worker with
    | some _ => none
    | none => do
      let execution ← task.execution files nReduce
      return pool.set worker (some execution)
  | .work worker action => pool.work setting worker action
  | .crash worker => some (pool.set worker none)

/-- Keeps the tasks that have been completed. -/
def record (pool : Pool) (e : ScheduleEvent) (pool' : Pool) (completed : List JobTask) :
    List JobTask :=
  match e with
  | .work worker _ =>
    match pool.running worker, pool'.running worker with
    | some execution, none => execution.task :: completed
    | _, _ => completed
  | _ => completed

end Pool

/-- The schedules of a job in a directory with the given contents. -/
def schedule (setting : Setting) (files : List String) (nReduce : Nat) (directory : Directory) :
    Machine (Pool × List JobTask) ScheduleEvent :=
  Machine.withHistory ⟨⟨directory, fun _ => none⟩, Pool.schedule setting files nReduce⟩ [] Pool.record

end DistributedCloud.MapReduce
