import DistributedCloud.MapReduce.System

/-!
# The coordinator as an open system

The coordinator alone, with every order of calls that its RPC interface admits. The caller of
`AssignedTask` and `MarkTaskDone` is known to the run, not to the coordinator: the arguments of
`AssignedTask` carry nothing and those of `MarkTaskDone` only an id.

A call that would panic is not possible.
-/

namespace DistributedCloud.MapReduce

/-- One critical section of the coordinator. -/
inductive Call where
  | check
  | assign (worker : Nat) (now : Nat → Int)
  | mark (worker : Nat) (taskID : Nat)

/-- One call. -/
def Coordinator.step (c : Coordinator) : Call → Option Coordinator
  | .check => some c.check
  | .assign _ now => (c.assignedTask now).map Prod.fst
  | .mark _ taskID => c.markTaskDone taskID

/-- The coordinator on the given input files. -/
def calls (files : List String) (nReduce : Nat) : Machine Coordinator Call where
  init := makeCoordinator files nReduce
  step := Coordinator.step

/-! ## What happened in a run -/

/-- The phase in which each task of `rePendingTask` was put there, updated for `c'` after `c`. -/
def queuedIn (c : Coordinator) (_ : Call) (c' : Coordinator) (queued : List SchedulePahse) :
    List SchedulePahse :=
  if c.rePendingTask.length < c'.rePendingTask.length then queued ++ [c.phase]
  else queued.drop (c.rePendingTask.length - c'.rePendingTask.length)

/-- The coordinator with the phases in which its waiting tasks were queued. -/
def queueing (files : List String) (nReduce : Nat) :
    Machine (Coordinator × List SchedulePahse) Call :=
  (calls files nReduce).withHistory [] queuedIn

/-- The map or reduce task that a reply of `AssignedTask` hands out. -/
def TaskAssingnemnt.handout (reply : TaskAssingnemnt) (worker : Nat) : List Dealing :=
  match reply.taskType with
  | .mapTask => [⟨worker, .mapTask, reply.taskID⟩]
  | .reduceTask => [⟨worker, .reduceTask, reply.taskID⟩]
  | _ => []

/-- Every task handed out so far, updated for a call on `c`. -/
def handedOut (c : Coordinator) (call : Call) (_ : Coordinator) (handed : List Dealing) :
    List Dealing :=
  match call with
  | .assign worker now =>
    match c.assignedTask now with
    | some (_, reply) => handed ++ reply.handout worker
    | none => handed
  | _ => handed

/-- The coordinator with the tasks it has handed out. -/
def handing (files : List String) (nReduce : Nat) : Machine (Coordinator × List Dealing) Call :=
  (calls files nReduce).withHistory [] handedOut

end DistributedCloud.MapReduce
