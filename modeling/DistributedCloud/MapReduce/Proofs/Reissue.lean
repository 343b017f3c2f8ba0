import DistributedCloud.MapReduce.Proofs.Representation

/-!
# Handing out tasks that are completed already

A timed-out task is copied into `rePendingTask` and its entry stays `Doing`, so that a report
of the worker it was taken from still marks the entry. The copy is not taken back, and the next
request is handed a completed task. This is the only way it happens: as long as no report comes
in for a task while its copy waits, whatever is handed out is still to be done.
-/

namespace DistributedCloud.MapReduce

open Coordinator

/-- A report does not name a task whose copy waits to be handed out again. -/
def NotWaiting (c : Coordinator) : Call → Prop
  | .mark _ taskID => ∀ task ∈ c.rePendingTask, task.taskID ≠ taskID
  | _ => True

instance (c : Coordinator) : DecidablePred (NotWaiting c)
  | .check => isTrue trivial
  | .assign _ _ => isTrue trivial
  | .mark _ taskID =>
    inferInstanceAs (Decidable (∀ task ∈ c.rePendingTask, task.taskID ≠ taskID))

namespace Coordinator

/-- The tasks that wait to be handed out again are still to be done. -/
def WaitsOpen (c : Coordinator) : Prop :=
  ∀ task ∈ c.rePendingTask, ∃ entry, c.tasks[task.taskID]? = some entry ∧ entry.status = .doing

variable {files : List String} {nReduce : Nat} {c c' : Coordinator}

theorem waitsOpen_of_empty (nothing : c.rePendingTask = []) : c.WaitsOpen := by
  intro task waiting
  simp [nothing] at waiting

theorem WaitsOpen.append (waits : c.WaitsOpen) {new : Task} :
    ∀ task ∈ c.rePendingTask,
      ∃ entry, (c.tasks ++ [new])[task.taskID]? = some entry ∧ entry.status = .doing := by
  intro task waiting
  obtain ⟨entry, found, doing⟩ := waits task waiting
  refine ⟨entry, ?_, doing⟩
  rw [List.getElem?_append_left (List.getElem?_eq_some_iff.mp found).1]
  exact found

theorem WaitsOpen.assigned (waits : c.WaitsOpen) (rep : c.Represents files nReduce)
    {now : Nat → Int} {reply : TaskAssingnemnt} (outcome : AssignedOutcome c now c' reply) :
    c'.WaitsOpen := by
  cases outcome with
  | newMap phase file => exact waits.append
  | newReduce phase left => exact waits.append
  | again phase rePending found =>
    exact waitsOpen_of_empty (rep.nothing_behind rePending)
  | wait phase nothing looked =>
    rcases handleTimeOutTask_queued nothing looked with rfl | ⟨entry, listed, doing, start, rfl⟩
    · exact waitsOpen_of_empty rfl
    · intro task waiting
      obtain ⟨i, found⟩ := List.mem_iff_getElem?.mp listed
      rw [List.mem_singleton.mp waiting]
      refine ⟨entry, ?_, doing⟩
      simpa [rep.ids i entry found] using found
  | finished phase => exact waits

theorem waitsOpen_step {call : Call} (next : CallStep c call c') (guard : NotWaiting c call)
    (rep : c.Represents files nReduce) (waits : c.WaitsOpen) : c'.WaitsOpen := by
  cases next with
  | check outcome =>
    cases outcome with
    | same => exact waits
    | mapped phase files rePending nonempty done => exact waitsOpen_of_empty rePending
    | reduced phase assigned rePending nonempty done => exact waits
  | assign assigned outcome => exact waits.assigned rep outcome
  | @mark worker taskID entry found =>
    intro task waiting
    obtain ⟨copied, listed, doing⟩ := waits task waiting
    refine ⟨copied, ?_, doing⟩
    rw [List.getElem?_set_ne (guard task waiting).symm]
    exact listed

theorem waitsOpen_reachable (reached : (calls files nReduce).ReachableWhen NotWaiting c) :
    c.WaitsOpen := by
  apply reached.invariant (I := WaitsOpen)
  · exact waitsOpen_of_empty rfl
  · intro c call c' before waits guard next
    exact waitsOpen_step (callStep_of_step next) guard (represents_reachable before.reachable) waits

end Coordinator

/-- In a run in which no report comes in for a task that waits to be handed out again,
    `AssignedTask` never hands out a task that is `Completed`: the task is in the list
    afterwards and is to be done, and if it was in the list before it was not `Completed`. -/
theorem handsOutOpenTask {files : List String} {nReduce : Nat} {c c' : Coordinator}
    {now : Nat → Int} {reply : TaskAssingnemnt}
    (reached : (calls files nReduce).ReachableWhen NotWaiting c)
    (assigned : c.assignedTask now = some (c', reply))
    (work : reply.taskType = .mapTask ∨ reply.taskType = .reduceTask) :
    (∃ entry, c'.tasks[reply.taskID]? = some entry ∧ entry.status = .doing) ∧
      ∀ entry, c.tasks[reply.taskID]? = some entry → entry.status ≠ .completed := by
  have rep := represents_reachable reached.reachable
  have waits := waitsOpen_reachable reached
  cases assignedTask_cases assigned with
  | newMap phase file =>
    -- the id of a new task is the first one that is not in the list
    obtain ⟨length, -⟩ := rep.mapping phase
    simp [← length]
  | newReduce phase left =>
    obtain ⟨length, -⟩ := rep.reducing (by rw [phase]; simp)
    simp [← length]
  | @again task entry rest _ _ phase rePending found =>
    have doing : entry.status = .doing := by
      obtain ⟨copied, listed, doing⟩ := waits task (by rw [rePending]; exact List.mem_cons_self)
      rw [listed] at found
      exact Option.some.inj found ▸ doing
    have inside := (List.getElem?_eq_some_iff.mp found).1
    refine ⟨⟨{ entry with startTime := now 0 }, by simp [inside], doing⟩, fun other listed => ?_⟩
    rw [taskID_some, found] at listed
    rw [← Option.some.inj listed, doing]
    simp
  | wait phase nothing looked => simp at work
  | finished phase => simp at work

/-- Worker 0 reports its map task after the copy of it has been handed to worker 1. -/
def reissued : Coordinator :=
  ((calls ["pg-tom_sawyer.txt"] 1).guarded NotWaiting).after
    [.check, .assign 0 (fun _ => 0), .check, .assign 1 (fun _ => 11000000000), .check]

theorem handsOutOpenTask_reissued :
    ∃ c' reply, reissued.assignedTask (fun _ => 12000000000) = some (c', reply) ∧
      reply.taskType = .mapTask ∧
      ∃ entry, c'.tasks[reply.taskID]? = some entry ∧ entry.status = .doing := by
  have reached : (calls ["pg-tom_sawyer.txt"] 1).ReachableWhen NotWaiting reissued :=
    Machine.reachableWhen_of_guarded (Machine.reachable_after _)
  have assigned : (reissued.assignedTask (fun _ => 12000000000)).map
      (fun result => result.2.taskType) = some .mapTask := by decide +kernel
  obtain ⟨⟨c', reply⟩, handed, taskType⟩ := Option.map_eq_some_iff.mp assigned
  exact ⟨c', reply, handed, taskType, (handsOutOpenTask reached handed (Or.inl taskType)).1⟩

/-- Worker 0 reports its map task while the copy of it waits. -/
def reportedWhileWaiting : Coordinator :=
  (calls ["pg-tom_sawyer.txt"] 1).after
    [.check, .assign 0 (fun _ => 0), .check, .assign 1 (fun _ => 11000000000), .mark 0 0, .check]

/-- The next request is handed map task 0, which is `Completed`. -/
theorem reportedWhileWaiting_reissues :
    (calls ["pg-tom_sawyer.txt"] 1).Reachable reportedWhileWaiting ∧
      (reportedWhileWaiting.assignedTask (fun _ => 12000000000)).map
        (fun result => (result.2.taskType, result.2.taskID)) = some (.mapTask, 0) ∧
      reportedWhileWaiting.tasks[0]?.map Task.status = some .completed :=
  ⟨Machine.reachable_after _, by decide +kernel, by decide +kernel⟩

end DistributedCloud.MapReduce
