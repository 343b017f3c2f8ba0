import DistributedCloud.MapReduce.Coordinator
import Mathlib.Tactic

/-!
# What the coordinator's functions can do

One lemma for each function of `MapReduce/Coordinator.lean`, with every outcome it has.
-/

namespace DistributedCloud.MapReduce

@[simp] theorem taskID_some (task : Task) (nReduce : Nat) (taskType : TaskType) :
    TaskAssingnemnt.taskID ⟨some task, nReduce, taskType⟩ = task.taskID := rfl

/-- The task that the loop finds is a copy of one in progress. -/
theorem firstTimeOut_eq_some {now : Nat → Int} {i : Nat} {tasks : List Task} {task : Task}
    (found : firstTimeOut now i tasks = some task) :
    ∃ entry ∈ tasks, entry.status = .doing ∧
      ∃ start, task = { entry with startTime := start, status := .pending } := by
  induction tasks generalizing i with
  | nil => cases found
  | cons first rest ih =>
    rw [firstTimeOut] at found
    split at found
    · rename_i timedOut
      cases found
      exact ⟨first, List.mem_cons_self, timedOut.1, _, rfl⟩
    · obtain ⟨entry, listed, copied⟩ := ih found
      exact ⟨entry, List.mem_cons_of_mem first listed, copied⟩

/-- The loop finds a task as soon as one in progress has timed out. -/
theorem firstTimeOut_isSome {now : Nat → Int} {tasks : List Task} {entry : Task}
    (listed : entry ∈ tasks) (doing : entry.status = .doing)
    (late : ∀ j, now j - entry.startTime > outTime) (i : Nat) :
    (firstTimeOut now i tasks).isSome := by
  induction tasks generalizing i with
  | nil => cases listed
  | cons first rest ih =>
    rw [firstTimeOut]
    split
    · rfl
    · rename_i notYet
      rcases List.mem_cons.mp listed with rfl | listed
      · exact absurd ⟨doing, late i⟩ notYet
      · exact ih listed (i + 1)

namespace Coordinator

variable {c c' : Coordinator}

/-- What a search for a timed-out task leaves in `rePendingTask`, which was empty. -/
theorem handleTimeOutTask_queued {now : Nat → Int} {rePending : List Task}
    (nothing : c.rePendingTask = [])
    (looked : c.handleTimeOutTask now = { c with rePendingTask := rePending }) :
    rePending = [] ∨ ∃ entry ∈ c.tasks, entry.status = .doing ∧
      ∃ start, rePending = [{ entry with startTime := start, status := .pending }] := by
  have queue : (c.handleTimeOutTask now).rePendingTask = rePending := by rw [looked]
  subst queue
  unfold handleTimeOutTask
  split
  · exact Or.inl nothing
  · split
    · exact Or.inl nothing
    · rename_i found
      obtain ⟨entry, listed, doing, start, rfl⟩ := firstTimeOut_eq_some found
      exact Or.inr ⟨entry, listed, doing, start, by simp [nothing]⟩

theorem handleTimeOutTask_cases (c : Coordinator) (now : Nat → Int) :
    ∃ rePending, c.handleTimeOutTask now = { c with rePendingTask := rePending } := by
  unfold handleTimeOutTask
  split
  · exact ⟨c.rePendingTask, rfl⟩
  · split
    · exact ⟨c.rePendingTask, rfl⟩
    · exact ⟨_, rfl⟩

theorem allTaskDone_iff :
    c.allTaskDone = true ↔ c.tasks ≠ [] ∧ ∀ task ∈ c.tasks, task.status = .completed := by
  unfold allTaskDone
  split
  · rename_i empty
    simp [List.length_eq_zero_iff.mp empty]
  · rename_i some
    have nonempty : c.tasks ≠ [] := fun empty => some (by rw [empty]; rfl)
    simp [nonempty]

/-- The outcomes of `Check`. -/
inductive CheckOutcome (c : Coordinator) : Coordinator → Prop
  | same : CheckOutcome c c
  | mapped (phase : c.phase = .mapPhase) (files : c.file = []) (rePending : c.rePendingTask = [])
      (nonempty : c.tasks ≠ []) (done : ∀ task ∈ c.tasks, task.status = .completed) :
      CheckOutcome c { c with phase := .reducePhase, tasks := [] }
  | reduced (phase : c.phase = .reducePhase) (assigned : c.nCurrentAssignedReduceTask = c.nReduce)
      (rePending : c.rePendingTask = []) (nonempty : c.tasks ≠ [])
      (done : ∀ task ∈ c.tasks, task.status = .completed) :
      CheckOutcome c { c with phase := .finishPhase }

theorem check_cases (c : Coordinator) : CheckOutcome c c.check := by
  unfold check
  split
  · rename_i phase
    split
    · rename_i ready
      obtain ⟨nonempty, done⟩ := allTaskDone_iff.mp ready.1
      split
      · rename_i rePending
        exact .mapped phase (List.length_eq_zero_iff.mp ready.2)
          (List.length_eq_zero_iff.mp rePending) nonempty done
      · exact .same
    · exact .same
  · rename_i phase
    split
    · rename_i ready
      obtain ⟨nonempty, done⟩ := allTaskDone_iff.mp ready.1
      split
      · rename_i rePending
        exact .reduced phase ready.2 (List.length_eq_zero_iff.mp rePending) nonempty done
      · exact .same
    · exact .same
  · exact .same

/-- The outcomes of `AssignedTask` after `Check`. -/
inductive AssignedOutcome (c : Coordinator) (now : Nat → Int) :
    Coordinator → TaskAssingnemnt → Prop
  | newMap {name : String} {files : List String} (phase : c.phase = .mapPhase)
      (file : c.file = name :: files) :
      AssignedOutcome c now
        { c with
          tasks := c.tasks ++ [⟨name, c.nCurrentAssignedMapTask, now 0, .doing⟩]
          file := files
          nCurrentAssignedMapTask := c.nCurrentAssignedMapTask + 1 }
        ⟨some ⟨name, c.nCurrentAssignedMapTask, now 0, .doing⟩, c.nReduce, .mapTask⟩
  | newReduce (phase : c.phase = .reducePhase)
      (left : c.nCurrentAssignedReduceTask ≠ c.nReduce) :
      AssignedOutcome c now
        { c with
          tasks := c.tasks ++ [⟨"", c.nCurrentAssignedReduceTask, now 0, .doing⟩]
          nCurrentAssignedReduceTask := c.nCurrentAssignedReduceTask + 1 }
        ⟨some ⟨"", c.nCurrentAssignedReduceTask, now 0, .doing⟩, 0, .reduceTask⟩
  | again {task entry : Task} {rest : List Task} {nReduce : Nat} {taskType : TaskType}
      (phase : (c.phase = .mapPhase ∧ taskType = .mapTask ∧ nReduce = c.nReduce ∧ c.file = []) ∨
        (c.phase = .reducePhase ∧ taskType = .reduceTask ∧ nReduce = 0 ∧
          c.nCurrentAssignedReduceTask = c.nReduce))
      (rePending : c.rePendingTask = task :: rest) (found : c.tasks[task.taskID]? = some entry) :
      AssignedOutcome c now
        { c with
          tasks := c.tasks.set task.taskID { entry with startTime := now 0 }
          rePendingTask := rest }
        ⟨some { task with startTime := now 1, status := .doing }, nReduce, taskType⟩
  | wait {rePending : List Task} (phase : c.phase ≠ .finishPhase) (nothing : c.rePendingTask = [])
      (looked : c.handleTimeOutTask now = { c with rePendingTask := rePending }) :
      AssignedOutcome c now { c with rePendingTask := rePending } ⟨none, 0, .waitTask⟩
  | finished (phase : c.phase = .finishPhase) : AssignedOutcome c now c ⟨none, 0, .finished⟩

theorem assignedRePending_cases {now : Nat → Int} {nReduce : Nat} {taskType : TaskType}
    {reply : TaskAssingnemnt}
    (phase : (c.phase = .mapPhase ∧ taskType = .mapTask ∧ nReduce = c.nReduce ∧ c.file = []) ∨
      (c.phase = .reducePhase ∧ taskType = .reduceTask ∧ nReduce = 0 ∧
        c.nCurrentAssignedReduceTask = c.nReduce))
    (assigned : c.assignedRePending now nReduce taskType = some (c', reply)) :
    AssignedOutcome c now c' reply := by
  unfold assignedRePending at assigned
  split at assigned
  · rename_i rePending
    obtain ⟨entry, found, returned⟩ := Option.bind_eq_some_iff.mp assigned
    cases returned
    exact .again phase rePending found
  · rename_i nothing
    obtain ⟨rePending, looked⟩ := handleTimeOutTask_cases c now
    rw [looked] at assigned
    cases assigned
    refine .wait ?_ nothing looked
    rcases phase with ⟨phase, -⟩ | ⟨phase, -⟩
    · rw [phase]
      simp
    · rw [phase]
      simp

theorem assignedTask_cases {now : Nat → Int} {reply : TaskAssingnemnt}
    (assigned : c.assignedTask now = some (c', reply)) : AssignedOutcome c now c' reply := by
  unfold assignedTask at assigned
  split at assigned
  · rename_i phase
    split at assigned
    · rename_i file
      cases assigned
      exact .newMap phase file
    · rename_i file
      exact assignedRePending_cases (Or.inl ⟨phase, rfl, rfl, file⟩) assigned
  · rename_i phase
    split at assigned
    · rename_i left
      cases assigned
      exact .newReduce phase left
    · rename_i all
      exact assignedRePending_cases (Or.inr ⟨phase, rfl, rfl, not_not.mp all⟩) assigned
  · rename_i phase
    cases assigned
    exact .finished phase

theorem markTaskDone_cases {taskID : Nat} (marked : c.markTaskDone taskID = some c') :
    ∃ entry, c.tasks[taskID]? = some entry ∧
      c' = { c with tasks := c.tasks.set taskID { entry with status := .completed } } := by
  obtain ⟨entry, found, returned⟩ := Option.bind_eq_some_iff.mp marked
  exact ⟨entry, found, (Option.some.inj returned).symm⟩

end Coordinator

end DistributedCloud.MapReduce
