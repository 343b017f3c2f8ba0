import DistributedCloud.MapReduce.Calls
import DistributedCloud.MapReduce.Proofs.Coordinator

/-!
# What the coordinator's lists stand for

`c.tasks` lists the tasks of the current phase in the order of their ids, and in the map phase
it and `c.File` together are the input files in order. `rePendingTask` holds a copy of at most
one of these tasks, since a timed-out task is looked for only when nothing is waiting, and the
phase does not change while one waits.
-/

namespace DistributedCloud.MapReduce

open Coordinator

/-- The calls, with the outcome of the coordinator's function in each. -/
inductive CallStep (c : Coordinator) : Call → Coordinator → Prop
  | check {c' : Coordinator} (outcome : CheckOutcome c c') : CallStep c .check c'
  | assign {worker : Nat} {now : Nat → Int} {c' : Coordinator} {reply : TaskAssingnemnt}
      (assigned : c.assignedTask now = some (c', reply))
      (outcome : AssignedOutcome c now c' reply) : CallStep c (.assign worker now) c'
  | mark {worker taskID : Nat} {entry : Task} (found : c.tasks[taskID]? = some entry) :
      CallStep c (.mark worker taskID)
        { c with tasks := c.tasks.set taskID { entry with status := .completed } }

theorem callStep_of_step {c c' : Coordinator} {call : Call} (next : c.step call = some c') :
    CallStep c call c' := by
  cases call with
  | check =>
    cases next
    exact .check (check_cases c)
  | assign worker now =>
    obtain ⟨⟨after, reply⟩, assigned, rfl⟩ := Option.map_eq_some_iff.mp next
    exact .assign assigned (assignedTask_cases assigned)
  | mark worker taskID =>
    obtain ⟨entry, found, rfl⟩ := markTaskDone_cases next
    exact .mark found

namespace Coordinator

/-- How the coordinator's lists represent the job on `files`. -/
structure Represents (c : Coordinator) (files : List String) (nReduce : Nat) : Prop where
  total : c.nReduce = nReduce
  ids : ∀ (i : Nat) (task : Task), c.tasks[i]? = some task → task.taskID = i
  underway : ∀ task ∈ c.tasks, task.status = .doing ∨ task.status = .completed
  mapping : c.phase = .mapPhase →
    c.tasks.length = c.nCurrentAssignedMapTask ∧ c.tasks.map Task.fileName ++ c.file = files ∧
      c.nCurrentAssignedReduceTask = 0
  reducing : c.phase ≠ .mapPhase →
    c.tasks.length = c.nCurrentAssignedReduceTask ∧ c.nCurrentAssignedReduceTask ≤ c.nReduce
  single : c.rePendingTask.length ≤ 1
  copies : ∀ task ∈ c.rePendingTask,
    c.tasks[task.taskID]?.map Task.fileName = some task.fileName

variable {files : List String} {nReduce : Nat} {c c' : Coordinator}

theorem represents_makeCoordinator (files : List String) (nReduce : Nat) :
    (makeCoordinator files nReduce).Represents files nReduce where
  total := rfl
  ids := by simp [makeCoordinator]
  underway := by simp [makeCoordinator]
  mapping := fun _ => ⟨rfl, rfl, rfl⟩
  reducing := fun reducing => absurd rfl reducing
  single := by simp [makeCoordinator]
  copies := by simp [makeCoordinator]

/-- A waiting task names a task of the current list. -/
theorem Represents.inRange (rep : c.Represents files nReduce) {task : Task}
    (waiting : task ∈ c.rePendingTask) : task.taskID < c.tasks.length := by
  obtain ⟨entry, found, -⟩ := Option.map_eq_some_iff.mp (rep.copies task waiting)
  exact (List.getElem?_eq_some_iff.mp found).1

theorem Represents.nothing_behind (rep : c.Represents files nReduce) {task : Task}
    {rest : List Task} (rePending : c.rePendingTask = task :: rest) : rest = [] := by
  have single := rep.single
  rw [rePending, List.length_cons] at single
  exact List.length_eq_zero_iff.mp (by omega)

/-! ### Adding a task -/

/-- The id of a new task is its position. -/
theorem ids_append {tasks : List Task} {new : Task}
    (ids : ∀ (i : Nat) (task : Task), tasks[i]? = some task → task.taskID = i)
    (next : new.taskID = tasks.length) (i : Nat) (task : Task)
    (listed : (tasks ++ [new])[i]? = some task) : task.taskID = i := by
  rw [List.getElem?_append] at listed
  split at listed
  · exact ids i task listed
  · rw [List.getElem?_singleton] at listed
    split at listed
    · cases listed
      omega
    · cases listed

/-- The waiting tasks are still copies when the list gets longer. -/
theorem copies_append {tasks waiting : List Task} {new : Task}
    (copies : ∀ task ∈ waiting, tasks[task.taskID]?.map Task.fileName = some task.fileName) :
    ∀ task ∈ waiting, (tasks ++ [new])[task.taskID]?.map Task.fileName = some task.fileName := by
  intro task inside
  obtain ⟨entry, found, name⟩ := Option.map_eq_some_iff.mp (copies task inside)
  rw [List.getElem?_append_left (List.getElem?_eq_some_iff.mp found).1, found]
  exact congrArg some name

theorem underway_append {tasks : List Task} {new : Task}
    (underway : ∀ task ∈ tasks, task.status = .doing ∨ task.status = .completed)
    (doing : new.status = .doing) :
    ∀ task ∈ tasks ++ [new], task.status = .doing ∨ task.status = .completed := by
  intro task listed
  rcases List.mem_append.mp listed with before | added
  · exact underway task before
  · rw [List.mem_singleton.mp added]
    exact Or.inl doing

/-! ### Changing a task -/

theorem fileName_set {tasks : List Task} {i : Nat} {entry entry' : Task}
    (found : tasks[i]? = some entry) (sameName : entry'.fileName = entry.fileName) (j : Nat) :
    (tasks.set i entry')[j]?.map Task.fileName = tasks[j]?.map Task.fileName := by
  rw [List.getElem?_set]
  split
  · rename_i same
    subst same
    rw [if_pos (List.getElem?_eq_some_iff.mp found).1, found]
    exact congrArg some sameName
  · rfl

/-- Changing the time or the status of an entry keeps what the list represents. -/
theorem Represents.set (rep : c.Represents files nReduce) {i : Nat} {entry entry' : Task}
    (found : c.tasks[i]? = some entry) (sameID : entry'.taskID = entry.taskID)
    (sameName : entry'.fileName = entry.fileName)
    (underway : entry'.status = .doing ∨ entry'.status = .completed) :
    ({ c with tasks := c.tasks.set i entry' } : Coordinator).Represents files nReduce := by
  have names : (c.tasks.set i entry').map Task.fileName = c.tasks.map Task.fileName := by
    apply List.ext_getElem?
    intro j
    simp only [List.getElem?_map]
    exact fileName_set found sameName j
  refine ⟨rep.total, ?_, ?_, ?_, ?_, rep.single, ?_⟩
  · intro j task listed
    rw [List.getElem?_set] at listed
    split at listed
    · rename_i same
      subst same
      split at listed
      · cases listed
        exact sameID.trans (rep.ids i entry found)
      · cases listed
    · exact rep.ids j task listed
  · intro task listed
    rcases List.mem_or_eq_of_mem_set listed with before | rfl
    · exact rep.underway task before
    · exact underway
  · intro phase
    obtain ⟨length, inputs, none⟩ := rep.mapping phase
    refine ⟨?_, ?_, none⟩
    · simpa using length
    · simpa [names] using inputs
  · intro phase
    simpa using rep.reducing phase
  · intro task waiting
    exact (fileName_set found sameName task.taskID).trans (rep.copies task waiting)

/-- Another list of waiting tasks. -/
theorem Represents.queue (rep : c.Represents files nReduce) {rePending : List Task}
    (single : rePending.length ≤ 1)
    (copies : ∀ task ∈ rePending,
      c.tasks[task.taskID]?.map Task.fileName = some task.fileName) :
    ({ c with rePendingTask := rePending } : Coordinator).Represents files nReduce :=
  ⟨rep.total, rep.ids, rep.underway, rep.mapping, rep.reducing, single, copies⟩

/-! ### The critical sections -/

theorem Represents.check (rep : c.Represents files nReduce) (outcome : CheckOutcome c c') :
    c'.Represents files nReduce := by
  cases outcome with
  | same => exact rep
  | mapped phase files rePending nonempty done =>
    obtain ⟨-, -, none⟩ := rep.mapping phase
    refine ⟨rep.total, by simp, by simp, by simp, fun _ => ?_, rep.single, by simp [rePending]⟩
    exact ⟨none.symm, by simp [none]⟩
  | reduced phase assigned rePending nonempty done =>
    refine ⟨rep.total, rep.ids, rep.underway, by simp, fun _ => ?_, rep.single, rep.copies⟩
    apply rep.reducing
    rw [phase]
    simp

theorem Represents.assigned (rep : c.Represents files nReduce) {now : Nat → Int}
    {reply : TaskAssingnemnt} (outcome : AssignedOutcome c now c' reply) :
    c'.Represents files nReduce := by
  cases outcome with
  | @newMap name left phase file =>
    obtain ⟨length, inputs, none⟩ := rep.mapping phase
    refine ⟨rep.total, ids_append rep.ids length.symm, underway_append rep.underway rfl,
      fun _ => ⟨?_, ?_, none⟩, fun reducing => absurd phase reducing, rep.single,
      copies_append rep.copies⟩
    · simp [length]
    · rw [← inputs, file]
      simp
  | newReduce phase left =>
    have reducing : c.phase ≠ .mapPhase := by
      rw [phase]
      simp
    obtain ⟨length, bound⟩ := rep.reducing reducing
    refine ⟨rep.total, ids_append rep.ids length.symm, underway_append rep.underway rfl,
      fun mapping => absurd mapping reducing, fun _ => ⟨?_, ?_⟩, rep.single,
      copies_append rep.copies⟩
    · simp [length]
    · show c.nCurrentAssignedReduceTask + 1 ≤ c.nReduce
      omega
  | @again task entry rest _ _ phase rePending found =>
    obtain rfl := rep.nothing_behind rePending
    have dropped : ({ c with rePendingTask := [] } : Coordinator).Represents files nReduce :=
      rep.queue (by simp) (by simp)
    exact dropped.set found rfl rfl (rep.underway entry (List.mem_of_getElem? found))
  | wait phase nothing looked =>
    rcases handleTimeOutTask_queued nothing looked with rfl | ⟨entry, listed, -, start, rfl⟩
    · exact rep.queue (by simp) (by simp)
    · apply rep.queue (by simp)
      intro task waiting
      obtain ⟨i, found⟩ := List.mem_iff_getElem?.mp listed
      rw [List.mem_singleton.mp waiting]
      simp [rep.ids i entry found, found]
  | finished phase => exact rep

/-- Every call keeps the representation. -/
theorem represents_step {call : Call} (next : CallStep c call c')
    (rep : c.Represents files nReduce) : c'.Represents files nReduce := by
  cases next with
  | check outcome => exact rep.check outcome
  | assign assigned outcome => exact rep.assigned outcome
  | mark found => exact rep.set found rfl rfl (Or.inr rfl)

theorem represents_reachable (reached : (calls files nReduce).Reachable c) :
    c.Represents files nReduce := by
  apply reached.invariant (I := fun c => c.Represents files nReduce)
  · exact represents_makeCoordinator files nReduce
  · intro c call c' _ rep _ next
    exact represents_step (callStep_of_step next) rep

/-! ## The phase of the waiting tasks -/

/-- Every waiting task was queued in the current phase. -/
structure QueuedNow (c : Coordinator) (queued : List SchedulePahse) : Prop where
  aligned : queued.length = c.rePendingTask.length
  current : ∀ phase ∈ queued, phase = c.phase

/-- The phase changes only when nothing waits. -/
theorem phase_step {call : Call} (next : CallStep c call c') :
    c'.phase = c.phase ∨ c.rePendingTask = [] ∧ c'.rePendingTask = [] := by
  cases next with
  | check outcome =>
    cases outcome with
    | same => exact Or.inl rfl
    | mapped phase files rePending nonempty done => exact Or.inr ⟨rePending, rePending⟩
    | reduced phase assigned rePending nonempty done => exact Or.inr ⟨rePending, rePending⟩
  | assign assigned outcome =>
    left
    cases outcome <;> rfl
  | mark found => exact Or.inl rfl

theorem QueuedNow.step {queued : List SchedulePahse} {call : Call}
    (now : QueuedNow c queued) (rep : c'.Represents files nReduce)
    (next : CallStep c call c') : QueuedNow c' (queuedIn c call c' queued) := by
  have aligned := now.aligned
  have single := rep.single
  rcases phase_step next with phase | ⟨before, after⟩
  · unfold queuedIn
    split
    · -- one task has been queued, and nothing waited before it
      have before : queued = [] := List.length_eq_zero_iff.mp (by omega)
      subst before
      refine ⟨by simp; omega, ?_⟩
      simp [phase]
    · refine ⟨by simp; omega, fun entered inside => ?_⟩
      rw [phase]
      exact now.current entered (List.mem_of_mem_drop inside)
  · have nothing : queued = [] := List.length_eq_zero_iff.mp (by simp [aligned, before])
    simp only [queuedIn, before, after, nothing]
    exact ⟨by simp [after], by simp⟩

theorem queuedNow_reachable {queued : List SchedulePahse}
    (reached : (queueing files nReduce).Reachable (c, queued)) : QueuedNow c queued := by
  apply reached.invariant (I := fun s => QueuedNow s.1 s.2)
  · exact ⟨rfl, by simp [queueing, Machine.withHistory]⟩
  · rintro ⟨c, queued⟩ call ⟨c', queued'⟩ before now - next
    obtain ⟨stepped, recorded⟩ : c.step call = some c' ∧ queued' = queuedIn c call c' queued :=
      Machine.withHistory_step.mp next
    subst recorded
    have next := callStep_of_step stepped
    exact now.step (represents_step next (represents_reachable before.dropHistory)) next

end Coordinator

/-- In every state that calls in any order lead to, the ids are the positions, the tasks and
    the files left over are the input files, and at most one task waits to be handed out again,
    a copy of a task of the current phase that was queued in it. -/
theorem coordinatorRepresentation {files : List String} {nReduce : Nat} {c : Coordinator}
    {queued : List SchedulePahse} (reached : (queueing files nReduce).Reachable (c, queued)) :
    (∀ (i : Nat) (task : Task), c.tasks[i]? = some task → task.taskID = i) ∧
      (c.phase = .mapPhase → c.tasks.length = c.nCurrentAssignedMapTask ∧
        c.tasks.map Task.fileName ++ c.file = files) ∧
      (c.phase = .reducePhase ∨ c.phase = .finishPhase →
        c.tasks.length = c.nCurrentAssignedReduceTask ∧
          c.nCurrentAssignedReduceTask ≤ nReduce) ∧
      c.rePendingTask.length ≤ 1 ∧
      (∀ task ∈ c.rePendingTask, task.taskID < c.tasks.length ∧
        c.tasks[task.taskID]?.map Task.fileName = some task.fileName) ∧
      queued.length = c.rePendingTask.length ∧ ∀ phase ∈ queued, phase = c.phase := by
  have rep := represents_reachable reached.dropHistory
  have now := queuedNow_reachable reached
  refine ⟨rep.ids, fun phase => ?_, fun phase => ?_, rep.single, fun task waiting => ?_,
    now.aligned, now.current⟩
  · obtain ⟨length, inputs, -⟩ := rep.mapping phase
    exact ⟨length, inputs⟩
  · have reducing : c.phase ≠ .mapPhase := by
      rcases phase with phase | phase <;> rw [phase] <;> simp
    obtain ⟨length, bound⟩ := rep.reducing reducing
    exact ⟨length, rep.total ▸ bound⟩
  · exact ⟨rep.inRange waiting, rep.copies task waiting⟩

/-- The second of two map tasks has timed out and waits to be handed out again. -/
def timedOut : Coordinator × List SchedulePahse :=
  (queueing ["pg-grimm.txt", "pg-tom_sawyer.txt"] 2).after
    [.check, .assign 0 (fun _ => 0), .check, .assign 1 (fun _ => 1000000000), .mark 0 0,
      .check, .assign 0 (fun _ => 12000000000)]

theorem coordinatorRepresentation_timedOut :
    timedOut.1.rePendingTask.map Task.taskID = [1] ∧
      ∀ task ∈ timedOut.1.rePendingTask, task.taskID < timedOut.1.tasks.length := by
  have reached : (queueing ["pg-grimm.txt", "pg-tom_sawyer.txt"] 2).Reachable timedOut :=
    Machine.reachable_after _
  refine ⟨by decide +kernel, fun task waiting => ?_⟩
  exact ((coordinatorRepresentation reached).2.2.2.2.1 task waiting).1

end DistributedCloud.MapReduce
