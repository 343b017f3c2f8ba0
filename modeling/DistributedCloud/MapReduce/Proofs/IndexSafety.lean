import DistributedCloud.MapReduce.Proofs.Representation

/-!
# Which calls index out of range

The ids handed out in the map phase are positions of the list of map tasks. The switch to the
reduce phase empties the list, and it is refilled one reduce task at a time: from then on an id
is in range when, and only when, the reduce task of that id has been handed out. A worker that
reports a map task after the switch meets a list that may still be too short.
-/

namespace DistributedCloud.MapReduce

open Coordinator

/-- A report names a task that was handed to the worker that makes it. -/
def Handed (s : Coordinator × List Dealing) : Call → Prop
  | .mark worker taskID => ∃ dealing ∈ s.2, dealing.worker = worker ∧ dealing.taskID = taskID
  | _ => True

/-- A report that is handled after the map phase names a reduce task that some worker has been
    handed. -/
def Timely (s : Coordinator × List Dealing) : Call → Prop
  | .mark _ taskID =>
    s.1.phase ≠ .mapPhase → ∃ dealing ∈ s.2, dealing.taskType = .reduceTask ∧ dealing.taskID = taskID
  | _ => True

instance (s : Coordinator × List Dealing) : DecidablePred (Handed s) := fun call => by
  unfold Handed
  split
  · infer_instance
  · infer_instance

/-- How the tasks handed out relate to the length of the list of tasks. -/
structure Issued (phase : SchedulePahse) (length : Nat) (handed : List Dealing) : Prop where
  mapping : phase = .mapPhase →
    ∀ dealing ∈ handed, dealing.taskType ≠ .reduceTask ∧ dealing.taskID < length
  reducing : phase ≠ .mapPhase → ∀ taskID,
    taskID < length ↔
      ∃ dealing ∈ handed, dealing.taskType = .reduceTask ∧ dealing.taskID = taskID

variable {files : List String} {nReduce : Nat} {c c' : Coordinator} {handed : List Dealing}

/-- Handing out a map task, new or again. -/
theorem Issued.mapTask {length longer : Nat} (issued : Issued .mapPhase length handed)
    (longer_le : length ≤ longer) (worker : Nat) {taskID : Nat} (inside : taskID < longer) :
    Issued .mapPhase longer (handed ++ [⟨worker, .mapTask, taskID⟩]) := by
  refine ⟨fun _ dealing dealt => ?_, fun reducing => absurd rfl reducing⟩
  rcases List.mem_append.mp dealt with before | added
  · obtain ⟨taskType, bound⟩ := issued.mapping rfl dealing before
    exact ⟨taskType, by omega⟩
  · rw [List.mem_singleton.mp added]
    exact ⟨by simp, inside⟩

/-- Handing out a reduce task, new or again. -/
theorem Issued.reduceTask {length longer : Nat} (issued : Issued .reducePhase length handed)
    (worker : Nat) {taskID : Nat} (next : ∀ id, id < longer ↔ id < length ∨ id = taskID) :
    Issued .reducePhase longer (handed ++ [⟨worker, .reduceTask, taskID⟩]) := by
  refine ⟨by simp, fun reducing id => ?_⟩
  rw [next, issued.reducing reducing]
  constructor
  · rintro (⟨dealing, dealt, same⟩ | rfl)
    · exact ⟨dealing, List.mem_append_left _ dealt, same⟩
    · exact ⟨_, List.mem_append_right _ (List.mem_singleton_self _), rfl, rfl⟩
  · rintro ⟨dealing, dealt, taskType, same⟩
    rcases List.mem_append.mp dealt with before | added
    · exact Or.inl ⟨dealing, before, taskType, same⟩
    · rw [List.mem_singleton.mp added] at same
      exact Or.inr same.symm

theorem Issued.check (issued : Issued c.phase c.tasks.length handed)
    (outcome : CheckOutcome c c') : Issued c'.phase c'.tasks.length handed := by
  cases outcome with
  | same => exact issued
  | mapped phase files rePending nonempty done =>
    refine ⟨by simp, fun _ taskID => ?_⟩
    constructor
    · intro inside
      simp at inside
    · rintro ⟨dealing, dealt, reduce, -⟩
      exact absurd reduce (issued.mapping phase dealing dealt).1
  | reduced phase assigned rePending nonempty done =>
    refine ⟨by simp, fun _ => issued.reducing ?_⟩
    rw [phase]
    simp

theorem Issued.assigned (issued : Issued c.phase c.tasks.length handed)
    (rep : c.Represents files nReduce) {now : Nat → Int} {reply : TaskAssingnemnt}
    (outcome : AssignedOutcome c now c' reply) (worker : Nat) :
    Issued c'.phase c'.tasks.length (handed ++ reply.handout worker) := by
  cases outcome with
  | newMap phase file =>
    obtain ⟨length, -, -⟩ := rep.mapping phase
    rw [phase] at issued
    simp only [phase]
    apply issued.mapTask
    · simp
    · simp [length]
  | newReduce phase left =>
    obtain ⟨length, -⟩ := rep.reducing (by rw [phase]; simp)
    rw [phase] at issued
    simp only [phase]
    apply issued.reduceTask
    intro id
    simp only [List.length_append, List.length_singleton, taskID_some]
    omega
  | @again task entry rest _ _ phase rePending found =>
    have inside : task.taskID < c.tasks.length := (List.getElem?_eq_some_iff.mp found).1
    rcases phase with ⟨phase, rfl, -, -⟩ | ⟨phase, rfl, -, -⟩
    · rw [phase] at issued
      simp only [phase, List.length_set]
      exact issued.mapTask (Nat.le_refl _) worker inside
    · rw [phase] at issued
      simp only [phase, List.length_set]
      apply issued.reduceTask
      intro id
      show id < c.tasks.length ↔ id < c.tasks.length ∨ id = task.taskID
      omega
  | wait phase nothing looked => simpa [TaskAssingnemnt.handout] using issued
  | finished phase => simpa [TaskAssingnemnt.handout] using issued

theorem issued_step {call : Call} (next : CallStep c call c') (rep : c.Represents files nReduce)
    (issued : Issued c.phase c.tasks.length handed) :
    Issued c'.phase c'.tasks.length (handedOut c call c' handed) := by
  cases next with
  | check outcome => exact issued.check outcome
  | @assign worker now c' reply assigned outcome =>
    simpa only [handedOut, assigned] using issued.assigned rep outcome worker
  | mark found => simpa [handedOut] using issued

theorem issued_reachable {ok : Coordinator × List Dealing → Call → Prop}
    (reached : (handing files nReduce).ReachableWhen ok (c, handed)) :
    Issued c.phase c.tasks.length handed := by
  apply reached.invariant (I := fun s => Issued s.1.phase s.1.tasks.length s.2)
  · exact ⟨by simp [handing, Machine.withHistory], fun reducing => absurd rfl reducing⟩
  · rintro ⟨c, handed⟩ call ⟨c', handed'⟩ before issued - next
    obtain ⟨stepped, recorded⟩ : c.step call = some c' ∧ handed' = handedOut c call c' handed :=
      Machine.withHistory_step.mp next
    subst recorded
    exact issued_step (callStep_of_step stepped) (represents_reachable before.dropHistory) issued

namespace Coordinator

theorem markTaskDone_isSome {taskID : Nat} :
    (c.markTaskDone taskID).isSome ↔ taskID < c.tasks.length := by
  unfold markTaskDone
  cases found : c.tasks[taskID]? with
  | none => simpa using List.getElem?_eq_none_iff.mp found
  | some entry => simpa using (List.getElem?_eq_some_iff.mp found).1

/-- `AssignedTask` never indexes out of range: what waits is in the list. -/
theorem Represents.assignedTask_isSome (rep : c.Represents files nReduce) (now : Nat → Int) :
    (c.assignedTask now).isSome := by
  have pending : ∀ n taskType, (c.assignedRePending now n taskType).isSome := by
    intro n taskType
    unfold assignedRePending
    split
    · rename_i task rest rePending
      have inside : task.taskID < c.tasks.length := by
        apply rep.inRange
        rw [rePending]
        exact List.mem_cons_self
      rw [List.getElem?_eq_getElem inside]
      rfl
    · rfl
  unfold assignedTask
  split
  · split
    · rfl
    · exact pending _ _
  · split
    · rfl
    · exact pending _ _
  · rfl

end Coordinator

/-- In every run in which workers report only tasks they were handed, no task that waits in
    `rePendingTask` is out of range, and a call panics exactly if it is a report, handled after
    the map phase, whose id has not been handed out as a reduce task. -/
theorem callSucceeds_iff_timely
    (reached : (handing files nReduce).ReachableWhen Handed (c, handed)) :
    (∀ task ∈ c.rePendingTask, task.taskID < c.tasks.length) ∧
      ∀ call, Handed (c, handed) call → ((c.step call).isSome ↔ Timely (c, handed) call) := by
  have rep := represents_reachable reached.dropHistory
  have issued := issued_reachable reached
  refine ⟨fun task waiting => rep.inRange waiting, ?_⟩
  intro call made
  cases call with
  | check => exact iff_of_true rfl trivial
  | assign worker now =>
    refine iff_of_true ?_ trivial
    rw [Coordinator.step, Option.isSome_map]
    exact rep.assignedTask_isSome now
  | mark worker taskID =>
    simp only [Coordinator.step, markTaskDone_isSome, Timely]
    by_cases phase : c.phase = .mapPhase
    · obtain ⟨dealing, dealt, -, rfl⟩ := made
      exact iff_of_true (issued.mapping phase dealing dealt).2 (fun reducing => absurd phase reducing)
    · rw [issued.reducing phase]
      exact ⟨fun handed _ => handed, fun timely => timely phase⟩

/-- Worker 1 takes more than ten seconds for the second map task, which worker 0 is therefore
    given as well. Worker 0 has been handed the first reduce task when worker 1 reports. -/
def beforeLateReport : Coordinator × List Dealing :=
  ((handing ["pg-grimm.txt", "pg-tom_sawyer.txt"] 2).guarded Handed).after
    [.check, .assign 0 (fun _ => 0), .check, .assign 1 (fun _ => 1000000000), .mark 0 0,
      .check, .assign 0 (fun _ => 12000000000),
      .check, .assign 0 (fun _ => 13000000000), .mark 0 1,
      .check, .assign 0 (fun _ => 14000000000)]

theorem reachable_beforeLateReport :
    (handing ["pg-grimm.txt", "pg-tom_sawyer.txt"] 2).ReachableWhen Handed beforeLateReport :=
  Machine.reachableWhen_of_guarded (Machine.reachable_after _)

/-- The report of worker 0 for the reduce task is in range. -/
theorem callSucceeds_iff_timely_reduce :
    Timely beforeLateReport (.mark 0 0) ∧ (beforeLateReport.1.step (.mark 0 0)).isSome := by
  have timely : Timely beforeLateReport (.mark 0 0) :=
    fun _ => ⟨⟨0, .reduceTask, 0⟩, by decide +kernel, rfl, rfl⟩
  have succeeds := (callSucceeds_iff_timely reachable_beforeLateReport).2 (.mark 0 0)
    (by decide +kernel)
  exact ⟨timely, succeeds.mpr timely⟩

/-- The report of worker 1, for a task it was handed, ends the coordinator. -/
theorem lateReport_panics :
    (handing ["pg-grimm.txt", "pg-tom_sawyer.txt"] 2).ReachableWhen Handed beforeLateReport ∧
      Handed beforeLateReport (.mark 1 1) ∧ beforeLateReport.1.tasks.length = 1 ∧
      beforeLateReport.1.markTaskDone 1 = none := by
  refine ⟨reachable_beforeLateReport, by decide +kernel, by decide +kernel, by decide +kernel⟩

end DistributedCloud.MapReduce
