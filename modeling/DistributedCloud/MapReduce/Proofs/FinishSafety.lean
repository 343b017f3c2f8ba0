import DistributedCloud.MapReduce.Proofs.System

/-!
# What the end of a job says about its reduce tasks

In the reduce phase the list of tasks has one entry for each reduce task handed out, and the
job ends when all of them are `Completed`. An entry becomes `Completed` by a report, which names
only an id. A report of a map task that arrives late, after the phase has changed, counts for
the reduce task with the same id; as long as none does, the end of the job means that every
reduce task was executed and reported.
-/

namespace DistributedCloud.MapReduce

open Coordinator

/-! ## The tasks of the reduce phase -/

namespace Coordinator

/-- How the list of tasks counts the reduce tasks. -/
structure Counted (c : Coordinator) : Prop where
  mapping : c.phase = .mapPhase → c.nCurrentAssignedReduceTask = 0
  reducing : c.phase ≠ .mapPhase → c.tasks.length = c.nCurrentAssignedReduceTask
  finished : c.phase = .finishPhase →
    c.nCurrentAssignedReduceTask = c.nReduce ∧ ∀ task ∈ c.tasks, task.status = .completed

variable {c c' : Coordinator}

theorem counted_makeCoordinator (files : List String) (nReduce : Nat) :
    (makeCoordinator files nReduce).Counted :=
  ⟨fun _ => rfl, fun reducing => absurd rfl reducing, by simp [makeCoordinator]⟩

theorem Counted.check (counted : c.Counted) (outcome : CheckOutcome c c') : c'.Counted := by
  cases outcome with
  | same => exact counted
  | mapped phase files rePending nonempty done =>
    exact ⟨by simp, fun _ => (counted.mapping phase).symm, by simp⟩
  | reduced phase assigned rePending nonempty done =>
    have reducing : c.phase ≠ .mapPhase := by
      rw [phase]
      simp
    exact ⟨by simp, fun _ => counted.reducing reducing, fun _ => ⟨assigned, done⟩⟩

theorem Counted.assigned {now : Nat → Int} {reply : TaskAssingnemnt} (counted : c.Counted)
    (outcome : AssignedOutcome c now c' reply) : c'.Counted := by
  cases outcome with
  | newMap phase file =>
    refine ⟨counted.mapping, fun reducing => absurd phase reducing, fun finished => ?_⟩
    simp [phase] at finished
  | newReduce phase left =>
    refine ⟨fun mapping => ?_, fun reducing => ?_, fun finished => ?_⟩
    · simp [phase] at mapping
    · simp [counted.reducing reducing]
    · simp [phase] at finished
  | again phase rePending found =>
    refine ⟨counted.mapping, fun reducing => ?_, fun finished => ?_⟩
    · simpa using counted.reducing reducing
    · simp only at finished
      rcases phase with ⟨phase, -⟩ | ⟨phase, -⟩
      · simp [phase] at finished
      · simp [phase] at finished
  | wait phase nothing looked => exact ⟨counted.mapping, counted.reducing, counted.finished⟩
  | finished phase => exact counted

theorem Counted.marked {taskID : Nat} {entry : Task} (counted : c.Counted) :
    ({ c with tasks := c.tasks.set taskID { entry with status := .completed } } :
      Coordinator).Counted := by
  refine ⟨counted.mapping, fun reducing => ?_, fun finished => ?_⟩
  · simpa using counted.reducing reducing
  · obtain ⟨assigned, done⟩ := counted.finished finished
    refine ⟨assigned, fun task listed => ?_⟩
    rcases List.mem_or_eq_of_mem_set listed with before | rfl
    · exact done task before
    · rfl

end Coordinator

theorem counted_step {s s' : Job} {e : Event} (next : JobStep s e s')
    (counted : s.coordinator.Counted) : s'.coordinator.Counted := by
  cases next with
  | check idle outcome => exact counted.check outcome
  | assign checked outcome => exact counted.assigned outcome
  | execute doing => exact counted
  | report executed found => exact counted.marked
  | crash => exact counted

theorem nReduce_step {s s' : Job} {e : Event} (next : JobStep s e s') :
    s'.coordinator.nReduce = s.coordinator.nReduce := by
  cases next with
  | check idle outcome => cases outcome <;> rfl
  | assign checked outcome => cases outcome <;> rfl
  | execute doing => rfl
  | report executed found => rfl
  | crash => rfl

/-! ## Who executed them -/

/-- Some worker was assigned reduce task `r`, executed it and reported it. -/
def History.Reduced (h : History) (r : Nat) : Prop :=
  ∃ worker, ⟨worker, .reduceTask, r⟩ ∈ h.assigned ∧ ⟨worker, .reduceTask, r⟩ ∈ h.executed ∧
    ⟨worker, .reduceTask, r⟩ ∈ h.reported

theorem History.Reduced.mono {h h' : History} (more : h.Extends h') {r : Nat}
    (reduced : h.Reduced r) : h'.Reduced r := by
  obtain ⟨worker, assigned, executed, reported⟩ := reduced
  exact ⟨worker, more.assigned assigned, more.executed executed, more.reported reported⟩

/-- No map task is reported in the reduce phase under an id whose reduce task is still open. -/
def NoLateMapReport (s : Job) : Event → Prop
  | .report worker =>
    match s.workers worker with
    | .executed reply =>
      reply.taskType = .mapTask → s.coordinator.phase = .reducePhase →
        ∀ entry ∈ s.coordinator.tasks[reply.taskID]?, entry.status = .completed
    | _ => True
  | _ => True

instance (s : Job) : DecidablePred (NoLateMapReport s) := fun e => by
  unfold NoLateMapReport
  split
  · split
    · infer_instance
    · infer_instance
  · infer_instance

/-- From the reduce phase on, an entry that is `Completed` stands for a reduce task that was
    executed and reported. -/
def Accounted (c : Coordinator) (h : History) : Prop :=
  c.phase ≠ .mapPhase → ∀ r task, c.tasks[r]? = some task → task.status = .completed → h.Reduced r

theorem Accounted.mono {c : Coordinator} {h h' : History} (accounted : Accounted c h)
    (more : h.Extends h') : Accounted c h' :=
  fun phase r task listed done => (accounted phase r task listed done).mono more

theorem Accounted.check {c c' : Coordinator} {h : History} (accounted : Accounted c h)
    (outcome : CheckOutcome c c') : Accounted c' h := by
  cases outcome with
  | same => exact accounted
  | mapped phase files rePending nonempty done =>
    intro _ r task listed
    simp at listed
  | reduced phase assigned rePending nonempty done =>
    intro _
    apply accounted
    rw [phase]
    simp

theorem Accounted.assigned {c c' : Coordinator} {h : History} {now : Nat → Int}
    {reply : TaskAssingnemnt} (accounted : Accounted c h)
    (outcome : AssignedOutcome c now c' reply) : Accounted c' h := by
  cases outcome with
  | newMap phase file => exact fun reducing => absurd phase reducing
  | newReduce phase left =>
    intro reducing r task listed done
    simp only [List.getElem?_append] at listed
    split at listed
    · exact accounted reducing r task listed done
    · -- the entry added last is still `Doing`
      rw [List.getElem?_singleton] at listed
      split at listed
      · cases listed
        cases done
      · cases listed
  | again phase rePending found =>
    intro reducing r task listed done
    simp only [List.getElem?_set] at listed
    split at listed
    · rename_i same
      subst same
      split at listed
      · cases listed
        exact accounted reducing _ _ found done
      · cases listed
    · exact accounted reducing r task listed done
  | wait phase nothing looked => exact accounted
  | finished phase => exact accounted

/-- A report marks the entry of its id. The entry is accounted for already, or the report is
    that of the reduce task itself. -/
theorem Accounted.marked {c : Coordinator} {h : History} {id : Nat} {entry : Task}
    (accounted : Accounted c h) (reported : c.phase ≠ .mapPhase → h.Reduced id) :
    Accounted { c with tasks := c.tasks.set id { entry with status := .completed } } h := by
  intro reducing r task listed done
  simp only [List.getElem?_set] at listed
  split at listed
  · rename_i same
    subst same
    exact reported reducing
  · exact accounted reducing r task listed done

theorem accounted_step {s s' : Job} {e : Event} {h : History} (next : JobStep s e s')
    (guard : NoLateMapReport s e) (counted : s.coordinator.Counted)
    (known : ∀ worker, h.Knows worker (s.workers worker)) (accounted : Accounted s.coordinator h) :
    Accounted s'.coordinator (History.record s e s' h) := by
  have more := History.extends_record s e s' h
  have kept := accounted.mono more
  cases next with
  | check idle outcome => exact kept.check outcome
  | assign checked outcome => exact kept.assigned outcome
  | execute doing => exact kept
  | @report worker reply entry executed found =>
    apply kept.marked
    intro reducing
    have held := known worker
    rw [executed] at held
    obtain ⟨taskType | taskType, assigned, ran⟩ := held
    · -- a map task: its entry is `Completed` already
      have done : entry.status = .completed := by
        cases phase : s.coordinator.phase with
        | mapPhase => exact absurd phase reducing
        | reducePhase =>
          simp only [NoLateMapReport, executed] at guard
          exact guard taskType phase entry found
        | finishPhase =>
          exact (counted.finished phase).2 entry (List.mem_of_getElem? found)
      exact kept reducing _ entry found done
    · rw [taskType] at assigned ran
      refine ⟨worker, more.assigned assigned, more.executed ran, ?_⟩
      simp [History.record, executed, taskType]
  | crash => exact kept

/-- The invariants of a run together. -/
structure Sound (nReduce : Nat) (s : Job) (h : History) : Prop where
  total : s.coordinator.nReduce = nReduce
  counted : s.coordinator.Counted
  known : ∀ worker, h.Knows worker (s.workers worker)
  accounted : Accounted s.coordinator h

theorem sound_reachable {files : List String} {nReduce : Nat} {sh : Job × History}
    (reached : (recordedJob files nReduce).ReachableWhen
      (fun sh e => NoLateMapReport sh.1 e) sh) : Sound nReduce sh.1 sh.2 := by
  apply reached.invariant (I := fun sh => Sound nReduce sh.1 sh.2)
  · refine ⟨rfl, counted_makeCoordinator files nReduce, fun _ => trivial, ?_⟩
    exact fun reducing => absurd rfl reducing
  · rintro ⟨s, h⟩ e ⟨s', h'⟩ - sound guard next
    obtain ⟨stepped, recorded⟩ : s.step e = some s' ∧ h' = History.record s e s' h :=
      Machine.withHistory_step.mp next
    subst recorded
    have next := jobStep_of_step stepped
    refine ⟨(nReduce_step next).trans sound.total, counted_step next sound.counted,
      History.knows_step next sound.known, ?_⟩
    exact accounted_step next guard sound.counted sound.known sound.accounted

/-- When a job has ended in which no late map report came in, each of its reduce tasks was
    executed and reported by a worker it was assigned to. -/
theorem finishSafety {files : List String} {nReduce : Nat} {s : Job} {h : History}
    (reached : (recordedJob files nReduce).ReachableWhen
      (fun sh e => NoLateMapReport sh.1 e) (s, h))
    (finished : s.coordinator.phase = .finishPhase) (r : Nat) (inside : r < nReduce) :
    h.Reduced r := by
  have sound := sound_reachable reached
  obtain ⟨all, done⟩ := sound.counted.finished finished
  have reducing : s.coordinator.phase ≠ .mapPhase := by
    rw [finished]
    simp
  have length : s.coordinator.tasks.length = nReduce :=
    calc s.coordinator.tasks.length
        = s.coordinator.nCurrentAssignedReduceTask := sound.counted.reducing reducing
      _ = s.coordinator.nReduce := all
      _ = nReduce := sound.total
  have within : r < s.coordinator.tasks.length := by omega
  exact sound.accounted reducing r _ (List.getElem?_eq_getElem within)
    (done _ (List.getElem_mem within))

/-- One worker runs the whole job. -/
def ranAlone : Job × History :=
  ((recordedJob ["pg-tom_sawyer.txt"] 1).guarded (fun sh e => NoLateMapReport sh.1 e)).after
    [.check 0, .assign 0 (fun _ => 0), .execute 0, .report 0,
      .check 0, .assign 0 (fun _ => 1000000000), .execute 0, .report 0, .check 0]

theorem finishSafety_ranAlone :
    ranAlone.1.coordinator.phase = .finishPhase ∧ ranAlone.2.Reduced 0 := by
  have finished : ranAlone.1.coordinator.phase = .finishPhase := by decide +kernel
  have reached : (recordedJob ["pg-tom_sawyer.txt"] 1).ReachableWhen
      (fun sh e => NoLateMapReport sh.1 e) ranAlone :=
    Machine.reachableWhen_of_guarded (Machine.reachable_after _)
  exact ⟨finished, finishSafety reached finished 0 (by decide)⟩

/-- Worker 0 takes more than ten seconds for the map task, which worker 1 is therefore given as
    well. Worker 1 has just been assigned the reduce task when worker 0 reports, and the report
    marks the reduce task. -/
def lateMapReport : Job × History :=
  (recordedJob ["pg-tom_sawyer.txt"] 1).after
    [.check 0, .assign 0 (fun _ => 0),
      .check 1, .assign 1 (fun _ => 11000000000),
      .check 1, .assign 1 (fun _ => 12000000000), .execute 1, .report 1,
      .check 1, .assign 1 (fun _ => 13000000000),
      .execute 0, .report 0, .check 0]

/-- The job ends before anyone has executed its reduce task. -/
theorem finishSafety_lateMapReport :
    (recordedJob ["pg-tom_sawyer.txt"] 1).Reachable lateMapReport ∧
      lateMapReport.1.coordinator.phase = .finishPhase ∧ ¬ lateMapReport.2.Reduced 0 := by
  have executed : lateMapReport.2.executed = [⟨1, .mapTask, 0⟩, ⟨0, .mapTask, 0⟩] := by
    decide +kernel
  refine ⟨Machine.reachable_after _, by decide +kernel, ?_⟩
  rintro ⟨worker, -, ran, -⟩
  simp [executed] at ran

end DistributedCloud.MapReduce
