import DistributedCloud.MapReduce.Proofs.Barrier
import DistributedCloud.MapReduce.Proofs.FinishSafety
import DistributedCloud.MapReduce.Proofs.Schedule

/-!
# The output of a finished job

A cluster is a schedule whose tasks the coordinator hands out. Until the map phase ends it only
hands out map tasks, and when it ends every one of them has been completed, so that the two parts of
a schedule are the phases of the coordinator. When `Done` is true every reduce task has been
completed as well, unless a late report of a map task has been taken for one of a reduce task.
-/

namespace DistributedCloud.MapReduce

open Coordinator

variable {setting : Setting} {files : List String} {nReduce : Nat}
  {directory directory' : Directory} {s s' : Cluster} {h : History} {e : ClusterEvent}

/-! ## The job of a cluster -/

/-- No map task is reported in the reduce phase under an id whose reduce task is still open. -/
def ClusterEvent.NoLateMapReport (s : Cluster) : ClusterEvent → Prop
  | report worker => MapReduce.NoLateMapReport s.job (.report worker)
  | _ => True

instance (s : Cluster) : DecidablePred (ClusterEvent.NoLateMapReport s)
  | .check _ => isTrue trivial
  | .assign _ _ => isTrue trivial
  | .work _ _ => isTrue trivial
  | .report worker => inferInstanceAs (Decidable (NoLateMapReport s.job (.report worker)))
  | .crash _ => isTrue trivial

/-- The condition looks only at the job. -/
theorem ClusterEvent.NoLateMapReport.of_job (timely : e.NoLateMapReport s) (same : s.job = s'.job) :
    e.NoLateMapReport s' := by
  cases e with
  | report worker =>
    unfold ClusterEvent.NoLateMapReport at timely ⊢
    rwa [same] at timely
  | check worker => trivial
  | assign worker now => trivial
  | work worker action => trivial
  | crash worker => trivial

/-- The job takes a step of its own, or stands still while a task goes on. -/
theorem ClusterStep.job_step (next : ClusterStep setting s e s') (timely : e.NoLateMapReport s) :
    (s'.job = s.job ∧ s.record e s' h = h) ∨
      ∃ event, NoLateMapReport s.job event ∧ s.job.step event = some s'.job ∧
        s.record e s' h = History.record s.job event s'.job h := by
  cases next with
  | @check worker job moved => exact .inr ⟨.check worker, trivial, moved, rfl⟩
  | @given worker now job reply moved doing =>
    exact .inr ⟨.assign worker now, trivial, moved, rfl⟩
  | @waits worker now job moved nothing => exact .inr ⟨.assign worker now, trivial, moved, rfl⟩
  | worked running stepped => exact .inl ⟨rfl, by simp [Cluster.record, Pool.set]⟩
  | @returned worker action execution directory job running stepped moved =>
    exact .inr ⟨.execute worker, trivial, moved, by simp [Cluster.record, Pool.set]⟩
  | @report worker job moved => exact .inr ⟨.report worker, timely, moved, rfl⟩
  | @crash worker job moved => exact .inr ⟨.crash worker, trivial, moved, rfl⟩

/-- The job of a cluster with its history. -/
def IsJobOf (s : Cluster × History) (t : Job × History) : Prop := t = (s.1.job, s.2)

theorem sound_cluster
    (reached : (recordedCluster setting files nReduce directory).ReachableWhen
      (fun s e => e.Succeeds ∧ e.NoLateMapReport s.1) (s, h)) : Sound nReduce s.job h := by
  have followed : ∃ t, (recordedJob files nReduce).ReachableWhen
      (fun sh e => NoLateMapReport sh.1 e) t ∧ IsJobOf (s, h) t := by
    refine reached.simulate ?_ ?_
    · rfl
    · rintro ⟨s, h⟩ e ⟨s', h'⟩ _ - - rfl ⟨-, timely⟩ next
      obtain ⟨stepped, recorded⟩ : s.step setting e = some s' ∧ h' = s.record e s' h :=
        Machine.withHistory_step.mp next
      subst recorded
      obtain ⟨job, same⟩ | ⟨event, ok, moved, recorded⟩ :=
        (clusterStep_of_step stepped).job_step (h := h) timely
      · exact .inl (by simp [IsJobOf, job, same])
      · exact .inr ⟨event, (s'.job, s.record e s' h), ok,
          Machine.withHistory_step.mpr ⟨moved, recorded⟩, rfl⟩
  obtain ⟨t, ran, same⟩ := followed
  subst same
  exact sound_reachable ran

/-! ## The tasks of a cluster -/

/-- The task that a worker reads off its reply. -/
def TaskAssingnemnt.task (reply : TaskAssingnemnt) : JobTask :=
  match reply.taskType with
  | .mapTask => .map reply.taskID
  | _ => .reduce reply.taskID

/-- The task that the dealing is about. -/
def Dealing.task (dealing : Dealing) : JobTask :=
  match dealing.taskType with
  | .mapTask => .map dealing.taskID
  | _ => .reduce dealing.taskID

/-- The tasks whose execution has returned, the last one first. -/
def History.completed (h : History) : List JobTask := (h.executed.map Dealing.task).reverse

theorem TaskAssingnemnt.task_execution (reply : TaskAssingnemnt) :
    reply.execution.task = reply.task := by
  unfold TaskAssingnemnt.execution TaskAssingnemnt.task
  cases reply.taskType with
  | mapTask => rfl
  | reduceTask => rfl
  | waitTask => rfl
  | finished => rfl

theorem History.Reduced.completed {r : Nat} (reduced : h.Reduced r) : .reduce r ∈ h.completed := by
  obtain ⟨worker, -, executed, -⟩ := reduced
  exact List.mem_reverse.mpr (List.mem_map.mpr ⟨_, executed, rfl⟩)

theorem History.Mapped.completed {m : Nat} (mapped : h.Mapped m) : .map m ∈ h.completed := by
  obtain ⟨worker, executed⟩ := mapped
  exact List.mem_reverse.mpr (List.mem_map.mpr ⟨_, executed, rfl⟩)

/-- What a worker begins for its reply is a task of the job. -/
theorem Coordinator.Represents.task_reply {c c' : Coordinator} {now : Nat → Int}
    {reply : TaskAssingnemnt} (rep : c.Represents files nReduce)
    (outcome : AssignedOutcome c now c' reply)
    (kind : reply.taskType = .mapTask ∨ reply.taskType = .reduceTask) :
    reply.task.execution files nReduce = some reply.execution := by
  rcases kind with kind | kind
  · obtain ⟨listed, total⟩ := rep.map_reply outcome kind
    simp [TaskAssingnemnt.task, TaskAssingnemnt.execution, kind, JobTask.execution, listed, total]
  · have inside := rep.reduce_reply outcome kind
    simp [TaskAssingnemnt.task, TaskAssingnemnt.execution, kind, JobTask.execution, inside]

/-- An execution goes on with its task. -/
theorem ExecutionStep.task_eq {execution execution' : Execution}
    (stepped : ExecutionStep setting directory execution directory' (some execution')) :
    execution'.task = execution.task := by
  generalize result : some execution' = next at stepped
  cases stepped with
  | map step =>
    obtain ⟨stage, -, rfl⟩ := Option.map_eq_some_iff.mp result.symm
    rfl
  | reduce step =>
    obtain ⟨stage, -, rfl⟩ := Option.map_eq_some_iff.mp result.symm
    rfl

/-- Every worker executes the task that it was given. -/
def Cluster.Executes (s : Cluster) : Prop :=
  ∀ worker reply execution, s.job.workers worker = .doing reply →
    s.pool.running worker = some execution → execution.task = reply.task

/-- One worker moves. -/
theorem Cluster.Executes.move (executes : s.Executes) (worker : Nat)
    (others : ∀ other, other ≠ worker → s'.job.workers other = s.job.workers other ∧
      s'.pool.running other = s.pool.running other)
    (own : ∀ reply execution, s'.job.workers worker = .doing reply →
      s'.pool.running worker = some execution → execution.task = reply.task) : s'.Executes := by
  intro other reply execution doing running
  by_cases same : other = worker
  · subst same
    exact own reply execution doing running
  · obtain ⟨job, pool⟩ := others other same
    rw [job] at doing
    rw [pool] at running
    exact executes other reply execution doing running

theorem executes_step (next : ClusterStep setting s e s') (succeeds : e.Succeeds)
    (executes : s.Executes) : s'.Executes := by
  cases next with
  | @check worker job moved =>
    cases jobStep_of_step moved with
    | check idle outcome =>
      refine executes.move worker (fun other differs => ?_) (fun reply execution doing => ?_)
      · simp [Job.setWorker, differs]
      · simp [Job.setWorker] at doing
  | @given worker now job reply moved doing =>
    cases jobStep_of_step moved with
    | assign checked outcome =>
      refine executes.move worker (fun other differs => ?_)
        (fun reply' execution doing' running => ?_)
      · simp [Job.setWorker, Pool.set, differs]
      · obtain rfl : reply = reply' := Worker.doing.inj (doing.symm.trans doing')
        obtain rfl : reply.execution = execution := by simpa [Pool.set] using running
        exact reply.task_execution
  | @waits worker now job moved nothing =>
    cases jobStep_of_step moved with
    | assign checked outcome =>
      refine executes.move worker (fun other differs => ?_) (fun reply execution doing => ?_)
      · simp [Job.setWorker, differs]
      · exact absurd doing (nothing reply)
  | @worked worker action execution execution' directory running stepped =>
    refine executes.move worker (fun other differs => ?_) (fun reply after doing running' => ?_)
    · simp [Pool.set, differs]
    · obtain rfl : execution' = after := by simpa [Pool.set] using running'
      rw [(executionStep_of_step succeeds stepped).task_eq]
      exact executes worker reply execution doing running
  | @returned worker action execution directory job running stepped moved =>
    cases jobStep_of_step moved with
    | execute doing =>
      refine executes.move worker (fun other differs => ?_) (fun reply after doing => ?_)
      · simp [Job.setWorker, Pool.set, differs]
      · simp [Job.setWorker] at doing
  | @report worker job moved =>
    cases jobStep_of_step moved with
    | report executed found =>
      refine executes.move worker (fun other differs => ?_) (fun reply execution doing => ?_)
      · simp [Job.setWorker, differs]
      · simp [Job.setWorker] at doing
  | @crash worker job moved =>
    cases jobStep_of_step moved with
    | crash =>
      refine executes.move worker (fun other differs => ?_) (fun reply execution doing => ?_)
      · simp [Job.setWorker, Pool.set, differs]
      · simp [Job.setWorker] at doing

/-! ## A cluster takes the steps of a schedule -/

/-- The coordinator's part of a step leaves the directory and the executions alone; the others are
    steps of a schedule, in which no reduce task is begun during the map phase. -/
theorem ClusterStep.schedule (next : ClusterStep setting s e s') (succeeds : e.Succeeds)
    (rep : s.job.coordinator.Represents files nReduce) (executes : s.Executes) :
    (s'.pool = s.pool ∧ (s.record e s' h).completed = h.completed) ∨
      ∃ event, ScheduleStep setting files nReduce s.pool h.completed event s'.pool
          (s.record e s' h).completed ∧
        (s.job.coordinator.phase = .mapPhase → event.BeginsNoReduce) := by
  cases next with
  | check moved => exact .inl ⟨rfl, rfl⟩
  | @given worker now job reply moved doing =>
    have same : (s.record (.assign worker now)
        ⟨job, s.pool.set worker (some reply.execution)⟩ h).completed = h.completed := by
      simp [Cluster.record, History.record, doing, History.completed]
    rw [same]
    cases jobStep_of_step moved with
    | @assign _ _ c reply' checked outcome =>
      obtain ⟨rfl, kind⟩ := receive_eq_doing (by simpa [Job.setWorker] using doing)
      refine .inr ⟨.start worker reply'.task, .started (rep.task_reply outcome kind), ?_⟩
      intro mapping
      rcases kind with kind | kind
      · simp [TaskAssingnemnt.task, kind, ScheduleEvent.BeginsNoReduce]
      · exact absurd mapping (outcome.reducing kind)
  | waits moved nothing =>
    refine .inl ⟨rfl, ?_⟩
    simp only [Cluster.record, History.record]
  | @worked worker action execution execution' directory running stepped =>
    have same : s.record (.work worker action)
        { s with pool := { s.pool.set worker (some execution') with directory := directory } } h =
          h := by
      simp [Cluster.record, Pool.set]
    rw [same]
    exact .inr ⟨.work worker action,
      .worked running (executionStep_of_step succeeds stepped), fun _ => trivial⟩
  | @returned worker action execution directory job running stepped moved =>
    cases jobStep_of_step moved with
    | @execute _ reply doing =>
      have task : execution.task = reply.task := executes worker reply execution doing running
      have added : (s.record (.work worker action)
          ⟨s.job.setWorker worker (.executed reply),
            { s.pool.set worker none with directory := directory }⟩ h).completed =
          execution.task :: h.completed := by
        simp [Cluster.record, History.record, Pool.set, doing, History.completed, task,
          Dealing.task, TaskAssingnemnt.task]
      rw [added]
      exact .inr ⟨.work worker action,
        .returned running (executionStep_of_step succeeds stepped), fun _ => trivial⟩
  | @report worker job moved =>
    refine .inl ⟨rfl, ?_⟩
    simp only [Cluster.record, History.record]
    split
    · rfl
    · rfl
  | @crash worker job moved =>
    exact .inr ⟨.crash worker, .crashed, fun _ => trivial⟩

/-- Only map tasks are executed, or have been completed. -/
structure OnlyMaps (pool : Pool) (completed : List JobTask) : Prop where
  running : ∀ worker execution r, pool.running worker = some execution →
    execution.task ≠ .reduce r
  completed : ∀ r, .reduce r ∉ completed

theorem OnlyMaps.step {pool pool' : Pool} {completed completed' : List JobTask}
    {event : ScheduleEvent} (maps : OnlyMaps pool completed)
    (step : ScheduleStep setting files nReduce pool completed event pool' completed')
    (begins : event.BeginsNoReduce) : OnlyMaps pool' completed' := by
  have set : ∀ (directory : Directory) {worker : Nat} {next : Option Execution},
      (∀ execution r, next = some execution → execution.task ≠ .reduce r) →
      ∀ other execution r, ({ pool.set worker next with directory := directory } : Pool).running
        other = some execution → execution.task ≠ .reduce r := by
    intro directory worker next new other execution r running
    obtain ⟨-, now⟩ | ⟨-, before⟩ := running_set running
    · exact new execution r now
    · exact maps.running other execution r before
  cases step with
  | @started worker task execution begun =>
    refine ⟨set pool.directory ?_, maps.completed⟩
    rintro execution' r ⟨⟩ reduce
    cases task with
    | map m =>
      obtain ⟨fileName, -, rfl⟩ := Option.map_eq_some_iff.mp begun
      cases reduce
    | reduce r' => exact begins
  | @worked worker action execution execution' directory running stepped =>
    refine ⟨set directory ?_, maps.completed⟩
    rintro _ r ⟨⟩
    rw [stepped.task_eq]
    exact maps.running worker execution r running
  | @returned worker action execution directory running stepped =>
    refine ⟨set directory (by simp), fun r done => ?_⟩
    obtain now | earlier := List.mem_cons.mp done
    · exact maps.running worker execution r running now.symm
    · exact maps.completed r earlier
  | crashed => exact ⟨set pool.directory (by simp), maps.completed⟩

/-! ## The phases -/

theorem Coordinator.AssignedOutcome.phase_eq {c c' : Coordinator} {now : Nat → Int}
    {reply : TaskAssingnemnt} (outcome : AssignedOutcome c now c' reply) : c'.phase = c.phase := by
  cases outcome with
  | newMap phase file => rfl
  | newReduce phase left => rfl
  | again phase rePending found => rfl
  | wait phase nothing looked => rfl
  | finished phase => rfl

/-- Only `Check` ends a phase, and it does nothing else. -/
theorem ClusterStep.phase_cases (next : ClusterStep setting s e s') :
    s'.job.coordinator.phase = s.job.coordinator.phase ∨
      s'.pool = s.pool ∧ (s.record e s' h).completed = h.completed ∧
        s'.job.coordinator.phase ≠ .mapPhase := by
  cases next with
  | check moved =>
    cases jobStep_of_step moved with
    | check idle outcome =>
      cases outcome with
      | same => exact .inl rfl
      | mapped phase files rePending nonempty done => exact .inr ⟨rfl, rfl, by simp⟩
      | reduced phase assigned rePending nonempty done => exact .inr ⟨rfl, rfl, by simp⟩
  | given moved doing =>
    cases jobStep_of_step moved with
    | assign checked outcome => exact .inl outcome.phase_eq
  | waits moved nothing =>
    cases jobStep_of_step moved with
    | assign checked outcome => exact .inl outcome.phase_eq
  | worked running stepped => exact .inl rfl
  | returned running stepped moved =>
    cases jobStep_of_step moved with
    | execute doing => exact .inl rfl
  | report moved =>
    cases jobStep_of_step moved with
    | report executed found => exact .inl rfl
  | crash moved =>
    cases jobStep_of_step moved with
    | crash => exact .inl rfl

/-- When every map task has been completed, the second part of the schedule begins. -/
theorem Mapping.begins_reducing {pool : Pool} {completed : List JobTask}
    (mapping : Mapping setting files nReduce (pool, completed)) (maps : OnlyMaps pool completed)
    (all : ∀ m < files.length, .map m ∈ completed) :
    Reducing setting files nReduce (pool, completed) := by
  refine ⟨mapping.clean, ?_, ?_, ?_⟩
  · intro m fileName listed r inside
    have number : m < files.length := (List.getElem?_eq_some_iff.mp listed).1
    exact mapping.mapped m fileName (all m number) listed r inside
  · intro worker r stage running
    exact absurd rfl (maps.running worker _ r running)
  · intro r done
    exact absurd done (maps.completed r)

/-- The phase of the coordinator says how far the schedule has come. -/
structure Phased (setting : Setting) (files : List String) (nReduce : Nat) (s : Cluster)
    (h : History) : Prop where
  executes : s.Executes
  mapping : s.job.coordinator.phase = .mapPhase →
    Mapping setting files nReduce (s.pool, h.completed) ∧ OnlyMaps s.pool h.completed
  reducing : s.job.coordinator.phase ≠ .mapPhase →
    Reducing setting files nReduce (s.pool, h.completed)

theorem phased_init (supplied : setting.Supplied files nReduce directory)
    (unmatched : directory.NoneMatched nReduce) :
    Phased setting files nReduce (cluster setting files nReduce directory).init History.start := by
  refine ⟨?_, fun _ => ⟨?_, ?_, ?_⟩, fun reducing => absurd rfl reducing⟩
  · intro worker reply execution doing
    cases doing
  · exact mapping_reachable supplied unmatched Machine.ReachableWhen.init
  · intro worker execution r running
    cases running
  · intro r done
    cases done

theorem phased_step (plain : setting.Plain files) (unordered : setting.Unordered)
    (next : ClusterStep setting s e s') (succeeds : e.Succeeds)
    (rep : s.job.coordinator.Represents files nReduce)
    (first : MapsFirst files.length s'.job.coordinator (s.record e s' h))
    (phased : Phased setting files nReduce s h) :
    Phased setting files nReduce s' (s.record e s' h) := by
  have executes := executes_step next succeeds phased.executes
  obtain same | ⟨pool, completed, ended⟩ := next.phase_cases (h := h)
  · obtain ⟨pool, completed⟩ | ⟨event, step, begins⟩ :=
      next.schedule (h := h) succeeds rep phased.executes
    · refine ⟨executes, ?_, ?_⟩
      · rw [same, pool, completed]
        exact phased.mapping
      · rw [same, pool, completed]
        exact phased.reducing
    · refine ⟨executes, ?_, ?_⟩
      · rw [same]
        intro phase
        obtain ⟨mapping, maps⟩ := phased.mapping phase
        exact ⟨mapping.step step, maps.step step (begins phase)⟩
      · rw [same]
        intro phase
        exact (phased.reducing phase).step plain unordered step
  · refine ⟨executes, fun phase => absurd phase ended, fun _ => ?_⟩
    by_cases phase : s.job.coordinator.phase = .mapPhase
    · -- the map phase ends here
      obtain ⟨mapping, maps⟩ := phased.mapping phase
      have all : ∀ m < files.length, .map m ∈ h.completed := by
        intro m inside
        rw [← completed]
        exact (first.all ended m inside).completed
      rw [pool, completed]
      exact mapping.begins_reducing maps all
    · rw [pool, completed]
      exact phased.reducing phase

theorem phased_reachable (plain : setting.Plain files) (unordered : setting.Unordered)
    (supplied : setting.Supplied files nReduce directory)
    (unmatched : directory.NoneMatched nReduce)
    (reached : (recordedCluster setting files nReduce directory).ReachableWhen
      (fun _ e => e.Succeeds) (s, h)) : Phased setting files nReduce s h := by
  refine reached.invariant (I := fun s => Phased setting files nReduce s.1 s.2)
    (phased_init supplied unmatched) ?_
  rintro ⟨s, h⟩ e ⟨s', h'⟩ before phased succeeds next
  obtain ⟨stepped, recorded⟩ : s.step setting e = some s' ∧ h' = s.record e s' h :=
    Machine.withHistory_step.mp next
  have first := mapsFirst_reachable (recordedJob_reachable (before.step succeeds next).reachable)
  have rep := represents_cluster before.dropHistory
  subst recorded
  exact phased_step plain unordered (clusterStep_of_step stepped) succeeds rep first phased

/-! ## The output -/

/-- When the job is done, every output file holds what its reduce task is to write. -/
theorem outputs_of_done (unordered : setting.Unordered) (plain : setting.Plain files)
    (supplied : setting.Supplied files nReduce directory)
    (unmatched : directory.NoneMatched nReduce)
    (reached : (cluster setting files nReduce directory).ReachableWhen
      (fun s e => e.Succeeds ∧ e.NoLateMapReport s) s)
    (done : s.job.coordinator.done = true) {r : Nat} (inside : r < nReduce) :
    s.pool.directory.lookup (FileName.output r).print =
      some (.file (written (setting.reduceOutput files nReduce r))) := by
  obtain ⟨h, recorded⟩ := reached.withHistory History.start Cluster.record
  have finished : s.job.coordinator.phase = .finishPhase := of_decide_eq_true done
  have reducing : s.job.coordinator.phase ≠ .mapPhase := by
    rw [finished]
    simp
  have phased := phased_reachable plain unordered supplied unmatched
    (recorded.mono fun _ _ both => both.1)
  have sound := sound_cluster recorded
  obtain ⟨all, completed⟩ := sound.counted.finished finished
  have within : r < s.job.coordinator.tasks.length := by
    rw [sound.counted.reducing reducing, all, sound.total]
    exact inside
  have reduced : h.Reduced r :=
    sound.accounted reducing r _ (List.getElem?_eq_getElem within)
      (completed _ (List.getElem_mem within))
  exact (phased.reducing reducing).outputs r reduced.completed

/-- In every run of a job with any number of workers that crash, are slow and execute tasks again,
    in which file-system calls succeed and no late report of a map task is taken for one of a reduce
    task, on input files whose names the job does not give to files of its own: once `Done` returns
    true, and whatever workers still do then, the output files match the sequential program. -/
theorem done_matchesSequential {sort : List KeyValue → List KeyValue} (sorts : SortsByKey sort)
    (unordered : setting.Unordered) (plain : setting.Plain files) (positive : 0 < nReduce)
    (supplied : setting.Supplied files nReduce directory)
    (unmatched : directory.NoneMatched nReduce)
    (reached : (cluster setting files nReduce directory).ReachableWhen
      (fun s e => e.Succeeds ∧ e.NoLateMapReport s) s)
    (done : s.job.coordinator.done = true) :
    MatchesSequential setting sort files nReduce s.pool.directory := by
  apply matchesSequential_of_outputs sorts unordered positive
  intro r inside
  exact outputs_of_done unordered plain supplied unmatched reached done inside

/-- Worker 0 crashes between its two renames, worker 1 is given the map task again, and workers 1 and
    2 do the two reduce tasks side by side. -/
def finishedLetters : Cluster :=
  ((cluster letters ["aba"] 2 ∅).guarded fun s e => e.Succeeds ∧ e.NoLateMapReport s).after
    [.check 0, .assign 0 (fun _ => 0), .work 0 (.read true), .work 0 (.create (some 7)),
      .work 0 (.create (some 8)), .work 0 .compute, .work 0 (.write none), .work 0 (.write none),
      .work 0 .compute, .work 0 (.rename true true), .crash 0,
      .check 1, .assign 1 (fun _ => 11000000000), .check 1, .assign 1 (fun _ => 12000000000),
      .work 1 (.read true), .work 1 (.create (some 7)), .work 1 (.create (some 9)),
      .work 1 .compute, .work 1 (.write none), .work 1 (.write none), .work 1 .compute,
      .work 1 (.rename true true), .work 1 (.rename true true), .work 1 .compute, .report 1,
      .check 1, .assign 1 (fun _ => 13000000000), .check 2, .assign 2 (fun _ => 13000000000),
      .work 1 (.read true), .work 2 (.read true), .work 1 (.create (some 1)),
      .work 2 (.create (some 1)), .work 1 (.read true), .work 1 (.read true), .work 1 (.read true),
      .work 2 (.read true), .work 2 (.read true), .work 2 (.read true), .work 1 .compute,
      .work 2 .compute, .work 2 (.write none), .work 2 (.rename true true), .work 1 (.write none),
      .report 2, .work 1 (.rename true true), .report 1, .check 2]

theorem done_matchesSequential_letters :
    finishedLetters.job.coordinator.done = true ∧
      MatchesSequential letters mergeByKey ["aba"] 2 finishedLetters.pool.directory := by
  have reached : (cluster letters ["aba"] 2 ∅).ReachableWhen
      (fun s e => e.Succeeds ∧ e.NoLateMapReport s) finishedLetters :=
    Machine.reachableWhen_of_guarded (Machine.reachable_after _)
  have plain : ∀ kv ∈ letters.intermediate ["aba"],
      AsciiJson.Plain kv.1 ∧ AsciiJson.Plain kv.2 := by decide +kernel
  have done : finishedLetters.job.coordinator.done = true := by decide +kernel
  exact ⟨done, done_matchesSequential sortsByKey_mergeByKey unordered_letters plain (by decide)
    (supplied_elsewhere (by decide)) (by rintro name content ⟨⟩) reached done⟩

end DistributedCloud.MapReduce
