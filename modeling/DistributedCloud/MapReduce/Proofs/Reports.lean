import DistributedCloud.MapReduce.AsciiJson
import DistributedCloud.MapReduce.Proofs.Cluster

/-!
# Reports of map tasks

`Worker` calls `MarkTaskDone` when `DoMapTask` has returned, and it returns the same way whether or
not it could make its temporary files, write them and rename them. What the report is worth can be
said from these calls alone: an intermediate file is complete exactly if the last `Rename` onto it, by
whichever execution of the task, moved a file to which no `Encode` had failed. A `Close` that fails does
no harm, as nothing is buffered.
-/

namespace DistributedCloud.MapReduce

open Coordinator

variable {setting : Setting} {files : List String} {nReduce : Nat} {directory : Directory}

/-! ## The tasks that workers hold -/

/-- The task of the reply, which the worker has not reported yet. -/
def Worker.Holds (reply : TaskAssingnemnt) (state : Worker) : Prop :=
  state = .doing reply ∨ state = .executed reply

/-- The map tasks that workers hold are those of the job. -/
def Job.Replied (files : List String) (nReduce : Nat) (s : Job) : Prop :=
  ∀ worker reply, (s.workers worker).Holds reply → reply.taskType = .mapTask →
    files[reply.taskID]? = some reply.fileName ∧ reply.nReduce = nReduce

theorem Worker.holds_receive {reply reply' : TaskAssingnemnt}
    (held : (Worker.receive reply).Holds reply') : reply = reply' := by
  obtain doing | executed := held
  · exact (receive_eq_doing doing).1
  · exact absurd executed receive_ne_executed

namespace Job.Replied

variable {s : Job}

theorem setWorker (replied : s.Replied files nReduce) {worker : Nat} {state : Worker}
    {c : Coordinator}
    (held : ∀ reply, state.Holds reply → reply.taskType = .mapTask →
      files[reply.taskID]? = some reply.fileName ∧ reply.nReduce = nReduce) :
    Job.Replied files nReduce { s.setWorker worker state with coordinator := c } := by
  intro other reply holds kind
  by_cases same : other = worker
  · subst same
    exact held reply (by simpa [Job.setWorker] using holds) kind
  · exact replied other reply (by simpa [Job.setWorker, same] using holds) kind

theorem step (replied : s.Replied files nReduce) (rep : s.coordinator.Represents files nReduce)
    {e : Event} {s' : Job} (next : JobStep s e s') : s'.Replied files nReduce := by
  cases next with
  | check idle outcome => exact replied.setWorker (by simp [Worker.Holds])
  | @assign worker now c reply checked outcome =>
    apply replied.setWorker
    intro reply' held kind
    obtain rfl := Worker.holds_receive held
    exact rep.map_reply outcome kind
  | @execute worker reply doing =>
    refine replied.setWorker (c := s.coordinator) ?_
    rintro reply' (⟨⟨⟩⟩ | ⟨⟨⟩⟩) kind
    exact replied worker reply (.inl doing) kind
  | report executed found => exact replied.setWorker (by simp [Worker.Holds])
  | crash => exact replied.setWorker (c := s.coordinator) (by simp [Worker.Holds])

theorem reachable (reached : (job files nReduce).Reachable s) : s.Replied files nReduce := by
  apply reached.invariant (I := fun s => s.Replied files nReduce)
  · rintro worker reply (⟨⟨⟩⟩ | ⟨⟨⟩⟩)
  · intro s e s' before replied _ next
    exact replied.step (represents_job before) (jobStep_of_step next)

end Job.Replied

/-! ## The files in place -/

/-- A file is in place exactly if the last `Rename` onto it moved a complete file, or if there was none
    and it was in place at the start. -/
def Recorded (setting : Setting) (files : List String) (nReduce : Nat) (start directory : Directory)
    (placements : Placements) : Prop :=
  ∀ m fileName, files[m]? = some fileName → ∀ r < nReduce,
    (Placed setting nReduce directory fileName m r ↔
      placements m r = some true ∨
        placements m r = none ∧ Placed setting nReduce start fileName m r)

theorem place_rename (placements : Placements) (fileName : String) (taskID n i : Nat)
    (temps : List FileName) (broken : List Nat) (closed : Bool) (m r : Nat) :
    (Execution.map fileName taskID n (.placing temps broken i)).place placements
        (.rename closed true) m r =
      if m = taskID ∧ r = i then some (decide (i ∉ broken)) else placements m r := by
  by_cases task : m = taskID
  · subst task
    by_cases file : r = i
    · subst file
      simp [Execution.place]
    · simp [Execution.place, file]
  · simp [Execution.place, task]

section Step

variable {start directory' : Directory} {placements : Placements}

/-- The `Rename` of a map task puts the file in place, or half a file. -/
theorem MapStage.Holds.recorded_rename {fileName : String} {taskID i : Nat} {temps : List FileName}
    {broken : List Nat} {closed : Bool} {next : Option MapStage}
    (listed : files[taskID]? = some fileName)
    (holds : (MapStage.placing temps broken i).Holds setting nReduce directory fileName taskID)
    (stepped : (MapStage.placing temps broken i).step setting fileName taskID nReduce directory
      (.rename closed true) = some (directory', next))
    (recorded : Recorded setting files nReduce start directory placements) :
    Recorded setting files nReduce start directory'
      ((Execution.map fileName taskID nReduce (.placing temps broken i)).place placements
        (.rename closed true)) := by
  intro m fileName' listed' r inside
  rw [place_rename]
  by_cases target : m = taskID ∧ r = i
  · obtain ⟨rfl, rfl⟩ := target
    obtain rfl : fileName' = fileName := Option.some.inj (listed'.symm.trans listed)
    obtain ⟨temp, chosen, stepped⟩ := Option.bind_eq_some_iff.mp stepped
    obtain ⟨moved, renamed, returned⟩ := Option.bind_eq_some_iff.mp stepped
    obtain ⟨content, found, rfl⟩ := rename_eq_some renamed
    cases returned
    obtain ⟨-, text, found', encoded⟩ := holds.2 r temp le_rfl chosen
    rw [found] at found'
    cases found'
    have complete : content = setting.partition nReduce fileName' r ↔ r ∉ broken := encoded.eq_iff
    simp [Placed, complete]
  · rw [if_neg target]
    have same : directory'.lookup (FileName.intermediate m r).print =
        directory.lookup (FileName.intermediate m r).print := by
      apply holds.lookup_final ((mapStep_or_fault stepped).imp_right And.right) id
      rintro _ _ _ ⟨⟩ ⟨⟩
      exact target ⟨rfl, rfl⟩
    unfold Placed
    rw [same]
    exact recorded m fileName' listed' r inside

/-- What an action does to the files in place is what it adds to the placements. -/
theorem Execution.Holds.recorded {execution : Execution} {action : Action} {next : Option Execution}
    (holds : execution.Holds setting files nReduce directory)
    (stepped : execution.step setting directory action = some (directory', next))
    (recorded : Recorded setting files nReduce start directory placements) :
    Recorded setting files nReduce start directory' (execution.place placements action) := by
  -- Most actions leave all intermediate files alone and add nothing.
  have unchanged : (∀ m r, directory'.lookup (FileName.intermediate m r).print =
      directory.lookup (FileName.intermediate m r).print) →
      Recorded setting files nReduce start directory' placements := by
    intro same m fileName listed r inside
    unfold Placed
    rw [same m r]
    exact recorded m fileName listed r inside
  cases execution with
  | map fileName taskID n stage =>
    obtain ⟨listed, rfl, holds⟩ := holds
    obtain ⟨⟨after, stage'⟩, step, returned⟩ := Option.bind_eq_some_iff.mp stepped
    cases returned
    have outcome := (mapStep_or_fault step).imp_right And.right
    cases stage with
    | reading => exact unchanged fun m r => holds.lookup_final outcome id (by simp)
    | creating kva temps => exact unchanged fun m r => holds.lookup_final outcome id (by simp)
    | encoding temps broken left =>
      exact unchanged fun m r => holds.lookup_final outcome id (by simp)
    | placing temps broken i =>
      cases action with
      | rename closed renamed =>
        cases renamed with
        | true => exact holds.recorded_rename listed step recorded
        | false =>
          obtain ⟨temp, -, returned⟩ := Option.bind_eq_some_iff.mp step
          cases returned
          exact recorded
      | compute =>
        simp only [MapStage.step, Option.ite_none_left_eq_some] at step
        obtain ⟨-, returned⟩ := step
        cases returned
        exact recorded
      | read ok => simp [MapStage.step] at step
      | create random => simp [MapStage.step] at step
      | write cut => simp [MapStage.step] at step
  | reduce taskID stage =>
    obtain ⟨⟨after, stage'⟩, step, returned⟩ := Option.bind_eq_some_iff.mp stepped
    cases returned
    refine unchanged fun m r => ?_
    exact holds.2.lookup_final ((reduceStep_or_fault step).imp_right And.right) id (by simp)

end Step

theorem recorded_reachable (supplied : setting.Supplied files nReduce directory) {s : Cluster}
    {placements : Placements}
    (reached : (placedCluster setting files nReduce directory).Reachable (s, placements)) :
    Recorded setting files nReduce directory s.pool.directory placements := by
  apply reached.invariant
    (I := fun s => Recorded setting files nReduce directory s.1.pool.directory s.2)
  · intro m fileName _ r _
    simp [placedCluster, Machine.withHistory, cluster]
  · rintro ⟨s, placements⟩ e ⟨s', placements'⟩ before recorded - next
    obtain ⟨took, noted⟩ : s.step setting e = some s' ∧
      placements' = s.notePlacement e s' placements := Machine.withHistory_step.mp next
    subst noted
    have tidy := tidy_reachable supplied before.dropHistory
    cases clusterStep_of_step took with
    | check moved => exact recorded
    | given moved doing => exact recorded
    | waits moved nothing => exact recorded
    | @worked worker action execution execution' directory running stepped =>
      have noted := (tidy.holds worker execution running).recorded stepped recorded
      simpa [Cluster.notePlacement, running] using noted
    | @returned worker action execution directory job running stepped moved =>
      have noted := (tidy.holds worker execution running).recorded stepped recorded
      simpa [Cluster.notePlacement, running] using noted
    | report moved => exact recorded
    | crash moved => exact recorded

/-- In every run of a job, with any number of workers and whatever calls fail: when `DoMapTask` has
    returned and `MarkTaskDone` is called next, all intermediate files of the task are complete exactly
    if for each of them the last `Rename` onto it, by whichever execution of the task, moved a file to
    which no `Encode` had failed, or nothing was ever renamed to it and it was complete before. -/
theorem reportedMap_complete (supplied : setting.Supplied files nReduce directory) {s : Cluster}
    {placements : Placements}
    (reached : (placedCluster setting files nReduce directory).Reachable (s, placements))
    {worker : Nat} {reply : TaskAssingnemnt} (executed : s.job.workers worker = .executed reply)
    (kind : reply.taskType = .mapTask) :
    (∀ i < reply.nReduce, s.pool.directory.lookup (FileName.intermediate reply.taskID i).print =
      some (.file (setting.json.encodeAll
        (part reply.nReduce i (setting.mapOutput reply.fileName))))) ↔
      ∀ i < reply.nReduce, placements reply.taskID i = some true ∨
        placements reply.taskID i = none ∧
          directory.lookup (FileName.intermediate reply.taskID i).print =
            some (.file (setting.json.encodeAll
              (part reply.nReduce i (setting.mapOutput reply.fileName)))) := by
  obtain ⟨h, recorded⟩ := reached.dropHistory.withHistory History.start Cluster.record
  obtain ⟨input, total⟩ := Job.Replied.reachable
    (recordedJob_reachable recorded.reachable).dropHistory worker reply (.inr executed) kind
  rw [total]
  have files := recorded_reachable supplied reached reply.taskID reply.fileName input
  constructor
  · intro complete i inside
    exact (files i inside).mp (complete i inside)
  · intro condition i inside
    exact (files i inside).mpr (condition i inside)

/-- Worker 0 fails to encode its second entry, renames both files all the same and is slow to return.
    Meanwhile worker 1 is given the task again and puts complete files in place, though a `Close` of
    it fails. -/
def repaired : Cluster × Placements :=
  (placedCluster letters ["aba"] 2 ∅).after
    [.check 0, .assign 0 (fun _ => 0), .work 0 (.read true), .work 0 (.create (some 7)),
      .work 0 (.create (some 8)), .work 0 .compute, .work 0 (.write none),
      .work 0 (.write (some 9)), .work 0 .compute, .work 0 (.rename true true),
      .work 0 (.rename true true),
      .check 1, .assign 1 (fun _ => 11000000000), .check 1, .assign 1 (fun _ => 12000000000),
      .work 1 (.read true), .work 1 (.create (some 7)), .work 1 (.create (some 9)),
      .work 1 .compute, .work 1 (.write none), .work 1 (.write none), .work 1 .compute,
      .work 1 (.rename false true), .work 1 (.rename true true), .work 0 .compute]

theorem reportedMap_complete_repaired :
    repaired.1.job.workers 0 = .executed ⟨some ⟨"aba", 0, 0, .doing⟩, 2, .mapTask⟩ ∧
      ∀ i < 2, repaired.1.pool.directory.lookup (FileName.intermediate 0 i).print =
        some (.file (letters.json.encodeAll (part 2 i (letters.mapOutput "aba")))) := by
  have supplied : letters.Supplied ["aba"] 2 ∅ := supplied_elsewhere (by decide)
  have ran : (placedCluster letters ["aba"] 2 ∅).Reachable repaired := Machine.reachable_after _
  have reached : (placedCluster letters ["aba"] 2 ∅).Reachable (repaired.1, repaired.2) := ran
  have executed : repaired.1.job.workers 0 =
      .executed ⟨some ⟨"aba", 0, 0, .doing⟩, 2, .mapTask⟩ := by decide +kernel
  have condition : ∀ i < 2, repaired.2 0 i = some true := by decide +kernel
  refine ⟨executed, (reportedMap_complete supplied reached executed rfl).mpr ?_⟩
  intro i inside
  exact .inl (condition i inside)

/-- Worker 0 has done its map task, where the second `Encode` failed after nine bytes. -/
def encodeFailed : Cluster :=
  (cluster letters ["aba"] 2 ∅).after
    [.check 0, .assign 0 (fun _ => 0), .work 0 (.read true), .work 0 (.create (some 7)),
      .work 0 (.create (some 8)), .work 0 .compute, .work 0 (.write none),
      .work 0 (.write (some 9)), .work 0 .compute, .work 0 (.rename true true),
      .work 0 (.rename true true), .work 0 .compute]

/-- The worker reports the task, and the coordinator marks it, with half a file in place. -/
theorem encodeFailed_reported :
    (cluster letters ["aba"] 2 ∅).Reachable encodeFailed ∧
      (encodeFailed.step letters (.report 0)).map
        (fun s => s.job.coordinator.tasks.map Task.status) = some [.completed] ∧
      ∃ i < 2, encodeFailed.pool.directory.lookup (FileName.intermediate 0 i).print ≠
        some (.file (letters.json.encodeAll (part 2 i (letters.mapOutput "aba")))) := by
  refine ⟨Machine.reachable_after _, by decide +kernel, 1, by decide, by decide +kernel⟩

end DistributedCloud.MapReduce
