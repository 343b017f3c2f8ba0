import DistributedCloud.MapReduce.AsciiJson
import DistributedCloud.MapReduce.Proofs.Cluster
import DistributedCloud.MapReduce.Proofs.MapsFirst

/-!
# No reduce task before the intermediate files are complete

When the first reduce task is handed out, every map task has been executed at least once. An
execution that has returned has put all its intermediate files in place, and whatever other
executions of the same task do afterwards, the files stay as they are. This needs that the input files
stay as they are: one with the name of an intermediate file is replaced while the job goes on.
-/

namespace DistributedCloud.MapReduce

open Coordinator

variable {setting : Setting} {files : List String} {nReduce : Nat} {directory : Directory}

/-! ## The invariant -/

/-- The executions of map tasks are those of the job, and one that has returned has put its files
    in place. -/
structure Barrier (setting : Setting) (files : List String) (nReduce : Nat) (s : Cluster)
    (h : History) : Prop where
  intact : Intact setting files nReduce s.pool
  doing : ∀ worker reply, s.job.workers worker = .doing reply → reply.taskType = .mapTask →
    ∃ fileName n stage, s.pool.running worker = some (.map fileName reply.taskID n stage)
  placed : ∀ m, h.Mapped m → ∀ fileName, files[m]? = some fileName →
    ∀ r < nReduce, Placed setting nReduce s.pool.directory fileName m r

theorem barrier_init (supplied : setting.Supplied files nReduce directory) :
    Barrier setting files nReduce (cluster setting files nReduce directory).init History.start := by
  refine ⟨.init supplied, ?_, ?_⟩
  · intro worker reply doing
    cases doing
  · rintro m ⟨worker, executed⟩
    cases executed

/-- The tasks that the workers do after one of them has changed its state. -/
theorem doing_setWorker {s : Job} {worker other : Nat} {state : Worker} {reply : TaskAssingnemnt}
    (doing : (s.setWorker worker state).workers other = .doing reply) :
    other = worker ∧ state = .doing reply ∨ other ≠ worker ∧ s.workers other = .doing reply := by
  by_cases same : other = worker
  · subst same
    exact .inl ⟨rfl, by simpa [Job.setWorker] using doing⟩
  · exact .inr ⟨same, by simpa [Job.setWorker, same] using doing⟩

namespace Barrier

variable {s : Cluster} {h h' : History} {worker : Nat}

theorem placed_of_executed_eq (barrier : Barrier setting files nReduce s h)
    (executed : h'.executed = h.executed) {m : Nat} (mapped : h'.Mapped m) {fileName : String}
    (input : files[m]? = some fileName) {r : Nat} (inside : r < nReduce) :
    Placed setting nReduce s.pool.directory fileName m r := by
  obtain ⟨mapper, listed⟩ := mapped
  rw [executed] at listed
  exact barrier.placed m ⟨mapper, listed⟩ fileName input r inside

/-- A step of the job that hands out no task. -/
theorem idle (barrier : Barrier setting files nReduce s h) {job : Job}
    (same : ∀ other reply, job.workers other = .doing reply → s.job.workers other = .doing reply)
    (executed : h'.executed = h.executed) :
    Barrier setting files nReduce { s with job := job } h' where
  intact := barrier.intact
  doing := fun other reply doing kind => barrier.doing other reply (same other reply doing) kind
  placed := fun _ mapped _ input _ inside =>
    barrier.placed_of_executed_eq executed mapped input inside

/-- A worker is given a task. -/
theorem given (barrier : Barrier setting files nReduce s h) {c : Coordinator}
    {reply : TaskAssingnemnt}
    (intact : Intact setting files nReduce (s.pool.set worker (some reply.execution)))
    (executed : h'.executed = h.executed) :
    Barrier setting files nReduce
      ⟨{ s.job.setWorker worker (.receive reply) with coordinator := c },
        s.pool.set worker (some reply.execution)⟩ h' := by
  refine ⟨intact, ?_, ?_⟩
  · intro other reply' doing kind
    obtain ⟨rfl, given⟩ | ⟨differs, before⟩ := doing_setWorker doing
    · obtain rfl : reply = reply' := (receive_eq_doing given).1
      refine ⟨reply.fileName, reply.nReduce, .reading, ?_⟩
      simp [Pool.set, TaskAssingnemnt.execution, kind]
    · simpa [Pool.set, differs] using barrier.doing other reply' before kind
  · intro m mapped fileName input r inside
    exact barrier.placed_of_executed_eq executed mapped input inside

/-- A worker goes on with its task. -/
theorem worked (barrier : Barrier setting files nReduce s h) {execution execution' : Execution}
    {action : Action} (running : s.pool.running worker = some execution)
    (succeeds : action.Succeeds)
    (stepped : execution.step setting s.pool.directory action =
      some (directory, some execution')) :
    Barrier setting files nReduce
      { s with pool := { s.pool.set worker (some execution') with directory := directory } } h := by
  have step := executionStep_of_step succeeds stepped
  refine ⟨barrier.intact.step running step, ?_, ?_⟩
  · intro other reply doing kind
    obtain ⟨fileName, n, stage, does⟩ := barrier.doing other reply doing kind
    by_cases same : other = worker
    · subst same
      obtain rfl : execution = .map fileName reply.taskID n stage :=
        Option.some.inj (running.symm.trans does)
      obtain ⟨stage', rfl⟩ := step_map_eq_some stepped
      exact ⟨fileName, n, stage', by simp [Pool.set]⟩
    · exact ⟨fileName, n, stage, by simpa [Pool.set, same] using does⟩
  · intro m mapped fileName listed r inside
    exact (barrier.intact.change running step).placed listed
      (barrier.placed m mapped fileName listed r inside)

/-- A worker is done with its task. -/
theorem returned (barrier : Barrier setting files nReduce s h) {execution : Execution}
    {reply : TaskAssingnemnt} {action : Action} (doing : s.job.workers worker = .doing reply)
    (running : s.pool.running worker = some execution) (succeeds : action.Succeeds)
    (stepped : execution.step setting s.pool.directory action = some (directory, none))
    (executed : ∀ dealing ∈ h'.executed,
      dealing ∈ h.executed ∨ dealing = ⟨worker, reply.taskType, reply.taskID⟩) :
    Barrier setting files nReduce
      ⟨s.job.setWorker worker (.executed reply),
        { s.pool.set worker none with directory := directory }⟩ h' := by
  have holds := barrier.intact.holds running
  have whole := barrier.intact.whole worker execution running
  have step := executionStep_of_step succeeds stepped
  refine ⟨barrier.intact.step running step, ?_, ?_⟩
  · intro other reply' before kind
    obtain ⟨-, given⟩ | ⟨differs, before⟩ := doing_setWorker before
    · cases given
    · simpa [Pool.set, differs] using barrier.doing other reply' before kind
  · rintro m ⟨mapper, listed⟩ fileName input r inside
    obtain old | new := executed _ listed
    · exact (barrier.intact.change running step).placed input
        (barrier.placed m ⟨mapper, old⟩ fileName input r inside)
    · -- the task that has just returned
      obtain ⟨rfl, kind, rfl⟩ : mapper = worker ∧ TaskType.mapTask = reply.taskType ∧
          m = reply.taskID := by simpa using new
      obtain ⟨fileName', n, stage, does⟩ := barrier.doing mapper reply doing kind.symm
      obtain rfl : execution = .map fileName' reply.taskID n stage :=
        Option.some.inj (running.symm.trans does)
      obtain rfl : fileName = fileName' := Option.some.inj (input.symm.trans holds.1)
      exact whole.returned holds step.map_returned inside

/-- A worker crashes. -/
theorem crash (barrier : Barrier setting files nReduce s h) :
    Barrier setting files nReduce ⟨s.job.setWorker worker .exited, s.pool.set worker none⟩ h := by
  refine ⟨barrier.intact.set (by simp), ?_, barrier.placed⟩
  intro other reply before kind
  obtain ⟨-, given⟩ | ⟨differs, before⟩ := doing_setWorker before
  · cases given
  · simpa [Pool.set, differs] using barrier.doing other reply before kind

end Barrier

theorem barrier_step {s s' : Cluster} {e : ClusterEvent} {h : History}
    (next : ClusterStep setting s e s') (succeeds : e.Succeeds)
    (rep : s.job.coordinator.Represents files nReduce)
    (barrier : Barrier setting files nReduce s h) :
    Barrier setting files nReduce s' (s.record e s' h) := by
  have intact := next.intact succeeds rep barrier.intact
  -- A worker that is set to something else than a task does none.
  have others : ∀ {worker : Nat} {state : Worker} {c : Coordinator},
      (∀ reply, state ≠ .doing reply) → ∀ other reply,
      ({ s.job.setWorker worker state with coordinator := c } : Job).workers other = .doing reply →
        s.job.workers other = .doing reply := by
    intro worker state c nothing other reply doing
    obtain ⟨-, given⟩ | ⟨-, before⟩ := doing_setWorker doing
    · exact absurd given (nothing reply)
    · exact before
  cases next with
  | check moved =>
    cases jobStep_of_step moved with
    | check idle outcome => exact barrier.idle (others (by simp)) rfl
  | @given worker now job reply moved doing =>
    have executed : (s.record (.assign worker now)
        ⟨job, s.pool.set worker (some reply.execution)⟩ h).executed = h.executed := by
      simp [Cluster.record, History.record, doing]
    generalize s.record (.assign worker now)
      ⟨job, s.pool.set worker (some reply.execution)⟩ h = h' at executed ⊢
    cases jobStep_of_step moved with
    | @assign _ _ c reply' checked outcome =>
      have received : Worker.receive reply' = .doing reply := by
        simpa [Job.setWorker] using doing
      obtain rfl : reply' = reply := (receive_eq_doing received).1
      exact barrier.given intact executed
  | @waits worker now job moved nothing =>
    have executed : (s.record (.assign worker now) { s with job := job } h).executed = h.executed := by
      simp only [Cluster.record, History.record]
    generalize s.record (.assign worker now) { s with job := job } h = h' at executed ⊢
    cases jobStep_of_step moved with
    | @assign _ _ c reply checked outcome =>
      refine barrier.idle (others ?_) executed
      intro reply' received
      exact nothing reply' (by simpa [Job.setWorker] using received)
  | @worked worker action execution execution' directory running stepped =>
    have same : s.record (.work worker action)
        { s with pool := { s.pool.set worker (some execution') with directory := directory } } h =
          h := by
      simp [Cluster.record, Pool.set]
    rw [same]
    exact barrier.worked running succeeds stepped
  | @returned worker action execution directory job running stepped moved =>
    cases jobStep_of_step moved with
    | @execute _ reply doing =>
      apply barrier.returned doing running succeeds stepped
      intro dealing listed
      simpa [Cluster.record, History.record, Pool.set, doing] using listed
  | @report worker job moved =>
    have executed : (s.record (.report worker) { s with job := job } h).executed = h.executed := by
      simp only [Cluster.record, History.record]
      split
      · rfl
      · rfl
    generalize s.record (.report worker) { s with job := job } h = h' at executed ⊢
    cases jobStep_of_step moved with
    | report done found => exact barrier.idle (others (by simp)) executed
  | crash moved =>
    cases jobStep_of_step moved with
    | crash => exact barrier.crash

theorem barrier_reachable (supplied : setting.Supplied files nReduce directory) {s : Cluster}
    {h : History} (reached : (recordedCluster setting files nReduce directory).ReachableWhen
      (fun _ e => e.Succeeds) (s, h)) : Barrier setting files nReduce s h := by
  apply reached.invariant (I := fun s => Barrier setting files nReduce s.1 s.2)
  · exact barrier_init supplied
  · rintro ⟨s, h⟩ e ⟨s', h'⟩ before barrier succeeds next
    obtain ⟨stepped, recorded⟩ : s.step setting e = some s' ∧ h' = s.record e s' h :=
      Machine.withHistory_step.mp next
    subst recorded
    have rep := represents_cluster before.dropHistory
    exact barrier_step (clusterStep_of_step stepped) succeeds rep barrier

/-- In every run of a job in which file-system calls succeed, with any number of workers that crash
    and are slow at any point, and in a directory with any contents at the start in which the job
    gives no file of its own the name of an input file: whenever `AssignedTask` hands out a reduce
    task, every intermediate file is there and holds its part of the map output of its input file. -/
theorem mapReduceBarrier (supplied : setting.Supplied files nReduce directory) {s : Cluster}
    (reached : (cluster setting files nReduce directory).ReachableWhen (fun _ e => e.Succeeds) s)
    {c : Coordinator} {now : Nat → Int} {reply : TaskAssingnemnt}
    (assigned : s.job.coordinator.assignedTask now = some (c, reply))
    (kind : reply.taskType = .reduceTask) {m r : Nat} {fileName : String}
    (input : files[m]? = some fileName) (inside : r < nReduce) :
    s.pool.directory.lookup (FileName.intermediate m r).print =
      some (.file (setting.json.encodeAll (part nReduce r (setting.mapOutput fileName)))) := by
  obtain ⟨h, recorded⟩ := reached.withHistory History.start Cluster.record
  have first := mapsFirst_reachable (recordedJob_reachable recorded.reachable)
  have reducing := (assignedTask_cases assigned).reducing kind
  have listed : m < files.length := (List.getElem?_eq_some_iff.mp input).1
  have barrier := barrier_reachable supplied recorded
  exact barrier.placed m (first.all reducing m listed) fileName input r inside

/-- Counting letters in files that lie in the directory of the workers. -/
def lettersHere : Setting := { letters with path := some }

/-- A directory with the given input files, each with its name as its contents. -/
def inputDirectory (names : List String) : Directory :=
  names.foldl (fun directory name => directory.insert name (.file (AsciiJson.ascii name))) ∅

/-- Worker 0 crashes between its two renames, and worker 1 is given the task again. -/
def renamedHalf : Cluster :=
  ((cluster lettersHere ["aba"] 2 (inputDirectory ["aba"])).guarded fun _ e => e.Succeeds).after
    [.check 0, .assign 0 (fun _ => 0), .work 0 (.read true), .work 0 (.create (some 7)),
      .work 0 (.create (some 8)), .work 0 .compute, .work 0 (.write none), .work 0 (.write none),
      .work 0 .compute, .work 0 (.rename true true), .crash 0,
      .check 1, .assign 1 (fun _ => 11000000000), .check 1, .assign 1 (fun _ => 12000000000),
      .work 1 (.read true), .work 1 (.create (some 7)), .work 1 (.create (some 9)),
      .work 1 .compute, .work 1 (.write none), .work 1 (.write none), .work 1 .compute,
      .work 1 (.rename true true), .work 1 (.rename true true), .work 1 .compute, .report 1,
      .check 1]

theorem mapReduceBarrier_renamedHalf :
    renamedHalf.pool.directory.lookup (FileName.intermediate 0 1).print =
      some (.file (lettersHere.json.encodeAll (part 2 1 (lettersHere.mapOutput "aba")))) := by
  have supplied : lettersHere.Supplied ["aba"] 2 (inputDirectory ["aba"]) :=
    supplied_here (by decide +kernel) (by decide +kernel)
  have reached : (cluster lettersHere ["aba"] 2 (inputDirectory ["aba"])).ReachableWhen
      (fun _ e => e.Succeeds) renamedHalf :=
    Machine.reachableWhen_of_guarded (Machine.reachable_after _)
  have kind : (renamedHalf.job.coordinator.assignedTask fun _ => 13000000000).map
      (fun result => result.2.taskType) = some .reduceTask := by decide +kernel
  obtain ⟨⟨c, reply⟩, assigned, reduce⟩ := Option.map_eq_some_iff.mp kind
  exact mapReduceBarrier supplied reached assigned reduce rfl (by decide)

/-- An application that emits each input file as one key, in the directory of the workers. -/
def wholeFiles : Setting := { lettersHere with mapf := fun _ content => [(content, [])] }

/-- The second input file is named like the intermediate file of the first map task, which is done
    before it is read. -/
def overwrittenInput : Cluster :=
  ((cluster wholeFiles ["a", "mr-0-0"] 1 (inputDirectory ["a", "mr-0-0"])).guarded
    fun _ e => e.Succeeds).after
    [.check 0, .assign 0 (fun _ => 0), .work 0 (.read true), .work 0 (.create (some 7)),
      .work 0 .compute, .work 0 (.write none), .work 0 .compute, .work 0 (.rename true true),
      .work 0 .compute, .report 0,
      .check 0, .assign 0 (fun _ => 1), .work 0 (.read true), .work 0 (.create (some 8)),
      .work 0 .compute, .work 0 (.write none), .work 0 .compute, .work 0 (.rename true true),
      .work 0 .compute, .report 0, .check 0]

/-- A reduce task is handed out next, and `mr-1-0` has the entries of `mr-0-0` as the first map task has
    left it, not those of the second input file. -/
theorem overwrittenInput_mismatch :
    (∀ fileName ∈ ["a", "mr-0-0"], wholeFiles.readFile (inputDirectory ["a", "mr-0-0"]) fileName =
        some (wholeFiles.input fileName)) ∧
      (cluster wholeFiles ["a", "mr-0-0"] 1 (inputDirectory ["a", "mr-0-0"])).ReachableWhen
        (fun _ e => e.Succeeds) overwrittenInput ∧
      (overwrittenInput.job.coordinator.assignedTask fun _ => 2).map
        (fun result => result.2.taskType) = some .reduceTask ∧
      overwrittenInput.pool.directory.lookup (FileName.intermediate 1 0).print ≠
        some (.file (wholeFiles.json.encodeAll (part 1 0 (wholeFiles.mapOutput "mr-0-0")))) := by
  refine ⟨by decide +kernel, ?_, by decide +kernel, by decide +kernel⟩
  exact Machine.reachableWhen_of_guarded (Machine.reachable_after _)

end DistributedCloud.MapReduce
