import DistributedCloud.MapReduce.Cluster
import DistributedCloud.MapReduce.Proofs.Executions
import DistributedCloud.MapReduce.Proofs.Progress
import DistributedCloud.MapReduce.Proofs.System

/-!
# The steps of a cluster

The job of a cluster runs like a job, and its workers execute tasks of the job, so that the executions
in the directory do not disturb each other.
-/

namespace DistributedCloud.MapReduce

open Coordinator

variable {setting : Setting} {files : List String} {nReduce : Nat} {directory : Directory}

/-! ## The steps of a cluster -/

/-- The steps of a cluster. -/
inductive ClusterStep (setting : Setting) (s : Cluster) : ClusterEvent → Cluster → Prop
  | check {worker : Nat} {job : Job} (next : s.job.step (.check worker) = some job) :
      ClusterStep setting s (.check worker) { s with job := job }
  | given {worker : Nat} {now : Nat → Int} {job : Job} {reply : TaskAssingnemnt}
      (next : s.job.step (.assign worker now) = some job) (doing : job.workers worker = .doing reply) :
      ClusterStep setting s (.assign worker now) ⟨job, s.pool.set worker (some reply.execution)⟩
  | waits {worker : Nat} {now : Nat → Int} {job : Job}
      (next : s.job.step (.assign worker now) = some job)
      (nothing : ∀ reply, job.workers worker ≠ .doing reply) :
      ClusterStep setting s (.assign worker now) { s with job := job }
  | worked {worker : Nat} {action : Action} {execution execution' : Execution}
      {directory : Directory} (running : s.pool.running worker = some execution)
      (stepped : execution.step setting s.pool.directory action =
        some (directory, some execution')) :
      ClusterStep setting s (.work worker action)
        { s with pool := { s.pool.set worker (some execution') with directory := directory } }
  | returned {worker : Nat} {action : Action} {execution : Execution} {directory : Directory}
      {job : Job} (running : s.pool.running worker = some execution)
      (stepped : execution.step setting s.pool.directory action = some (directory, none))
      (next : s.job.step (.execute worker) = some job) :
      ClusterStep setting s (.work worker action)
        ⟨job, { s.pool.set worker none with directory := directory }⟩
  | report {worker : Nat} {job : Job} (next : s.job.step (.report worker) = some job) :
      ClusterStep setting s (.report worker) { s with job := job }
  | crash {worker : Nat} {job : Job} (next : s.job.step (.crash worker) = some job) :
      ClusterStep setting s (.crash worker) ⟨job, s.pool.set worker none⟩

theorem clusterStep_of_step {s s' : Cluster} {e : ClusterEvent}
    (next : s.step setting e = some s') : ClusterStep setting s e s' := by
  cases e with
  | check worker =>
    obtain ⟨job, moved, returned⟩ := Option.bind_eq_some_iff.mp next
    cases returned
    exact .check moved
  | assign worker now =>
    obtain ⟨job, moved, returned⟩ := Option.bind_eq_some_iff.mp next
    split at returned
    · rename_i doing
      cases returned
      exact .given moved doing
    · rename_i nothing
      cases returned
      exact .waits moved nothing
  | work worker action =>
    obtain ⟨pool, worked, next⟩ := Option.bind_eq_some_iff.mp next
    obtain ⟨execution, directory, after, running, stepped, rfl⟩ := work_eq_some worked
    cases after with
    | some execution' =>
      obtain rfl : { s with
          pool := { s.pool.set worker (some execution') with directory := directory } } = s' := by
        simpa [Pool.set] using next
      exact .worked running stepped
    | none =>
      have next : ((s.job.step (.execute worker)).bind fun job =>
          some ⟨job, { s.pool.set worker none with directory := directory }⟩) = some s' := by
        simpa [Pool.set] using next
      obtain ⟨job, moved, returned⟩ := Option.bind_eq_some_iff.mp next
      cases returned
      exact .returned running stepped moved
  | report worker =>
    obtain ⟨job, moved, returned⟩ := Option.bind_eq_some_iff.mp next
    cases returned
    exact .report moved
  | crash worker =>
    cases next
    exact .crash rfl

/-- The job of a cluster runs like a job. -/
theorem recordedJob_reachable {s : Cluster} {h : History}
    (reached : (recordedCluster setting files nReduce directory).Reachable (s, h)) :
    (recordedJob files nReduce).Reachable (s.job, h) := by
  apply reached.project (f := fun s => (s.1.job, s.2))
  · rfl
  · rintro ⟨s, h⟩ e ⟨s', h'⟩ - next
    obtain ⟨stepped, recorded⟩ :
        s.step setting e = some s' ∧ h' = s.record e s' h := Machine.withHistory_step.mp next
    subst recorded
    cases clusterStep_of_step stepped with
    | @check worker job moved =>
      exact .inr ⟨.check worker, Machine.withHistory_step.mpr ⟨moved, rfl⟩⟩
    | @given worker now job reply moved doing =>
      exact .inr ⟨.assign worker now, Machine.withHistory_step.mpr ⟨moved, rfl⟩⟩
    | @waits worker now job moved nothing =>
      exact .inr ⟨.assign worker now, Machine.withHistory_step.mpr ⟨moved, rfl⟩⟩
    | worked running stepped =>
      -- an action inside a task: the job stands still
      left
      simp [Cluster.record, Pool.set]
    | @returned worker action execution directory job running stepped moved =>
      refine .inr ⟨.execute worker, Machine.withHistory_step.mpr ⟨moved, ?_⟩⟩
      simp [Cluster.record, Pool.set]
    | @report worker job moved =>
      exact .inr ⟨.report worker, Machine.withHistory_step.mpr ⟨moved, rfl⟩⟩
    | @crash worker job moved =>
      exact .inr ⟨.crash worker, Machine.withHistory_step.mpr ⟨moved, rfl⟩⟩

/-! ## Replies -/

/-- A map task is handed out with the name of its input file and the number of parts. -/
theorem Coordinator.Represents.map_reply {c c' : Coordinator} {now : Nat → Int}
    {reply : TaskAssingnemnt} (rep : c.Represents files nReduce)
    (outcome : AssignedOutcome c now c' reply) (kind : reply.taskType = .mapTask) :
    files[reply.taskID]? = some reply.fileName ∧ reply.nReduce = nReduce := by
  cases outcome with
  | @newMap name left phase file =>
    obtain ⟨length, inputs, -⟩ := rep.mapping phase
    refine ⟨?_, rep.total⟩
    rw [← inputs, file]
    simp [TaskAssingnemnt.fileName, ← length]
  | newReduce phase left => cases kind
  | @again task entry rest _ taskType phase rePending found =>
    obtain ⟨phase, -, total, file⟩ : c.phase = .mapPhase ∧ _ := by
      rcases phase with phase | ⟨-, reduce, -⟩
      · exact phase
      · exact absurd (reduce.symm.trans kind) (by simp)
    obtain ⟨-, inputs, -⟩ := rep.mapping phase
    have copied := rep.copies task (by simp [rePending])
    refine ⟨?_, total.trans rep.total⟩
    rw [← inputs, file, List.append_nil, List.getElem?_map]
    exact copied
  | wait phase nothing looked => cases kind
  | finished phase => cases kind

/-- Only from the reduce phase on is a reduce task handed out. -/
theorem Coordinator.AssignedOutcome.reducing {c c' : Coordinator} {now : Nat → Int}
    {reply : TaskAssingnemnt} (outcome : AssignedOutcome c now c' reply)
    (kind : reply.taskType = .reduceTask) : c.phase ≠ .mapPhase := by
  cases outcome with
  | newMap phase file => cases kind
  | newReduce phase left =>
    rw [phase]
    simp
  | again phase rePending found =>
    rcases phase with ⟨-, map, -⟩ | ⟨phase, -⟩
    · exact absurd (map.symm.trans kind) (by simp)
    · rw [phase]
      simp
  | wait phase nothing looked => cases kind
  | finished phase => cases kind

/-- A reduce task is handed out with a number of the job. -/
theorem Coordinator.Represents.reduce_reply {c c' : Coordinator} {now : Nat → Int}
    {reply : TaskAssingnemnt} (rep : c.Represents files nReduce)
    (outcome : AssignedOutcome c now c' reply) (kind : reply.taskType = .reduceTask) :
    reply.taskID < nReduce := by
  obtain ⟨length, bound⟩ := rep.reducing (outcome.reducing kind)
  rw [rep.total] at bound
  cases outcome with
  | newMap phase file => cases kind
  | newReduce phase left =>
    rw [rep.total] at left
    exact lt_of_le_of_ne bound left
  | @again task entry rest _ taskType phase rePending found =>
    have waiting : task.taskID < c.tasks.length := rep.inRange (by simp [rePending])
    exact lt_of_lt_of_le (length ▸ waiting) bound
  | wait phase nothing looked => cases kind
  | finished phase => cases kind

/-- What a worker begins for its reply is an execution of a task of the job. -/
theorem Coordinator.Represents.execution_fresh {c c' : Coordinator} {now : Nat → Int}
    {reply : TaskAssingnemnt} (rep : c.Represents files nReduce)
    (outcome : AssignedOutcome c now c' reply)
    (kinds : reply.taskType = .mapTask ∨ reply.taskType = .reduceTask) :
    reply.execution.temps = [] ∧ reply.execution.Holds setting files nReduce directory ∧
      reply.execution.Whole setting nReduce directory := by
  obtain kind | kind := kinds
  · obtain ⟨listed, total⟩ := rep.map_reply outcome kind
    simp only [TaskAssingnemnt.execution, kind]
    exact ⟨rfl, ⟨listed, total, trivial⟩, trivial⟩
  · simp only [TaskAssingnemnt.execution, kind]
    refine ⟨rfl, ⟨rep.reduce_reply outcome kind, ?_⟩, trivial⟩
    intro temp mine
    cases mine

/-! ## The executions of a cluster -/

/-- A step of a cluster leaves the executions alone, begins one, drops one or is an action of one. -/
theorem ClusterStep.pool_cases {s s' : Cluster} {e : ClusterEvent}
    (next : ClusterStep setting s e s') (rep : s.job.coordinator.Represents files nReduce) :
    s'.pool = s.pool ∨
      (∃ worker begun, s'.pool = s.pool.set worker begun ∧ ∀ execution ∈ begun,
        execution.temps = [] ∧ execution.Holds setting files nReduce s.pool.directory ∧
          execution.Whole setting nReduce s.pool.directory) ∨
      ∃ worker action execution directory after, e = .work worker action ∧
        s.pool.running worker = some execution ∧
        execution.step setting s.pool.directory action = some (directory, after) ∧
        s'.pool = { s.pool.set worker after with directory := directory } := by
  cases next with
  | check moved => exact .inl rfl
  | @given worker now job reply moved doing =>
    cases jobStep_of_step moved with
    | @assign _ _ c reply' checked outcome =>
      obtain ⟨rfl, kinds⟩ := receive_eq_doing (by simpa [Job.setWorker] using doing)
      refine .inr (.inl ⟨worker, _, rfl, ?_⟩)
      rintro _ ⟨⟩
      exact rep.execution_fresh outcome kinds
  | waits moved nothing => exact .inl rfl
  | worked running stepped =>
    exact .inr (.inr ⟨_, _, _, _, _, rfl, running, stepped, rfl⟩)
  | returned running stepped moved =>
    exact .inr (.inr ⟨_, _, _, _, _, rfl, running, stepped, rfl⟩)
  | report moved => exact .inl rfl
  | @crash worker job moved => exact .inr (.inl ⟨worker, none, rfl, by simp⟩)

theorem ClusterStep.tidy {s s' : Cluster} {e : ClusterEvent} (next : ClusterStep setting s e s')
    (rep : s.job.coordinator.Represents files nReduce) (tidy : Tidy setting files nReduce s.pool) :
    Tidy setting files nReduce s'.pool := by
  obtain same | ⟨worker, begun, same, fresh⟩ |
    ⟨worker, action, execution, directory, after, -, running, stepped, same⟩ := next.pool_cases rep
  · rw [same]
    exact tidy
  · rw [same]
    exact tidy.set fun execution listed =>
      ⟨(fresh execution listed).1, (fresh execution listed).2.1⟩
  · rw [same]
    exact tidy.step running
      ((tidy.holds worker execution running).effect tidy.supplied stepped)

theorem ClusterStep.intact {s s' : Cluster} {e : ClusterEvent} (next : ClusterStep setting s e s')
    (succeeds : e.Succeeds) (rep : s.job.coordinator.Represents files nReduce)
    (intact : Intact setting files nReduce s.pool) : Intact setting files nReduce s'.pool := by
  obtain same | ⟨worker, begun, same, fresh⟩ |
    ⟨worker, action, execution, directory, after, rfl, running, stepped, same⟩ :=
      next.pool_cases rep
  · rw [same]
    exact intact
  · rw [same]
    exact intact.set fresh
  · rw [same]
    exact intact.step running (executionStep_of_step succeeds stepped)

theorem represents_cluster {s : Cluster}
    (reached : (cluster setting files nReduce directory).Reachable s) :
    s.job.coordinator.Represents files nReduce := by
  obtain ⟨h, recorded⟩ := reached.withHistory History.start Cluster.record
  exact represents_job (recordedJob_reachable recorded.reachable).dropHistory

/-- The executions of a cluster do not disturb each other, whatever calls fail. -/
theorem tidy_reachable (supplied : setting.Supplied files nReduce directory) {s : Cluster}
    (reached : (cluster setting files nReduce directory).Reachable s) :
    Tidy setting files nReduce s.pool := by
  apply reached.invariant (I := fun s => Tidy setting files nReduce s.pool)
  · exact .init supplied
  · intro s e s' before tidy _ next
    exact (clusterStep_of_step next).tidy (represents_cluster before) tidy

end DistributedCloud.MapReduce
