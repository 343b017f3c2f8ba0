import DistributedCloud.MapReduce.Proofs.Representation
import DistributedCloud.MapReduce.Proofs.System

/-!
# One live worker can finish the job

Whatever has been handed out and to whomever, a single worker that keeps asking finishes the
job. Its request is answered with a new task, with a task that waits to be handed out again, or
it has to wait; when it waits long enough, one of the tasks in progress has timed out and the
next request is answered with that. Each task it reports leaves less to be done.
-/

namespace DistributedCloud.MapReduce

open Coordinator

namespace Coordinator

variable {files : List String} {nReduce : Nat} {c c' : Coordinator}

/-! ## What is left to do -/

/-- The number of tasks in progress. -/
def underWay (c : Coordinator) : Nat := c.tasks.countP (fun task => task.status = .doing)

/-- A bound on the reports that are still needed. -/
def remaining (c : Coordinator) : Nat :=
  match c.phase with
  | .mapPhase => c.file.length + c.underWay + c.rePendingTask.length + c.nReduce + 1
  | .reducePhase => c.nReduce - c.nCurrentAssignedReduceTask + c.underWay + c.rePendingTask.length
  | .finishPhase => 0

theorem check_remaining (c : Coordinator) : c.check.remaining ≤ c.remaining := by
  have outcome := check_cases c
  generalize c.check = after at outcome
  cases outcome with
  | same => exact Nat.le_refl _
  | mapped phase files rePending nonempty done =>
    simp only [remaining, underWay, phase, rePending, List.countP_nil, List.length_nil]
    omega
  | reduced phase assigned rePending nonempty done => exact Nat.zero_le _

/-- A second look at the same state changes nothing. -/
theorem check_check (c : Coordinator) : c.check.check = c.check := by
  have outcome := check_cases c
  generalize looked : c.check = after at outcome
  cases outcome with
  | same => exact looked
  | mapped phase files rePending nonempty done => simp [check, allTaskDone]
  | reduced phase assigned rePending nonempty done => simp [check]

/-- The phase does not change while a task waits. -/
theorem check_of_waiting (waiting : c.rePendingTask ≠ []) : c.check = c := by
  have outcome := check_cases c
  generalize c.check = after at outcome
  cases outcome with
  | same => rfl
  | mapped phase files rePending nonempty done => exact absurd rePending waiting
  | reduced phase assigned rePending nonempty done => exact absurd rePending waiting

/-- A task that is reported is no longer under way. -/
theorem countP_set_completed {tasks : List Task} {i : Nat} {entry entry' : Task}
    (found : tasks[i]? = some entry) (done : entry'.status = .completed) :
    (tasks.set i entry').countP (fun task => task.status = .doing) +
      (if entry.status = .doing then 1 else 0) = tasks.countP (fun task => task.status = .doing) := by
  obtain ⟨inside, here⟩ := List.getElem?_eq_some_iff.mp found
  rw [List.countP_set inside, here]
  by_cases doing : entry.status = .doing
  · have positive : 0 < tasks.countP (fun task => task.status = .doing) :=
      List.countP_pos_iff.mpr ⟨entry, List.mem_of_getElem? found, by simp [doing]⟩
    simp only [doing, done]
    simp
    omega
  · simp [doing, done]

/-! ## A request that is answered with a task -/

/-- A request at the time `now` is answered with a task, and its report leads to `c'`. -/
def Turn (c : Coordinator) (now : Nat → Int) (c' : Coordinator) : Prop :=
  ∃ middle reply, c.assignedTask now = some (middle, reply) ∧
    (reply.taskType = .mapTask ∨ reply.taskType = .reduceTask) ∧
    middle.markTaskDone reply.taskID = some c'

theorem Represents.turn (rep : c.Represents files nReduce) {now : Nat → Int}
    (turn : Turn c now c') : c'.Represents files nReduce := by
  obtain ⟨middle, reply, assigned, -, marked⟩ := turn
  obtain ⟨entry, found, rfl⟩ := markTaskDone_cases marked
  exact (rep.assigned (assignedTask_cases assigned)).set found rfl rfl (Or.inr rfl)

theorem markTaskDone_last {tasks : List Task} {last : Task} {id : Nat} (next : id = tasks.length)
    (here : c.tasks = tasks ++ [last]) :
    c.markTaskDone id = some { c with tasks := tasks ++ [{ last with status := .completed }] } := by
  subst next
  simp [markTaskDone, here]

/-- Nothing is handed out for the first time any more. -/
def AllHandedOut (c : Coordinator) : Prop :=
  c.phase = .mapPhase ∧ c.file = [] ∨
    c.phase = .reducePhase ∧ c.nCurrentAssignedReduceTask = c.nReduce

theorem AllHandedOut.assignedTask (all : c.AllHandedOut) :
    ∃ nReduce taskType, (taskType = .mapTask ∨ taskType = .reduceTask) ∧
      ∀ now, c.assignedTask now = c.assignedRePending now nReduce taskType := by
  rcases all with ⟨phase, file⟩ | ⟨phase, all⟩
  · refine ⟨c.nReduce, .mapTask, Or.inl rfl, fun now => ?_⟩
    simp [Coordinator.assignedTask, phase, file]
  · refine ⟨0, .reduceTask, Or.inr rfl, fun now => ?_⟩
    simp [Coordinator.assignedTask, phase, all]

/-- A new task. -/
theorem Represents.turn_new (rep : c.Represents files nReduce) (working : c.phase ≠ .finishPhase)
    (more : ¬ c.AllHandedOut) (now : Nat → Int) :
    ∃ c', Turn c now c' ∧ c'.remaining < c.remaining := by
  cases phase : c.phase with
  | mapPhase =>
    obtain ⟨length, -⟩ := rep.mapping phase
    cases file : c.file with
    | nil => exact absurd (Or.inl ⟨phase, file⟩) more
    | cons name rest =>
      have assigned : c.assignedTask now =
          some ({ c with
              tasks := c.tasks ++ [⟨name, c.nCurrentAssignedMapTask, now 0, .doing⟩]
              file := rest
              nCurrentAssignedMapTask := c.nCurrentAssignedMapTask + 1 },
            ⟨some ⟨name, c.nCurrentAssignedMapTask, now 0, .doing⟩, c.nReduce, .mapTask⟩) := by
        simp [assignedTask, phase, file]
      refine ⟨_, ⟨_, _, assigned, Or.inl rfl, markTaskDone_last length.symm rfl⟩, ?_⟩
      simp only [remaining, underWay, phase, file, List.countP_append, List.length_cons]
      simp
  | reducePhase =>
    obtain ⟨length, bound⟩ := rep.reducing (by rw [phase]; simp)
    have left : c.nCurrentAssignedReduceTask ≠ c.nReduce :=
      fun all => more (Or.inr ⟨phase, all⟩)
    have assigned : c.assignedTask now =
        some ({ c with
            tasks := c.tasks ++ [⟨"", c.nCurrentAssignedReduceTask, now 0, .doing⟩]
            nCurrentAssignedReduceTask := c.nCurrentAssignedReduceTask + 1 },
          ⟨some ⟨"", c.nCurrentAssignedReduceTask, now 0, .doing⟩, 0, .reduceTask⟩) := by
      simp [assignedTask, phase, left]
    refine ⟨_, ⟨_, _, assigned, Or.inr rfl, markTaskDone_last length.symm rfl⟩, ?_⟩
    simp only [remaining, underWay, phase, List.countP_append]
    simp
    omega
  | finishPhase => exact absurd phase working

/-- A task that waits to be handed out again. -/
theorem turn_again {task entry : Task} (all : c.AllHandedOut)
    (rePending : c.rePendingTask = [task]) (found : c.tasks[task.taskID]? = some entry)
    (now : Nat → Int) :
    ∃ c', Turn c now c' ∧
      c'.remaining + 1 + (if entry.status = .doing then 1 else 0) = c.remaining := by
  obtain ⟨nReduce, taskType, work, same⟩ := all.assignedTask
  have inside := (List.getElem?_eq_some_iff.mp found).1
  have assigned : c.assignedTask now =
      some ({ c with
          tasks := c.tasks.set task.taskID { entry with startTime := now 0 }
          rePendingTask := [] },
        ⟨some { task with startTime := now 1, status := .doing }, nReduce, taskType⟩) := by
    simp [same, assignedRePending, rePending, found]
  have marked : ({ c with
        tasks := c.tasks.set task.taskID { entry with startTime := now 0 }
        rePendingTask := [] } : Coordinator).markTaskDone task.taskID =
      some { c with
        tasks := c.tasks.set task.taskID { entry with startTime := now 0, status := .completed }
        rePendingTask := [] } := by
    simp [markTaskDone, inside]
  refine ⟨_, ⟨_, _, assigned, work, marked⟩, ?_⟩
  have fewer : (c.tasks.set task.taskID
        { entry with startTime := now 0, status := .completed }).countP
          (fun task => task.status = .doing) + (if entry.status = .doing then 1 else 0) =
      c.tasks.countP (fun task => task.status = .doing) := countP_set_completed found rfl
  rcases all with ⟨phase, -⟩ | ⟨phase, -⟩
  · simp only [remaining, underWay, phase, rePending, List.length_singleton, List.length_nil]
    omega
  · simp only [remaining, underWay, phase, rePending, List.length_singleton, List.length_nil]
    omega

/-! ## A request that has to wait -/

/-- When all tasks have been handed out and nothing waits, one of them is still in progress:
    otherwise `Check` would have changed the phase. -/
theorem Represents.exists_doing (rep : c.Represents files nReduce) (some : files ≠ [])
    (positive : 1 ≤ nReduce) (checked : c.check = c) (all : c.AllHandedOut)
    (nothing : c.rePendingTask = []) : ∃ entry ∈ c.tasks, entry.status = .doing := by
  have nonempty : c.tasks ≠ [] := by
    intro empty
    rcases all with ⟨phase, file⟩ | ⟨phase, all⟩
    · obtain ⟨-, inputs, -⟩ := rep.mapping phase
      exact some (by simpa [empty, file] using inputs.symm)
    · obtain ⟨length, -⟩ := rep.reducing (by rw [phase]; simp)
      rw [empty, List.length_nil, all, rep.total] at length
      omega
  have notDone : ¬ ∀ task ∈ c.tasks, task.status = .completed := by
    intro done
    have ready : c.allTaskDone = true := allTaskDone_iff.mpr ⟨nonempty, done⟩
    have kept := congrArg Coordinator.phase checked
    rcases all with ⟨phase, file⟩ | ⟨phase, all⟩
    · simp [Coordinator.check, phase, ready, file, nothing] at kept
    · simp [Coordinator.check, phase, ready, all, nothing] at kept
  push Not at notDone
  obtain ⟨entry, listed, open_⟩ := notDone
  exact ⟨entry, listed, (rep.underway entry listed).resolve_right open_⟩

/-- Once the clock has passed the start of every task by ten seconds, a request that has to wait
    queues a task in progress. -/
theorem wait_queues {entry : Task} (all : c.AllHandedOut) (nothing : c.rePendingTask = [])
    (listed : entry ∈ c.tasks) (doing : entry.status = .doing) {now : Nat → Int}
    (late : ∀ i, now i - entry.startTime > outTime) :
    ∃ copied start, copied ∈ c.tasks ∧ copied.status = .doing ∧
      c.assignedTask now =
        some ({ c with
            rePendingTask := [{ copied with startTime := start, status := .pending }] },
          ⟨none, 0, .waitTask⟩) := by
  obtain ⟨nReduce, taskType, -, same⟩ := all.assignedTask
  obtain ⟨task, timedOut⟩ := Option.isSome_iff_exists.mp (firstTimeOut_isSome listed doing late 0)
  obtain ⟨copied, inside, underWay, start, rfl⟩ := firstTimeOut_eq_some timedOut
  have working : c.phase ≠ .finishPhase := by
    rcases all with ⟨phase, -⟩ | ⟨phase, -⟩ <;> rw [phase] <;> simp
  refine ⟨copied, start, inside, underWay, ?_⟩
  simp [same, assignedRePending, nothing, handleTimeOutTask, working, timedOut]

end Coordinator

/-! ## The rounds of one worker -/

section Rounds

variable {s : Job} {worker : Nat} {t : Int} {c : Coordinator} {reply : TaskAssingnemnt}

/-- The first half of a round. -/
theorem step_request (idle : s.workers worker = .idle)
    (assigned : s.coordinator.check.assignedTask (fun _ => t) = some (c, reply)) :
    ∃ s₁ s₂, s.step (.check worker) = some s₁ ∧ s₁.step (.assign worker (fun _ => t)) = some s₂ ∧
      s₂.coordinator = c ∧ s₂.workers worker = .receive reply := by
  refine ⟨{ s.setWorker worker .checked with coordinator := s.coordinator.check },
    { coordinator := c,
      workers := Function.update (Function.update s.workers worker .checked) worker
        (.receive reply) }, ?_, ?_, rfl, by simp⟩
  · simp [Job.step, idle]
  · simp [Job.step, Job.setWorker, assigned]

/-- A round in which the request is answered with a task. -/
theorem goRound_turn (idle : s.workers worker = .idle)
    (turn : Turn s.coordinator.check (fun _ => t) c) :
    ∃ s', s.goRound worker t = some s' ∧ s'.coordinator = c ∧ s'.workers worker = .idle := by
  obtain ⟨middle, reply, assigned, work, marked⟩ := turn
  obtain ⟨s₁, s₂, checked, answered, coordinator, received⟩ := step_request idle assigned
  have doing : Worker.receive reply = .doing reply := by
    rcases work with taskType | taskType <;> simp [Worker.receive, taskType]
  rw [doing] at received
  refine ⟨{ s₂.setWorker worker .idle with coordinator := c }, ?_, rfl, by simp [Job.setWorker]⟩
  simp only [Job.goRound, checked, answered, received, Option.bind_eq_bind, Option.bind_some]
  simp [Job.step, received, Job.setWorker, coordinator, marked]

/-- A round in which it is not. -/
theorem goRound_rest (idle : s.workers worker = .idle)
    (assigned : s.coordinator.check.assignedTask (fun _ => t) = some (c, reply))
    (rest : reply.taskType = .waitTask ∨ reply.taskType = .finished) :
    ∃ s', s.goRound worker t = some s' ∧ s'.coordinator = c ∧
      s'.workers worker = .receive reply := by
  obtain ⟨s₁, s₂, checked, answered, coordinator, received⟩ := step_request idle assigned
  refine ⟨s₂, ?_, coordinator, received⟩
  simp only [Job.goRound, checked, answered, received, Option.bind_eq_bind, Option.bind_some]
  rcases rest with taskType | taskType <;> simp [Worker.receive, taskType]

end Rounds

/-- The worker finishes the job from `s`, in rounds at times from `start` on. -/
def Finishes (s : Job) (worker : Nat) (start : Int) : Prop :=
  ∃ times s', (start :: times).Pairwise (· ≤ ·) ∧ s.workAlone worker times = some s' ∧
    s'.coordinator.phase = .finishPhase

theorem finishes_of_round {s s' : Job} {worker : Nat} {start t : Int} (later : start ≤ t)
    (round : s.goRound worker t = some s') (rest : Finishes s' worker t) :
    Finishes s worker start := by
  obtain ⟨times, last, sorted, worked, finished⟩ := rest
  refine ⟨t :: times, last, ?_, ?_, finished⟩
  · refine List.pairwise_cons.mpr ⟨fun time listed => ?_, sorted⟩
    rcases List.mem_cons.mp listed with rfl | listed
    · exact later
    · exact Int.le_trans later (List.rel_of_pairwise_cons sorted listed)
  · simp [Job.workAlone, round, worked]

/-- Two rounds, in the first of which the worker has to wait until a task has timed out. -/
theorem rounds_after_wait {files : List String} {nReduce : Nat} {s : Job} {worker : Nat}
    {start : Int} (rep : s.coordinator.check.Represents files nReduce) (some : files ≠ [])
    (positive : 1 ≤ nReduce) (idle : s.workers worker = .idle)
    (all : s.coordinator.check.AllHandedOut) (nothing : s.coordinator.check.rePendingTask = []) :
    ∃ t, start ≤ t ∧ ∃ s₁, s.goRound worker t = Option.some s₁ ∧
      ∃ s₂, s₁.goRound worker t = Option.some s₂ ∧ s₂.workers worker = .idle ∧
        s₂.coordinator.Represents files nReduce ∧
        s₂.coordinator.remaining < s.coordinator.check.remaining := by
  obtain ⟨entry, listed, doing⟩ :=
    rep.exists_doing some positive (check_check s.coordinator) all nothing
  obtain ⟨t, later, late⟩ : ∃ t, start ≤ t ∧ t - entry.startTime > outTime :=
    ⟨max start (entry.startTime + outTime + 1), by omega, by omega⟩
  obtain ⟨copied, begun, inside, underWay, assigned⟩ :=
    wait_queues all nothing listed doing (fun _ => late)
  obtain ⟨s₁, first, coordinator, received⟩ := goRound_rest idle assigned (Or.inl rfl)
  refine ⟨t, later, s₁, first, ?_⟩
  obtain ⟨i, found⟩ := List.mem_iff_getElem?.mp inside
  have id : copied.taskID = i := rep.ids i copied found
  have waiting : s₁.coordinator.check = s₁.coordinator := by
    apply check_of_waiting
    rw [coordinator]
    simp
  have queuedRep : s₁.coordinator.Represents files nReduce := by
    rw [coordinator]
    exact rep.assigned (assignedTask_cases assigned)
  have queued : s₁.coordinator.rePendingTask =
      [{ copied with startTime := begun, status := .pending }] := by rw [coordinator]
  have listed : s₁.coordinator.tasks[copied.taskID]? = Option.some copied := by
    rw [coordinator, id]
    exact found
  obtain ⟨c, turn, fewer⟩ :=
    turn_again (by rw [coordinator]; exact all) queued listed (fun _ => t)
  obtain ⟨s₂, second, after, rested⟩ := goRound_turn received (by rw [waiting]; exact turn)
  refine ⟨s₂, second, rested, ?_, ?_⟩
  · rw [after]
    exact queuedRep.turn turn
  · have longer : s₁.coordinator.remaining = s.coordinator.check.remaining + 1 := by
      rw [coordinator]
      rcases all with ⟨phase, -⟩ | ⟨phase, -⟩ <;> simp [remaining, phase, nothing, Coordinator.underWay]
      omega
    rw [if_pos underWay] at fewer
    rw [after]
    omega

/-- One worker finishes the job: by induction on what is left to do, which every task that it
    reports makes less. -/
theorem finishes_of_represents {files : List String} {nReduce : Nat} (some : files ≠ [])
    (positive : 1 ≤ nReduce) {worker : Nat} {s : Job} (rep : s.coordinator.Represents files nReduce)
    (idle : s.workers worker = .idle) (start : Int) : Finishes s worker start := by
  induction left : s.coordinator.remaining using Nat.strong_induction_on generalizing s start with
  | _ left ih =>
    have checkedRep := rep.check (check_cases s.coordinator)
    have fewer := check_remaining s.coordinator
    -- a round that is answered with a task, and the rounds after it
    have work : ∀ c, Turn s.coordinator.check (fun _ => start) c →
        c.remaining < s.coordinator.check.remaining → Finishes s worker start := by
      intro c turn less
      obtain ⟨s', round, rfl, rested⟩ := goRound_turn idle turn
      exact finishes_of_round (Int.le_refl _) round
        (ih _ (by omega) (checkedRep.turn turn) rested start rfl)
    by_cases finished : s.coordinator.check.phase = .finishPhase
    · have assigned : s.coordinator.check.assignedTask (fun _ => start) =
          Option.some (s.coordinator.check, ⟨none, 0, .finished⟩) := by
        simp [assignedTask, finished]
      obtain ⟨s', round, coordinator, -⟩ := goRound_rest idle assigned (Or.inr rfl)
      refine finishes_of_round (Int.le_refl _) round ⟨[], s', by simp, rfl, ?_⟩
      rw [coordinator, finished]
    by_cases all : s.coordinator.check.AllHandedOut
    · cases rePending : s.coordinator.check.rePendingTask with
      | cons task rest =>
        obtain rfl := checkedRep.nothing_behind rePending
        obtain ⟨entry, found, -⟩ := Option.map_eq_some_iff.mp
          (checkedRep.copies task (by rw [rePending]; exact List.mem_cons_self))
        obtain ⟨c, turn, less⟩ := turn_again all rePending found (fun _ => start)
        exact work c turn (by omega)
      | nil =>
        obtain ⟨t, later, s₁, first, s₂, second, rested, after, less⟩ :=
          rounds_after_wait checkedRep some positive idle all rePending
        apply finishes_of_round later first
        apply finishes_of_round (Int.le_refl _) second
        exact ih _ (by omega) after rested t rfl
    · obtain ⟨c, turn, less⟩ := checkedRep.turn_new finished all (fun _ => start)
      exact work c turn less

/-! ## Runs of a job -/

theorem represents_jobStep {files : List String} {nReduce : Nat} {s s' : Job} {e : Event}
    (next : JobStep s e s') (rep : s.coordinator.Represents files nReduce) :
    s'.coordinator.Represents files nReduce := by
  cases next with
  | check idle outcome => exact rep.check outcome
  | assign checked outcome => exact rep.assigned outcome
  | execute doing => exact rep
  | report executed found => exact rep.set found rfl rfl (Or.inr rfl)
  | crash => exact rep

theorem represents_job {files : List String} {nReduce : Nat} {s : Job}
    (reached : (job files nReduce).Reachable s) : s.coordinator.Represents files nReduce := by
  apply reached.invariant (I := fun s => s.coordinator.Represents files nReduce)
  · exact represents_makeCoordinator files nReduce
  · intro s e s' _ rep _ next
    exact represents_jobStep (jobStep_of_step next) rep

/-- Only finitely many workers have taken part so far. -/
theorem eventually_idle {files : List String} {nReduce : Nat} {s : Job}
    (reached : (job files nReduce).Reachable s) :
    ∃ bound, ∀ worker ≥ bound, s.workers worker = .idle := by
  apply reached.invariant (I := fun s => ∃ bound, ∀ worker ≥ bound, s.workers worker = .idle)
  · exact ⟨0, fun _ _ => rfl⟩
  · rintro s e s' - ⟨bound, idle⟩ - next
    have spared : ∀ mover state worker, worker ≥ max bound (mover + 1) →
        (s.setWorker mover state).workers worker = .idle := by
      intro mover state worker above
      have other : worker ≠ mover := by omega
      simp only [Job.setWorker, Function.update_of_ne other]
      exact idle worker (by omega)
    cases jobStep_of_step next with
    | check => exact ⟨_, spared _ _⟩
    | assign => exact ⟨_, spared _ _⟩
    | execute => exact ⟨_, spared _ _⟩
    | report => exact ⟨_, spared _ _⟩
    | crash => exact ⟨_, spared _ _⟩

/-- From every state of a job on at least one file, whatever has become of the workers, there is
    a worker that is free to ask, and every such worker can finish the job alone, from any time
    on. -/
theorem noWedgedJob {files : List String} {nReduce : Nat} (some : files ≠ [])
    (positive : 1 ≤ nReduce) {s : Job} (reached : (job files nReduce).Reachable s) :
    (∃ worker, s.workers worker = .idle) ∧
      ∀ worker, s.workers worker = .idle → ∀ start, ∃ times s',
        (start :: times).Pairwise (· ≤ ·) ∧ s.workAlone worker times = Option.some s' ∧
          s'.coordinator.phase = .finishPhase := by
  constructor
  · obtain ⟨bound, idle⟩ := eventually_idle reached
    exact ⟨bound, idle bound (Nat.le_refl _)⟩
  · intro worker idle start
    exact finishes_of_represents some positive (represents_job reached) idle start

/-- Worker 0 has crashed with the only map task. -/
def crashedWithTask : Job :=
  (job ["pg-tom_sawyer.txt"] 1).after [.check 0, .assign 0 (fun _ => 0), .crash 0]

theorem noWedgedJob_crashedWithTask :
    crashedWithTask.coordinator.tasks.map Task.status = [.doing] ∧
      ∃ times s', crashedWithTask.workAlone 1 times = some s' ∧
        s'.coordinator.phase = .finishPhase := by
  have reached : (job ["pg-tom_sawyer.txt"] 1).Reachable crashedWithTask :=
    Machine.reachable_after _
  refine ⟨by decide +kernel, ?_⟩
  obtain ⟨times, s', -, worked, finished⟩ :=
    (noWedgedJob (by simp) (by decide) reached).2 1 (by decide +kernel) 0
  exact ⟨times, s', worked, finished⟩

end DistributedCloud.MapReduce
