import DistributedCloud.MapReduce.Proofs.Coordinator
import DistributedCloud.MapReduce.System

/-!
# The steps of a job

`JobStep` lists what each event does, and the history of a run is related to where its workers
stand: a worker that does a task was assigned it, and one that is about to report a task has
executed it.
-/

namespace DistributedCloud.MapReduce

open Coordinator

/-- The steps of a job, with the outcome of the coordinator's function in each. -/
inductive JobStep (s : Job) : Event → Job → Prop
  | check {worker : Nat} {c : Coordinator} (idle : s.workers worker = .idle)
      (outcome : CheckOutcome s.coordinator c) :
      JobStep s (.check worker) { s.setWorker worker .checked with coordinator := c }
  | assign {worker : Nat} {now : Nat → Int} {c : Coordinator} {reply : TaskAssingnemnt}
      (checked : s.workers worker = .checked)
      (outcome : AssignedOutcome s.coordinator now c reply) :
      JobStep s (.assign worker now) { s.setWorker worker (.receive reply) with coordinator := c }
  | execute {worker : Nat} {reply : TaskAssingnemnt} (doing : s.workers worker = .doing reply) :
      JobStep s (.execute worker) (s.setWorker worker (.executed reply))
  | report {worker : Nat} {reply : TaskAssingnemnt} {entry : Task}
      (executed : s.workers worker = .executed reply)
      (found : s.coordinator.tasks[reply.taskID]? = some entry) :
      JobStep s (.report worker)
        { s.setWorker worker .idle with
          coordinator :=
            { s.coordinator with
              tasks := s.coordinator.tasks.set reply.taskID { entry with status := .completed } } }
  | crash {worker : Nat} : JobStep s (.crash worker) (s.setWorker worker .exited)

theorem jobStep_of_step {s s' : Job} {e : Event} (next : s.step e = some s') : JobStep s e s' := by
  cases e with
  | check worker =>
    simp only [Job.step] at next
    split at next
    · rename_i idle
      cases next
      exact .check idle (check_cases _)
    · cases next
  | assign worker now =>
    simp only [Job.step] at next
    split at next
    · rename_i checked
      obtain ⟨⟨c, reply⟩, assigned, returned⟩ := Option.bind_eq_some_iff.mp next
      cases returned
      exact .assign checked (assignedTask_cases assigned)
    · cases next
  | execute worker =>
    simp only [Job.step] at next
    split at next
    · rename_i doing
      cases next
      exact .execute doing
    · cases next
  | report worker =>
    simp only [Job.step] at next
    split at next
    · rename_i executed
      obtain ⟨c, marked, returned⟩ := Option.bind_eq_some_iff.mp next
      obtain ⟨entry, found, rfl⟩ := markTaskDone_cases marked
      cases returned
      exact .report executed found
    · cases next
  | crash worker =>
    cases next
    exact .crash

theorem receive_eq_doing {reply reply' : TaskAssingnemnt}
    (doing : Worker.receive reply = .doing reply') :
    reply = reply' ∧ (reply'.taskType = .mapTask ∨ reply'.taskType = .reduceTask) := by
  unfold Worker.receive at doing
  split at doing
  · rename_i taskType
    cases doing
    exact ⟨rfl, Or.inl taskType⟩
  · rename_i taskType
    cases doing
    exact ⟨rfl, Or.inr taskType⟩
  · cases doing
  · cases doing

theorem receive_ne_executed {reply reply' : TaskAssingnemnt} :
    Worker.receive reply ≠ .executed reply' := by
  unfold Worker.receive
  split
  · simp
  · simp
  · simp
  · simp

/-! ## The history -/

namespace History

/-- `h'` holds everything `h` holds. -/
structure Extends (h h' : History) : Prop where
  assigned : h.assigned ⊆ h'.assigned
  executed : h.executed ⊆ h'.executed
  reported : h.reported ⊆ h'.reported

theorem Extends.refl (h : History) : h.Extends h :=
  ⟨List.Subset.refl _, List.Subset.refl _, List.Subset.refl _⟩

theorem extends_record (s : Job) (e : Event) (s' : Job) (h : History) :
    h.Extends (record s e s' h) := by
  cases e with
  | check worker => exact .refl h
  | assign worker now =>
    simp only [record]
    split
    · exact ⟨List.subset_append_left _ _, List.Subset.refl _, List.Subset.refl _⟩
    · exact .refl h
  | execute worker =>
    simp only [record]
    split
    · exact ⟨List.Subset.refl _, List.subset_append_left _ _, List.Subset.refl _⟩
    · exact .refl h
  | report worker =>
    simp only [record]
    split
    · exact ⟨List.Subset.refl _, List.Subset.refl _, List.subset_append_left _ _⟩
    · exact .refl h
  | crash worker => exact .refl h

/-- What the history says about a worker that holds a task. -/
def Knows (h : History) (worker : Nat) : Worker → Prop
  | .doing reply =>
    (reply.taskType = .mapTask ∨ reply.taskType = .reduceTask) ∧
      ⟨worker, reply.taskType, reply.taskID⟩ ∈ h.assigned
  | .executed reply =>
    (reply.taskType = .mapTask ∨ reply.taskType = .reduceTask) ∧
      ⟨worker, reply.taskType, reply.taskID⟩ ∈ h.assigned ∧
      ⟨worker, reply.taskType, reply.taskID⟩ ∈ h.executed
  | _ => True

theorem Knows.mono {h h' : History} (more : h.Extends h') {worker : Nat} {state : Worker}
    (known : h.Knows worker state) : h'.Knows worker state := by
  cases state with
  | idle => trivial
  | checked => trivial
  | doing reply => exact ⟨known.1, more.assigned known.2⟩
  | executed reply => exact ⟨known.1, more.assigned known.2.1, more.executed known.2.2⟩
  | exited => trivial

theorem knows_setWorker {s : Job} {h h' : History} {worker : Nat} {state : Worker}
    (known : ∀ other, h.Knows other (s.workers other)) (more : h.Extends h')
    (set : h'.Knows worker state) (other : Nat) :
    h'.Knows other ((s.setWorker worker state).workers other) := by
  by_cases same : other = worker
  · subst same
    simpa [Job.setWorker] using set
  · simpa [Job.setWorker, same] using (known other).mono more

theorem knows_step {s s' : Job} {e : Event} {h : History} (next : JobStep s e s')
    (known : ∀ worker, h.Knows worker (s.workers worker)) (worker : Nat) :
    (record s e s' h).Knows worker (s'.workers worker) := by
  have more := extends_record s e s' h
  cases next with
  | check idle outcome =>
    apply knows_setWorker known more
    trivial
  | @assign asking now c reply checked outcome =>
    apply knows_setWorker known more
    cases received : Worker.receive reply with
    | doing reply' =>
      refine ⟨(receive_eq_doing received).2, ?_⟩
      simp [record, Job.setWorker]
    | executed reply' => exact absurd received receive_ne_executed
    | idle => trivial
    | checked => trivial
    | exited => trivial
  | @execute runner reply doing =>
    apply knows_setWorker known more
    have held := known runner
    rw [doing] at held
    refine ⟨held.1, more.assigned held.2, ?_⟩
    simp [record, doing]
  | report executed found =>
    apply knows_setWorker known more
    trivial
  | crash =>
    apply knows_setWorker known more
    trivial

theorem knows_reachable {files : List String} {nReduce : Nat} {s : Job} {h : History}
    (reached : (recordedJob files nReduce).Reachable (s, h)) (worker : Nat) :
    h.Knows worker (s.workers worker) := by
  refine reached.invariant (I := fun sh => ∀ worker, sh.2.Knows worker (sh.1.workers worker)) ?_ ?_
    worker
  · exact fun _ => trivial
  · rintro ⟨s, h⟩ e ⟨s', h'⟩ - known - next
    obtain ⟨stepped, recorded⟩ : s.step e = some s' ∧ h' = record s e s' h :=
      Machine.withHistory_step.mp next
    subst recorded
    exact knows_step (jobStep_of_step stepped) known

end History

end DistributedCloud.MapReduce
