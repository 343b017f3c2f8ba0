import DistributedCloud.MapReduce.Proofs.Progress
import DistributedCloud.MapReduce.Proofs.System

/-!
# The map phase ends when every map task has been executed

In the map phase only map tasks are out, so a report that marks a task is the report of a worker
that has executed it. The phase ends when the list holds all tasks and all are marked.
-/

namespace DistributedCloud.MapReduce

open Coordinator

/-- Some worker has executed map task `m`. -/
def History.Mapped (h : History) (m : Nat) : Prop :=
  ∃ worker, ⟨worker, .mapTask, m⟩ ∈ h.executed

/-- What the phase says about the executions so far. -/
structure MapsFirst (total : Nat) (c : Coordinator) (h : History) : Prop where
  onlyMaps : c.phase = .mapPhase → ∀ dealing ∈ h.assigned, dealing.taskType = .mapTask
  marked : c.phase = .mapPhase → ∀ m task, c.tasks[m]? = some task → task.status = .completed →
    h.Mapped m
  all : c.phase ≠ .mapPhase → ∀ m < total, h.Mapped m

namespace MapsFirst

variable {files : List String} {nReduce total : Nat} {c c' : Coordinator} {h h' : History}

theorem check (first : MapsFirst files.length c h) (rep : c.Represents files nReduce)
    (outcome : CheckOutcome c c') : MapsFirst files.length c' h := by
  cases outcome with
  | same => exact first
  | mapped phase file rePending nonempty done =>
    refine ⟨by simp, by simp, ?_⟩
    intro _ m inside
    obtain ⟨-, inputs, -⟩ := rep.mapping phase
    have within : m < c.tasks.length := by
      rw [file, List.append_nil] at inputs
      simpa [← inputs] using inside
    exact first.marked phase m _ (List.getElem?_eq_getElem within) (done _ (List.getElem_mem within))
  | reduced phase assigned rePending nonempty done =>
    have reducing : c.phase ≠ .mapPhase := by
      rw [phase]
      simp
    exact ⟨by simp, by simp, fun _ => first.all reducing⟩

/-- Handing out a task marks none. -/
theorem assigned (first : MapsFirst total c h) {now : Nat → Int} {reply : TaskAssingnemnt}
    (outcome : AssignedOutcome c now c' reply) (same : h'.executed = h.executed)
    (new : ∀ dealing ∈ h'.assigned, dealing ∈ h.assigned ∨ dealing.taskType = reply.taskType ∧
      (reply.taskType = .mapTask ∨ reply.taskType = .reduceTask)) :
    MapsFirst total c' h' := by
  have mapped : ∀ m, h.Mapped m → h'.Mapped m := by
    rintro m ⟨worker, executed⟩
    exact ⟨worker, same ▸ executed⟩
  have onlyMaps : reply.taskType ≠ .reduceTask → c.phase = .mapPhase →
      ∀ dealing ∈ h'.assigned, dealing.taskType = .mapTask := by
    intro notReduce phase dealing listed
    obtain old | ⟨kind, map | reduce⟩ := new dealing listed
    · exact first.onlyMaps phase dealing old
    · exact kind.trans map
    · exact absurd reduce notReduce
  have marked : c.phase = .mapPhase → ∀ m task, c.tasks[m]? = some task →
      task.status = .completed → h'.Mapped m :=
    fun phase m task listed done => mapped m (first.marked phase m task listed done)
  have all : c.phase ≠ .mapPhase → ∀ m < total, h'.Mapped m :=
    fun reducing m inside => mapped m (first.all reducing m inside)
  cases outcome with
  | newMap phase file =>
    refine ⟨onlyMaps (by simp), ?_, all⟩
    intro _ m task listed done
    simp only [List.getElem?_append] at listed
    split at listed
    · exact marked phase m task listed done
    · -- the entry added last is still `Doing`
      rw [List.getElem?_singleton] at listed
      split at listed
      · cases listed
        cases done
      · cases listed
  | newReduce phase left =>
    have reducing : c.phase ≠ .mapPhase := by
      rw [phase]
      simp
    exact ⟨fun mapping => absurd mapping reducing, fun mapping => absurd mapping reducing, all⟩
  | @again task entry rest _ taskType phase rePending found =>
    refine ⟨?_, ?_, all⟩
    · intro mapping
      rcases phase with ⟨-, kind, -⟩ | ⟨reducing, -⟩
      · exact onlyMaps (by simp [kind]) mapping
      · exact absurd (mapping.symm.trans reducing) (by simp)
    · intro mapping m changed listed done
      simp only [List.getElem?_set] at listed
      split at listed
      · rename_i here
        subst here
        split at listed
        · cases listed
          exact marked mapping _ _ found done
        · cases listed
      · exact marked mapping m changed listed done
  | wait phase nothing looked => exact ⟨onlyMaps (by simp), marked, all⟩
  | finished phase => exact ⟨onlyMaps (by simp), marked, all⟩

/-- A report in the map phase marks a task that has been executed. -/
theorem reported (first : MapsFirst total c h) {taskID : Nat} {entry : Task}
    (executed : c.phase = .mapPhase → h.Mapped taskID) :
    MapsFirst total { c with tasks := c.tasks.set taskID { entry with status := .completed } } h := by
  refine ⟨first.onlyMaps, ?_, first.all⟩
  intro mapping m task listed done
  simp only [List.getElem?_set] at listed
  split at listed
  · rename_i here
    subst here
    exact executed mapping
  · exact first.marked mapping m task listed done

theorem more (first : MapsFirst total c h) (same : h'.assigned = h.assigned)
    (executed : h.executed ⊆ h'.executed) : MapsFirst total c h' := by
  have mapped : ∀ m, h.Mapped m → h'.Mapped m := by
    rintro m ⟨worker, listed⟩
    exact ⟨worker, executed listed⟩
  refine ⟨?_, ?_, ?_⟩
  · rw [same]
    exact first.onlyMaps
  · exact fun mapping m task listed done => mapped m (first.marked mapping m task listed done)
  · exact fun reducing m inside => mapped m (first.all reducing m inside)

end MapsFirst

theorem mapsFirst_step {files : List String} {nReduce : Nat} {s s' : Job} {e : Event} {h : History}
    (next : JobStep s e s') (rep : s.coordinator.Represents files nReduce)
    (known : ∀ worker, h.Knows worker (s.workers worker))
    (first : MapsFirst files.length s.coordinator h) :
    MapsFirst files.length s'.coordinator (History.record s e s' h) := by
  cases next with
  | check idle outcome => exact first.check rep outcome
  | @assign worker now c reply checked outcome =>
    apply first.assigned outcome
    · simp only [History.record]
      split
      · rfl
      · rfl
    · intro dealing listed
      simp only [History.record] at listed
      split at listed
      · rename_i reply' doing
        obtain ⟨rfl, kind⟩ := receive_eq_doing (by simpa [Job.setWorker] using doing)
        obtain old | new := List.mem_append.mp listed
        · exact .inl old
        · rw [List.mem_singleton.mp new]
          exact .inr ⟨rfl, kind⟩
      · exact .inl listed
  | @execute worker reply doing =>
    have more := History.extends_record s (.execute worker) (s.setWorker worker (.executed reply)) h
    apply first.more _ more.executed
    simp [History.record, doing]
  | @report worker reply entry executed found =>
    have held := known worker
    rw [executed] at held
    obtain ⟨-, assigned, ran⟩ := held
    have marked : MapsFirst files.length
        { s.coordinator with
          tasks := s.coordinator.tasks.set reply.taskID { entry with status := .completed } } h := by
      apply first.reported
      intro mapping
      obtain kind : reply.taskType = .mapTask := first.onlyMaps mapping _ assigned
      rw [kind] at ran
      exact ⟨worker, ran⟩
    apply marked.more
    · simp [History.record, executed]
    · simp [History.record, executed]
  | crash => exact first

theorem mapsFirst_reachable {files : List String} {nReduce : Nat} {sh : Job × History}
    (reached : (recordedJob files nReduce).Reachable sh) :
    MapsFirst files.length sh.1.coordinator sh.2 := by
  apply reached.invariant (I := fun sh => MapsFirst files.length sh.1.coordinator sh.2)
  · refine ⟨?_, ?_, fun reducing => absurd rfl reducing⟩
    · intro _ dealing listed
      cases listed
    · intro _ m task listed
      cases listed
  · rintro ⟨s, h⟩ e ⟨s', h'⟩ before first - next
    obtain ⟨stepped, recorded⟩ : s.step e = some s' ∧ h' = History.record s e s' h :=
      Machine.withHistory_step.mp next
    subst recorded
    exact mapsFirst_step (jobStep_of_step stepped) (represents_job before.dropHistory)
      (History.knows_reachable before) first

end DistributedCloud.MapReduce
