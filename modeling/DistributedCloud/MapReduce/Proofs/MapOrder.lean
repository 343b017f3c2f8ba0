import DistributedCloud.MapReduce.Proofs.Cluster

/-!
# The order of the map output

`DoMapTask` looks at the pairs that the map function emits only through `finalStorage` and its sorted
keys. So a map function that emits its pairs in another order each time, as one that walks a Go map
does, leads to the same files as one that always emits them in the same order, as long as the values of
each key come in the same order.
-/

namespace DistributedCloud.MapReduce

variable {setting : Setting} {mapf : String → Bytes → List KeyValue}

/-- The stages differ at most in the order of the pairs. -/
inductive MapStage.Alike : MapStage → MapStage → Prop
  | creating {kva kva' : List KeyValue} {temps : List FileName} (same : collect kva = collect kva') :
      Alike (.creating kva temps) (.creating kva' temps)
  | same (stage : MapStage) : Alike stage stage

/-- The executions differ at most in the order of the pairs. -/
inductive Execution.Alike : Execution → Execution → Prop
  | map {fileName : String} {taskID n : Nat} {stage stage' : MapStage} (alike : stage.Alike stage') :
      Alike (.map fileName taskID n stage) (.map fileName taskID n stage')
  | reduce {taskID : Nat} {stage : ReduceStage} : Alike (.reduce taskID stage) (.reduce taskID stage)

/-- The clusters differ at most in the order of the pairs that executions hold. -/
structure Cluster.Alike (s t : Cluster) : Prop where
  job : s.job = t.job
  directory : s.pool.directory = t.pool.directory
  running : ∀ worker, Option.Rel Execution.Alike (s.pool.running worker) (t.pool.running worker)

theorem Execution.Alike.refl (execution : Execution) : execution.Alike execution := by
  cases execution with
  | map fileName taskID n stage => exact .map (.same stage)
  | reduce taskID stage => exact .reduce

/-- The map function is called when the input file has been read, and not again. -/
theorem MapStage.step_mapf {fileName : String} {taskID n : Nat} {directory : Directory}
    {stage : MapStage} (begun : stage ≠ .reading) (action : Action) :
    stage.step { setting with mapf := mapf } fileName taskID n directory action =
      stage.step setting fileName taskID n directory action := by
  cases stage with
  | reading => exact absurd rfl begun
  | creating kva temps => cases action <;> rfl
  | encoding temps broken left => cases left <;> cases action <;> rfl
  | placing temps broken i => cases action <;> rfl

/-- What a stage with another map function does, the stage does as well. -/
theorem MapStage.Alike.step
    (collects : ∀ document value,
      collect (mapf document value) = collect (setting.mapf document value))
    {fileName : String} {taskID n : Nat} {directory directory' : Directory} {stage stage' : MapStage}
    (alike : stage.Alike stage') {action : Action} {next : Option MapStage}
    (stepped : stage.step { setting with mapf := mapf } fileName taskID n directory action =
      some (directory', next)) :
    ∃ next', stage'.step setting fileName taskID n directory action = some (directory', next') ∧
      Option.Rel MapStage.Alike next next' := by
  have related : ∀ next : Option MapStage, Option.Rel MapStage.Alike next next := by
    rintro (_ | stage)
    · exact .none
    · exact .some (.same stage)
  cases alike with
  | @creating kva kva' temps same =>
    rw [MapStage.step_mapf (by simp)] at stepped
    cases action with
    | create random =>
      simp only [MapStage.step, Option.ite_none_right_eq_some] at stepped ⊢
      obtain ⟨more, stepped⟩ := stepped
      cases random with
      | none => exact ⟨next, ⟨more, stepped⟩, related next⟩
      | some number =>
        obtain ⟨made, created, returned⟩ := Option.bind_eq_some_iff.mp stepped
        cases returned
        refine ⟨_, ⟨more, ?_⟩, .some (.creating same)⟩
        simp [created]
    | compute =>
      simp only [MapStage.step] at stepped ⊢
      rw [← same]
      exact ⟨next, stepped, related next⟩
    | read ok => simp [MapStage.step] at stepped
    | write cut => simp [MapStage.step] at stepped
    | rename closed renamed => simp [MapStage.step] at stepped
  | same stage =>
    by_cases begun : stage = .reading
    · subst begun
      cases action with
      | read ok =>
        cases ok with
        | true =>
          obtain ⟨content, found, returned⟩ := Option.bind_eq_some_iff.mp stepped
          cases returned
          have found : setting.readFile directory fileName = some content := found
          refine ⟨_, ?_, .some (.creating (collects fileName content))⟩
          simp [MapStage.step, found]
        | false => simp [MapStage.step] at stepped
      | create random => simp [MapStage.step] at stepped
      | write cut => simp [MapStage.step] at stepped
      | rename closed renamed => simp [MapStage.step] at stepped
      | compute => simp [MapStage.step] at stepped
    · rw [MapStage.step_mapf begun] at stepped
      exact ⟨next, stepped, related next⟩

theorem Execution.Alike.step
    (collects : ∀ document value,
      collect (mapf document value) = collect (setting.mapf document value))
    {directory directory' : Directory} {execution execution' : Execution}
    (alike : execution.Alike execution') {action : Action} {next : Option Execution}
    (stepped : execution.step { setting with mapf := mapf } directory action =
      some (directory', next)) :
    ∃ next', execution'.step setting directory action = some (directory', next') ∧
      Option.Rel Execution.Alike next next' := by
  cases alike with
  | @map fileName taskID n stage stage' alike =>
    obtain ⟨⟨after, stages⟩, step, returned⟩ := Option.bind_eq_some_iff.mp stepped
    cases returned
    obtain ⟨stages', step', related⟩ := alike.step collects step
    refine ⟨stages'.map (.map fileName taskID n), ?_, ?_⟩
    · simp [Execution.step, step']
    · cases related with
      | none => exact .none
      | some alike => exact .some (.map alike)
  | @reduce taskID stage =>
    refine ⟨next, stepped, ?_⟩
    cases next with
    | none => exact .none
    | some execution => exact .some (.refl execution)

namespace Cluster.Alike

variable {s t : Cluster}

/-- A worker begins an execution, goes on with one or drops it in both clusters. -/
theorem running_set (alike : s.Alike t) (worker : Nat) {next next' : Option Execution}
    (related : Option.Rel Execution.Alike next next') (other : Nat) :
    Option.Rel Execution.Alike ((s.pool.set worker next).running other)
      ((t.pool.set worker next').running other) := by
  by_cases same : other = worker
  · subst same
    simpa [Pool.set] using related
  · simpa [Pool.set, same] using alike.running other

theorem running_some (alike : s.Alike t) {worker : Nat} {execution : Execution}
    (running : s.pool.running worker = some execution) :
    ∃ execution', t.pool.running worker = some execution' ∧ execution.Alike execution' := by
  have related := alike.running worker
  rw [running] at related
  cases other : t.pool.running worker with
  | none =>
    rw [other] at related
    cases related
  | some execution' =>
    rw [other] at related
    cases related with
    | some alike => exact ⟨execution', rfl, alike⟩

/-- What a cluster with another map function does, the cluster does as well. -/
theorem step
    (collects : ∀ document value,
      collect (mapf document value) = collect (setting.mapf document value))
    (alike : s.Alike t) {e : ClusterEvent} {s' : Cluster}
    (next : s.step { setting with mapf := mapf } e = some s') :
    ∃ t', t.step setting e = some t' ∧ s'.Alike t' := by
  cases clusterStep_of_step next with
  | @check worker job moved =>
    rw [alike.job] at moved
    exact ⟨⟨job, t.pool⟩, by simp [Cluster.step, moved], rfl, alike.directory, alike.running⟩
  | @given worker now job reply moved doing =>
    rw [alike.job] at moved
    exact ⟨⟨job, t.pool.set worker (some reply.execution)⟩, by simp [Cluster.step, moved, doing],
      rfl, alike.directory, alike.running_set worker (.some (.refl reply.execution))⟩
  | @waits worker now job moved nothing =>
    rw [alike.job] at moved
    refine ⟨⟨job, t.pool⟩, ?_, rfl, alike.directory, alike.running⟩
    cases waiting : job.workers worker with
    | doing reply => exact absurd waiting (nothing reply)
    | _ => simp [Cluster.step, moved, waiting]
  | @worked worker action execution after directory running stepped =>
    obtain ⟨execution', running', same⟩ := alike.running_some running
    obtain ⟨next', stepped', related⟩ := same.step collects stepped
    rw [alike.directory] at stepped'
    cases related with
    | @some _ after' same =>
      refine ⟨⟨t.job, { t.pool.set worker (some after') with directory := directory }⟩, ?_,
        alike.job, rfl, alike.running_set worker (.some same)⟩
      simp [Cluster.step, Pool.work, running', stepped', Pool.set]
  | @returned worker action execution directory job running stepped moved =>
    obtain ⟨execution', running', same⟩ := alike.running_some running
    obtain ⟨next', stepped', related⟩ := same.step collects stepped
    rw [alike.directory] at stepped'
    rw [alike.job] at moved
    cases related with
    | none =>
      refine ⟨⟨job, { t.pool.set worker none with directory := directory }⟩, ?_, rfl, rfl,
        alike.running_set worker .none⟩
      simp [Cluster.step, Pool.work, running', stepped', Pool.set, moved]
  | @report worker job moved =>
    rw [alike.job] at moved
    exact ⟨⟨job, t.pool⟩, by simp [Cluster.step, moved], rfl, alike.directory, alike.running⟩
  | @crash worker job moved =>
    rw [alike.job] at moved
    exact ⟨⟨job, t.pool.set worker none⟩, by simp [Cluster.step, moved], rfl, alike.directory,
      alike.running_set worker .none⟩

end Cluster.Alike

end DistributedCloud.MapReduce
