import DistributedCloud.MapReduce.Proofs.FileNames
import DistributedCloud.MapReduce.Worker

/-!
# The actions of an execution

What each action of `DoMapTask` and `DoReduceTask` does when its file-system call succeeds, and what
a failed one does.
-/

namespace DistributedCloud.MapReduce

variable {setting : Setting} {nReduce : Nat} {directory directory' : Directory}

/-- The successful actions of `DoMapTask`. -/
inductive MapStep (setting : Setting) (fileName : String) (taskID nReduce : Nat)
    (directory : Directory) : MapStage → Directory → Option MapStage → Prop
  | read {content : Bytes} (found : setting.readFile directory fileName = some content) :
      MapStep setting fileName taskID nReduce directory .reading directory
        (some (.creating (setting.mapf fileName content) []))
  | created {kva : List KeyValue} {temps : List FileName} {n : Nat}
      (more : temps.length < nReduce)
      (absent : (FileName.intermediateTemp taskID temps.length n).print ∉ directory) :
      MapStep setting fileName taskID nReduce directory (.creating kva temps)
        (directory.insert (FileName.intermediateTemp taskID temps.length n).print (.file []))
        (some (.creating kva (temps ++ [.intermediateTemp taskID temps.length n])))
  | collected {kva : List KeyValue} {temps : List FileName} (all : nReduce ≤ temps.length) :
      MapStep setting fileName taskID nReduce directory (.creating kva temps) directory
        (some (.encoding temps [] (collect kva)))
  | encoded {temps : List FileName} {broken : List Nat} {kv : IntermediateFormat}
      {left : List IntermediateFormat} {temp : FileName}
      (chosen : temps[ihash kv.1 % nReduce]? = some temp) (works : ihash kv.1 % nReduce ∉ broken) :
      MapStep setting fileName taskID nReduce directory (.encoding temps broken (kv :: left))
        (directory.append temp (setting.json.encode kv)) (some (.encoding temps broken left))
  | skipped {temps : List FileName} {broken : List Nat} {kv : IntermediateFormat}
      {left : List IntermediateFormat} (fault : ihash kv.1 % nReduce ∈ broken) :
      MapStep setting fileName taskID nReduce directory (.encoding temps broken (kv :: left))
        directory (some (.encoding temps broken left))
  | encodedAll {temps : List FileName} {broken : List Nat} :
      MapStep setting fileName taskID nReduce directory (.encoding temps broken []) directory
        (some (.placing temps broken 0))
  | placed {temps : List FileName} {broken : List Nat} {i : Nat} {temp : FileName} {content : Bytes}
      (chosen : temps[i]? = some temp) (found : directory.lookup temp.print = some (.file content)) :
      MapStep setting fileName taskID nReduce directory (.placing temps broken i)
        ((directory.erase temp.print).insert (FileName.intermediate taskID i).print (.file content))
        (some (.placing temps broken (i + 1)))
  | returned {temps : List FileName} {broken : List Nat} {i : Nat} (all : temps.length ≤ i) :
      MapStep setting fileName taskID nReduce directory (.placing temps broken i) directory none

/-- The failed actions of `DoMapTask` that it goes on or returns after. -/
inductive MapFault (setting : Setting) (nReduce : Nat) (directory : Directory) :
    MapStage → Directory → Option MapStage → Prop
  | uncreated {kva : List KeyValue} {temps : List FileName} :
      MapFault setting nReduce directory (.creating kva temps)
        (temps.foldl (fun directory temp => directory.erase temp.print) directory) none
  | cut {temps : List FileName} {broken : List Nat} {kv : IntermediateFormat}
      {left : List IntermediateFormat} {temp : FileName} {n : Nat}
      (chosen : temps[ihash kv.1 % nReduce]? = some temp) (works : ihash kv.1 % nReduce ∉ broken)
      (short : n < (setting.json.encode kv).length) :
      MapFault setting nReduce directory (.encoding temps broken (kv :: left))
        (directory.append temp ((setting.json.encode kv).take n))
        (some (.encoding temps (ihash kv.1 % nReduce :: broken) left))
  | unplaced {temps : List FileName} {broken : List Nat} {i : Nat} {temp : FileName}
      (chosen : temps[i]? = some temp) :
      MapFault setting nReduce directory (.placing temps broken i) directory
        (some (.placing temps broken (i + 1)))

/-- The successful actions of `DoReduceTask`. -/
inductive ReduceStep (setting : Setting) (taskID : Nat) (directory : Directory) :
    ReduceStage → Directory → Option ReduceStage → Prop
  | listed :
      ReduceStep setting taskID directory .listing directory (some (.creating directory.readDir))
  | created {names : List (String × Bool)} {n : Nat}
      (absent : (FileName.outputTemp taskID n).print ∉ directory) :
      ReduceStep setting taskID directory (.creating names)
        (directory.insert (FileName.outputTemp taskID n).print (.file []))
        (some (.reading (some (.outputTemp taskID n)) names ∅))
  | decoded {temp : Option FileName} {name : String} {names : List (String × Bool)}
      {finalStorage : Groups Bytes Bytes} {content : Bytes} {kvs : List IntermediateFormat}
      (chosen : matchString taskID name = true)
      (found : directory.lookup name = some (.file content))
      (decoded : setting.json.decodeAll content = some kvs) :
      ReduceStep setting taskID directory (.reading temp ((name, false) :: names) finalStorage)
        directory (some (.reading temp names (finalStorage.addAll kvs)))
  | passed {temp : Option FileName} {name : String} {isDir : Bool} {names : List (String × Bool)}
      {finalStorage : Groups Bytes Bytes} (other : (!isDir && matchString taskID name) = false) :
      ReduceStep setting taskID directory (.reading temp ((name, isDir) :: names) finalStorage)
        directory (some (.reading temp names finalStorage))
  | collected {temp : Option FileName} {finalStorage : Groups Bytes Bytes} :
      ReduceStep setting taskID directory (.reading temp [] finalStorage) directory
        (some (.writing temp
          (finalStorage.sorted.map fun kv => (kv.1, setting.reducef kv.1 kv.2))))
  | wrote {temp : FileName} {key output : Bytes} {left : List (Bytes × Bytes)} :
      ReduceStep setting taskID directory (.writing (some temp) ((key, output) :: left))
        (directory.append temp (line key output)) (some (.writing (some temp) left))
  | wroteNothing {key output : Bytes} {left : List (Bytes × Bytes)} :
      ReduceStep setting taskID directory (.writing none ((key, output) :: left)) directory
        (some (.writing none left))
  | placed {temp : FileName} {content : Bytes}
      (found : directory.lookup temp.print = some (.file content)) :
      ReduceStep setting taskID directory (.writing (some temp) [])
        ((directory.erase temp.print).insert (FileName.output taskID).print (.file content)) none

theorem createTemp_eq_some {name : FileName}
    (created : directory.createTemp name = some directory') :
    name.print ∉ directory ∧ directory' = directory.insert name.print (.file []) := by
  unfold Directory.createTemp at created
  split at created
  · cases created
  · rename_i absent
    exact ⟨absent, (Option.some.inj created).symm⟩

theorem rename_eq_some {old new : FileName}
    (renamed : directory.rename old new = some directory') :
    ∃ content, directory.lookup old.print = some (.file content) ∧
      directory' = (directory.erase old.print).insert new.print (.file content) := by
  unfold Directory.rename at renamed
  cases found : directory.lookup old.print with
  | none => simp [found] at renamed
  | some entry =>
    cases entry with
    | dir => simp [found] at renamed
    | file content =>
      refine ⟨content, rfl, ?_⟩
      cases target : directory.lookup new.print with
      | none => simpa [found, target, eq_comm] using renamed
      | some entry =>
        cases entry with
        | dir => simp [found, target] at renamed
        | file old => simpa [found, target, eq_comm] using renamed

/-- An action of `DoMapTask` succeeds or fails. -/
theorem mapStep_or_fault {fileName : String} {taskID : Nat} {stage : MapStage} {action : Action}
    {next : Option MapStage}
    (stepped : stage.step setting fileName taskID nReduce directory action =
      some (directory', next)) :
    MapStep setting fileName taskID nReduce directory stage directory' next ∨
      ¬ action.Succeeds ∧ MapFault setting nReduce directory stage directory' next := by
  cases stage with
  | reading =>
    cases action with
    | read ok =>
      cases ok with
      | false => simp [MapStage.step] at stepped
      | true =>
        obtain ⟨content, found, returned⟩ := Option.bind_eq_some_iff.mp stepped
        cases returned
        exact .inl (.read found)
    | create random => simp [MapStage.step] at stepped
    | write cut => simp [MapStage.step] at stepped
    | rename closed renamed => simp [MapStage.step] at stepped
    | compute => simp [MapStage.step] at stepped
  | creating kva temps =>
    cases action with
    | create random =>
      simp only [MapStage.step, Option.ite_none_right_eq_some] at stepped
      obtain ⟨more, stepped⟩ := stepped
      cases random with
      | none =>
        cases stepped
        exact .inr ⟨fun made => made rfl, .uncreated⟩
      | some n =>
        obtain ⟨made, created, returned⟩ := Option.bind_eq_some_iff.mp stepped
        obtain ⟨absent, rfl⟩ := createTemp_eq_some created
        cases returned
        exact .inl (.created more absent)
    | compute =>
      simp only [MapStage.step, Option.ite_none_left_eq_some] at stepped
      obtain ⟨all, returned⟩ := stepped
      cases returned
      exact .inl (.collected (Nat.le_of_not_lt all))
    | read ok => simp [MapStage.step] at stepped
    | write cut => simp [MapStage.step] at stepped
    | rename closed renamed => simp [MapStage.step] at stepped
  | encoding temps broken left =>
    cases action with
    | write cut =>
      cases left with
      | nil => simp [MapStage.step] at stepped
      | cons kv left =>
        obtain ⟨temp, chosen, stepped⟩ := Option.bind_eq_some_iff.mp stepped
        split at stepped
        · rename_i fault
          cases stepped
          exact .inl (.skipped fault)
        · rename_i works
          cases cut with
          | none =>
            cases stepped
            exact .inl (.encoded chosen works)
          | some n =>
            simp only [Option.ite_none_right_eq_some] at stepped
            obtain ⟨short, returned⟩ := stepped
            cases returned
            exact .inr ⟨Option.some_ne_none n, .cut chosen works short⟩
    | compute =>
      cases left with
      | nil =>
        cases stepped
        exact .inl .encodedAll
      | cons kv left => simp [MapStage.step] at stepped
    | read ok => simp [MapStage.step] at stepped
    | create random => simp [MapStage.step] at stepped
    | rename closed renamed => simp [MapStage.step] at stepped
  | placing temps broken i =>
    cases action with
    | rename closed renamed =>
      obtain ⟨temp, chosen, stepped⟩ := Option.bind_eq_some_iff.mp stepped
      cases renamed with
      | true =>
        obtain ⟨moved, renamed, returned⟩ := Option.bind_eq_some_iff.mp stepped
        obtain ⟨content, found, rfl⟩ := rename_eq_some renamed
        cases returned
        exact .inl (.placed chosen found)
      | false =>
        cases stepped
        exact .inr ⟨fun succeeds => Bool.false_ne_true succeeds.2, .unplaced chosen⟩
    | compute =>
      simp only [MapStage.step, Option.ite_none_left_eq_some] at stepped
      obtain ⟨all, returned⟩ := stepped
      cases returned
      exact .inl (.returned (Nat.le_of_not_lt all))
    | read ok => simp [MapStage.step] at stepped
    | create random => simp [MapStage.step] at stepped
    | write cut => simp [MapStage.step] at stepped

/-- The failed actions of `DoReduceTask` that it goes on or returns after. -/
inductive ReduceFault (directory : Directory) :
    ReduceStage → Directory → Option ReduceStage → Prop
  | unlisted : ReduceFault directory .listing directory none
  | uncreated {names : List (String × Bool)} :
      ReduceFault directory (.creating names) directory (some (.reading none names ∅))
  | cut {temp : FileName} {key output : Bytes} {left : List (Bytes × Bytes)} (bytes : Bytes) :
      ReduceFault directory (.writing (some temp) ((key, output) :: left))
        (directory.append temp bytes) (some (.writing (some temp) left))
  | unplaced {temp : FileName} : ReduceFault directory (.writing (some temp) []) directory none

/-- An action of `DoReduceTask` succeeds or fails. -/
theorem reduceStep_or_fault {taskID : Nat} {stage : ReduceStage} {action : Action}
    {next : Option ReduceStage}
    (stepped : stage.step setting taskID directory action = some (directory', next)) :
    ReduceStep setting taskID directory stage directory' next ∨
      ¬ action.Succeeds ∧ ReduceFault directory stage directory' next := by
  cases stage with
  | listing =>
    cases action with
    | read ok =>
      cases ok with
      | true =>
        cases stepped
        exact .inl .listed
      | false =>
        cases stepped
        exact .inr ⟨Bool.false_ne_true, .unlisted⟩
    | create random => simp [ReduceStage.step] at stepped
    | write cut => simp [ReduceStage.step] at stepped
    | rename closed renamed => simp [ReduceStage.step] at stepped
    | compute => simp [ReduceStage.step] at stepped
  | creating names =>
    cases action with
    | create random =>
      cases random with
      | some n =>
        obtain ⟨made, created, returned⟩ := Option.bind_eq_some_iff.mp stepped
        obtain ⟨absent, rfl⟩ := createTemp_eq_some created
        cases returned
        exact .inl (.created absent)
      | none =>
        cases stepped
        exact .inr ⟨fun made => made rfl, .uncreated⟩
    | read ok => simp [ReduceStage.step] at stepped
    | write cut => simp [ReduceStage.step] at stepped
    | rename closed renamed => simp [ReduceStage.step] at stepped
    | compute => simp [ReduceStage.step] at stepped
  | reading temp names finalStorage =>
    cases action with
    | read ok =>
      cases names with
      | nil => simp [ReduceStage.step] at stepped
      | cons first names =>
        obtain ⟨name, isDir⟩ := first
        cases ok with
        | false => simp [ReduceStage.step] at stepped
        | true =>
          simp only [ReduceStage.step] at stepped
          split at stepped
          · rename_i chosen
            obtain ⟨file, chosen⟩ := Bool.and_eq_true_iff.mp chosen
            obtain rfl : isDir = false := by simpa using file
            split at stepped
            · rename_i content found
              obtain ⟨kvs, decoded, returned⟩ := Option.bind_eq_some_iff.mp stepped
              cases returned
              exact .inl (.decoded chosen found decoded)
            · cases stepped
          · rename_i other
            cases stepped
            exact .inl (.passed (Bool.eq_false_iff.mpr other))
    | compute =>
      cases names with
      | nil =>
        cases stepped
        exact .inl .collected
      | cons first names => simp [ReduceStage.step] at stepped
    | create random => simp [ReduceStage.step] at stepped
    | write cut => simp [ReduceStage.step] at stepped
    | rename closed renamed => simp [ReduceStage.step] at stepped
  | writing temp left =>
    cases action with
    | write cut =>
      cases left with
      | nil => simp [ReduceStage.step] at stepped
      | cons first left =>
        obtain ⟨key, output⟩ := first
        cases temp with
        | none =>
          cases stepped
          exact .inl .wroteNothing
        | some temp =>
          cases cut with
          | none =>
            cases stepped
            exact .inl .wrote
          | some n =>
            cases stepped
            exact .inr ⟨Option.some_ne_none n, .cut _⟩
    | rename closed renamed =>
      cases left with
      | nil =>
        cases temp with
        | none => simp [ReduceStage.step] at stepped
        | some temp =>
          cases renamed with
          | true =>
            obtain ⟨moved, renamed, returned⟩ := Option.bind_eq_some_iff.mp stepped
            obtain ⟨content, found, rfl⟩ := rename_eq_some renamed
            cases returned
            exact .inl (.placed found)
          | false =>
            cases stepped
            exact .inr ⟨fun succeeds => Bool.false_ne_true succeeds.2, .unplaced⟩
      | cons first left => simp [ReduceStage.step] at stepped
    | read ok => simp [ReduceStage.step] at stepped
    | create random => simp [ReduceStage.step] at stepped
    | compute => simp [ReduceStage.step] at stepped

/-- `DoMapTask` goes on with the same task. -/
theorem step_map_eq_some {fileName : String} {taskID : Nat} {stage : MapStage} {action : Action}
    {execution : Execution}
    (stepped : (Execution.map fileName taskID nReduce stage).step setting directory action =
      some (directory', some execution)) :
    ∃ stage', execution = .map fileName taskID nReduce stage' := by
  obtain ⟨⟨after, next⟩, -, returned⟩ := Option.bind_eq_some_iff.mp stepped
  obtain ⟨-, continued⟩ : after = directory' ∧
      next.map (.map fileName taskID nReduce) = some execution := by simpa using returned
  obtain ⟨stage', -, rfl⟩ := Option.map_eq_some_iff.mp continued
  exact ⟨stage', rfl⟩

/-- The successful actions of an execution. -/
inductive ExecutionStep (setting : Setting) (directory : Directory) :
    Execution → Directory → Option Execution → Prop
  | map {fileName : String} {taskID nReduce : Nat} {stage : MapStage} {directory' : Directory}
      {next : Option MapStage}
      (step : MapStep setting fileName taskID nReduce directory stage directory' next) :
      ExecutionStep setting directory (.map fileName taskID nReduce stage) directory'
        (next.map (.map fileName taskID nReduce))
  | reduce {taskID : Nat} {stage : ReduceStage} {directory' : Directory}
      {next : Option ReduceStage} (step : ReduceStep setting taskID directory stage directory' next) :
      ExecutionStep setting directory (.reduce taskID stage) directory' (next.map (.reduce taskID))

theorem executionStep_of_step {execution : Execution} {action : Action} {next : Option Execution}
    (succeeds : action.Succeeds)
    (stepped : execution.step setting directory action = some (directory', next)) :
    ExecutionStep setting directory execution directory' next := by
  cases execution with
  | map fileName taskID nReduce stage =>
    obtain ⟨⟨after, stage'⟩, step, returned⟩ := Option.bind_eq_some_iff.mp stepped
    cases returned
    exact .map ((mapStep_or_fault step).resolve_right fun fault => fault.1 succeeds)
  | reduce taskID stage =>
    obtain ⟨⟨after, stage'⟩, step, returned⟩ := Option.bind_eq_some_iff.mp stepped
    cases returned
    exact .reduce ((reduceStep_or_fault step).resolve_right fun fault => fault.1 succeeds)

theorem ExecutionStep.map_returned {fileName : String} {taskID : Nat} {stage : MapStage}
    (stepped : ExecutionStep setting directory (.map fileName taskID nReduce stage) directory' none) :
    MapStep setting fileName taskID nReduce directory stage directory' none := by
  generalize ended : (none : Option Execution) = next at stepped
  cases stepped with
  | @map _ _ _ _ _ next step =>
    obtain rfl : next = none := by simpa using ended.symm
    exact step

/-- A call of `DoReduceTask` was one before. -/
theorem ExecutionStep.reduce_before {execution : Execution} {r : Nat} {stage : ReduceStage}
    (stepped : ExecutionStep setting directory execution directory' (some (.reduce r stage))) :
    ∃ before, execution = .reduce r before ∧
      ReduceStep setting r directory before directory' (some stage) := by
  generalize result : some (Execution.reduce r stage) = next at stepped
  cases stepped with
  | map step =>
    obtain ⟨after, -, other⟩ := Option.map_eq_some_iff.mp result.symm
    cases other
  | reduce step =>
    obtain ⟨after, rfl, same⟩ := Option.map_eq_some_iff.mp result.symm
    cases same
    exact ⟨_, rfl, step⟩

theorem work_eq_some {pool pool' : Pool} {worker : Nat} {action : Action}
    (worked : pool.work setting worker action = some pool') :
    ∃ execution directory next, pool.running worker = some execution ∧
      execution.step setting pool.directory action = some (directory, next) ∧
      pool' = { pool.set worker next with directory := directory } := by
  obtain ⟨execution, running, worked⟩ := Option.bind_eq_some_iff.mp worked
  obtain ⟨⟨directory, next⟩, stepped, returned⟩ := Option.bind_eq_some_iff.mp worked
  exact ⟨execution, directory, next, running, stepped, (Option.some.inj returned).symm⟩

end DistributedCloud.MapReduce
