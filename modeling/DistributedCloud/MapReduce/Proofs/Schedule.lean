import DistributedCloud.MapReduce.AsciiJson
import DistributedCloud.MapReduce.Proofs.Sequential
import DistributedCloud.MapReduce.Schedule
import Mathlib.Data.List.Perm.Basic
import Mathlib.Data.List.Sigma

/-!
# The output of a schedule

Once every map task has been completed, and as long as the directory has no other files that the
regular expression matches, an execution of `DoReduceTask` reads exactly the entries of its task,
whatever else goes on. So every completed reduce task leaves the same output file.
-/

namespace DistributedCloud.MapReduce

variable {setting : Setting} {files : List String} {nReduce : Nat} {directory directory' : Directory}

/-! ## The steps of a schedule -/

/-- The steps of a schedule in which file-system calls succeed. -/
inductive ScheduleStep (setting : Setting) (files : List String) (nReduce : Nat) (pool : Pool)
    (completed : List JobTask) : ScheduleEvent → Pool → List JobTask → Prop
  | started {worker : Nat} {task : JobTask} {execution : Execution}
      (begun : task.execution files nReduce = some execution) :
      ScheduleStep setting files nReduce pool completed (.start worker task)
        (pool.set worker (some execution)) completed
  | worked {worker : Nat} {action : Action} {execution execution' : Execution}
      {directory : Directory} (running : pool.running worker = some execution)
      (stepped : ExecutionStep setting pool.directory execution directory (some execution')) :
      ScheduleStep setting files nReduce pool completed (.work worker action)
        { pool.set worker (some execution') with directory := directory } completed
  | returned {worker : Nat} {action : Action} {execution : Execution} {directory : Directory}
      (running : pool.running worker = some execution)
      (stepped : ExecutionStep setting pool.directory execution directory none) :
      ScheduleStep setting files nReduce pool completed (.work worker action)
        { pool.set worker none with directory := directory } (execution.task :: completed)
  | crashed {worker : Nat} :
      ScheduleStep setting files nReduce pool completed (.crash worker) (pool.set worker none)
        completed

theorem scheduleStep_of_step {s s' : Pool × List JobTask} {e : ScheduleEvent}
    (succeeds : e.Succeeds)
    (next : (schedule setting files nReduce directory).step s e = some s') :
    ScheduleStep setting files nReduce s.1 s.2 e s'.1 s'.2 := by
  obtain ⟨pool, completed⟩ := s
  obtain ⟨pool', completed'⟩ := s'
  obtain ⟨moved, recorded⟩ : pool.schedule setting files nReduce e = some pool' ∧
      completed' = pool.record e pool' completed := Machine.withHistory_step.mp next
  subst recorded
  cases e with
  | start worker task =>
    simp only [Pool.schedule] at moved
    split at moved
    · cases moved
    · obtain ⟨execution, begun, returned⟩ := Option.bind_eq_some_iff.mp moved
      cases returned
      exact .started begun
  | work worker action =>
    obtain ⟨execution, directory, after, running, stepped, rfl⟩ := work_eq_some moved
    have stepped := executionStep_of_step succeeds stepped
    cases after with
    | none =>
      have recorded : pool.record (.work worker action)
          { pool.set worker none with directory := directory } completed =
            execution.task :: completed := by
        simp [Pool.record, Pool.set, running]
      rw [recorded]
      exact .returned running stepped
    | some execution' =>
      have recorded : pool.record (.work worker action)
          { pool.set worker (some execution') with directory := directory } completed =
            completed := by
        simp [Pool.record, Pool.set, running]
      rw [recorded]
      exact .worked running stepped
  | crash worker =>
    cases moved
    exact .crashed

/-! ## What a reduce task finds in the directory -/

theorem lookup_insert_cases {name key : String} {entry found : Entry}
    (looked : (directory.insert key entry).lookup name = some found) :
    name = key ∧ found = entry ∨ directory.lookup name = some found := by
  by_cases same : name = key
  · subst same
    rw [AList.lookup_insert] at looked
    exact .inl ⟨rfl, (Option.some.inj looked).symm⟩
  · rw [AList.lookup_insert_ne same] at looked
    exact .inr looked

theorem lookup_of_erase {name key : String} {found : Entry}
    (looked : (directory.erase key).lookup name = some found) :
    directory.lookup name = some found := by
  by_cases same : name = key
  · subst same
    rw [AList.lookup_erase] at looked
    cases looked
  · rwa [AList.lookup_erase_ne same] at looked

theorem lookup_of_foldl_erase {temps : List FileName} {name : String} {found : Entry}
    (looked : (temps.foldl (fun directory temp => directory.erase temp.print) directory).lookup
      name = some found) : directory.lookup name = some found := by
  induction temps generalizing directory with
  | nil => exact looked
  | cons temp temps ih => exact lookup_of_erase (ih looked)

/-- The only files that the regular expression of a reduce task matches are intermediate files of
    the job, with their parts. -/
def Unmixed (setting : Setting) (files : List String) (nReduce : Nat) (directory : Directory) :
    Prop :=
  ∀ r < nReduce, ∀ name content, directory.lookup name = some (.file content) →
    matchString r name = true → ∃ m fileName, files[m]? = some fileName ∧
      name = (FileName.intermediate m r).print ∧
      content = setting.partition nReduce fileName r

theorem not_matchString_temp {temp : FileName} (isTemp : temp.IsTemp) (r : Nat) :
    ¬ matchString r temp.print = true := by
  rw [FileName.matchString_print]
  rintro ⟨m, rfl⟩
  exact isTemp

theorem Change.unmixed {own : List FileName}
    (change : Change setting files nReduce directory own [] directory')
    (unmixed : Unmixed setting files nReduce directory) :
    Unmixed setting files nReduce directory' := by
  intro r inside name content found matched
  cases change with
  | same => exact unmixed r inside name content found matched
  | created isTemp absent =>
    obtain ⟨rfl, -⟩ | before := lookup_insert_cases found
    · exact absurd matched (not_matchString_temp isTemp r)
    · exact unmixed r inside name content before matched
  | grown isTemp mine bytes =>
    obtain ⟨rfl, -⟩ | before := lookup_insert_cases found
    · exact absurd matched (not_matchString_temp isTemp r)
    · exact unmixed r inside name content before matched
  | removed temps =>
    exact unmixed r inside name content (lookup_of_foldl_erase found) matched
  | moved isTemp mine final =>
    obtain ⟨rfl, same⟩ | before := lookup_insert_cases found
    · obtain ⟨m, rfl⟩ := (FileName.matchString_print r _).mp matched
      cases same
      cases final with
      | @intermediate _ _ fileName _ listed inside text =>
        exact ⟨m, fileName, listed, rfl, text.whole List.not_mem_nil⟩
    · exact unmixed r inside name content (lookup_of_erase before) matched

/-- Every intermediate file is in place. -/
def AllPlaced (setting : Setting) (files : List String) (nReduce : Nat) (directory : Directory) :
    Prop :=
  ∀ m fileName, files[m]? = some fileName → ∀ r < nReduce,
    Placed setting nReduce directory fileName m r

/-- The names of a listing that `DoReduceTask` reads. -/
def chosen (r : Nat) (names : List (String × Bool)) : List String :=
  (names.filter fun entry => !entry.2 && matchString r entry.1).map Prod.fst

/-- The name of the intermediate file for an input file with its number. -/
def inputName (r : Nat) (input : String × Nat) : String := (FileName.intermediate input.2 r).print

theorem readDir_names (directory : Directory) :
    directory.readDir.map Prod.fst = directory.keys.insertionSort (· ≤ ·) := by
  rw [Directory.readDir, List.map_map]
  exact List.map_id _

theorem mem_chosen_readDir {r : Nat} {name : String} :
    name ∈ chosen r directory.readDir ↔
      (∃ content, directory.lookup name = some (.file content)) ∧ matchString r name = true := by
  have listed : name ∈ chosen r directory.readDir ↔
      name ∈ directory ∧ directory.lookup name ≠ some .dir ∧ matchString r name = true := by
    simp [chosen, Directory.readDir, AList.mem_keys]
  rw [listed]
  constructor
  · rintro ⟨there, file, matched⟩
    obtain ⟨entry, found⟩ := Option.isSome_iff_exists.mp (AList.lookup_isSome.mpr there)
    cases entry with
    | file content => exact ⟨⟨content, found⟩, matched⟩
    | dir => exact absurd found file
  · rintro ⟨⟨content, found⟩, matched⟩
    refine ⟨AList.lookup_isSome.mp (by rw [found]; rfl), ?_, matched⟩
    rw [found]
    simp

theorem chosen_nodup (r : Nat) (directory : Directory) : (chosen r directory.readDir).Nodup := by
  have names : (directory.readDir.map Prod.fst).Nodup := by
    rw [readDir_names]
    exact (List.perm_insertionSort _ _).nodup_iff.mpr (AList.keys_nodup _)
  exact names.sublist (List.filter_sublist.map Prod.fst)

theorem inputName_nodup (files : List String) (r : Nat) :
    (files.zipIdx.map (inputName r)).Nodup := by
  have injective : Function.Injective fun m => (FileName.intermediate m r).print := by
    intro m m' same
    simpa using same
  have numbers := (List.nodup_zipIdx_map_snd files).map injective
  rw [List.map_map] at numbers
  exact numbers

/-- A listing has each of the intermediate files of the task once. -/
theorem chosen_readDir_perm (unmixed : Unmixed setting files nReduce directory)
    (placed : AllPlaced setting files nReduce directory) {r : Nat} (inside : r < nReduce) :
    (chosen r directory.readDir).Perm (files.zipIdx.map (inputName r)) := by
  rw [List.perm_ext_iff_of_nodup (chosen_nodup r directory) (inputName_nodup files r)]
  intro name
  rw [mem_chosen_readDir]
  constructor
  · rintro ⟨⟨content, found⟩, matched⟩
    obtain ⟨m, fileName, listed, rfl, -⟩ := unmixed r inside name content found matched
    exact List.mem_map.mpr ⟨(fileName, m), List.mem_zipIdx_iff_getElem?.mpr listed, rfl⟩
  · intro listed
    obtain ⟨⟨fileName, m⟩, input, rfl⟩ := List.mem_map.mp listed
    have there := placed m fileName (List.mem_zipIdx_iff_getElem?.mp input) r inside
    exact ⟨⟨_, there⟩, (FileName.matchString_print r _).mpr ⟨m, rfl⟩⟩

/-! ## How far a reduce task has got -/

/-- What `DoReduceTask` has read and written, if it began with all intermediate files in place. -/
def ReduceStage.Gathers (setting : Setting) (files : List String) (nReduce : Nat)
    (directory : Directory) (taskID : Nat) : ReduceStage → Prop
  | listing => True
  | creating names => (chosen taskID names).Perm (files.zipIdx.map (inputName taskID))
  | reading temp names finalStorage =>
    ∃ seen left : List (String × Nat), chosen taskID names = left.map (inputName taskID) ∧
      (seen ++ left).Perm files.zipIdx ∧
      finalStorage = Groups.addAll ∅ (setting.reduceInput (seen.map Prod.fst) nReduce taskID) ∧
      ∀ name ∈ temp, directory.lookup name.print = some (.file [])
  | writing temp left =>
    ∃ done, done ++ left = setting.reduceOutput files nReduce taskID ∧
      ∀ name ∈ temp, directory.lookup name.print = some (.file (written done))

namespace ReduceStage.Gathers

variable {taskID : Nat} {stage : ReduceStage}

/-- Only the temporary file of the execution matters. -/
theorem keep (gathers : stage.Gathers setting files nReduce directory taskID)
    (same : ∀ temp ∈ stage.temps, ∀ content, directory.lookup temp.print = some (.file content) →
      directory'.lookup temp.print = some (.file content)) :
    stage.Gathers setting files nReduce directory' taskID := by
  cases stage with
  | listing => trivial
  | creating names => exact gathers
  | reading temp names finalStorage =>
    obtain ⟨seen, left, names, all, storage, text⟩ := gathers
    exact ⟨seen, left, names, all, storage, fun name mine =>
      same name (Option.mem_toList.mpr mine) _ (text name mine)⟩
  | writing temp left =>
    obtain ⟨done, all, text⟩ := gathers
    exact ⟨done, all, fun name mine => same name (Option.mem_toList.mpr mine) _ (text name mine)⟩

theorem step (plain : setting.Plain files) (unordered : setting.Unordered)
    (unmixed : Unmixed setting files nReduce directory)
    (placed : AllPlaced setting files nReduce directory) (inside : taskID < nReduce)
    (gathers : stage.Gathers setting files nReduce directory taskID) {next : Option ReduceStage}
    (stepped : ReduceStep setting taskID directory stage directory' next) :
    ∀ stage' ∈ next, stage'.Gathers setting files nReduce directory' taskID := by
  cases stepped with
  | listed =>
    rintro _ ⟨⟩
    exact chosen_readDir_perm unmixed placed inside
  | @created names n absent =>
    rintro _ ⟨⟩
    have split : Relation.Comp (fun names left => names = List.map (inputName taskID) left) List.Perm
        (chosen taskID names) files.zipIdx := by
      rw [List.eq_map_comp_perm]
      exact gathers
    obtain ⟨left, names, all⟩ := split
    refine ⟨[], left, names, all, rfl, ?_⟩
    rintro name ⟨⟩
    exact AList.lookup_insert _
  | @decoded temp name names finalStorage content kvs own found decoded =>
    rintro _ ⟨⟩
    obtain ⟨seen, left, listed, all, rfl, text⟩ := gathers
    have first : chosen taskID ((name, false) :: names) = name :: chosen taskID names := by
      simp [chosen, own]
    rw [first] at listed
    obtain ⟨input, left, rfl, rfl, rest⟩ := List.map_eq_cons_iff.mp listed.symm
    obtain ⟨fileName, m⟩ := input
    -- The file is in place, so decoding it gives the entries of its part.
    have input : (fileName, m) ∈ files.zipIdx := all.mem_iff.mp (by simp)
    have numbered := List.mem_zipIdx_iff_getElem?.mp input
    have there := placed m fileName numbered taskID inside
    obtain rfl : content = setting.partition nReduce fileName taskID := by
      have same := found.symm.trans there
      simpa using same
    rw [decodeAll_partition plain (List.mem_of_getElem? numbered)] at decoded
    cases decoded
    refine ⟨seen ++ [(fileName, m)], left, rest.symm, by simpa using all, ?_, text⟩
    rw [← Groups.addAll_append]
    simp [Setting.reduceInput]
  | @passed temp name isDir names finalStorage other =>
    rintro _ ⟨⟩
    obtain ⟨seen, left, listed, rest⟩ := gathers
    refine ⟨seen, left, ?_, rest⟩
    rw [← listed]
    simp [chosen, other]
  | @collected temp finalStorage =>
    rintro _ ⟨⟩
    obtain ⟨seen, left, listed, all, rfl, text⟩ := gathers
    obtain rfl : left = [] := by simpa [chosen] using listed.symm
    have read : (setting.reduceInput (seen.map Prod.fst) nReduce taskID).Perm
        (setting.reduceInput files nReduce taskID) := by
      rw [List.append_nil] at all
      have inputs := all.map Prod.fst
      rw [List.zipIdx_map_fst] at inputs
      exact inputs.flatMap_right _
    exact ⟨[], reduced_eq unordered read, text⟩
  | @wrote temp key output left =>
    rintro _ ⟨⟩
    obtain ⟨done, all, text⟩ := gathers
    refine ⟨done ++ [(key, output)], by simpa using all, ?_⟩
    rintro name ⟨⟩
    rw [append_of_lookup _ (text temp rfl), AList.lookup_insert]
    simp [written]
  | @wroteNothing key output left =>
    rintro _ ⟨⟩
    obtain ⟨done, all, text⟩ := gathers
    exact ⟨done ++ [(key, output)], by simpa using all, by simp⟩
  | placed found => simp

/-- When `DoReduceTask` returns, its output file is complete. -/
theorem returned (gathers : stage.Gathers setting files nReduce directory taskID)
    (stepped : ReduceStep setting taskID directory stage directory' none) :
    directory'.lookup (FileName.output taskID).print =
      some (.file (written (setting.reduceOutput files nReduce taskID))) := by
  cases stepped with
  | @placed temp content found =>
    obtain ⟨done, all, text⟩ := gathers
    rw [List.append_nil] at all
    subst all
    rw [text temp rfl] at found
    cases found
    exact AList.lookup_insert _

end ReduceStage.Gathers

/-! ## The output files -/

/-- An output file changes only when its own reduce task returns. -/
theorem ExecutionStep.lookup_output {execution : Execution} {next : Option Execution}
    (stepped : ExecutionStep setting directory execution directory' next)
    (holds : execution.Holds setting files nReduce directory) (r : Nat) :
    directory'.lookup (FileName.output r).print = directory.lookup (FileName.output r).print ∨
      (∃ stage, execution = .reduce r stage) ∧ next = none := by
  cases stepped with
  | map step =>
    obtain ⟨-, rfl, holds⟩ := holds
    exact .inl (holds.lookup_final (.inl step) id (by simp))
  | @reduce taskID stage _ after step =>
    by_cases own : taskID = r ∧ after = none
    · obtain ⟨rfl, rfl⟩ := own
      exact .inr ⟨⟨stage, rfl⟩, rfl⟩
    · left
      apply holds.2.lookup_final (.inl step) id
      rintro returned ⟨⟩
      exact own ⟨rfl, returned⟩

/-! ## All executions together -/

variable {pool pool' : Pool} {completed completed' : List JobTask} {e : ScheduleEvent}

/-- The executions do not disturb each other, and there are no other files to read. -/
structure Clean (setting : Setting) (files : List String) (nReduce : Nat) (pool : Pool) : Prop where
  intact : Intact setting files nReduce pool
  unmixed : Unmixed setting files nReduce pool.directory

theorem JobTask.execution_fresh {task : JobTask} {execution : Execution}
    (begun : task.execution files nReduce = some execution) :
    execution.temps = [] ∧ execution.Holds setting files nReduce directory ∧
      execution.Whole setting nReduce directory := by
  cases task with
  | map m =>
    obtain ⟨fileName, listed, rfl⟩ := Option.map_eq_some_iff.mp begun
    exact ⟨rfl, ⟨listed, rfl, trivial⟩, trivial⟩
  | reduce r =>
    obtain ⟨inside, begun⟩ := Option.ite_none_right_eq_some.mp begun
    cases begun
    exact ⟨rfl, ⟨inside, fun temp mine => (List.not_mem_nil mine).elim⟩, trivial⟩

theorem JobTask.execution_reduce {task : JobTask} {r : Nat} {stage : ReduceStage}
    (begun : task.execution files nReduce = some (.reduce r stage)) :
    task = .reduce r ∧ r < nReduce ∧ stage = .listing := by
  cases task with
  | map m =>
    obtain ⟨fileName, -, other⟩ := Option.map_eq_some_iff.mp begun
    cases other
  | reduce r' =>
    obtain ⟨inside, begun⟩ := Option.ite_none_right_eq_some.mp begun
    cases begun
    exact ⟨rfl, inside, rfl⟩

namespace ScheduleStep

theorem intact (step : ScheduleStep setting files nReduce pool completed e pool' completed')
    (intact : Intact setting files nReduce pool) : Intact setting files nReduce pool' := by
  cases step with
  | started begun =>
    apply intact.set
    rintro execution ⟨⟩
    exact JobTask.execution_fresh begun
  | worked running stepped => exact intact.step running stepped
  | returned running stepped => exact intact.step running stepped
  | crashed => exact intact.set (by simp)

/-- The directory changes by the action of one execution, or not at all. -/
theorem change (step : ScheduleStep setting files nReduce pool completed e pool' completed')
    (intact : Intact setting files nReduce pool) :
    ∃ own, Change setting files nReduce pool.directory own [] pool'.directory := by
  cases step with
  | started begun => exact ⟨[], .same⟩
  | worked running stepped => exact ⟨_, intact.change running stepped⟩
  | returned running stepped => exact ⟨_, intact.change running stepped⟩
  | crashed => exact ⟨[], .same⟩

theorem clean (step : ScheduleStep setting files nReduce pool completed e pool' completed')
    (clean : Clean setting files nReduce pool) : Clean setting files nReduce pool' := by
  obtain ⟨own, change⟩ := step.change clean.intact
  exact ⟨step.intact clean.intact, change.unmixed clean.unmixed⟩

theorem placed (step : ScheduleStep setting files nReduce pool completed e pool' completed')
    (intact : Intact setting files nReduce pool) {fileName : String} {m r : Nat}
    (listed : files[m]? = some fileName)
    (placed : Placed setting nReduce pool.directory fileName m r) :
    Placed setting nReduce pool'.directory fileName m r := by
  obtain ⟨own, change⟩ := step.change intact
  exact change.placed listed placed

end ScheduleStep

/-! ### Until the map tasks are completed -/

/-- A completed map task has its intermediate files in place. -/
structure Mapping (setting : Setting) (files : List String) (nReduce : Nat)
    (s : Pool × List JobTask) : Prop where
  clean : Clean setting files nReduce s.1
  mapped : ∀ m fileName, .map m ∈ s.2 → files[m]? = some fileName → ∀ r < nReduce,
    Placed setting nReduce s.1.directory fileName m r

theorem Mapping.step (mapping : Mapping setting files nReduce (pool, completed))
    (step : ScheduleStep setting files nReduce pool completed e pool' completed') :
    Mapping setting files nReduce (pool', completed') where
  clean := step.clean mapping.clean
  mapped := by
    intro m fileName done listed r inside
    have before : .map m ∈ completed → Placed setting nReduce pool'.directory fileName m r :=
      fun earlier => step.placed mapping.clean.intact listed
        (mapping.mapped m fileName earlier listed r inside)
    cases step with
    | started begun => exact before done
    | worked running stepped => exact before done
    | @returned worker action execution directory running stepped =>
      obtain now | earlier := List.mem_cons.mp done
      · have holds := mapping.clean.intact.holds running
        have whole := mapping.clean.intact.whole worker execution running
        cases execution with
        | map fileName' taskID n stage =>
          obtain rfl : m = taskID := by simpa [Execution.task] using now
          obtain rfl : fileName = fileName' := Option.some.inj (listed.symm.trans holds.1)
          exact whole.returned holds stepped.map_returned inside
        | reduce taskID stage => simp [Execution.task] at now
      · exact before earlier
    | crashed => exact before done

/-! ### From then on -/

/-- Every reduce task reads the entries of its part, and a completed one has left its output. -/
structure Reducing (setting : Setting) (files : List String) (nReduce : Nat)
    (s : Pool × List JobTask) : Prop where
  clean : Clean setting files nReduce s.1
  placed : AllPlaced setting files nReduce s.1.directory
  gathers : ∀ worker r stage, s.1.running worker = some (.reduce r stage) →
    r < nReduce ∧ stage.Gathers setting files nReduce s.1.directory r
  outputs : ∀ r, .reduce r ∈ s.2 → s.1.directory.lookup (FileName.output r).print =
    some (.file (written (setting.reduceOutput files nReduce r)))

namespace Reducing

/-- When a worker begins an execution or drops the one it has, the directory stays. -/
theorem set (reducing : Reducing setting files nReduce (pool, completed)) {worker : Nat}
    {next : Option Execution} (clean : Clean setting files nReduce (pool.set worker next))
    (fresh : ∀ r stage, next = some (.reduce r stage) →
      r < nReduce ∧ stage.Gathers setting files nReduce pool.directory r) :
    Reducing setting files nReduce (pool.set worker next, completed) where
  clean := clean
  placed := reducing.placed
  gathers := by
    intro other r stage running
    obtain ⟨-, begun⟩ | ⟨-, running⟩ := running_set running
    · exact fresh r stage begun
    · exact reducing.gathers other r stage running
  outputs := reducing.outputs

/-- The reduce task of a worker gathers on. -/
theorem gathers_next (reducing : Reducing setting files nReduce (pool, completed))
    (plain : setting.Plain files) (unordered : setting.Unordered) {worker : Nat}
    {execution : Execution} (running : pool.running worker = some execution)
    {next : Option Execution}
    (stepped : ExecutionStep setting pool.directory execution directory' next) {r : Nat}
    {stage : ReduceStage} (begun : next = some (.reduce r stage)) :
    r < nReduce ∧ stage.Gathers setting files nReduce directory' r := by
  subst begun
  obtain ⟨before, rfl, step⟩ := stepped.reduce_before
  obtain ⟨inside, gathers⟩ := reducing.gathers worker r before running
  exact ⟨inside, gathers.step plain unordered reducing.clean.unmixed reducing.placed inside step
    stage rfl⟩

/-- A reduce task that returns has left its output. -/
theorem output_returned (reducing : Reducing setting files nReduce (pool, completed)) {worker : Nat}
    {r : Nat} {stage : ReduceStage} (running : pool.running worker = some (.reduce r stage))
    (stepped : ExecutionStep setting pool.directory (.reduce r stage) directory' none) :
    directory'.lookup (FileName.output r).print =
      some (.file (written (setting.reduceOutput files nReduce r))) := by
  generalize ended : (none : Option Execution) = next at stepped
  cases stepped with
  | @reduce _ _ _ next step =>
    obtain rfl : next = none := by simpa using ended.symm
    exact (reducing.gathers worker r stage running).2.returned step

/-- The action of one worker. -/
theorem work (reducing : Reducing setting files nReduce (pool, completed))
    (plain : setting.Plain files) (unordered : setting.Unordered) {worker : Nat}
    {execution : Execution} (running : pool.running worker = some execution)
    {next : Option Execution}
    (stepped : ExecutionStep setting pool.directory execution directory' next)
    (placed : AllPlaced setting files nReduce directory')
    (clean : Clean setting files nReduce
      { pool.set worker next with directory := directory' }) :
    Reducing setting files nReduce
      ({ pool.set worker next with directory := directory' }, completed) where
  clean := clean
  placed := placed
  gathers := by
    intro other r stage running'
    obtain ⟨-, begun⟩ | ⟨differs, running'⟩ := running_set running'
    · exact reducing.gathers_next plain unordered running stepped begun
    · obtain ⟨inside, gathers⟩ := reducing.gathers other r stage running'
      refine ⟨inside, gathers.keep ?_⟩
      intro temp mine content found
      have effect := reducing.clean.intact.effect running stepped
      exact reducing.clean.intact.tidy.lookup_other running effect differs running' mine found
  outputs := by
    intro r done
    have holds := reducing.clean.intact.holds running
    obtain same | ⟨⟨stage, rfl⟩, rfl⟩ := stepped.lookup_output holds r
    · exact same.trans (reducing.outputs r done)
    · exact reducing.output_returned running stepped

theorem step (reducing : Reducing setting files nReduce (pool, completed))
    (plain : setting.Plain files) (unordered : setting.Unordered)
    (step : ScheduleStep setting files nReduce pool completed e pool' completed') :
    Reducing setting files nReduce (pool', completed') := by
  have clean := step.clean reducing.clean
  have placed : AllPlaced setting files nReduce pool'.directory :=
    fun m fileName listed r inside => step.placed reducing.clean.intact listed
      (reducing.placed m fileName listed r inside)
  cases step with
  | @started worker task execution begun =>
    apply reducing.set clean
    intro r stage same
    cases same
    obtain ⟨-, inside, rfl⟩ := JobTask.execution_reduce begun
    exact ⟨inside, trivial⟩
  | worked running stepped => exact reducing.work plain unordered running stepped placed clean
  | @returned worker action execution directory running stepped =>
    have after := reducing.work plain unordered running stepped placed clean
    refine ⟨clean, placed, after.gathers, ?_⟩
    intro r done
    obtain now | earlier := List.mem_cons.mp done
    · cases execution with
      | map fileName taskID n stage => simp [Execution.task] at now
      | reduce taskID stage =>
        obtain rfl : r = taskID := by simpa [Execution.task] using now
        exact reducing.output_returned running stepped
    · exact after.outputs r earlier
  | crashed => exact reducing.set clean (by simp)

end Reducing

/-! ## Map tasks first -/

/-- No reduce task is begun. -/
def ScheduleEvent.BeginsNoReduce : ScheduleEvent → Prop
  | start _ (.reduce _) => False
  | _ => True

instance : DecidablePred ScheduleEvent.BeginsNoReduce
  | .start _ (.map _) => isTrue trivial
  | .start _ (.reduce _) => isFalse id
  | .work _ _ => isTrue trivial
  | .crash _ => isTrue trivial

/-- While only map tasks are begun, no execution is one of `DoReduceTask`. -/
theorem quiet_of_maps {s : Pool × List JobTask}
    (reached : (schedule setting files nReduce directory).ReachableWhen
      (fun _ e => e.Succeeds ∧ e.BeginsNoReduce) s) :
    ∀ worker r stage, s.1.running worker ≠ some (.reduce r stage) := by
  refine reached.invariant
    (I := fun s => ∀ worker r stage, s.1.running worker ≠ some (.reduce r stage)) ?_ ?_
  · rintro worker r stage ⟨⟩
  · rintro ⟨pool, completed⟩ e ⟨pool', completed'⟩ - quiet ⟨succeeds, maps⟩ next other r stage running
    cases scheduleStep_of_step succeeds next with
    | @started worker task execution begun =>
      obtain ⟨-, same⟩ | ⟨-, before⟩ := running_set running
      · cases same
        obtain ⟨rfl, -⟩ := JobTask.execution_reduce begun
        exact maps
      · exact quiet other r stage before
    | @worked worker action execution execution' directory before stepped =>
      obtain ⟨-, same⟩ | ⟨-, elsewhere⟩ := running_set running
      · cases same
        obtain ⟨stage', rfl, -⟩ := stepped.reduce_before
        exact quiet worker r stage' before
      · exact quiet other r stage elsewhere
    | returned before stepped =>
      obtain ⟨-, same⟩ | ⟨-, elsewhere⟩ := running_set running
      · cases same
      · exact quiet other r stage elsewhere
    | crashed =>
      obtain ⟨-, same⟩ | ⟨-, elsewhere⟩ := running_set running
      · cases same
      · exact quiet other r stage elsewhere

/-! ## Distributed and sequential -/

/-- No entry other than a directory has a name that the regular expression of a reduce task
    matches. -/
def Directory.NoneMatched (directory : Directory) (nReduce : Nat) : Prop :=
  ∀ name content, directory.lookup name = some (.file content) → ∀ r < nReduce,
    matchString r name = false

theorem mapping_reachable (supplied : setting.Supplied files nReduce directory)
    (unmatched : directory.NoneMatched nReduce) {s : Pool × List JobTask}
    (reached : (schedule setting files nReduce directory).ReachableWhen
      (fun _ e => e.Succeeds) s) : Mapping setting files nReduce s := by
  refine reached.invariant (I := Mapping setting files nReduce) ?_ ?_
  · refine ⟨⟨.init supplied, ?_⟩, ?_⟩
    · intro r inside name content found matched
      rw [unmatched name content found r inside] at matched
      cases matched
    · rintro m fileName ⟨⟩
  · rintro ⟨pool, completed⟩ e ⟨pool', completed'⟩ - mapping succeeds next
    exact mapping.step (scheduleStep_of_step succeeds next)

/-- In a directory in which the regular expression of no reduce task matches an entry other than a
    directory, and no input file has the name of a file that the job writes: whatever the schedule, with
    any number of workers that repeat tasks and stop at any point, if first every map task has been
    completed, and from then on every reduce task has been begun and completed, then the output files
    match the sequential program. -/
theorem outputsMatchSequential {sort : List KeyValue → List KeyValue} (sorts : SortsByKey sort)
    (unordered : setting.Unordered) (plain : setting.Plain files) (positive : 0 < nReduce)
    (supplied : setting.Supplied files nReduce directory)
    (unmatched : directory.NoneMatched nReduce) {s s' : Pool × List JobTask}
    (maps : (schedule setting files nReduce directory).ReachableWhen (fun _ e => e.Succeeds) s)
    (mapped : ∀ m < files.length, .map m ∈ s.2)
    (quiet : ∀ worker r stage, s.1.running worker ≠ some (.reduce r stage))
    (reduces : (schedule setting files nReduce directory).Path (fun _ e => e.Succeeds) (s.1, []) s')
    (reduced : ∀ r < nReduce, .reduce r ∈ s'.2) :
    MatchesSequential setting sort files nReduce s'.1.directory := by
  have mapping := mapping_reachable supplied unmatched maps
  have begin : Reducing setting files nReduce (s.1, []) := by
    refine ⟨mapping.clean, ?_, ?_, ?_⟩
    · intro m fileName listed r inside
      have number : m < files.length := (List.getElem?_eq_some_iff.mp listed).1
      exact mapping.mapped m fileName (mapped m number) listed r inside
    · intro worker r stage running
      exact absurd running (quiet worker r stage)
    · rintro r ⟨⟩
  have reducing : Reducing setting files nReduce s' := by
    refine reduces.invariant (I := Reducing setting files nReduce) begin ?_
    rintro ⟨pool, completed⟩ e ⟨pool', completed'⟩ reducing succeeds next
    exact reducing.step plain unordered (scheduleStep_of_step succeeds next)
  apply matchesSequential_of_outputs sorts unordered positive
  intro r inside
  exact reducing.outputs r (reduced r inside)

/-- A sort that is stable. -/
def mergeByKey (kva : List KeyValue) : List KeyValue :=
  kva.mergeSort fun kv kv' => decide (kv.1 ≤ kv'.1)

theorem sortsByKey_mergeByKey : SortsByKey mergeByKey := by
  intro kva
  refine ⟨List.mergeSort_perm _ _, ?_⟩
  have ordered : (mergeByKey kva).Pairwise fun kv kv' => decide (kv.1 ≤ kv'.1) = true := by
    apply List.pairwise_mergeSort
    · intro first second third below above
      exact decide_eq_true ((of_decide_eq_true below).trans (of_decide_eq_true above))
    · intro first second
      simpa using le_total first.1 second.1
  exact ordered.imp of_decide_eq_true

theorem unordered_letters : letters.Unordered := by
  intro key values values' same
  simp [letters, same.length_eq]

/-- Worker 2 stops in the middle of a map task that worker 0 completes. -/
def lettersMapped : Pool × List JobTask :=
  ((schedule letters ["aba", "cb"] 2 ∅).guarded fun _ e => e.Succeeds ∧ e.BeginsNoReduce).after
    [.start 0 (.map 0), .start 1 (.map 1), .start 2 (.map 0), .work 0 (.read true),
      .work 1 (.read true), .work 2 (.read true), .work 2 (.create (some 5)), .crash 2,
      .work 0 (.create (some 7)), .work 0 (.create (some 8)), .work 0 .compute,
      .work 1 (.create (some 7)), .work 1 (.create (some 8)), .work 1 .compute,
      .work 0 (.write none), .work 0 (.write none), .work 0 .compute, .work 0 (.rename true true),
      .work 1 (.write none), .work 1 (.write none), .work 1 .compute, .work 1 (.rename true true),
      .work 0 (.rename true true), .work 0 .compute, .work 1 (.rename true true), .work 1 .compute]

/-- Two reduce tasks side by side, and a map task once more. -/
def lettersReduced : Pool × List JobTask :=
  ((schedule letters ["aba", "cb"] 2 ∅).guarded fun _ e => e.Succeeds).afterFrom
    (lettersMapped.1, [])
    [.start 0 (.reduce 0), .start 1 (.reduce 1), .start 2 (.map 1), .work 2 (.read true),
      .work 0 (.read true), .work 1 (.read true), .work 0 (.create (some 3)),
      .work 1 (.create (some 3)), .work 2 (.create (some 6)), .work 0 (.read true),
      .work 0 (.read true), .work 0 (.read true), .work 0 (.read true), .work 0 (.read true),
      .work 1 (.read true), .work 1 (.read true), .work 1 (.read true), .work 1 (.read true),
      .work 1 (.read true), .work 0 .compute, .work 1 .compute, .work 0 (.write none),
      .work 0 (.write none), .work 1 (.write none), .work 1 (.rename true true),
      .work 0 (.rename true true)]

theorem outputsMatchSequential_letters :
    MatchesSequential letters mergeByKey ["aba", "cb"] 2 lettersReduced.1.directory := by
  have phase : (schedule letters ["aba", "cb"] 2 ∅).ReachableWhen
      (fun _ e => e.Succeeds ∧ e.BeginsNoReduce) lettersMapped :=
    Machine.reachableWhen_of_guarded (Machine.reachable_after _)
  have maps : (schedule letters ["aba", "cb"] 2 ∅).ReachableWhen (fun _ e => e.Succeeds)
      lettersMapped := phase.mono fun _ _ both => both.1
  have reduces : (schedule letters ["aba", "cb"] 2 ∅).Path (fun _ e => e.Succeeds)
      (lettersMapped.1, []) lettersReduced :=
    Machine.path_of_guarded (Machine.path_afterFrom _ _)
  have plain : ∀ kv ∈ letters.intermediate ["aba", "cb"],
      AsciiJson.Plain kv.1 ∧ AsciiJson.Plain kv.2 := by decide +kernel
  exact outputsMatchSequential sortsByKey_mergeByKey unordered_letters plain (by decide)
    (supplied_elsewhere (by decide)) (by rintro name content ⟨⟩) maps (by decide +kernel)
    (quiet_of_maps phase) reduces (by decide +kernel)

/-- A file of another program whose name ends like that of an intermediate file. -/
def strayDirectory : Directory :=
  (∅ : Directory).insert "xmr-0-0" (.file (letters.json.encode (AsciiJson.ascii "z", [[]])))

/-- The pool after the only map task. -/
def strayMapped : Pool × List JobTask :=
  ((schedule letters ["aba"] 1 strayDirectory).guarded
    fun _ e => e.Succeeds ∧ e.BeginsNoReduce).after
      [.start 0 (.map 0), .work 0 (.read true), .work 0 (.create (some 7)), .work 0 .compute,
        .work 0 (.write none), .work 0 (.write none), .work 0 .compute,
        .work 0 (.rename true true), .work 0 .compute]

/-- The reduce task reads `mr-0-0` and `xmr-0-0`. -/
def strayReduced : Pool × List JobTask :=
  ((schedule letters ["aba"] 1 strayDirectory).guarded fun _ e => e.Succeeds).afterFrom
    (strayMapped.1, [])
    [.start 0 (.reduce 0), .work 0 (.read true), .work 0 (.create (some 3)), .work 0 (.read true),
      .work 0 (.read true), .work 0 .compute, .work 0 (.write none), .work 0 (.write none),
      .work 0 (.write none), .work 0 (.rename true true)]

/-- A directory with no file whose name begins with `mr-` is not enough: the output has a key that
    no input file has. -/
theorem strayFile_mismatch :
    (∀ name ∈ strayDirectory.keys, ¬ ['m', 'r', '-'] <+: name.toList) ∧
      SortsByKey mergeByKey ∧ letters.Unordered ∧ letters.Plain ["aba"] ∧
      (schedule letters ["aba"] 1 strayDirectory).ReachableWhen
        (fun _ e => e.Succeeds ∧ e.BeginsNoReduce) strayMapped ∧
      (∀ m < 1, .map m ∈ strayMapped.2) ∧
      (schedule letters ["aba"] 1 strayDirectory).Path (fun _ e => e.Succeeds)
        (strayMapped.1, []) strayReduced ∧
      (∀ r < 1, .reduce r ∈ strayReduced.2) ∧
      ¬ MatchesSequential letters mergeByKey ["aba"] 1 strayReduced.1.directory := by
  have plain : ∀ kv ∈ letters.intermediate ["aba"],
      AsciiJson.Plain kv.1 ∧ AsciiJson.Plain kv.2 := by decide +kernel
  refine ⟨by decide +kernel, sortsByKey_mergeByKey, unordered_letters, plain,
    Machine.reachableWhen_of_guarded (Machine.reachable_after _), by decide +kernel,
    Machine.path_of_guarded (Machine.path_afterFrom _ _), by decide +kernel, ?_⟩
  intro matching
  have lines := matching.lines
  rw [mrsequential_eq unordered_letters sortsByKey_mergeByKey] at lines
  revert lines
  decide +kernel

end DistributedCloud.MapReduce
