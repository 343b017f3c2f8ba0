import DistributedCloud.MapReduce.Proofs.Changes

/-!
# Executions do not disturb each other

An execution writes to temporary files that it has made itself and that no other execution has. So
they are as it left them, whatever calls of itself or of others fail. While file-system calls succeed,
an intermediate file that is in place stays in place as well: it can only be replaced by one with the
same contents.
-/

namespace DistributedCloud.MapReduce

variable {setting : Setting} {files : List String} {nReduce : Nat} {directory directory' : Directory}

/-! ## The state of one execution -/

/-- The temporary files from `start` on are there, with contents that `Text` holds of. -/
def HoldTexts (directory : Directory) (taskID : Nat) (temps : List FileName) (start : Nat)
    (Text : Nat → Bytes → Prop) : Prop :=
  ∀ i temp, start ≤ i → temps[i]? = some temp →
    (∃ n, temp = .intermediateTemp taskID i n) ∧
      ∃ text, directory.lookup temp.print = some (.file text) ∧ Text i text

namespace MapStage

/-- The temporary files that the execution has yet to deal with. -/
def temps : MapStage → List FileName
  | reading => []
  | creating _ temps => temps
  | encoding temps _ _ => temps
  | placing temps _ i => temps.drop i

/-- The encoders that had an error. -/
def broken : MapStage → List Nat
  | encoding _ broken _ => broken
  | placing _ broken _ => broken
  | _ => []

/-- How far `DoMapTask` has got, seen in the directory. -/
def Holds (setting : Setting) (nReduce : Nat) (directory : Directory) (fileName : String)
    (taskID : Nat) : MapStage → Prop
  | reading => True
  | creating kva temps =>
    kva = setting.mapf fileName (setting.input fileName) ∧ temps.length ≤ nReduce ∧
      HoldTexts directory taskID temps 0 fun _ text => text = []
  | encoding temps broken left =>
    temps.length = nReduce ∧ ∃ done, done ++ left = setting.mapOutput fileName ∧
      HoldTexts directory taskID temps 0 (Encoded setting nReduce broken done)
  | placing temps broken i =>
    temps.length = nReduce ∧
      HoldTexts directory taskID temps i
        (Encoded setting nReduce broken (setting.mapOutput fileName))

end MapStage

/-- The temporary file of `DoReduceTask`. -/
def ReduceStage.temps : ReduceStage → List FileName
  | reading temp _ _ => temp.toList
  | writing temp _ => temp.toList
  | _ => []

/-- The temporary file of `DoReduceTask` is there. -/
def ReduceStage.Holds (directory : Directory) (taskID : Nat) (stage : ReduceStage) : Prop :=
  ∀ temp ∈ stage.temps, (∃ n, temp = .outputTemp taskID n) ∧
    ∃ content, directory.lookup temp.print = some (.file content)

namespace Execution

/-- The temporary files of the execution. -/
def temps : Execution → List FileName
  | map _ _ _ stage => stage.temps
  | reduce _ stage => stage.temps

/-- The encoders of the execution that had an error. -/
def broken : Execution → List Nat
  | map _ _ _ stage => stage.broken
  | reduce _ _ => []

/-- The execution is one of a task of the job, and the directory has what it left there. -/
def Holds (setting : Setting) (files : List String) (nReduce : Nat) (directory : Directory) :
    Execution → Prop
  | map fileName taskID n stage =>
    files[taskID]? = some fileName ∧ n = nReduce ∧
      stage.Holds setting nReduce directory fileName taskID
  | reduce taskID stage => taskID < nReduce ∧ stage.Holds directory taskID

end Execution

theorem HoldTexts.temp_found {taskID : Nat} {temps : List FileName} {start : Nat}
    {Text : Nat → Bytes → Prop} (hold : HoldTexts directory taskID temps start Text)
    {temp : FileName} (mine : temp ∈ temps.drop start) :
    temp.IsTemp ∧ ∃ content, directory.lookup temp.print = some (.file content) := by
  obtain ⟨i, found⟩ := List.mem_iff_getElem?.mp mine
  rw [List.getElem?_drop] at found
  obtain ⟨⟨n, rfl⟩, text, found, -⟩ := hold (start + i) temp (Nat.le_add_right start i) found
  exact ⟨trivial, text, found⟩

theorem MapStage.Holds.temp_found {fileName : String} {taskID : Nat} {stage : MapStage}
    (holds : stage.Holds setting nReduce directory fileName taskID) {temp : FileName}
    (mine : temp ∈ stage.temps) :
    temp.IsTemp ∧ ∃ content, directory.lookup temp.print = some (.file content) := by
  cases stage with
  | reading => cases mine
  | creating kva temps => exact holds.2.2.temp_found mine
  | encoding temps broken left =>
    obtain ⟨-, done, -, hold⟩ := holds
    exact hold.temp_found mine
  | placing temps broken i => exact holds.2.temp_found mine

theorem Execution.Holds.temp_found {execution : Execution}
    (holds : execution.Holds setting files nReduce directory) {temp : FileName}
    (mine : temp ∈ execution.temps) :
    temp.IsTemp ∧ ∃ content, directory.lookup temp.print = some (.file content) := by
  cases execution with
  | map fileName taskID n stage => exact holds.2.2.temp_found mine
  | reduce taskID stage =>
    obtain ⟨⟨n, rfl⟩, found⟩ := holds.2 temp mine
    exact ⟨trivial, found⟩

/-! ### Changes by others -/

theorem HoldTexts.keep {taskID : Nat} {temps : List FileName} {start : Nat}
    {Text : Nat → Bytes → Prop} (hold : HoldTexts directory taskID temps start Text)
    (same : ∀ temp ∈ temps.drop start, ∀ content,
      directory.lookup temp.print = some (.file content) →
        directory'.lookup temp.print = some (.file content)) :
    HoldTexts directory' taskID temps start Text := by
  intro i temp later listed
  obtain ⟨name, text, found, holds⟩ := hold i temp later listed
  exact ⟨name, text, same temp (mem_drop_of_getElem? later listed) _ found, holds⟩

/-- An execution is left alone by whatever keeps its temporary files. -/
theorem Execution.Holds.keep {execution : Execution}
    (holds : execution.Holds setting files nReduce directory)
    (same : ∀ temp ∈ execution.temps, ∀ content,
      directory.lookup temp.print = some (.file content) →
        directory'.lookup temp.print = some (.file content)) :
    execution.Holds setting files nReduce directory' := by
  cases execution with
  | map fileName taskID n stage =>
    obtain ⟨listed, total, holds⟩ := holds
    refine ⟨listed, total, ?_⟩
    cases stage with
    | reading => trivial
    | creating kva temps => exact ⟨holds.1, holds.2.1, holds.2.2.keep same⟩
    | encoding temps broken left =>
      obtain ⟨all, done, written, hold⟩ := holds
      exact ⟨all, done, written, hold.keep same⟩
    | placing temps broken i => exact ⟨holds.1, holds.2.keep same⟩
  | reduce taskID stage =>
    refine ⟨holds.1, ?_⟩
    intro temp mine
    obtain ⟨name, content, found⟩ := holds.2 temp mine
    exact ⟨name, content, same temp mine content found⟩

/-! ### Its own actions -/

namespace HoldTexts

variable {taskID start : Nat} {temps : List FileName} {Text Text' : Nat → Bytes → Prop}

theorem name (hold : HoldTexts directory taskID temps start Text) {i : Nat} {temp : FileName}
    (later : start ≤ i) (listed : temps[i]? = some temp) : ∃ n, temp = .intermediateTemp taskID i n :=
  (hold i temp later listed).1

/-- A file of another number is another file. -/
theorem ne (hold : HoldTexts directory taskID temps start Text) {i j : Nat} {temp temp' : FileName}
    (first : start ≤ i) (listed : temps[i]? = some temp) (second : start ≤ j)
    (listed' : temps[j]? = some temp') (differs : i ≠ j) : temp ≠ temp' := by
  obtain ⟨n, rfl⟩ := hold.name first listed
  obtain ⟨n', rfl⟩ := hold.name second listed'
  simp [differs]

theorem imp (hold : HoldTexts directory taskID temps start Text)
    (weaker : ∀ i text, Text i text → Text' i text) :
    HoldTexts directory taskID temps start Text' := by
  intro i temp later listed
  obtain ⟨name, text, found, holds⟩ := hold i temp later listed
  exact ⟨name, text, found, weaker i text holds⟩

theorem create (hold : HoldTexts directory taskID temps 0 fun _ text => text = []) {n : Nat}
    (absent : (FileName.intermediateTemp taskID temps.length n).print ∉ directory) :
    HoldTexts (directory.insert (FileName.intermediateTemp taskID temps.length n).print (.file []))
      taskID (temps ++ [.intermediateTemp taskID temps.length n]) 0 fun _ text => text = [] := by
  intro i temp _ listed
  rw [List.getElem?_append] at listed
  split at listed
  · obtain ⟨name, text, found, empty⟩ := hold i temp (Nat.zero_le i) listed
    refine ⟨name, text, ?_, empty⟩
    rw [lookup_insert_print (ne_of_absent absent found)]
    exact found
  · rename_i last
    rw [List.getElem?_singleton] at listed
    split at listed
    · obtain rfl : i = temps.length := by omega
      cases listed
      exact ⟨⟨n, rfl⟩, [], AList.lookup_insert _, rfl⟩
    · cases listed

theorem write (hold : HoldTexts directory taskID temps 0 Text) {index : Nat} {temp : FileName}
    (chosen : temps[index]? = some temp) {bytes : Bytes}
    (here : ∀ text, Text index text → Text' index (text ++ bytes))
    (elsewhere : ∀ i, i ≠ index → ∀ text, Text i text → Text' i text) :
    HoldTexts (directory.append temp bytes) taskID temps 0 Text' := by
  obtain ⟨name, text, found, holds⟩ := hold index temp (Nat.zero_le index) chosen
  rw [append_of_lookup bytes found]
  intro i other _ listed
  by_cases same : i = index
  · subst same
    obtain rfl : temp = other := Option.some.inj (chosen.symm.trans listed)
    exact ⟨name, text ++ bytes, AList.lookup_insert _, here text holds⟩
  · obtain ⟨name', text', found', holds'⟩ := hold i other (Nat.zero_le i) listed
    refine ⟨name', text', ?_, elsewhere i same text' holds'⟩
    rw [lookup_insert_print (hold.ne (Nat.zero_le i) listed (Nat.zero_le index) chosen same)]
    exact found'

theorem move {i : Nat} (hold : HoldTexts directory taskID temps i Text) {temp target : FileName}
    (chosen : temps[i]? = some temp) (final : ¬ target.IsTemp) {entry : Entry} :
    HoldTexts ((directory.erase temp.print).insert target.print entry) taskID temps (i + 1) Text := by
  intro j other later listed
  have after : i ≤ j := Nat.le_of_succ_le later
  obtain ⟨⟨n, rfl⟩, text, found, holds⟩ := hold j other after listed
  refine ⟨⟨n, rfl⟩, text, ?_, holds⟩
  have differs := hold.ne after listed le_rfl chosen (Nat.ne_of_gt later)
  have isTemp : (FileName.intermediateTemp taskID j n).IsTemp := trivial
  rw [lookup_move_print differs (isTemp.ne final)]
  exact found

/-- The execution writes to one of its files. -/
theorem change_append (hold : HoldTexts directory taskID temps 0 Text) {index : Nat}
    {temp : FileName} (chosen : temps[index]? = some temp) (bytes : Bytes) {broken : List Nat} :
    Change setting files nReduce directory temps broken (directory.append temp bytes) := by
  obtain ⟨⟨n, rfl⟩, text, found, -⟩ := hold index temp (Nat.zero_le index) chosen
  have isTemp : (FileName.intermediateTemp taskID index n).IsTemp := trivial
  rw [append_of_lookup bytes found]
  exact .grown isTemp (List.mem_of_getElem? chosen) bytes

end HoldTexts

/-- A file that has been dealt with is no longer among the files of the execution. -/
theorem mem_drop_of_succ {temps : List FileName} {i : Nat} {temp : FileName}
    (later : temp ∈ temps.drop (i + 1)) : temp ∈ temps.drop i := by
  rw [← List.drop_drop] at later
  exact List.mem_of_mem_drop later

/-- What a successful action of `DoMapTask` does to the directory and to what it has left there. -/
theorem MapStage.Holds.step {fileName : String} {taskID : Nat} {stage : MapStage}
    {next : Option MapStage} (listed : files[taskID]? = some fileName)
    (supplied : setting.Supplied files nReduce directory)
    (holds : stage.Holds setting nReduce directory fileName taskID)
    (stepped : MapStep setting fileName taskID nReduce directory stage directory' next) :
    Change setting files nReduce directory stage.temps stage.broken directory' ∧
      ∀ stage' ∈ next, stage'.Holds setting nReduce directory' fileName taskID ∧
        ∀ temp ∈ stage'.temps, temp ∈ stage.temps ∨ temp.print ∉ directory := by
  cases stepped with
  | @read content found =>
    obtain rfl : setting.input fileName = content := by
      have input := supplied.contents fileName (List.mem_of_getElem? listed)
      exact Option.some.inj (input.symm.trans found)
    refine ⟨.same, ?_⟩
    rintro _ ⟨⟩
    refine ⟨⟨rfl, Nat.zero_le _, ?_⟩, by simp [MapStage.temps]⟩
    intro i temp _ listed
    cases listed
  | @created kva temps n more absent =>
    refine ⟨.created trivial absent, ?_⟩
    rintro _ ⟨⟩
    obtain ⟨output, fits, hold⟩ := holds
    refine ⟨⟨output, by rw [List.length_append]; exact more, hold.create absent⟩, ?_⟩
    intro temp mine
    obtain before | new := List.mem_append.mp mine
    · exact .inl before
    · rw [List.mem_singleton.mp new]
      exact .inr absent
  | @collected kva temps all =>
    refine ⟨.same, ?_⟩
    rintro _ ⟨⟩
    obtain ⟨rfl, fits, hold⟩ := holds
    refine ⟨⟨le_antisymm fits all, [], rfl, hold.imp ?_⟩, fun temp mine => .inl mine⟩
    rintro i _ rfl
    exact .nil
  | @encoded temps broken kv left temp chosen works =>
    obtain ⟨all, done, written, hold⟩ := holds
    refine ⟨hold.change_append chosen _, ?_⟩
    rintro _ ⟨⟩
    refine ⟨⟨all, done ++ [kv], by simpa using written, ?_⟩, fun temp mine => .inl mine⟩
    apply hold.write chosen
    · intro text encoded
      exact encoded.encode works
    · intro i foreign text encoded
      exact encoded.other foreign
  | @skipped temps broken kv left fault =>
    refine ⟨.same, ?_⟩
    rintro _ ⟨⟩
    obtain ⟨all, done, written, hold⟩ := holds
    refine ⟨⟨all, done ++ [kv], by simpa using written, hold.imp ?_⟩, fun temp mine => .inl mine⟩
    intro i text encoded
    by_cases own : i = ihash kv.1 % nReduce
    · subst own
      exact encoded.skip fault
    · exact encoded.other own
  | @encodedAll temps broken =>
    refine ⟨.same, ?_⟩
    rintro _ ⟨⟩
    obtain ⟨all, done, written, hold⟩ := holds
    rw [List.append_nil] at written
    subst written
    exact ⟨⟨all, hold⟩, fun temp mine => .inl mine⟩
  | @placed temps broken i temp content chosen found =>
    obtain ⟨all, hold⟩ := holds
    obtain ⟨⟨n, rfl⟩, text, found', encoded⟩ := hold i temp le_rfl chosen
    obtain rfl : text = content := by
      rw [found] at found'
      simpa using found'.symm
    have inside : i < nReduce := all ▸ (List.getElem?_eq_some_iff.mp chosen).1
    refine ⟨.moved trivial (mem_drop_of_getElem? le_rfl chosen)
      (.intermediate listed inside encoded), ?_⟩
    rintro _ ⟨⟩
    exact ⟨⟨all, hold.move chosen id⟩, fun temp later => .inl (mem_drop_of_succ later)⟩
  | returned all =>
    refine ⟨.same, ?_⟩
    rintro _ ⟨⟩

/-- What a failed action of `DoMapTask` does. -/
theorem MapStage.Holds.fault {fileName : String} {taskID : Nat} {stage : MapStage}
    {next : Option MapStage} (holds : stage.Holds setting nReduce directory fileName taskID)
    (failed : MapFault setting nReduce directory stage directory' next) :
    Change setting files nReduce directory stage.temps stage.broken directory' ∧
      ∀ stage' ∈ next, stage'.Holds setting nReduce directory' fileName taskID ∧
        ∀ temp ∈ stage'.temps, temp ∈ stage.temps ∨ temp.print ∉ directory := by
  cases failed with
  | @uncreated kva temps =>
    refine ⟨.removed fun temp mine => (holds.temp_found mine).1, ?_⟩
    rintro _ ⟨⟩
  | @cut temps broken kv left temp n chosen works short =>
    obtain ⟨all, done, written, hold⟩ := holds
    refine ⟨hold.change_append chosen _, ?_⟩
    rintro _ ⟨⟩
    refine ⟨⟨all, done ++ [kv], by simpa using written, ?_⟩, fun temp mine => .inl mine⟩
    apply hold.write chosen
    · intro text encoded
      exact encoded.cut works short
    · intro i foreign text encoded
      exact (encoded.other foreign).break_other foreign
  | @unplaced temps broken i temp chosen =>
    refine ⟨.same, ?_⟩
    rintro _ ⟨⟩
    obtain ⟨all, hold⟩ := holds
    refine ⟨⟨all, ?_⟩, fun temp later => .inl (mem_drop_of_succ later)⟩
    intro j other later listed
    exact hold j other (Nat.le_of_succ_le later) listed

/-- `DoReduceTask` goes on without a change of the directory. -/
theorem ReduceStage.Holds.stay {taskID : Nat} {stage stage' : ReduceStage}
    (holds : stage.Holds directory taskID) (same : stage'.temps = stage.temps) :
    Change setting files nReduce directory stage.temps [] directory ∧
      ∀ after ∈ some stage', after.Holds directory taskID ∧
        ∀ temp ∈ after.temps, temp ∈ stage.temps ∨ temp.print ∉ directory := by
  refine ⟨.same, ?_⟩
  rintro _ ⟨⟩
  refine ⟨fun temp mine => holds temp (same ▸ mine), ?_⟩
  intro temp mine
  exact .inl (same ▸ mine)

/-- `DoReduceTask` writes to its temporary file. -/
theorem ReduceStage.Holds.append {taskID : Nat} {temp : FileName} {key output : Bytes}
    {left : List (Bytes × Bytes)}
    (holds : (ReduceStage.writing (some temp) ((key, output) :: left)).Holds directory taskID)
    (bytes : Bytes) :
    Change setting files nReduce directory
        (ReduceStage.writing (some temp) ((key, output) :: left)).temps []
        (directory.append temp bytes) ∧
      ∀ stage' ∈ some (ReduceStage.writing (some temp) left),
        stage'.Holds (directory.append temp bytes) taskID ∧
          ∀ other ∈ stage'.temps,
            other ∈ (ReduceStage.writing (some temp) ((key, output) :: left)).temps ∨
              other.print ∉ directory := by
  have mine : temp ∈ (ReduceStage.writing (some temp) ((key, output) :: left)).temps := by
    simp [ReduceStage.temps]
  obtain ⟨name, content, found⟩ := holds temp mine
  have isTemp : temp.IsTemp := by
    obtain ⟨n, rfl⟩ := name
    trivial
  rw [append_of_lookup _ found]
  refine ⟨.grown isTemp mine _, ?_⟩
  rintro _ ⟨⟩
  refine ⟨fun other mine => ?_, fun temp mine => .inl mine⟩
  obtain rfl : temp = other := by
    simpa [ReduceStage.temps, eq_comm] using mine
  exact ⟨name, _, AList.lookup_insert _⟩

theorem ReduceStage.Holds.step {taskID : Nat} {stage : ReduceStage} {next : Option ReduceStage}
    (inside : taskID < nReduce) (holds : stage.Holds directory taskID)
    (stepped : ReduceStep setting taskID directory stage directory' next) :
    Change setting files nReduce directory stage.temps [] directory' ∧
      ∀ stage' ∈ next, stage'.Holds directory' taskID ∧
        ∀ temp ∈ stage'.temps, temp ∈ stage.temps ∨ temp.print ∉ directory := by
  cases stepped with
  | listed => exact holds.stay rfl
  | @created names n absent =>
    refine ⟨.created trivial absent, ?_⟩
    rintro _ ⟨⟩
    refine ⟨fun temp mine => ?_, fun temp mine => ?_⟩
    · obtain rfl : FileName.outputTemp taskID n = temp := by
        simpa [ReduceStage.temps, eq_comm] using mine
      exact ⟨⟨n, rfl⟩, [], AList.lookup_insert _⟩
    · obtain rfl : FileName.outputTemp taskID n = temp := by
        simpa [ReduceStage.temps, eq_comm] using mine
      exact .inr absent
  | decoded chosen found decoded => exact holds.stay rfl
  | passed other => exact holds.stay rfl
  | collected => exact holds.stay rfl
  | wrote => exact holds.append _
  | wroteNothing => exact holds.stay rfl
  | @placed temp content found =>
    have mine : temp ∈ (ReduceStage.writing (some temp) []).temps := by
      simp [ReduceStage.temps]
    obtain ⟨⟨n, rfl⟩, -⟩ := holds temp mine
    refine ⟨.moved trivial mine (.output inside), ?_⟩
    rintro _ ⟨⟩

/-- A failed action of `DoReduceTask` changes at most its own temporary file. -/
theorem ReduceStage.Holds.fault {taskID : Nat} {stage : ReduceStage} {next : Option ReduceStage}
    (holds : stage.Holds directory taskID)
    (failed : ReduceFault directory stage directory' next) :
    Change setting files nReduce directory stage.temps [] directory' ∧
      ∀ stage' ∈ next, stage'.Holds directory' taskID ∧
        ∀ temp ∈ stage'.temps, temp ∈ stage.temps ∨ temp.print ∉ directory := by
  cases failed with
  | unlisted =>
    refine ⟨.same, ?_⟩
    rintro _ ⟨⟩
  | uncreated => exact holds.stay rfl
  | cut bytes => exact holds.append bytes
  | unplaced =>
    refine ⟨.same, ?_⟩
    rintro _ ⟨⟩

/-! ### Final names -/

/-- `DoMapTask` gives only the final name that comes next. -/
theorem MapStage.Holds.lookup_final {fileName : String} {taskID : Nat} {stage : MapStage}
    {next : Option MapStage} (holds : stage.Holds setting nReduce directory fileName taskID)
    (step : MapStep setting fileName taskID nReduce directory stage directory' next ∨
      MapFault setting nReduce directory stage directory' next)
    {name : FileName} (final : ¬ name.IsTemp)
    (elsewhere : ∀ temps broken i, stage = .placing temps broken i → name ≠ .intermediate taskID i) :
    directory'.lookup name.print = directory.lookup name.print := by
  have away : ∀ temp ∈ stage.temps, name ≠ temp :=
    fun temp mine => ((holds.temp_found mine).1.ne final).symm
  obtain step | fault := step
  · cases step with
    | read found => rfl
    | created more absent =>
      apply lookup_insert_print
      rintro rfl
      exact final trivial
    | collected all => rfl
    | encoded chosen works => exact lookup_append_print (away _ (List.mem_of_getElem? chosen))
    | skipped fault => rfl
    | encodedAll => rfl
    | placed chosen found =>
      exact lookup_move_print (away _ (mem_drop_of_getElem? le_rfl chosen))
        (elsewhere _ _ _ rfl)
    | returned all => rfl
  · cases fault with
    | uncreated => exact lookup_foldl_erase fun temp mine => by simpa using away temp mine
    | cut chosen works short => exact lookup_append_print (away _ (List.mem_of_getElem? chosen))
    | unplaced chosen => rfl

/-- `DoReduceTask` gives its final name when it returns. -/
theorem ReduceStage.Holds.lookup_final {taskID : Nat} {stage : ReduceStage}
    {next : Option ReduceStage} (holds : stage.Holds directory taskID)
    (step : ReduceStep setting taskID directory stage directory' next ∨
      ReduceFault directory stage directory' next)
    {name : FileName} (final : ¬ name.IsTemp) (elsewhere : next = none → name ≠ .output taskID) :
    directory'.lookup name.print = directory.lookup name.print := by
  have away : ∀ temp ∈ stage.temps, name ≠ temp := by
    intro temp mine
    obtain ⟨⟨n, rfl⟩, -⟩ := holds temp mine
    rintro rfl
    exact final trivial
  have written : ∀ {temp : FileName} {left : List (Bytes × Bytes)},
      stage = .writing (some temp) left → name ≠ temp := by
    rintro temp left rfl
    exact away temp (by simp [ReduceStage.temps])
  obtain step | fault := step
  · cases step with
    | listed => rfl
    | created absent =>
      apply lookup_insert_print
      rintro rfl
      exact final trivial
    | decoded chosen found decoded => rfl
    | passed other => rfl
    | collected => rfl
    | wrote => exact lookup_append_print (written rfl)
    | wroteNothing => rfl
    | placed found => exact lookup_move_print (written rfl) (elsewhere rfl)
  · cases fault with
    | unlisted => rfl
    | uncreated => rfl
    | cut bytes => exact lookup_append_print (written rfl)
    | unplaced => rfl

/-! ### The effect of an action -/

/-- What an action does to the directory and to what the execution has left there. -/
structure Execution.Effect (setting : Setting) (files : List String) (nReduce : Nat)
    (directory : Directory) (execution : Execution) (directory' : Directory)
    (next : Option Execution) : Prop where
  change : Change setting files nReduce directory execution.temps execution.broken directory'
  after : ∀ execution' ∈ next, execution'.Holds setting files nReduce directory' ∧
    ∀ temp ∈ execution'.temps, temp ∈ execution.temps ∨ temp.print ∉ directory

namespace Execution.Holds

theorem map_effect {fileName : String} {taskID n : Nat} {stage : MapStage} {next : Option MapStage}
    (holds : (Execution.map fileName taskID n stage).Holds setting files nReduce directory)
    (supplied : setting.Supplied files nReduce directory)
    (step : MapStep setting fileName taskID n directory stage directory' next ∨
      MapFault setting n directory stage directory' next) :
    (Execution.map fileName taskID n stage).Effect setting files nReduce directory directory'
      (next.map (.map fileName taskID n)) := by
  obtain ⟨listed, rfl, holds⟩ := holds
  obtain ⟨change, after⟩ := step.elim (holds.step listed supplied) holds.fault
  refine ⟨change, ?_⟩
  intro execution' returned
  obtain ⟨stage', rfl, rfl⟩ := Option.map_eq_some_iff.mp returned
  obtain ⟨holds, temps⟩ := after stage' rfl
  exact ⟨⟨listed, rfl, holds⟩, temps⟩

theorem reduce_effect {taskID : Nat} {stage : ReduceStage} {next : Option ReduceStage}
    (holds : (Execution.reduce taskID stage).Holds setting files nReduce directory)
    (step : ReduceStep setting taskID directory stage directory' next ∨
      ReduceFault directory stage directory' next) :
    (Execution.reduce taskID stage).Effect setting files nReduce directory directory'
      (next.map (.reduce taskID)) := by
  obtain ⟨inside, holds⟩ := holds
  obtain ⟨change, after⟩ := step.elim (holds.step inside) holds.fault
  refine ⟨change, ?_⟩
  intro execution' returned
  obtain ⟨stage', rfl, rfl⟩ := Option.map_eq_some_iff.mp returned
  obtain ⟨holds, temps⟩ := after stage' rfl
  exact ⟨⟨inside, holds⟩, temps⟩

/-- The successful actions. -/
theorem step {execution : Execution} {next : Option Execution}
    (holds : execution.Holds setting files nReduce directory)
    (supplied : setting.Supplied files nReduce directory)
    (stepped : ExecutionStep setting directory execution directory' next) :
    execution.Effect setting files nReduce directory directory' next := by
  cases stepped with
  | map step => exact holds.map_effect supplied (.inl step)
  | reduce step => exact holds.reduce_effect (.inl step)

/-- All actions, whether or not they succeed. -/
theorem effect {execution : Execution} {action : Action} {next : Option Execution}
    (holds : execution.Holds setting files nReduce directory)
    (supplied : setting.Supplied files nReduce directory)
    (stepped : execution.step setting directory action = some (directory', next)) :
    execution.Effect setting files nReduce directory directory' next := by
  cases execution with
  | map fileName taskID n stage =>
    obtain ⟨⟨after, stage'⟩, step, returned⟩ := Option.bind_eq_some_iff.mp stepped
    cases returned
    exact holds.map_effect supplied ((mapStep_or_fault step).imp_right And.right)
  | reduce taskID stage =>
    obtain ⟨⟨after, stage'⟩, step, returned⟩ := Option.bind_eq_some_iff.mp stepped
    cases returned
    exact holds.reduce_effect ((reduceStep_or_fault step).imp_right And.right)

end Execution.Holds

/-! ## All executions together -/

/-- Every execution finds its files as it left them, no two have a temporary file in common, and the
    input files are as at the start. -/
structure Tidy (setting : Setting) (files : List String) (nReduce : Nat) (pool : Pool) : Prop where
  supplied : setting.Supplied files nReduce pool.directory
  holds : ∀ worker execution, pool.running worker = some execution →
    execution.Holds setting files nReduce pool.directory
  foreign : ∀ worker execution, pool.running worker = some execution →
    ∀ temp ∈ execution.temps, NoInput setting files temp
  apart : ∀ worker worker' execution execution', worker ≠ worker' →
    pool.running worker = some execution → pool.running worker' = some execution' →
    ∀ temp ∈ execution.temps, temp ∉ execution'.temps

theorem running_set {pool : Pool} {worker other : Nat} {next : Option Execution}
    {execution : Execution} (running : (pool.set worker next).running other = some execution) :
    other = worker ∧ next = some execution ∨
      other ≠ worker ∧ pool.running other = some execution := by
  by_cases same : other = worker
  · subst same
    exact .inl ⟨rfl, by simpa [Pool.set] using running⟩
  · exact .inr ⟨same, by simpa [Pool.set, same] using running⟩

namespace Tidy

variable {pool pool' : Pool} {worker : Nat}

theorem init (supplied : setting.Supplied files nReduce directory) :
    Tidy setting files nReduce ⟨directory, fun _ => none⟩ := by
  refine ⟨supplied, ?_, ?_, ?_⟩
  · rintro worker execution ⟨⟩
  · rintro worker execution ⟨⟩
  · rintro worker worker' execution execution' - ⟨⟩

/-- A worker begins an execution, or drops the one it has. -/
theorem set (tidy : Tidy setting files nReduce pool) {next : Option Execution}
    (fresh : ∀ execution ∈ next, execution.temps = [] ∧
      execution.Holds setting files nReduce pool.directory) :
    Tidy setting files nReduce (pool.set worker next) where
  supplied := tidy.supplied
  holds := by
    intro other execution running
    obtain ⟨-, begun⟩ | ⟨-, running⟩ := running_set running
    · exact (fresh execution begun).2
    · exact tidy.holds other execution running
  foreign := by
    intro other execution running temp mine
    obtain ⟨-, begun⟩ | ⟨-, running⟩ := running_set running
    · rw [(fresh execution begun).1] at mine
      cases mine
    · exact tidy.foreign other execution running temp mine
  apart := by
    intro first second execution execution' differs running running' temp mine
    obtain ⟨-, begun⟩ | ⟨-, running⟩ := running_set running
    · rw [(fresh execution begun).1] at mine
      cases mine
    · obtain ⟨-, begun⟩ | ⟨-, running'⟩ := running_set running'
      · rw [(fresh execution' begun).1]
        simp
      · exact tidy.apart first second execution execution' differs running running' temp mine

/-- An action of one worker leaves the temporary files of the others as they are. -/
theorem lookup_other (tidy : Tidy setting files nReduce pool) {execution : Execution}
    (running : pool.running worker = some execution) {next : Option Execution}
    (effect : execution.Effect setting files nReduce pool.directory directory' next) {other : Nat}
    {execution' : Execution} (differs : other ≠ worker)
    (running' : pool.running other = some execution') {temp : FileName}
    (mine : temp ∈ execution'.temps) {entry : Entry}
    (found : pool.directory.lookup temp.print = some entry) :
    directory'.lookup temp.print = some entry := by
  have foreign := tidy.apart other worker execution' execution differs running' running temp mine
  have isTemp := ((tidy.holds other execution' running').temp_found mine).1
  exact effect.change.lookup_temp isTemp foreign found

/-- An action of one worker changes nothing for the others. -/
theorem step (tidy : Tidy setting files nReduce pool) {execution : Execution}
    (running : pool.running worker = some execution) {next : Option Execution}
    (effect : execution.Effect setting files nReduce pool.directory directory' next) :
    Tidy setting files nReduce { pool.set worker next with directory := directory' } := by
  have ⟨change, after⟩ := effect
  -- The files of the acting worker are its old ones or a new one, which nobody else has.
  have strange : ∀ other execution' execution'', other ≠ worker →
      pool.running other = some execution' → next = some execution'' →
      ∀ temp ∈ execution'.temps, temp ∉ execution''.temps := by
    intro other execution' execution'' differs running' begun temp mine theirs
    obtain old | new := (after execution'' begun).2 temp theirs
    · exact tidy.apart other worker execution' execution differs running' running temp mine old
    · obtain ⟨-, content, found⟩ := (tidy.holds other execution' running').temp_found mine
      rw [AList.lookup_eq_none.mpr new] at found
      cases found
  refine ⟨change.supplied (tidy.foreign worker execution running) tidy.supplied, ?_, ?_, ?_⟩
  · intro other execution' running'
    obtain ⟨-, begun⟩ | ⟨differs, running'⟩ := running_set running'
    · exact (after execution' begun).1
    · apply (tidy.holds other execution' running').keep
      intro temp mine content found
      exact tidy.lookup_other running effect differs running' mine found
  · intro other execution' running' temp mine
    obtain ⟨-, begun⟩ | ⟨-, running'⟩ := running_set running'
    · obtain old | new := (after execution' begun).2 temp mine
      · exact tidy.foreign worker execution running temp old
      · exact tidy.supplied.noInput_of_absent new
    · exact tidy.foreign other execution' running' temp mine
  · intro first second execution' execution'' differs running' running'' temp mine
    obtain ⟨rfl, begun⟩ | ⟨other, before⟩ := running_set running'
    · obtain ⟨rfl, -⟩ | ⟨other, before⟩ := running_set running''
      · exact absurd rfl differs
      · intro theirs
        exact strange second execution'' execution' other before begun temp theirs mine
    · obtain ⟨rfl, begun⟩ | ⟨-, before'⟩ := running_set running''
      · exact strange first execution' execution'' other before begun temp mine
      · exact tidy.apart first second execution' execution'' differs before before' temp mine

end Tidy

/-! ## As long as file-system calls succeed -/

/-- No `Encode` has failed, and the files that the execution has dealt with are in place. -/
def MapStage.Whole (setting : Setting) (nReduce : Nat) (directory : Directory) (fileName : String)
    (taskID : Nat) : MapStage → Prop
  | encoding _ broken _ => broken = []
  | placing _ broken i =>
    broken = [] ∧ ∀ j < i, Placed setting nReduce directory fileName taskID j
  | _ => True

/-- No file-system call of the execution has failed. -/
def Execution.Whole (setting : Setting) (nReduce : Nat) (directory : Directory) : Execution → Prop
  | map fileName taskID _ stage => stage.Whole setting nReduce directory fileName taskID
  | reduce _ _ => True

namespace Execution.Whole

variable {execution : Execution}

theorem broken_eq (whole : execution.Whole setting nReduce directory) : execution.broken = [] := by
  cases execution with
  | map fileName taskID n stage =>
    cases stage with
    | reading => rfl
    | creating kva temps => rfl
    | encoding temps broken left => exact whole
    | placing temps broken i => exact whole.1
  | reduce taskID stage => rfl

theorem change_eq (whole : execution.Whole setting nReduce directory) {next : Option Execution}
    (effect : execution.Effect setting files nReduce directory directory' next) :
    Change setting files nReduce directory execution.temps [] directory' :=
  whole.broken_eq ▸ effect.change

/-- The files of a task stay in place. -/
theorem keep (whole : execution.Whole setting nReduce directory)
    (holds : execution.Holds setting files nReduce directory)
    (placed : ∀ fileName m r, files[m]? = some fileName →
      Placed setting nReduce directory fileName m r →
        Placed setting nReduce directory' fileName m r) :
    execution.Whole setting nReduce directory' := by
  cases execution with
  | map fileName taskID n stage =>
    cases stage with
    | reading => trivial
    | creating kva temps => trivial
    | encoding temps broken left => exact whole
    | placing temps broken i =>
      exact ⟨whole.1, fun j before => placed fileName taskID j holds.1 (whole.2 j before)⟩
  | reduce taskID stage => trivial

theorem step (whole : execution.Whole setting nReduce directory)
    (holds : execution.Holds setting files nReduce directory)
    (supplied : setting.Supplied files nReduce directory) {next : Option Execution}
    (stepped : ExecutionStep setting directory execution directory' next) :
    ∀ execution' ∈ next, execution'.Whole setting nReduce directory' := by
  have change := whole.change_eq (holds.step supplied stepped)
  intro execution' returned
  cases stepped with
  | @map fileName taskID n stage _ stages step =>
    obtain ⟨stage', rfl, rfl⟩ := Option.map_eq_some_iff.mp returned
    obtain ⟨listed, rfl, holds⟩ := holds
    cases step with
    | read found => trivial
    | created more absent => trivial
    | collected all => exact rfl
    | encoded chosen works => exact whole
    | skipped fault => exact whole
    | encodedAll => exact ⟨whole, by simp⟩
    | @placed temps broken i temp content chosen found =>
      obtain ⟨rfl, before⟩ := whole
      refine ⟨rfl, ?_⟩
      intro j upTo
      obtain earlier | rfl := Nat.lt_succ_iff_lt_or_eq.mp upTo
      · exact change.placed listed (before j earlier)
      · obtain ⟨-, text, found', encoded⟩ := holds.2 j temp le_rfl chosen
        rw [found] at found'
        cases found'
        rw [encoded.whole List.not_mem_nil]
        exact AList.lookup_insert _
  | reduce step =>
    obtain ⟨stage', rfl, rfl⟩ := Option.map_eq_some_iff.mp returned
    trivial

/-- When `DoMapTask` returns, its intermediate files are in place. -/
theorem returned {fileName : String} {taskID n : Nat} {stage : MapStage}
    (whole : (Execution.map fileName taskID n stage).Whole setting nReduce directory)
    (holds : (Execution.map fileName taskID n stage).Holds setting files nReduce directory)
    (step : MapStep setting fileName taskID n directory stage directory' none)
    {r : Nat} (inside : r < nReduce) : Placed setting nReduce directory' fileName taskID r := by
  obtain ⟨listed, rfl, holds⟩ := holds
  cases step with
  | @returned temps broken i all => exact whole.2 r (by have := holds.1; omega)

end Execution.Whole

/-- The executions do not disturb each other, and none of their file-system calls has failed. -/
structure Intact (setting : Setting) (files : List String) (nReduce : Nat) (pool : Pool) : Prop where
  tidy : Tidy setting files nReduce pool
  whole : ∀ worker execution, pool.running worker = some execution →
    execution.Whole setting nReduce pool.directory

namespace Intact

variable {pool : Pool} {worker : Nat} {execution : Execution} {next : Option Execution}

theorem init (supplied : setting.Supplied files nReduce directory) :
    Intact setting files nReduce ⟨directory, fun _ => none⟩ := by
  refine ⟨.init supplied, ?_⟩
  rintro worker execution ⟨⟩

theorem holds (intact : Intact setting files nReduce pool)
    (running : pool.running worker = some execution) :
    execution.Holds setting files nReduce pool.directory :=
  intact.tidy.holds worker execution running

theorem effect (intact : Intact setting files nReduce pool)
    (running : pool.running worker = some execution)
    (stepped : ExecutionStep setting pool.directory execution directory' next) :
    execution.Effect setting files nReduce pool.directory directory' next :=
  (intact.holds running).step intact.tidy.supplied stepped

theorem change (intact : Intact setting files nReduce pool)
    (running : pool.running worker = some execution)
    (stepped : ExecutionStep setting pool.directory execution directory' next) :
    Change setting files nReduce pool.directory execution.temps [] directory' :=
  (intact.whole worker execution running).change_eq (intact.effect running stepped)

/-- A worker begins an execution, or drops the one it has. -/
theorem set (intact : Intact setting files nReduce pool)
    (fresh : ∀ execution ∈ next, execution.temps = [] ∧
      execution.Holds setting files nReduce pool.directory ∧
      execution.Whole setting nReduce pool.directory) :
    Intact setting files nReduce (pool.set worker next) where
  tidy := intact.tidy.set fun execution begun =>
    ⟨(fresh execution begun).1, (fresh execution begun).2.1⟩
  whole := by
    intro other execution running
    obtain ⟨-, begun⟩ | ⟨-, running⟩ := running_set running
    · exact (fresh execution begun).2.2
    · exact intact.whole other execution running

theorem step (intact : Intact setting files nReduce pool)
    (running : pool.running worker = some execution)
    (stepped : ExecutionStep setting pool.directory execution directory' next) :
    Intact setting files nReduce { pool.set worker next with directory := directory' } where
  tidy := intact.tidy.step running (intact.effect running stepped)
  whole := by
    intro other execution' running'
    have own := intact.whole worker execution running
    obtain ⟨-, begun⟩ | ⟨-, running'⟩ := running_set running'
    · exact own.step (intact.holds running) intact.tidy.supplied stepped execution' begun
    · apply (intact.whole other execution' running').keep (intact.holds running')
      intro fileName m r listed placed
      exact (intact.change running stepped).placed listed placed

end Intact

end DistributedCloud.MapReduce
