import DistributedCloud.MapReduce.Proofs.Worker

/-!
# Changes of the directory

An execution makes temporary files under new names, writes to them, and moves them to the final names
of the job or removes them. So whatever goes wrong, a file that is neither a temporary file of the
execution nor one that the job produces stays as it is, the input files among them.
-/

namespace DistributedCloud.MapReduce

variable {setting : Setting} {files : List String} {nReduce : Nat} {directory directory' : Directory}

/-! ## Names in the directory -/

theorem lookup_insert_print {name other : FileName} {entry : Entry} (differs : other ≠ name) :
    (directory.insert name.print entry).lookup other.print = directory.lookup other.print :=
  AList.lookup_insert_ne (by simpa using differs)

theorem lookup_move_print {name target other : FileName} {entry : Entry} (differs : other ≠ name)
    (away : other ≠ target) :
    ((directory.erase name.print).insert target.print entry).lookup other.print =
      directory.lookup other.print := by
  rw [lookup_insert_print away]
  exact AList.lookup_erase_ne (by simpa using differs)

theorem ne_of_absent {name other : FileName} {entry : Entry} (absent : name.print ∉ directory)
    (found : directory.lookup other.print = some entry) : other ≠ name := by
  rintro rfl
  rw [AList.lookup_eq_none.mpr absent] at found
  cases found

theorem append_of_lookup {name : FileName} {content : Bytes} (bytes : Bytes)
    (found : directory.lookup name.print = some (.file content)) :
    directory.append name bytes = directory.insert name.print (.file (content ++ bytes)) := by
  simp [Directory.append, found]

theorem lookup_append_print {name other : FileName} {bytes : Bytes} (differs : other ≠ name) :
    (directory.append name bytes).lookup other.print = directory.lookup other.print := by
  unfold Directory.append
  split
  · exact lookup_insert_print differs
  · rfl

theorem FileName.IsTemp.ne {temp name : FileName} (isTemp : temp.IsTemp) (final : ¬ name.IsTemp) :
    temp ≠ name := by
  rintro rfl
  exact final isTemp

theorem mem_drop_of_getElem? {temps : List FileName} {start i : Nat} {temp : FileName}
    (later : start ≤ i) (listed : temps[i]? = some temp) : temp ∈ temps.drop start := by
  apply List.mem_iff_getElem?.mpr
  refine ⟨i - start, ?_⟩
  rw [List.getElem?_drop, Nat.add_sub_cancel' later]
  exact listed

/-- A failed `DoMapTask` removes its temporary files and no others. -/
theorem lookup_foldl_erase {temps : List FileName} {name : String}
    (away : ∀ temp ∈ temps, name ≠ temp.print) :
    (temps.foldl (fun directory temp => directory.erase temp.print) directory).lookup name =
      directory.lookup name := by
  induction temps generalizing directory with
  | nil => rfl
  | cons temp temps ih =>
    rw [List.foldl_cons, ih fun other listed => away other (List.mem_cons_of_mem _ listed)]
    exact AList.lookup_erase_ne (away temp List.mem_cons_self)

theorem readFile_of_path {fileName name : String} (path : setting.path fileName = some name)
    {content : Bytes} :
    setting.readFile directory fileName = some content ↔
      directory.lookup name = some (.file content) := by
  unfold Setting.readFile
  rw [path]
  cases found : directory.lookup name with
  | none => simp [found]
  | some entry =>
    cases entry with
    | file other => simp [found]
    | dir => simp [found]

/-! ## Texts of parts -/

/-- What `DoMapTask` has written to its file for part `r` when it has come to the end of `done`: the
    entries of the part, or less if an `Encode` to the file has failed. -/
structure Encoded (setting : Setting) (nReduce : Nat) (broken : List Nat)
    (done : List IntermediateFormat) (r : Nat) (text : Bytes) : Prop where
  whole : r ∉ broken → text = setting.json.encodeAll (part nReduce r done)
  short : r ∈ broken → text.length < (setting.json.encodeAll (part nReduce r done)).length

theorem part_append (nReduce r : Nat) (kvs more : List IntermediateFormat) :
    part nReduce r (kvs ++ more) = part nReduce r kvs ++ part nReduce r more :=
  List.filter_append kvs more

theorem encodeAll_append (json : Json) (kvs more : List IntermediateFormat) :
    json.encodeAll (kvs ++ more) = json.encodeAll kvs ++ json.encodeAll more :=
  List.flatMap_append

/-- Encoding an entry adds it to the text of its own part. -/
theorem encodeAll_part_concat (json : Json) (nReduce i : Nat) (done : List IntermediateFormat)
    (kv : IntermediateFormat) :
    json.encodeAll (part nReduce i (done ++ [kv])) =
      json.encodeAll (part nReduce i done) ++
        if ihash kv.1 % nReduce = i then json.encode kv else [] := by
  rw [part_append, encodeAll_append]
  by_cases own : ihash kv.1 % nReduce = i
  · simp [part, Json.encodeAll, own]
  · simp [part, Json.encodeAll, own]

namespace Encoded

variable {broken : List Nat} {done : List IntermediateFormat} {r : Nat} {text : Bytes}
  {kv : IntermediateFormat}

theorem nil : Encoded setting nReduce [] [] r [] := ⟨fun _ => rfl, by simp⟩

/-- The text is that of the part exactly if no `Encode` to the file has failed. -/
theorem eq_iff (encoded : Encoded setting nReduce broken done r text) :
    text = setting.json.encodeAll (part nReduce r done) ↔ r ∉ broken := by
  constructor
  · rintro rfl fault
    exact lt_irrefl _ (encoded.short fault)
  · exact encoded.whole

/-- An entry of another part. -/
theorem other (encoded : Encoded setting nReduce broken done r text)
    (foreign : r ≠ ihash kv.1 % nReduce) :
    Encoded setting nReduce broken (done ++ [kv]) r text := by
  refine ⟨?_, ?_⟩
  · intro works
    rw [encodeAll_part_concat, if_neg (Ne.symm foreign), List.append_nil]
    exact encoded.whole works
  · intro fault
    rw [encodeAll_part_concat, if_neg (Ne.symm foreign), List.append_nil]
    exact encoded.short fault

/-- An entry that is encoded. -/
theorem encode (encoded : Encoded setting nReduce broken done (ihash kv.1 % nReduce) text)
    (works : ihash kv.1 % nReduce ∉ broken) :
    Encoded setting nReduce broken (done ++ [kv]) (ihash kv.1 % nReduce)
      (text ++ setting.json.encode kv) := by
  refine ⟨?_, fun fault => absurd fault works⟩
  intro _
  rw [encodeAll_part_concat, if_pos rfl, encoded.whole works]

/-- An entry that an encoder with an error leaves out. -/
theorem skip (encoded : Encoded setting nReduce broken done (ihash kv.1 % nReduce) text)
    (fault : ihash kv.1 % nReduce ∈ broken) :
    Encoded setting nReduce broken (done ++ [kv]) (ihash kv.1 % nReduce) text := by
  refine ⟨fun works => absurd fault works, ?_⟩
  intro _
  have before := encoded.short fault
  rw [encodeAll_part_concat, if_pos rfl, List.length_append]
  omega

/-- An entry whose `Encode` fails. -/
theorem cut (encoded : Encoded setting nReduce broken done (ihash kv.1 % nReduce) text)
    (works : ihash kv.1 % nReduce ∉ broken) {n : Nat}
    (short : n < (setting.json.encode kv).length) :
    Encoded setting nReduce (ihash kv.1 % nReduce :: broken) (done ++ [kv]) (ihash kv.1 % nReduce)
      (text ++ (setting.json.encode kv).take n) := by
  refine ⟨fun works => absurd List.mem_cons_self works, ?_⟩
  intro _
  rw [encodeAll_part_concat, if_pos rfl, encoded.whole works, List.length_append,
    List.length_append, List.length_take]
  omega

/-- An `Encode` to another file has failed. -/
theorem break_other (encoded : Encoded setting nReduce broken done r text) {index : Nat}
    (foreign : r ≠ index) : Encoded setting nReduce (index :: broken) done r text := by
  refine ⟨?_, ?_⟩
  · intro works
    exact encoded.whole fun fault => works (List.mem_cons_of_mem _ fault)
  · intro fault
    exact encoded.short ((List.mem_cons.mp fault).resolve_left foreign)

end Encoded

/-! ## What an action does to the directory -/

/-- Intermediate file `r` of map task `m` is in place. -/
def Placed (setting : Setting) (nReduce : Nat) (directory : Directory) (fileName : String)
    (m r : Nat) : Prop :=
  directory.lookup (FileName.intermediate m r).print =
    some (.file (setting.partition nReduce fileName r))

/-- A final name with the contents that an execution gives it, where the encoders `broken` had an
    error. -/
inductive Final (setting : Setting) (files : List String) (nReduce : Nat) (broken : List Nat) :
    FileName → Bytes → Prop
  | intermediate {m r : Nat} {fileName : String} {content : Bytes}
      (listed : files[m]? = some fileName) (inside : r < nReduce)
      (text : Encoded setting nReduce broken (setting.mapOutput fileName) r content) :
      Final setting files nReduce broken (.intermediate m r) content
  | output {r : Nat} {content : Bytes} (inside : r < nReduce) :
      Final setting files nReduce broken (.output r) content

theorem Final.produced {broken : List Nat} {name : FileName} {content : Bytes}
    (final : Final setting files nReduce broken name content) :
    name.Produced files.length nReduce := by
  cases final with
  | intermediate listed inside text => exact ⟨(List.getElem?_eq_some_iff.mp listed).1, inside⟩
  | output inside => exact inside

theorem FileName.Produced.not_isTemp {inputs : Nat} {name : FileName}
    (produced : name.Produced inputs nReduce) : ¬ name.IsTemp := by
  cases name with
  | intermediate m r => exact id
  | output r => exact id
  | intermediateTemp m r n => exact produced.elim
  | outputTemp r n => exact produced.elim

/-- The changes that an execution with the temporary files `own` makes. -/
inductive Change (setting : Setting) (files : List String) (nReduce : Nat) (directory : Directory)
    (own : List FileName) (broken : List Nat) : Directory → Prop
  | same : Change setting files nReduce directory own broken directory
  | created {name : FileName} (isTemp : name.IsTemp) (absent : name.print ∉ directory) :
      Change setting files nReduce directory own broken (directory.insert name.print (.file []))
  | grown {name : FileName} {content : Bytes} (isTemp : name.IsTemp) (mine : name ∈ own)
      (bytes : Bytes) :
      Change setting files nReduce directory own broken
        (directory.insert name.print (.file (content ++ bytes)))
  | removed (temps : ∀ temp ∈ own, temp.IsTemp) :
      Change setting files nReduce directory own broken
        (own.foldl (fun directory temp => directory.erase temp.print) directory)
  | moved {name target : FileName} {content : Bytes} (isTemp : name.IsTemp) (mine : name ∈ own)
      (final : Final setting files nReduce broken target content) :
      Change setting files nReduce directory own broken
        ((directory.erase name.print).insert target.print (.file content))

namespace Change

variable {own : List FileName} {broken : List Nat}

/-- A file that is neither a temporary file of the execution nor one that the job produces stays as it
    is. -/
theorem lookup_foreign (change : Change setting files nReduce directory own broken directory')
    {name : String} (foreign : ∀ temp ∈ own, name ≠ temp.print)
    (apart : ∀ target : FileName, target.Produced files.length nReduce → name ≠ target.print)
    {entry : Entry} (found : directory.lookup name = some entry) :
    directory'.lookup name = some entry := by
  cases change with
  | same => exact found
  | created _ absent =>
    rw [AList.lookup_insert_ne]
    · exact found
    · rintro rfl
      rw [AList.lookup_eq_none.mpr absent] at found
      cases found
  | grown _ mine bytes =>
    rw [AList.lookup_insert_ne (foreign _ mine)]
    exact found
  | removed temps =>
    rw [lookup_foldl_erase foreign]
    exact found
  | moved _ mine final =>
    rw [AList.lookup_insert_ne (apart _ final.produced), AList.lookup_erase_ne (foreign _ mine)]
    exact found

/-- The temporary files of others stay as they are. -/
theorem lookup_temp (change : Change setting files nReduce directory own broken directory')
    {temp : FileName} (isTemp : temp.IsTemp) (foreign : temp ∉ own) {entry : Entry}
    (found : directory.lookup temp.print = some entry) :
    directory'.lookup temp.print = some entry := by
  apply change.lookup_foreign ?_ ?_ found
  · intro other mine
    simpa using (ne_of_mem_of_not_mem mine foreign).symm
  · intro target produced
    simpa using isTemp.ne produced.not_isTemp

/-- An intermediate file that is in place stays in place, as long as no `Encode` fails. -/
theorem placed (change : Change setting files nReduce directory own [] directory')
    {fileName : String} {m r : Nat} (listed : files[m]? = some fileName)
    (placed : Placed setting nReduce directory fileName m r) :
    Placed setting nReduce directory' fileName m r := by
  have final : ¬ (FileName.intermediate m r).IsTemp := id
  cases change with
  | same => exact placed
  | created isTemp absent =>
    unfold Placed
    rw [lookup_insert_print (isTemp.ne final).symm]
    exact placed
  | grown isTemp mine bytes =>
    unfold Placed
    rw [lookup_insert_print (isTemp.ne final).symm]
    exact placed
  | removed temps =>
    unfold Placed
    rw [lookup_foldl_erase fun temp mine => by simpa using ((temps temp mine).ne final).symm]
    exact placed
  | @moved name target content isTemp mine target_final =>
    by_cases same : FileName.intermediate m r = target
    · subst same
      cases target_final with
      | @intermediate _ _ fileName' _ listed' inside text =>
        obtain rfl : fileName = fileName' := Option.some.inj (listed.symm.trans listed')
        rw [text.whole List.not_mem_nil]
        exact AList.lookup_insert _
    · unfold Placed
      rw [lookup_move_print (isTemp.ne final).symm same]
      exact placed

end Change

/-! ## The input files -/

/-- Input files that lie elsewhere are out of the way of the job. -/
theorem supplied_elsewhere (elsewhere : ∀ fileName ∈ files, setting.path fileName = none) :
    setting.Supplied files nReduce directory := by
  refine ⟨?_, ?_⟩
  · intro fileName listed
    unfold Setting.readFile
    rw [elsewhere fileName listed]
  · intro fileName listed name _
    rw [elsewhere fileName listed]
    simp

/-- So are input files in the directory whose names do not begin like those of the job. -/
theorem supplied_here
    (contents : ∀ fileName ∈ files,
      setting.readFile directory fileName = some (setting.input fileName))
    (names : ∀ fileName ∈ files, ∀ name ∈ setting.path fileName, name.toList.head? ≠ some 'm') :
    setting.Supplied files nReduce directory := by
  refine ⟨contents, ?_⟩
  intro fileName listed name _ path
  exact names fileName listed name.print path (by simp [FileName.print])

/-- The name is not that of an input file. -/
def NoInput (setting : Setting) (files : List String) (name : FileName) : Prop :=
  ∀ fileName ∈ files, setting.path fileName ≠ some name.print

theorem Setting.Supplied.noInput_of_absent (supplied : setting.Supplied files nReduce directory)
    {name : FileName} (absent : name.print ∉ directory) : NoInput setting files name := by
  intro fileName listed path
  have found := (readFile_of_path path).mp (supplied.contents fileName listed)
  rw [AList.lookup_eq_none.mpr absent] at found
  cases found

/-- The input files stay as they are. -/
theorem Change.supplied {own : List FileName} {broken : List Nat}
    (change : Change setting files nReduce directory own broken directory')
    (foreign : ∀ temp ∈ own, NoInput setting files temp)
    (supplied : setting.Supplied files nReduce directory) :
    setting.Supplied files nReduce directory' := by
  refine ⟨?_, supplied.apart⟩
  intro fileName listed
  have before := supplied.contents fileName listed
  cases path : setting.path fileName with
  | none =>
    unfold Setting.readFile
    rw [path]
  | some name =>
    rw [readFile_of_path path] at before ⊢
    apply change.lookup_foreign ?_ ?_ before
    · rintro temp mine rfl
      exact foreign temp mine fileName listed path
    · rintro target produced rfl
      exact supplied.apart fileName listed target produced path

end DistributedCloud.MapReduce
