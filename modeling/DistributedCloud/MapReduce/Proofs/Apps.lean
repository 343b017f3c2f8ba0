import DistributedCloud.MapReduce.Apps
import DistributedCloud.MapReduce.Proofs.EndToEnd
import DistributedCloud.MapReduce.Proofs.MapOrder
import Mathlib.Data.List.Dedup

/-!
# What the applications compute

The words of a text are its maximal runs of letters. A job with the word count leaves every word with
the number of times it occurs in the input files, and a job with the index leaves it with the names
of the files it occurs in.
-/

namespace DistributedCloud.MapReduce

variable {setting : Setting} {files : List String} {nReduce : Nat} {directory : Directory}
  {s : Cluster} {isLetter : Nat → Bool} {json : Json} {path : String → Option String}
  {input : String → Bytes}

/-! ## Words -/

theorem decodeRune_size_pos (first : Fin 256) (rest : Bytes) : 0 < (decodeRune first rest).2 := by
  unfold decodeRune
  split
  · exact Nat.one_pos
  · split
    · split
      · exact Nat.two_pos
      · exact Nat.one_pos
    · split
      · exact Nat.succ_pos 2
      · exact Nat.one_pos
    · split
      · exact Nat.succ_pos 3
      · exact Nat.one_pos
    · exact Nat.one_pos

/-- Every rune takes a byte. -/
theorem runesFrom_nonempty (fuel : Nat) (text : Bytes) : ∀ r ∈ runesFrom fuel text, r.2 ≠ [] := by
  induction fuel generalizing text with
  | zero => simp [runesFrom]
  | succ fuel ih =>
    cases text with
    | nil => simp [runesFrom]
    | cons first rest =>
      intro r listed
      simp only [runesFrom, List.mem_cons] at listed
      obtain rfl | later := listed
      · have positive := decodeRune_size_pos first rest
        simp [Nat.ne_of_gt positive]
      · exact ih _ r later

/-- The maximal runs of letters in a text. -/
def letterRuns (isLetter : Nat → Bool) (text : Bytes) : List Bytes :=
  (((runes text).splitOnP fun r => !isLetter r.1).filter (· ≠ [])).map fun run =>
    run.flatMap Prod.snd

theorem flatMap_snd_eq_nil {run : List (Nat × Bytes)} (nonempty : ∀ r ∈ run, r.2 ≠ []) :
    run.flatMap Prod.snd = [] ↔ run = [] := by
  constructor
  · intro nothing
    rw [List.flatMap_eq_nil_iff] at nothing
    exact List.eq_nil_iff_forall_not_mem.mpr fun r listed => nonempty r listed (nothing r listed)
  · rintro rfl
    rfl

/-- What `FieldsFunc` makes of the rest, when `run` has been read since the last separator. -/
theorem fieldsFunc_eq (f : Nat → Bool) {rest : List (Nat × Bytes)}
    (nonempty : ∀ r ∈ rest, r.2 ≠ []) {run : List (Nat × Bytes)} (read : ∀ r ∈ run, r.2 ≠ []) :
    fieldsFunc f (run.flatMap Prod.snd) rest =
      ((rest.splitOnPPrepend (fun r => f r.1) run.reverse).filter (· ≠ [])).map fun run =>
        run.flatMap Prod.snd := by
  induction rest generalizing run with
  | nil =>
    by_cases empty : run = []
    · simp [fieldsFunc, empty]
    · simp [fieldsFunc, flatMap_snd_eq_nil read, empty]
  | cons r rest ih =>
    obtain ⟨rune, bytes⟩ := r
    have others : ∀ r ∈ rest, r.2 ≠ [] := fun r listed => nonempty r (List.mem_cons_of_mem _ listed)
    rw [List.splitOnPPrepend_cons_eq_if]
    by_cases separator : f rune = true
    · have next : fieldsFunc f [] rest =
          ((rest.splitOnP fun r => f r.1).filter (· ≠ [])).map fun run => run.flatMap Prod.snd :=
        ih others (fun r listed => absurd listed List.not_mem_nil)
      by_cases empty : run = []
      · simp [fieldsFunc, separator, empty, next]
      · simp [fieldsFunc, separator, flatMap_snd_eq_nil read, empty, next]
    · have longer : ∀ r ∈ run ++ [(rune, bytes)], r.2 ≠ [] := by
        intro r listed
        obtain before | last := List.mem_append.mp listed
        · exact read r before
        · rw [List.mem_singleton.mp last]
          exact nonempty (rune, bytes) List.mem_cons_self
      have next := ih others longer
      simpa [fieldsFunc, separator] using next

/-- The words of a text are its maximal runs of letters. -/
theorem words_eq_letterRuns (isLetter : Nat → Bool) (text : Bytes) :
    words isLetter text = letterRuns isLetter text :=
  fieldsFunc_eq _ (runesFrom_nonempty _ _) (fun _ listed => absurd listed List.not_mem_nil)

/-! ## The records of an output file -/

/-- The output file of a reduce task has the keys of its hash, each with what the reduce function
    makes of all values that the map function emits for it. -/
theorem mem_reduceOutput (unordered : setting.Unordered) {r : Nat} {key output : Bytes} :
    (key, output) ∈ setting.reduceOutput files nReduce r ↔
      ihash key % nReduce = r ∧ valuesOf key (setting.intermediate files) ≠ [] ∧
        output = setting.reducef key (valuesOf key (setting.intermediate files)) := by
  have grouped := collect_grouped (setting.intermediate files)
  have outputs : (key, output) ∈ setting.outputs files ↔
      valuesOf key (setting.intermediate files) ≠ [] ∧
        output = setting.reducef key (valuesOf key (setting.intermediate files)) := by
    constructor
    · intro listed
      obtain ⟨group, member, same⟩ := List.mem_map.mp listed
      obtain ⟨rfl, rfl⟩ : group.1 = key ∧ setting.reducef group.1 group.2 = output := by
        simpa using same
      have values := grouped.values group member
      refine ⟨?_, unordered _ _ _ values⟩
      intro none
      rw [none] at values
      exact grouped.nonempty group member values.eq_nil
    · rintro ⟨some, rfl⟩
      have emitted : key ∈ (setting.intermediate files).map Prod.fst := by
        by_contra absent
        exact some (valuesOf_eq_nil.mpr absent)
      obtain ⟨group, member, rfl⟩ := List.mem_map.mp ((grouped.keys key).mpr emitted)
      refine List.mem_map.mpr ⟨group, member, ?_⟩
      rw [unordered _ _ _ (grouped.values group member)]
  rw [Setting.reduceOutput, List.mem_filter, outputs]
  constructor
  · rintro ⟨⟨some, made⟩, own⟩
    exact ⟨of_decide_eq_true own, some, made⟩
  · rintro ⟨own, some, made⟩
    exact ⟨⟨some, made⟩, decide_eq_true own⟩

/-- `mr-out-r` has a line for each key and output that `Record` holds of, in the order of the keys. -/
def Directory.Tabulates (directory : Directory) (r : Nat) (Record : Bytes → Bytes → Prop) : Prop :=
  ∃ records : List (Bytes × Bytes),
    directory.lookup (FileName.output r).print = some (.file (written records)) ∧
      (records.map Prod.fst).Pairwise (· < ·) ∧
      ∀ key output, (key, output) ∈ records ↔ Record key output

theorem tabulates_of_done (unordered : setting.Unordered) (plain : setting.Plain files)
    (supplied : setting.Supplied files nReduce directory)
    (unmatched : directory.NoneMatched nReduce)
    (reached : (cluster setting files nReduce directory).ReachableWhen
      (fun s e => e.Succeeds ∧ e.NoLateMapReport s) s)
    (done : s.job.coordinator.done = true) {r : Nat} (inside : r < nReduce)
    {Record : Bytes → Bytes → Prop}
    (record : ∀ key output, Record key output ↔
      ihash key % nReduce = r ∧ valuesOf key (setting.intermediate files) ≠ [] ∧
        output = setting.reducef key (valuesOf key (setting.intermediate files))) :
    s.pool.directory.Tabulates r Record := by
  refine ⟨_, outputs_of_done unordered plain supplied unmatched reached done inside,
    (keys_reduceOutput setting files nReduce r).1, ?_⟩
  intro key output
  rw [mem_reduceOutput unordered, record]

/-- The values of a key among pairs that all have the same value. -/
theorem valuesOf_const (value key : Bytes) (keys : List Bytes) :
    valuesOf key (keys.map fun w => (w, value)) = List.replicate (keys.count key) value := by
  induction keys with
  | nil => rfl
  | cons w keys ih =>
    by_cases own : w = key
    · simpa [valuesOf, own, List.replicate_succ] using ih
    · simpa [valuesOf, own] using ih

/-! ## Word count -/

/-- How often a word occurs in the input files. -/
def occurrences (isLetter : Nat → Bool) (input : String → Bytes) (files : List String)
    (word : Bytes) : Nat :=
  (files.flatMap fun fileName => letterRuns isLetter (input fileName)).count word

theorem unordered_wc : (wc isLetter json path input).Unordered := by
  intro key values values' same
  simp [wc, wcReduce, same.length_eq]

theorem valuesOf_wc (word : Bytes) :
    valuesOf word ((wc isLetter json path input).intermediate files) =
      List.replicate (occurrences isLetter input files word) (AsciiJson.ascii "1") := by
  have pairs : (wc isLetter json path input).intermediate files =
      (files.flatMap fun fileName => letterRuns isLetter (input fileName)).map
        fun w => (w, AsciiJson.ascii "1") := by
    simp [Setting.intermediate, wc, wcMap, words_eq_letterRuns, List.map_flatMap]
  rw [pairs, valuesOf_const, occurrences]

/-- In every run of a job with the word count in which file-system calls succeed and no late report
    of a map task is taken for one of a reduce task, on input files whose names the job does not give to
    files of its own: once `Done` returns true, `mr-out-r` has the words of its hash that occur in the
    input files, in order and each once, with the number of times they occur. -/
theorem done_wordCount (plain : (wc isLetter json path input).Plain files)
    (supplied : (wc isLetter json path input).Supplied files nReduce directory)
    (unmatched : directory.NoneMatched nReduce)
    (reached : (cluster (wc isLetter json path input) files nReduce directory).ReachableWhen
      (fun s e => e.Succeeds ∧ e.NoLateMapReport s) s)
    (done : s.job.coordinator.done = true) {r : Nat} (inside : r < nReduce) :
    s.pool.directory.Tabulates r fun word output =>
      ihash word % nReduce = r ∧ 0 < occurrences isLetter input files word ∧
        output = itoa (occurrences isLetter input files word) := by
  apply tabulates_of_done unordered_wc plain supplied unmatched reached done inside
  intro word output
  rw [valuesOf_wc]
  simp [wc, wcReduce, Nat.pos_iff_ne_zero]

/-- The letters of ASCII. -/
def asciiLetter (r : Nat) : Bool := (65 ≤ r && r ≤ 90) || (97 ≤ r && r ≤ 122)

/-- The contents of two files. -/
def rhyme (name : String) : Bytes := AsciiJson.ascii (if name = "x" then "to be, to do" else "do!")

/-- One worker counts the words of one file. -/
def countedWords : Cluster :=
  ((cluster (wc asciiLetter asciiJson (fun _ => none) rhyme) ["x"] 1 ∅).guarded
    fun s e => e.Succeeds ∧ e.NoLateMapReport s).after
    [.check 0, .assign 0 (fun _ => 0), .work 0 (.read true), .work 0 (.create (some 7)),
      .work 0 .compute, .work 0 (.write none), .work 0 (.write none), .work 0 (.write none),
      .work 0 .compute, .work 0 (.rename true true), .work 0 .compute, .report 0, .check 0,
      .assign 0 (fun _ => 1), .work 0 (.read true), .work 0 (.create (some 3)),
      .work 0 (.read true), .work 0 .compute, .work 0 (.write none), .work 0 (.write none),
      .work 0 (.write none), .work 0 (.rename true true), .report 0, .check 0]

theorem done_wordCount_rhyme :
    countedWords.job.coordinator.done = true ∧
      countedWords.pool.directory.Tabulates 0 fun word output =>
        ihash word % 1 = 0 ∧ 0 < occurrences asciiLetter rhyme ["x"] word ∧
          output = itoa (occurrences asciiLetter rhyme ["x"] word) := by
  have reached : (cluster (wc asciiLetter asciiJson (fun _ => none) rhyme) ["x"] 1 ∅).ReachableWhen
      (fun s e => e.Succeeds ∧ e.NoLateMapReport s) countedWords :=
    Machine.reachableWhen_of_guarded (Machine.reachable_after _)
  have plain : ∀ kv ∈ (wc asciiLetter asciiJson (fun _ => none) rhyme).intermediate ["x"],
      AsciiJson.Plain kv.1 ∧ AsciiJson.Plain kv.2 := by decide +kernel
  have done : countedWords.job.coordinator.done = true := by decide +kernel
  exact ⟨done, done_wordCount plain (supplied_elsewhere (by simp [wc]))
    (by rintro name content ⟨⟩) reached done (by decide)⟩

/-! ## Index -/

/-- The names of the input files that a word occurs in. -/
def documents (isLetter : Nat → Bool) (input : String → Bytes) (files : List String)
    (word : Bytes) : List Bytes :=
  (files.filter fun fileName => word ∈ letterRuns isLetter (input fileName)).map bytesOf

theorem unordered_indexer {walk : Walk} : (indexer isLetter walk json path input).Unordered := by
  intro key values values' same
  have sorted : values.insertionSort (· ≤ ·) = values'.insertionSort (· ≤ ·) := by
    refine List.Perm.eq_of_sortedLE ?_ ?_ ?_
    · exact List.sortedLE_insertionSort
    · exact List.sortedLE_insertionSort
    · exact ((List.perm_insertionSort _ values).trans same).trans
        (List.perm_insertionSort _ values').symm
  simp [indexer, indexerReduce, same.length_eq, sorted]

/-- The groups of pairs that all have the same value. -/
theorem map_replicate_collect {value : Bytes} {kva : List KeyValue} (same : ∀ kv ∈ kva, kv.2 = value) :
    (collect kva).map (fun kv => (kv.1, List.replicate kv.2.length value)) = collect kva := by
  nth_rewrite 2 [← List.map_id (collect kva)]
  apply List.map_congr_left
  intro group listed
  have values : ∀ v ∈ group.2, v = value := by
    intro v inside
    have among := ((collect_grouped kva).values group listed).mem_iff.mp inside
    obtain ⟨kv, emitted, rfl⟩ := List.mem_map.mp among
    exact same kv (List.mem_of_mem_filter emitted)
  exact Prod.ext rfl (List.eq_replicate_of_mem values).symm

/-- What `DoMapTask` keeps of the index does not depend on the walk. -/
theorem collect_indexerMap (walk walk' : Walk) (document : String) (value : Bytes) :
    collect (indexerMap isLetter walk document value) =
      collect (indexerMap isLetter walk' document value) := by
  have documents : ∀ walk : Walk,
      ∀ kv ∈ indexerMap isLetter walk document value, kv.2 = bytesOf document := by
    intro walk kv emitted
    obtain ⟨w, -, rfl⟩ := List.mem_map.mp emitted
    rfl
  have pairs : (indexerMap isLetter walk document value).Perm
      (indexerMap isLetter walk' document value) :=
    ((walk.perm _).trans (walk'.perm _).symm).map _
  rw [← map_replicate_collect (documents walk), ← map_replicate_collect (documents walk')]
  apply Grouped.map_eq (fun key values => (key, List.replicate values.length (bytesOf document)))
  · intro key values values' same
    rw [same.length_eq]
  · exact (collect_grouped _).perm pairs
  · exact collect_grouped _

/-- Every file has each of its words once, whatever the walk. -/
theorem valuesOf_indexer (walk : Walk) (word : Bytes) :
    valuesOf word ((indexer isLetter walk json path input).intermediate files) =
      documents isLetter input files word := by
  induction files with
  | nil => rfl
  | cons fileName files ih =>
    have count : (walk.order (words isLetter (input fileName)).dedup).count word =
        if word ∈ letterRuns isLetter (input fileName) then 1 else 0 := by
      rw [(walk.perm _).count_eq, words_eq_letterRuns]
      split
      · rename_i occurs
        exact List.count_eq_one_of_mem (List.nodup_dedup _) (List.mem_dedup.mpr occurs)
      · rename_i absent
        exact List.count_eq_zero_of_not_mem (fun listed => absent (List.mem_dedup.mp listed))
    have first : valuesOf word (indexerMap isLetter walk fileName (input fileName)) =
        if word ∈ letterRuns isLetter (input fileName) then [bytesOf fileName] else [] := by
      rw [indexerMap, valuesOf_const, count]
      split
      · rfl
      · rfl
    have parts : (indexer isLetter walk json path input).intermediate (fileName :: files) =
        indexerMap isLetter walk fileName (input fileName) ++
          (indexer isLetter walk json path input).intermediate files := rfl
    rw [parts, valuesOf_append, first, ih]
    by_cases occurs : word ∈ letterRuns isLetter (input fileName)
    · simp [documents, occurs]
    · simp [documents, occurs]

/-- The walk that keeps the order of the keys. -/
def Walk.forward : Walk := ⟨id, List.Perm.refl⟩

/-- A run in which every map is walked in its own way leads to the same job and the same files as one in
    which all maps are walked forward. -/
theorem forward_of_reachable
    (reached : (indexerCluster isLetter json path input files nReduce directory).ReachableWhen
      (fun s e => e.1.Succeeds ∧ e.1.NoLateMapReport s) s) :
    ∃ t, (cluster (indexer isLetter .forward json path input) files nReduce
      directory).ReachableWhen (fun s e => e.Succeeds ∧ e.NoLateMapReport s) t ∧ s.Alike t := by
  refine reached.simulate ?_ ?_
  · exact ⟨rfl, rfl, fun worker => .none⟩
  · rintro s ⟨e, walk⟩ s' t - - alike ⟨succeeds, timely⟩ next
    have collects : ∀ document value, collect (indexerMap isLetter walk document value) =
        collect ((indexer isLetter .forward json path input).mapf document value) :=
      collect_indexerMap walk .forward
    obtain ⟨t', followed, alike'⟩ := alike.step collects next
    exact .inr ⟨e, t', ⟨succeeds, timely.of_job alike.job⟩, followed, alike'⟩

/-- In every run of a job with the index in which file-system calls succeed and no late report of a
    map task is taken for one of a reduce task, on input files whose names the job does not give to files
    of its own, and in whatever order Go walks its maps each time: once `Done` returns true, `mr-out-r`
    has the words of its hash that occur in the input files, in order and each once, with the number of
    files they occur in and the names of these files, sorted. -/
theorem done_index (plain : (indexer isLetter .forward json path input).Plain files)
    (supplied : (indexer isLetter .forward json path input).Supplied files nReduce directory)
    (unmatched : directory.NoneMatched nReduce)
    (reached : (indexerCluster isLetter json path input files nReduce directory).ReachableWhen
      (fun s e => e.1.Succeeds ∧ e.1.NoLateMapReport s) s)
    (done : s.job.coordinator.done = true) {r : Nat} (inside : r < nReduce) :
    s.pool.directory.Tabulates r fun word output =>
      ihash word % nReduce = r ∧ documents isLetter input files word ≠ [] ∧
        output = itoa (documents isLetter input files word).length ++
          32 :: join ((documents isLetter input files word).insertionSort (· ≤ ·)) := by
  obtain ⟨t, ran, alike⟩ := forward_of_reachable reached
  rw [alike.job] at done
  rw [alike.directory]
  apply tabulates_of_done unordered_indexer plain supplied unmatched ran done inside
  intro word output
  rw [valuesOf_indexer]
  rfl

/-- The walk in the opposite order. -/
def Walk.backward : Walk := ⟨List.reverse, List.reverse_perm⟩

/-- Two workers with a file each, whose maps are walked in opposite orders, and of which one does the
    reduce task. -/
def indexedWords : Cluster :=
  ((indexerCluster asciiLetter asciiJson (fun _ => none) rhyme ["x", "y"] 1 ∅).guarded
    fun s e => e.1.Succeeds ∧ e.1.NoLateMapReport s).after
    ((([.check 0, .check 1, .assign 0 (fun _ => 0), .assign 1 (fun _ => 0), .work 0 (.read true)] :
        List ClusterEvent).map fun e => (e, .backward)) ++
      ([.work 1 (.read true), .work 0 (.create (some 7)), .work 1 (.create (some 7)),
        .work 0 .compute, .work 1 .compute, .work 0 (.write none), .work 1 (.write none),
        .work 0 (.write none), .work 0 (.write none), .work 0 .compute, .work 1 .compute,
        .work 0 (.rename true true), .work 1 (.rename true true), .work 0 .compute,
        .work 1 .compute, .report 1, .report 0, .check 0,
        .assign 0 (fun _ => 1), .work 0 (.read true), .work 0 (.create (some 3)),
        .work 0 (.read true), .work 0 (.read true), .work 0 .compute, .work 0 (.write none),
        .work 0 (.write none), .work 0 (.write none), .work 0 (.rename true true), .report 0,
        .check 0] : List ClusterEvent).map fun e => (e, .forward))

theorem done_index_rhyme :
    indexedWords.job.coordinator.done = true ∧
      indexedWords.pool.directory.Tabulates 0 fun word output =>
        ihash word % 1 = 0 ∧ documents asciiLetter rhyme ["x", "y"] word ≠ [] ∧
          output = itoa (documents asciiLetter rhyme ["x", "y"] word).length ++
            32 :: join ((documents asciiLetter rhyme ["x", "y"] word).insertionSort (· ≤ ·)) := by
  have reached : (indexerCluster asciiLetter asciiJson (fun _ => none) rhyme ["x", "y"] 1
      ∅).ReachableWhen (fun s e => e.1.Succeeds ∧ e.1.NoLateMapReport s) indexedWords :=
    Machine.reachableWhen_of_guarded (Machine.reachable_after _)
  have plain : ∀ kv ∈ (indexer asciiLetter .forward asciiJson (fun _ => none) rhyme).intermediate
      ["x", "y"], AsciiJson.Plain kv.1 ∧ AsciiJson.Plain kv.2 := by decide +kernel
  have done : indexedWords.job.coordinator.done = true := by decide +kernel
  exact ⟨done, done_index plain (supplied_elsewhere (by simp [indexer]))
    (by rintro name content ⟨⟩) reached done (by decide)⟩

end DistributedCloud.MapReduce
