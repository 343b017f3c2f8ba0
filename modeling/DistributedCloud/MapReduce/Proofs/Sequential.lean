import DistributedCloud.MapReduce.Proofs.Executions
import DistributedCloud.MapReduce.Sequential

/-!
# The same groups either way

The sequential program groups all pairs by one sort. The workers group the pairs of one input file
at a time, split them by the hash of the key, and group what they read back once more. Every pair
takes part once in either, so that the groups agree up to the order of the values.
-/

namespace DistributedCloud.MapReduce

variable {setting : Setting} {files : List String} {nReduce : Nat}

/-! ## Reading back what was encoded -/

namespace Json

/-- The entries whose strings decoding gives back. -/
def PlainEntry (json : Json) (kv : IntermediateFormat) : Prop :=
  json.Plain kv.1 ∧ ∀ value ∈ kv.2, json.Plain value

variable {json : Json}

theorem decodeLoop_encodeAll {kvs : List IntermediateFormat}
    (plain : ∀ kv ∈ kvs, json.PlainEntry kv) {fuel : Nat} (enough : kvs.length < fuel) :
    json.decodeLoop fuel (json.encodeAll kvs) = some kvs := by
  induction kvs generalizing fuel with
  | nil =>
    obtain ⟨fuel, rfl⟩ := Nat.exists_eq_add_one_of_ne_zero (Nat.ne_zero_of_lt enough)
    simp [decodeLoop, encodeAll, json.decode_nil]
  | cons kv kvs ih =>
    obtain ⟨fuel, rfl⟩ := Nat.exists_eq_add_one_of_ne_zero (Nat.ne_zero_of_lt enough)
    obtain ⟨key, values⟩ := plain kv List.mem_cons_self
    have rest := ih (fun other listed => plain other (List.mem_cons_of_mem kv listed))
      (Nat.lt_of_succ_lt_succ enough)
    have text : json.encodeAll (kv :: kvs) = json.encode kv ++ json.encodeAll kvs := rfl
    simp [decodeLoop, text, json.decode_encode kv _ key values, rest]

theorem length_le_encodeAll {kvs : List IntermediateFormat}
    (plain : ∀ kv ∈ kvs, json.PlainEntry kv) : kvs.length ≤ (json.encodeAll kvs).length := by
  induction kvs with
  | nil => exact Nat.zero_le _
  | cons kv kvs ih =>
    obtain ⟨key, values⟩ := plain kv List.mem_cons_self
    -- An empty text decodes to nothing, so the text of an entry has a byte.
    have first := json.decode_consumes _ kv [] (json.decode_encode kv [] key values)
    rw [List.append_nil, List.length_nil] at first
    have rest := ih fun other listed => plain other (List.mem_cons_of_mem kv listed)
    have text : json.encodeAll (kv :: kvs) = json.encode kv ++ json.encodeAll kvs := rfl
    rw [text, List.length_append, List.length_cons]
    omega

theorem decodeAll_encodeAll {kvs : List IntermediateFormat}
    (plain : ∀ kv ∈ kvs, json.PlainEntry kv) :
    json.decodeAll (json.encodeAll kvs) = some kvs :=
  decodeLoop_encodeAll plain (Nat.lt_succ_of_le (length_le_encodeAll plain))

end Json

/-! ## The groups of the workers -/

theorem ungroup_singletons (kva : List KeyValue) :
    ungroup (kva.map fun kv => (kv.1, [kv.2])) = kva := by
  induction kva with
  | nil => rfl
  | cons kv kva ih => simp [ih]

theorem collect_grouped (kva : List KeyValue) : Grouped kva (collect kva) := by
  have nonempty : ∀ entry ∈ kva.map fun kv => (kv.1, [kv.2]), entry.2 ≠ [] := by
    intro entry listed
    obtain ⟨kv, -, rfl⟩ := List.mem_map.mp listed
    exact List.cons_ne_nil _ _
  have grouped : Grouped (ungroup (kva.map fun kv => (kv.1, [kv.2]))) (collect kva) :=
    Groups.sorted_grouped nonempty
  rw [ungroup_singletons] at grouped
  exact grouped

theorem part_grouped (nReduce r : Nat) (kva : List KeyValue) :
    Grouped (kva.filter fun kv => ihash kv.1 % nReduce = r) (part nReduce r (collect kva)) :=
  (collect_grouped kva).filter fun key => ihash key % nReduce = r

/-- The entries of a grouping of plain pairs are plain. -/
theorem plainEntry_of_grouped {json : Json} {pairs : List KeyValue}
    {groups : List IntermediateFormat} (grouped : Grouped pairs groups)
    (plain : ∀ kv ∈ pairs, json.Plain kv.1 ∧ json.Plain kv.2) :
    ∀ kv ∈ groups, json.PlainEntry kv := by
  intro group listed
  refine ⟨?_, ?_⟩
  · obtain ⟨kv, emitted, same⟩ :=
      List.mem_map.mp ((grouped.keys group.1).mp (List.mem_map_of_mem listed))
    rw [← same]
    exact (plain kv emitted).1
  · intro value inside
    have among := (grouped.values group listed).mem_iff.mp inside
    obtain ⟨kv, emitted, rfl⟩ := List.mem_map.mp among
    exact (plain kv (List.mem_of_mem_filter emitted)).2

/-- Decoding an intermediate file gives the entries of its part. -/
theorem decodeAll_partition (plain : setting.Plain files) {fileName : String}
    (listed : fileName ∈ files) (nReduce r : Nat) :
    setting.json.decodeAll (setting.partition nReduce fileName r) =
      some (part nReduce r (setting.mapOutput fileName)) := by
  apply Json.decodeAll_encodeAll
  apply plainEntry_of_grouped (part_grouped nReduce r _)
  intro kv emitted
  exact plain kv (List.mem_flatMap.mpr ⟨fileName, listed, List.mem_of_mem_filter emitted⟩)

/-- The entries of reduce task `r` in all intermediate files. -/
def Setting.reduceInput (setting : Setting) (files : List String) (nReduce r : Nat) :
    List IntermediateFormat :=
  files.flatMap fun fileName => part nReduce r (setting.mapOutput fileName)

/-- The parts of the input files have every pair of the reduce task once. -/
theorem ungroup_reduceInput (files : List String) (nReduce r : Nat) :
    (ungroup (setting.reduceInput files nReduce r)).Perm
      ((setting.intermediate files).filter fun kv => ihash kv.1 % nReduce = r) := by
  induction files with
  | nil => exact .nil
  | cons fileName files ih =>
    have first := (part_grouped nReduce r
      (setting.mapf fileName (setting.input fileName))).ungroup_perm
    simp only [Setting.reduceInput, Setting.intermediate, List.flatMap_cons, ungroup_append,
      List.filter_append]
    exact first.append ih

/-- However the entries of a reduce task are read, they make up a grouping of its pairs. -/
theorem regrouped {r : Nat} {entries : List IntermediateFormat}
    (read : entries.Perm (setting.reduceInput files nReduce r)) :
    Grouped ((setting.intermediate files).filter fun kv => ihash kv.1 % nReduce = r)
      (Groups.addAll ∅ entries).sorted := by
  have nonempty : ∀ entry ∈ entries, entry.2 ≠ [] := by
    intro entry listed
    obtain ⟨fileName, -, listed⟩ := List.mem_flatMap.mp (read.mem_iff.mp listed)
    exact (part_grouped nReduce r _).nonempty entry listed
  apply (Groups.sorted_grouped nonempty).perm
  exact (read.flatMap_right _).trans (ungroup_reduceInput files nReduce r)

/-! ## The outputs -/

namespace Setting

/-- Every key with its output. -/
def outputs (setting : Setting) (files : List String) : List (Bytes × Bytes) :=
  (collect (setting.intermediate files)).map fun kv => (kv.1, setting.reducef kv.1 kv.2)

/-- The keys of reduce task `r` with their outputs. -/
def reduceOutput (setting : Setting) (files : List String) (nReduce r : Nat) :
    List (Bytes × Bytes) :=
  (setting.outputs files).filter fun record => ihash record.1 % nReduce = r

end Setting

theorem reduceOutput_eq (setting : Setting) (files : List String) (nReduce r : Nat) :
    setting.reduceOutput files nReduce r =
      (part nReduce r (collect (setting.intermediate files))).map fun kv =>
        (kv.1, setting.reducef kv.1 kv.2) := by
  rw [Setting.reduceOutput, Setting.outputs, List.filter_map]
  rfl

/-- What `DoReduceTask` computes from the entries it has read. -/
theorem reduced_eq (unordered : setting.Unordered) {r : Nat} {entries : List IntermediateFormat}
    (read : entries.Perm (setting.reduceInput files nReduce r)) :
    (Groups.addAll ∅ entries).sorted.map (fun kv => (kv.1, setting.reducef kv.1 kv.2)) =
      setting.reduceOutput files nReduce r := by
  rw [reduceOutput_eq]
  apply Grouped.map_eq (fun key values => (key, setting.reducef key values))
  · intro key values values' same
    rw [unordered key values values' same]
  · exact regrouped read
  · exact part_grouped nReduce r _

theorem reduceLoop_eq (reducef : Bytes → List Bytes → Bytes) (fuel : Nat) (left : List KeyValue) :
    reduceLoop reducef fuel left =
      written ((runs fuel left).map fun kv => (kv.1, reducef kv.1 kv.2)) := by
  induction fuel generalizing left with
  | zero => rfl
  | succ fuel ih =>
    cases left with
    | nil => rfl
    | cons kv left =>
      obtain ⟨key, value⟩ := kv
      simp only [reduceLoop, runs, ih, written, List.map_cons, List.flatMap_cons]
      -- The two sides decide equality of keys by different instances.
      congr!

/-- What the sequential program writes. -/
theorem mrsequential_eq (unordered : setting.Unordered) {sort : List KeyValue → List KeyValue}
    (sorts : SortsByKey sort) (files : List String) :
    setting.mrsequential sort files = written (setting.outputs files) := by
  obtain ⟨same, ordered⟩ := sorts (setting.intermediate files)
  rw [Setting.mrsequential, reduceLoop_eq]
  congr 1
  apply Grouped.map_eq (fun key values => (key, setting.reducef key values))
  · intro key values values' same
    rw [unordered key values values' same]
  · exact (runs_grouped le_rfl ordered).perm same
  · exact collect_grouped _

/-! ## Lines -/

/-- A newline ends a line. -/
theorem textLines_newline (text rest : Bytes) :
    textLines (text ++ 10 :: rest) = textLines (text ++ [10]) ++ textLines rest := by
  induction text with
  | nil => simp [textLines]
  | cons byte text ih =>
    by_cases newline : byte = 10
    · simp [textLines, newline, ih]
    · have ended : textLines (text ++ [10]) ≠ [] := by
        cases text with
        | nil => simp [textLines]
        | cons other text =>
          simp only [List.cons_append, textLines]
          split
          · simp
          · split
            · simp
            · simp
      obtain ⟨first, others, lines⟩ := List.exists_cons_of_ne_nil ended
      simp [textLines, newline, ih, lines]

theorem textLines_written (records : List (Bytes × Bytes)) :
    textLines (written records) = records.flatMap fun record => textLines (line record.1 record.2) := by
  induction records with
  | nil => rfl
  | cons record records ih =>
    have text : written (record :: records) =
        (record.1 ++ 32 :: record.2) ++ 10 :: written records := by
      simp [written, line]
    rw [text, textLines_newline, ih]
    simp [line]

/-- The lines of the parts are the lines of the whole. -/
theorem lines_reduceOutput (setting : Setting) (files : List String) (some : 0 < nReduce) :
    ((List.range nReduce).flatMap fun r =>
      textLines (written (setting.reduceOutput files nReduce r))).Perm
        (textLines (written (setting.outputs files))) := by
  have parts := flatMap_filter_perm (fun record => ihash record.1 % nReduce)
    (setting.outputs files) nReduce
  have all : (setting.outputs files).filter (fun record => ihash record.1 % nReduce < nReduce) =
      setting.outputs files := by
    rw [List.filter_eq_self]
    intro record _
    exact decide_eq_true (Nat.mod_lt _ some)
  rw [all] at parts
  simp only [textLines_written]
  rw [← List.flatMap_assoc]
  exact parts.flatMap_right _

theorem keys_reduceOutput (setting : Setting) (files : List String) (nReduce r : Nat) :
    ((setting.reduceOutput files nReduce r).map Prod.fst).Pairwise (· < ·) ∧
      ∀ key, key ∈ (setting.reduceOutput files nReduce r).map Prod.fst ↔
        key ∈ (setting.intermediate files).map Prod.fst ∧ ihash key % nReduce = r := by
  have grouped := part_grouped nReduce r (setting.intermediate files)
  have keys : (setting.reduceOutput files nReduce r).map Prod.fst =
      (part nReduce r (collect (setting.intermediate files))).map Prod.fst := by
    rw [reduceOutput_eq, List.map_map]
    rfl
  rw [keys]
  refine ⟨grouped.increasing, fun key => ?_⟩
  rw [grouped.keys]
  simp

/-- Output files that hold what the reduce tasks are to write match the sequential program. -/
theorem matchesSequential_of_outputs {directory : Directory}
    {sort : List KeyValue → List KeyValue} (sorts : SortsByKey sort)
    (unordered : setting.Unordered) (positive : 0 < nReduce)
    (output : ∀ r < nReduce, directory.lookup (FileName.output r).print =
      some (.file (written (setting.reduceOutput files nReduce r)))) :
    MatchesSequential setting sort files nReduce directory where
  lines := by
    have texts : ((List.range nReduce).flatMap fun r => textLines (directory.output r)) =
        (List.range nReduce).flatMap fun r =>
          textLines (written (setting.reduceOutput files nReduce r)) := by
      apply List.flatMap_congr
      intro r listed
      simp [Directory.output, output r (List.mem_range.mp listed)]
    rw [texts, mrsequential_eq unordered sorts]
    exact lines_reduceOutput setting files positive
  keys := by
    intro r inside
    obtain ⟨increasing, keys⟩ := keys_reduceOutput setting files nReduce r
    exact ⟨_, output r inside, increasing, keys⟩

end DistributedCloud.MapReduce
