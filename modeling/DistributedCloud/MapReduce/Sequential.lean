import DistributedCloud.MapReduce.Worker

/-!
# The sequential program

`main` of `mrsequential.go`: all map outputs in one slice, one sort, and one pass over the runs of
equal keys. Its output is compared with that of the workers line by line.
-/

namespace DistributedCloud.MapReduce

/-- `sort.Sort(ByKey(..))` puts the keys in order, and is not stable: equal keys stay in any order. -/
def SortsByKey (sort : List KeyValue → List KeyValue) : Prop :=
  ∀ kva, (sort kva).Perm kva ∧ (sort kva).Pairwise fun kv kv' => kv.1 ≤ kv'.1

/-- The loop over `intermediate` from `i` on, which is `left`. Each turn takes at least one pair,
    so that `fuel` is enough if it is the length. -/
def reduceLoop (reducef : Bytes → List Bytes → Bytes) : Nat → List KeyValue → Bytes
  | 0, _ => []
  | _ + 1, [] => []
  | fuel + 1, (key, value) :: left =>
    let values := value :: (left.takeWhile fun kv => kv.1 = key).map Prod.snd
    line key (reducef key values) ++
      reduceLoop reducef fuel (left.dropWhile fun kv => kv.1 = key)

namespace Setting

/-- `intermediate` before the sort. -/
def intermediate (setting : Setting) (files : List String) : List KeyValue :=
  files.flatMap fun fileName => setting.mapf fileName (setting.input fileName)

/-- JSON gives back all strings that the map function emits. -/
def Plain (setting : Setting) (files : List String) : Prop :=
  ∀ kv ∈ setting.intermediate files, setting.json.Plain kv.1 ∧ setting.json.Plain kv.2

/-- The reduce function does not depend on the order of the values. -/
def Unordered (setting : Setting) : Prop :=
  ∀ key values values', values.Perm values' →
    setting.reducef key values = setting.reducef key values'

/-- What `mrsequential` writes to its `mr-out-0`. -/
def mrsequential (setting : Setting) (sort : List KeyValue → List KeyValue) (files : List String) :
    Bytes :=
  let intermediate := sort (setting.intermediate files)
  reduceLoop setting.reducef intermediate.length intermediate

end Setting

/-! ## Comparing outputs -/

/-- The text of keys with their outputs. -/
def written (records : List (Bytes × Bytes)) : Bytes :=
  records.flatMap fun record => line record.1 record.2

/-- The lines of a text. -/
def textLines : Bytes → List Bytes
  | [] => []
  | byte :: rest =>
    if byte = 10 then [] :: textLines rest
    else
      match textLines rest with
      | [] => [[byte]]
      | first :: others => (byte :: first) :: others

/-- What `mr-out-r` holds. -/
def Directory.output (directory : Directory) (r : Nat) : Bytes :=
  match directory.lookup (FileName.output r).print with
  | some (.file content) => content
  | _ => []

/-- The output files have the lines of the sequential program, and each key stands in the file of
    its hash, in order. -/
structure MatchesSequential (setting : Setting) (sort : List KeyValue → List KeyValue)
    (files : List String) (nReduce : Nat) (directory : Directory) : Prop where
  lines : ((List.range nReduce).flatMap fun r => textLines (directory.output r)).Perm
    (textLines (setting.mrsequential sort files))
  keys : ∀ r < nReduce, ∃ records : List (Bytes × Bytes),
    directory.lookup (FileName.output r).print = some (.file (written records)) ∧
      (records.map Prod.fst).Pairwise (· < ·) ∧
      ∀ key, key ∈ records.map Prod.fst ↔
        key ∈ (setting.intermediate files).map Prod.fst ∧ ihash key % nReduce = r

end DistributedCloud.MapReduce
