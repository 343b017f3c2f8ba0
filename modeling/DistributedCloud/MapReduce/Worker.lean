import DistributedCloud.MapReduce.FileNames
import DistributedCloud.Misc.Grouping
import DistributedCloud.Misc.Machine
import Mathlib.Data.Fin.Basic
import Mathlib.Data.List.Lex
import Mathlib.Data.String.Basic
import Mathlib.Logic.Function.Basic
import Mathlib.Order.Fin.Basic

/-!
# Workers in a shared directory

`DoMapTask` and `DoReduceTask` of `mr/worker.go`, cut at their file-system calls: an execution is
where a call of one of the two functions stands, and an action is its next file-system call, with
the result of that call, or the computation up to the next one. Any number of executions go on in
one directory. What ends a worker, such as an input file that cannot be read, is not an action.

Contents, keys and values are Go strings, lists of bytes. An input file is read where its path leads
to: in the directory of the workers, with the contents that it has there by then, or elsewhere.
-/

namespace DistributedCloud.MapReduce

/-! ## Data -/

instance neZeroByte : NeZero 256 := ⟨by decide⟩

/-- A Go string. -/
abbrev Bytes : Type := List (Fin 256)

/-- `KeyValue`: a key and a value. -/
abbrev KeyValue : Type := Bytes × Bytes

/-- `IntermediateFormat`: a key and its values. -/
abbrev IntermediateFormat : Type := Bytes × List Bytes

/-- `hash/fnv`'s `New32a`: each byte is xored in before the product with the prime. -/
def fnv32a (bytes : Bytes) : UInt32 :=
  bytes.foldl (fun hash byte => (hash ^^^ UInt32.ofNat byte) * 16777619) 2166136261

/-- `ihash`: the hash without its sign bit. -/
def ihash (key : Bytes) : Nat := (fnv32a key &&& 0x7fffffff).toNat

/-- The result of a call of `Decode`. -/
inductive Decoded where
  /-- `io.EOF` -/
  | eof
  /-- A value, with what is left to read. -/
  | value (kv : IntermediateFormat) (rest : Bytes)
  /-- The error for a value of another type, which is read all the same. -/
  | mismatch (rest : Bytes)
  /-- Any other error. The decoder keeps it and returns it from then on. -/
  | error
  deriving DecidableEq, Repr

/-- `encoding/json` for `IntermediateFormat`. `encode` is what `Encode` writes, its newline
    included; the newline after a value counts as read with it. -/
structure Json where
  encode : IntermediateFormat → Bytes
  decode : Bytes → Decoded
  /-- The strings that decoding gives back as they were, such as valid UTF-8. -/
  Plain : Bytes → Prop
  decode_nil : decode [] = .eof
  decode_encode : ∀ kv rest, Plain kv.1 → (∀ value ∈ kv.2, Plain value) →
    decode (encode kv ++ rest) = .value kv rest
  decode_consumes : ∀ text kv rest, decode text = .value kv rest → rest.length < text.length
  decode_skips : ∀ text rest, decode text = .mismatch rest → rest.length < text.length

/-- The application, the JSON package and the input files. -/
structure Setting where
  mapf : String → Bytes → List KeyValue
  reducef : Bytes → List Bytes → Bytes
  json : Json
  /-- The name in the directory of the workers that a path leads to. It is `none` for a file
      elsewhere, where no worker writes. -/
  path : String → Option String
  /-- What the input files hold when the job begins. -/
  input : String → Bytes

/-- The loop of `DoReduceTask` over one file. A value of another type is logged and left out.
    `none` is a loop that does not end: an error is logged, and `Decode` returns it again the next
    time. -/
def Json.decodeLoop (json : Json) : Nat → Bytes → Option (List IntermediateFormat)
  | 0, _ => none
  | fuel + 1, text =>
    match json.decode text with
    | .eof => some []
    | .value kv rest => (json.decodeLoop fuel rest).map (kv :: ·)
    | .mismatch rest => json.decodeLoop fuel rest
    | .error => none

/-- Each value takes at least one byte. -/
def Json.decodeAll (json : Json) (text : Bytes) : Option (List IntermediateFormat) :=
  json.decodeLoop (text.length + 1) text

/-! ## The directory -/

/-- What a name stands for. `file` is every entry for which `IsDir` is false: a regular file, and also a
    symbolic link or another special file, with the bytes that reading it gives. -/
inductive Entry where
  | file (content : Bytes)
  | dir
  deriving DecidableEq, Repr

/-- The working directory of the workers. -/
abbrev Directory : Type := AList (fun _ : String => Entry)

namespace Directory

/-- `os.CreateTemp` makes a new file; `name` has the random number that was free. -/
def createTemp (directory : Directory) (name : FileName) : Option Directory :=
  if name.print ∈ directory then none else some (directory.insert name.print (.file []))

/-- A write to the end of an open file. -/
def append (directory : Directory) (name : FileName) (bytes : Bytes) : Directory :=
  match directory.lookup name.print with
  | some (.file content) => directory.insert name.print (.file (content ++ bytes))
  | _ => directory

/-- `os.Rename` of a file replaces a file, and fails on a directory. -/
def rename (directory : Directory) (old new : FileName) : Option Directory :=
  match directory.lookup old.print, directory.lookup new.print with
  | some (.file _), some .dir => none
  | some (.file content), _ =>
    some ((directory.erase old.print).insert new.print (.file content))
  | _, _ => none

/-- `os.ReadDir`: the names in order, with `IsDir`. -/
def readDir (directory : Directory) : List (String × Bool) :=
  (directory.keys.insertionSort (· ≤ ·)).map fun name =>
    (name, decide (directory.lookup name = some .dir))

end Directory

/-- `os.ReadFile` of an input file. -/
def Setting.readFile (setting : Setting) (directory : Directory) (fileName : String) : Option Bytes :=
  match setting.path fileName with
  | none => some (setting.input fileName)
  | some name =>
    match directory.lookup name with
    | some (.file content) => some content
    | _ => none

/-! ## Actions -/

/-- The next step of an execution. -/
inductive Action where
  /-- A file or the directory is read. -/
  | read (ok : Bool)
  /-- `CreateTemp` makes a file with this number in its name, or fails. -/
  | create (random : Option Nat)
  /-- `Encode` or `Fprintf`; it may fail after some bytes. -/
  | write (cut : Option Nat)
  /-- `Close`, whose error is only logged, and `Rename`. -/
  | rename (closed renamed : Bool)
  /-- What comes before the next file-system call, or the return. -/
  | compute
  deriving DecidableEq, Repr

/-- The file-system call of the action succeeds. -/
def Action.Succeeds : Action → Prop
  | read ok => ok = true
  | create random => random ≠ none
  | write cut => cut = none
  | rename closed renamed => closed = true ∧ renamed = true
  | compute => True

instance : DecidablePred Action.Succeeds
  | .read ok => inferInstanceAs (Decidable (ok = true))
  | .create random => inferInstanceAs (Decidable (random ≠ none))
  | .write cut => inferInstanceAs (Decidable (cut = none))
  | .rename closed renamed => inferInstanceAs (Decidable (closed = true ∧ renamed = true))
  | .compute => isTrue trivial

/-! ## `DoMapTask` -/

/-- The keys in order with their values, as `DoMapTask` collects them in `finalStorage`. -/
def collect (kva : List KeyValue) : List IntermediateFormat :=
  (Groups.addAll ∅ (kva.map fun kv => (kv.1, [kv.2]))).sorted

/-- Where a call of `DoMapTask` stands. `broken` are the encoders that had an error. -/
inductive MapStage where
  | reading
  /-- The temporary files so far. -/
  | creating (kva : List KeyValue) (temps : List FileName)
  /-- The entries left to encode; an encoder that had an error does not write any more. -/
  | encoding (temps : List FileName) (broken : List Nat) (left : List IntermediateFormat)
  /-- File `i` is next. -/
  | placing (temps : List FileName) (broken : List Nat) (i : Nat)
  deriving DecidableEq, Repr

/-- One action of `DoMapTask`; `none` in place of the stage is its return. -/
def MapStage.step (setting : Setting) (fileName : String) (taskID nReduce : Nat)
    (directory : Directory) : MapStage → Action → Option (Directory × Option MapStage)
  | reading, .read true => do
    let content ← setting.readFile directory fileName
    return (directory, some (creating (setting.mapf fileName content) []))
  | creating kva temps, .create random =>
    if temps.length < nReduce then
      match random with
      | some n => do
        let temp := .intermediateTemp taskID temps.length n
        let directory ← directory.createTemp temp
        return (directory, some (creating kva (temps ++ [temp])))
      | none => some (temps.foldl (fun directory temp => directory.erase temp.print) directory, none)
    else none
  | creating kva temps, .compute =>
    if temps.length < nReduce then none
    else some (directory, some (encoding temps [] (collect kva)))
  | encoding temps broken (kv :: left), .write cut => do
    let index := ihash kv.1 % nReduce
    let temp ← temps[index]?
    if index ∈ broken then return (directory, some (encoding temps broken left))
    else
      match cut with
      | none =>
        return (directory.append temp (setting.json.encode kv), some (encoding temps broken left))
      | some n =>
        -- A write that fails has not written all bytes.
        if n < (setting.json.encode kv).length then
          some (directory.append temp ((setting.json.encode kv).take n),
            some (encoding temps (index :: broken) left))
        else none
  | encoding temps broken [], .compute => some (directory, some (placing temps broken 0))
  | placing temps broken i, .rename _ renamed => do
    let temp ← temps[i]?
    if renamed then
      let directory ← directory.rename temp (.intermediate taskID i)
      return (directory, some (placing temps broken (i + 1)))
    else return (directory, some (placing temps broken (i + 1)))
  | placing temps _ i, .compute => if i < temps.length then none else some (directory, none)
  | _, _ => none

/-! ## `DoReduceTask` -/

/-- What `Fprintf` writes for a key: `%v %v\\n`. -/
def line (key output : Bytes) : Bytes := key ++ 32 :: output ++ [10]

/-- Where a call of `DoReduceTask` stands. -/
inductive ReduceStage where
  | listing
  | creating (files : List (String × Bool))
  /-- The files left to look at; `temp` is `none` if it could not be made. -/
  | reading (temp : Option FileName) (files : List (String × Bool)) (finalStorage : Groups Bytes Bytes)
  /-- The keys left to write, with their outputs. -/
  | writing (temp : Option FileName) (left : List (Bytes × Bytes))

/-- One action of `DoReduceTask`; `none` in place of the stage is its return. Without a file to
    rename it panics. -/
def ReduceStage.step (setting : Setting) (taskID : Nat) (directory : Directory) :
    ReduceStage → Action → Option (Directory × Option ReduceStage)
  | listing, .read true => some (directory, some (creating directory.readDir))
  | listing, .read false => some (directory, none)
  | creating files, .create random =>
    match random with
    | some n => do
      let temp := .outputTemp taskID n
      let directory ← directory.createTemp temp
      return (directory, some (reading (some temp) files ∅))
    | none => some (directory, some (reading none files ∅))
  | reading temp ((name, isDir) :: files) finalStorage, .read true =>
    if !isDir && matchString taskID name then
      match directory.lookup name with
      | some (.file content) => do
        let kvs ← setting.json.decodeAll content
        return (directory, some (reading temp files (finalStorage.addAll kvs)))
      -- A file that cannot be opened gives an error for ever.
      | _ => none
    else some (directory, some (reading temp files finalStorage))
  | reading temp [] finalStorage, .compute =>
    some (directory, some (writing temp
      (finalStorage.sorted.map fun kv => (kv.1, setting.reducef kv.1 kv.2))))
  | writing temp ((key, output) :: left), .write cut =>
    let text := line key output
    match temp with
    | some temp =>
      some (directory.append temp (match cut with | none => text | some n => text.take n),
        some (writing (some temp) left))
    | none => some (directory, some (writing none left))
  | writing (some temp) [], .rename _ renamed =>
    if renamed then do
      let directory ← directory.rename temp (.output taskID)
      return (directory, none)
    else some (directory, none)
  | _, _ => none

/-! ## Executions side by side -/

/-- A call of one of the two functions. -/
inductive Execution where
  | map (fileName : String) (taskID nReduce : Nat) (stage : MapStage)
  | reduce (taskID : Nat) (stage : ReduceStage)

/-- One action of the call. -/
def Execution.step (setting : Setting) (directory : Directory) :
    Execution → Action → Option (Directory × Option Execution)
  | map fileName taskID nReduce stage, action => do
    let (directory, stage) ← stage.step setting fileName taskID nReduce directory action
    return (directory, stage.map (map fileName taskID nReduce))
  | reduce taskID stage, action => do
    let (directory, stage) ← stage.step setting taskID directory action
    return (directory, stage.map (reduce taskID))

/-- The directory, and what each worker executes in it. -/
structure Pool where
  directory : Directory
  running : Nat → Option Execution

namespace Pool

/-- The worker has another execution, or none. -/
def set (pool : Pool) (worker : Nat) (execution : Option Execution) : Pool :=
  { pool with running := Function.update pool.running worker execution }

/-- The worker takes the next action of its execution. -/
def work (setting : Setting) (pool : Pool) (worker : Nat) (action : Action) : Option Pool := do
  let execution ← pool.running worker
  let (directory, next) ← execution.step setting pool.directory action
  return { pool.set worker next with directory := directory }

end Pool

/-! ## Input files -/

/-- The names that a job gives to its files in the end. -/
def FileName.Produced (inputs nReduce : Nat) : FileName → Prop
  | intermediate m r => m < inputs ∧ r < nReduce
  | output r => r < nReduce
  | _ => False

/-- The input files are there with their contents, and the job gives no file of its own the name of an
    input file. -/
structure Setting.Supplied (setting : Setting) (files : List String) (nReduce : Nat)
    (directory : Directory) : Prop where
  contents : ∀ fileName ∈ files,
    setting.readFile directory fileName = some (setting.input fileName)
  apart : ∀ fileName ∈ files, ∀ name : FileName, name.Produced files.length nReduce →
    setting.path fileName ≠ some name.print

/-! ## What the intermediate files are to hold -/

/-- The entries of one reduce task. -/
def part (nReduce r : Nat) (kvs : List IntermediateFormat) : List IntermediateFormat :=
  kvs.filter fun kv => ihash kv.1 % nReduce = r

/-- The text of some entries. -/
def Json.encodeAll (json : Json) (kvs : List IntermediateFormat) : Bytes := kvs.flatMap json.encode

namespace Setting

/-- The map output of an input file, by key. -/
def mapOutput (setting : Setting) (fileName : String) : List IntermediateFormat :=
  collect (setting.mapf fileName (setting.input fileName))

/-- The contents of `mr-m-r`, where `fileName` is input file `m`. -/
def partition (setting : Setting) (nReduce : Nat) (fileName : String) (r : Nat) : Bytes :=
  setting.json.encodeAll (part nReduce r (setting.mapOutput fileName))

end Setting

end DistributedCloud.MapReduce
