import DistributedCloud.Misc.Decimal
import DistributedCloud.Misc.Regexp

/-!
# The files of a job

The names that `DoMapTask` and `DoReduceTask` give to the files they write, and the regular
expression by which `DoReduceTask` picks its input.
-/

namespace DistributedCloud.MapReduce

open Decimal

/-- The names that the workers give to files. -/
inductive FileName where
  /-- `mr-%d-%d` -/
  | intermediate (taskID i : Nat)
  /-- `mr-%d-%d-tmp-*` -/
  | intermediateTemp (taskID i random : Nat)
  /-- `mr-out-%d` -/
  | output (taskID : Nat)
  /-- `mr-out-%d-tmp-*` -/
  | outputTemp (taskID random : Nat)
  deriving DecidableEq, Repr

namespace FileName

/-- The name after `mr-`. -/
def tail : FileName → List Char
  | intermediate taskID i => digits taskID ++ '-' :: digits i
  | intermediateTemp taskID i random =>
    digits taskID ++ '-' :: (digits i ++ '-' :: 't' :: 'm' :: 'p' :: '-' :: digits random)
  | output taskID => 'o' :: 'u' :: 't' :: '-' :: digits taskID
  | outputTemp taskID random =>
    'o' :: 'u' :: 't' :: '-' :: (digits taskID ++ '-' :: 't' :: 'm' :: 'p' :: '-' :: digits random)

/-- The name as it is in the directory. -/
def print (name : FileName) : String := String.ofList ('m' :: 'r' :: '-' :: name.tail)

/-- The name is one of `os.CreateTemp`. -/
def IsTemp : FileName → Prop
  | intermediateTemp _ _ _ => True
  | outputTemp _ _ => True
  | _ => False

end FileName

/-- The expression `mr-\\d+-%d$` matches the whole text. -/
def matchesAt (taskID : Nat) : List Char → Bool
  | 'm' :: 'r' :: '-' :: rest =>
    !(rest.takeWhile Char.isDigit).isEmpty && rest.dropWhile Char.isDigit == '-' :: digits taskID
  | _ => false

/-- `regx.MatchString`: the expression has no `^`, so a match may begin anywhere. -/
def matchString (taskID : Nat) (name : String) : Bool :=
  name.toList.tails.any (matchesAt taskID)

/-! ## As the source puts them together

`FileName` and `matchString` are what comes of these formats and of the compiled expression. -/

/-- A random text in the place of the last `*`, or at the end if there is none. -/
def fillStar (random : List Char) : List Char → List Char
  | [] => random
  | '*' :: rest => if '*' ∈ rest then '*' :: fillStar random rest else random ++ rest
  | c :: rest => c :: fillStar random rest

/-- The name that `os.CreateTemp` gives to a file in its directory. -/
def createTempName (pattern random : String) : String :=
  String.ofList (fillStar random.toList pattern.toList)

/-- In `DoMapTask`, what `os.CreateTemp` gets. -/
def filename (taskID i : Nat) : String := sprintf "mr-%d-%d-tmp-*" [taskID, i]

/-- In `DoMapTask`, what a temporary file is renamed to. -/
def newName (taskID i : Nat) : String := sprintf "mr-%d-%d" [taskID, i]

/-- In `DoReduceTask`, what `regexp.Compile` gets. -/
def pattern (taskID : Nat) : String := sprintf "mr-\\d+-%d$" [taskID]

/-- In `DoReduceTask`, what `os.CreateTemp` gets. -/
def tmpFileName (taskID : Nat) : String := sprintf "mr-out-%d-tmp-*" [taskID]

/-- In `DoReduceTask`, what the temporary file is renamed to. -/
def newFileName (taskID : Nat) : String := sprintf "mr-out-%d" [taskID]

/-- The name of a file of the job, from the formats. -/
def FileName.formatted : FileName → String
  | intermediate taskID i => newName taskID i
  | intermediateTemp taskID i random =>
    createTempName (filename taskID i) (sprintf "%d" [random])
  | output taskID => newFileName taskID
  | outputTemp taskID random => createTempName (tmpFileName taskID) (sprintf "%d" [random])

end DistributedCloud.MapReduce
