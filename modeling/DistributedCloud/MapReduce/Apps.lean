import DistributedCloud.MapReduce.AsciiJson
import DistributedCloud.MapReduce.Cluster

/-!
# Applications

The word count of `mrapps/wc.go` and the index of `mrapps/indexer.go`. Both split a text into words
with `strings.FieldsFunc`, which reads it rune by rune; `unicode.IsLetter` is a parameter.
-/

namespace DistributedCloud.MapReduce

/-! ## Runes -/

/-- What stands for a byte that is not part of UTF-8. -/
def runeError : Nat := 0xFFFD

/-- The bounds on the byte after a first byte of two or more, and how many bytes follow. -/
def leads (first : Nat) : Option (Nat × Nat × Nat) :=
  if first < 0xC2 then none
  else if first < 0xE0 then some (0x80, 0xBF, 1)
  else if first = 0xE0 then some (0xA0, 0xBF, 2)
  else if first = 0xED then some (0x80, 0x9F, 2)
  else if first < 0xF0 then some (0x80, 0xBF, 2)
  else if first = 0xF0 then some (0x90, 0xBF, 3)
  else if first < 0xF4 then some (0x80, 0xBF, 3)
  else if first = 0xF4 then some (0x80, 0x8F, 3)
  else none

/-- The byte lies between the bounds. -/
def within (low high : Nat) (byte : Fin 256) : Bool := decide (low ≤ byte.val ∧ byte.val ≤ high)

/-- The six bits of a byte that continues a rune. -/
def bits (byte : Fin 256) : Nat := byte.val % 64

/-- `utf8.DecodeRuneInString`: the rune, and how many bytes it takes. -/
def decodeRune (first : Fin 256) (rest : Bytes) : Nat × Nat :=
  if first.val < 0x80 then (first.val, 1)
  else
    match leads first.val, rest with
    | some (low, high, 1), b1 :: _ =>
      if within low high b1 then (first.val % 32 * 64 + bits b1, 2) else (runeError, 1)
    | some (low, high, 2), b1 :: b2 :: _ =>
      if within low high b1 && within 0x80 0xBF b2 then
        ((first.val % 16 * 64 + bits b1) * 64 + bits b2, 3)
      else (runeError, 1)
    | some (low, high, 3), b1 :: b2 :: b3 :: _ =>
      if within low high b1 && within 0x80 0xBF b2 && within 0x80 0xBF b3 then
        (((first.val % 8 * 64 + bits b1) * 64 + bits b2) * 64 + bits b3, 4)
      else (runeError, 1)
    | _, _ => (runeError, 1)

/-- `for _, r := range s`, each rune with its bytes; it takes one byte at least. -/
def runesFrom : Nat → Bytes → List (Nat × Bytes)
  | 0, _ => []
  | _ + 1, [] => []
  | fuel + 1, first :: rest =>
    let decoded := decodeRune first rest
    (decoded.1, (first :: rest).take decoded.2) :: runesFrom fuel ((first :: rest).drop decoded.2)

/-- The runes of a text. -/
def runes (text : Bytes) : List (Nat × Bytes) := runesFrom text.length text

/-- `strings.FieldsFunc`, where `field` is the part since `start`, and empty if there is none. -/
def fieldsFunc (f : Nat → Bool) : Bytes → List (Nat × Bytes) → List Bytes
  | field, [] => if field = [] then [] else [field]
  | field, (rune, bytes) :: rest =>
    if f rune then
      if field = [] then fieldsFunc f [] rest else field :: fieldsFunc f [] rest
    else fieldsFunc f (field ++ bytes) rest

/-- The words of a text, as both applications split it. -/
def words (isLetter : Nat → Bool) (text : Bytes) : List Bytes :=
  fieldsFunc (fun r => !isLetter r) [] (runes text)

/-! ## `wc.go` -/

/-- `strconv.Itoa` of a length. -/
def itoa (n : Nat) : Bytes := AsciiJson.ascii (toString n)

/-- `Map` of `wc.go`: the word `1` for each word. -/
def wcMap (isLetter : Nat → Bool) (_ : String) (contents : Bytes) : List KeyValue :=
  (words isLetter contents).map fun w => (w, AsciiJson.ascii "1")

/-- `Reduce` of `wc.go`: the number of the values. -/
def wcReduce (_ : Bytes) (values : List Bytes) : Bytes := itoa values.length

/-- Counting words. -/
def wc (isLetter : Nat → Bool) (json : Json) (path : String → Option String)
    (input : String → Bytes) : Setting :=
  ⟨wcMap isLetter, wcReduce, json, path, input⟩

/-! ## `indexer.go` -/

/-- The bytes of a file name. -/
def bytesOf (name : String) : Bytes := name.toUTF8.data.toList.map UInt8.toFin

/-- An order in which Go may walk a map: each key once, in whatever order. -/
structure Walk where
  order : List Bytes → List Bytes
  perm : ∀ keys, (order keys).Perm keys

/-- `Map` of `indexer.go`: the words of the map `m` in the order of the walk, each with the name of the
    file. -/
def indexerMap (isLetter : Nat → Bool) (walk : Walk) (document : String) (value : Bytes) :
    List KeyValue :=
  (walk.order (words isLetter value).dedup).map fun w => (w, bytesOf document)

/-- `strings.Join` with a comma. -/
def join : List Bytes → Bytes
  | [] => []
  | [value] => value
  | value :: values => value ++ 44 :: join values

/-- `Reduce` of `indexer.go`: `sort.Strings`, and the format `%d %s`. -/
def indexerReduce (_ : Bytes) (values : List Bytes) : Bytes :=
  itoa values.length ++ 32 :: join (values.insertionSort (· ≤ ·))

/-- An index, where Go walks every map in the same way. -/
def indexer (isLetter : Nat → Bool) (walk : Walk) (json : Json) (path : String → Option String)
    (input : String → Bytes) : Setting :=
  ⟨indexerMap isLetter walk, indexerReduce, json, path, input⟩

/-- A job with the index, in which each event has its own walk: Go may walk the map in another way in
    every call of `Map`. -/
def indexerCluster (isLetter : Nat → Bool) (json : Json) (path : String → Option String)
    (input : String → Bytes) (files : List String) (nReduce : Nat) (directory : Directory) :
    Machine Cluster (ClusterEvent × Walk) where
  init := ⟨(job files nReduce).init, ⟨directory, fun _ => none⟩⟩
  step := fun s e => s.step (indexer isLetter e.2 json path input) e.1

end DistributedCloud.MapReduce
