import DistributedCloud.MapReduce.Worker

/-!
# The read loop of `DoReduceTask`

Round by round, with the decoder that each file gets. `Json.decodeAll` is the same loop seen from
outside: what it leads to, or that it does not end.
-/

namespace DistributedCloud.MapReduce

/-- A `json.Decoder`: at some text, or with an error that it keeps. -/
inductive Decoder where
  | reading (text : Bytes)
  | failed
  deriving DecidableEq, Repr

/-- What the loop looks at in the result of `Decode`. -/
inductive DecodeResult where
  | eof
  | value (kv : IntermediateFormat)
  | error
  deriving DecidableEq, Repr

namespace Decoder

/-- `json.NewDecoder` on a file with these contents. After a failed `os.Open`, which is only
    logged, the file is `nil` and every read from it fails. -/
def new : Option Bytes → Decoder
  | some contents => reading contents
  | none => failed

/-- `Decode`, which keeps an error. -/
def decode (json : Json) : Decoder → Decoder × DecodeResult
  | reading text =>
    match json.decode text with
    | .eof => (reading text, .eof)
    | .value kv rest => (reading rest, .value kv)
    | .mismatch rest => (reading rest, .error)
    | .error => (failed, .error)
  | failed => (failed, .error)

/-- The inner loop, for at most `rounds` rounds. -/
def loop (json : Json) : Nat → Decoder → Groups Bytes Bytes → Option (Groups Bytes Bytes)
  | 0, _, _ => none
  | rounds + 1, decoder, finalStorage =>
    match decoder.decode json with
    | (_, .eof) => some finalStorage
    | (decoder, .error) => decoder.loop json rounds finalStorage
    | (decoder, .value kv) => decoder.loop json rounds (finalStorage.add kv.1 kv.2)

end Decoder

/-- The outer loop over the directory's files, each for at most `rounds` rounds. `contents` is
    what is in a file, `none` if it cannot be opened. -/
def readFiles (json : Json) (taskID : Nat) (contents : String → Option Bytes) (rounds : Nat) :
    List (String × Bool) → Groups Bytes Bytes → Option (Groups Bytes Bytes)
  | [], finalStorage => some finalStorage
  | (name, isDir) :: files, finalStorage =>
    if !isDir && matchString taskID name then do
      let finalStorage ← (Decoder.new (contents name)).loop json rounds finalStorage
      readFiles json taskID contents rounds files finalStorage
    else readFiles json taskID contents rounds files finalStorage

end DistributedCloud.MapReduce
