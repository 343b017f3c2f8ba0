import Mathlib.Logic.Function.Basic

/-!
# The key/value server

The handlers of `kvsrv/server.go`, each under `kv.mu` from beginning to end. A Go map is a
function to `Option`, with its zero value where the code reads it without asking whether the key
is there. The `int64` sequence numbers are natural numbers: they count the operations of one
client from 1.
-/

namespace DistributedCloud.KvSrv

/-- `PutAppendArgs`. -/
structure PutAppendArgs where
  key : String
  value : String
  seq : Nat
  clientID : Nat
  deriving DecidableEq, Repr

/-- `KVServer`. -/
structure KVServer where
  value : String → Option String
  /-- `ClientID` to the sequence number of its last operation, 0 if there is none. -/
  lastSeq : Nat → Nat
  /-- `ClientID` to the reply of its last operation. -/
  record : Nat → Option String

/-- `StartKVServer`. -/
def startKVServer : KVServer := ⟨fun _ => none, fun _ => 0, fun _ => none⟩

namespace KVServer

variable (kv : KVServer)

/-- `Get`, which gives `""` for a key that is not there. -/
def get (key : String) : String := (kv.value key).getD ""

/-- The checks on the sequence number that `Put` and `Append` begin with: an operation that was
    executed already is answered from `record`, one that is too far ahead with `""`, and the
    next one is to be executed. -/
def checked (args : PutAppendArgs) (execute : KVServer × String) : KVServer × String :=
  if kv.lastSeq args.clientID ≥ args.seq then (kv, (kv.record args.clientID).getD "")
  else if kv.lastSeq args.clientID + 1 ≠ args.seq then (kv, "")
  else execute

/-- `Put`. -/
def put (args : PutAppendArgs) : KVServer × String :=
  kv.checked args
    ({ value := Function.update kv.value args.key (some args.value)
       lastSeq := Function.update kv.lastSeq args.clientID args.seq
       record := Function.update kv.record args.clientID (some args.value) }, args.value)

/-- `Append`, which gives the value before. -/
def append (args : PutAppendArgs) : KVServer × String :=
  kv.checked args
    (match kv.value args.key with
    | some exsits =>
      ({ value := Function.update kv.value args.key (some (exsits ++ args.value))
         lastSeq := Function.update kv.lastSeq args.clientID args.seq
         record := Function.update kv.record args.clientID (some exsits) }, exsits)
    | none =>
      ({ value := Function.update kv.value args.key (some args.value)
         lastSeq := Function.update kv.lastSeq args.clientID args.seq
         record := Function.update kv.record args.clientID (some "") }, ""))

/-- `Delete` forgets the reply to the last operation of the client. -/
def delete (clientID : Nat) : KVServer :=
  { kv with record := Function.update kv.record clientID none }

end KVServer

end DistributedCloud.KvSrv
