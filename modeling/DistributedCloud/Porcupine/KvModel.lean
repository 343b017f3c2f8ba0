import DistributedCloud.Misc.Grouping
import DistributedCloud.Porcupine.Linearizable
import DistributedCloud.Porcupine.Parallel
import Mathlib.Data.String.Basic

/-!
# The model of the key/value store

`models/kv.go`: one key at a time, with the history partitioned by key.
-/

namespace DistributedCloud.Porcupine

/-- `KvInput`. -/
structure KvInput where
  /-- 0 is get, 1 is put, 2 is append; anything else is append with return value. -/
  op : UInt8
  key : String
  value : String
  deriving DecidableEq, Repr

/-- `KvOutput`. -/
structure KvOutput where
  value : String
  deriving DecidableEq, Repr

/-- An operation on the store. -/
abbrev KvOperation := Operation KvInput KvOutput

/-- The operations of each key, the keys in increasing order. -/
def kvPartition (history : List KvOperation) : List (List KvOperation) :=
  (Groups.addAll ∅ (history.map fun v => (v.input.key, [v]))).sorted.map Prod.snd

/-- `Step` of `KvModel` on the value of one key. -/
def kvStep (state : String) (input : KvInput) (output : KvOutput) : Bool × String :=
  if input.op = 0 then (decide (output.value = state), state)
  else if input.op = 1 then (true, input.value)
  else if input.op = 2 then (true, state ++ input.value)
  else (decide (output.value = state), state ++ input.value)

/-- `KvModel`. -/
def kvModel : Model KvInput KvOutput String where
  partition := some kvPartition
  partitionEvent := none
  init := ""
  step := kvStep
  equal := none

/-- What the model is about: a store with all keys. -/
def storeStep (states : String → String) (input : KvInput) (output : KvOutput) :
    Bool × (String → String) :=
  let (ok, next) := kvStep (states input.key) input output
  (ok, Function.update states input.key next)

/-- The history is linearizable for a store that holds `""` under every key. -/
def KvLinearizable (history : List KvOperation) : Prop :=
  IsLinearizable (fun _ => "") storeStep history

end DistributedCloud.Porcupine
