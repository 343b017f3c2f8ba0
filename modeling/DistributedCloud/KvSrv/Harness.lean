import DistributedCloud.KvSrv.Deployment
import DistributedCloud.Porcupine.KvModel

/-!
# Recorded histories

The functions `Get`, `Put` and `Append` of `kvsrv/test_test.go` read the clock, call the method of
the clerk, read the clock again and append what happened to the log that the checker is given in the
end. The clock counts from `t0` and never goes back.
-/

namespace DistributedCloud.KvSrv

open Porcupine (KvOperation)

/-- How far the function around an operation has got. -/
inductive Wrapper where
  | idle
  /-- The clock has been read. -/
  | started (start : Int)
  /-- The method has returned and the clock has been read again. -/
  | stopped (start finish : Int)
  /-- The operation is in the log. -/
  | logged (start finish : Int)
  deriving DecidableEq, Repr

/-- What is appended to the log; `cli` is the number of the client in the test. -/
def Operation.entry (op : Operation) (cli start : Int) (result : String) (finish : Int) :
    KvOperation :=
  match op.command with
  | .get key => ⟨cli, ⟨0, key, ""⟩, start, ⟨result⟩, finish⟩
  | .put key value => ⟨cli, ⟨1, key, value⟩, start, ⟨""⟩, finish⟩
  | .append key value => ⟨cli, ⟨3, key, value⟩, start, ⟨result⟩, finish⟩

/-- A deployment that is tested, with the log for the checker. -/
structure Harness where
  deployed : Deployment
  /-- `time.Since(t0)`. -/
  clock : Int
  wrappers : Nat → Wrapper
  /-- `OpLog`. -/
  operations : List KvOperation

/-- Time passes, the functions around the operations get on, or something happens in the
    deployment. -/
inductive HarnessEvent where
  | tick (elapsed : Nat)
  /-- `start := int64(time.Since(t0))`. -/
  | begin (op : Nat)
  | deployed (e : DeploymentEvent)
  /-- `end := int64(time.Since(t0))`. -/
  | stop (op : Nat)
  /-- `log.Append`. -/
  | append (op : Nat)
  deriving DecidableEq, Repr

namespace Harness

variable (ops : Nat → Operation) (cli : Nat → Int) (t : Harness)

/-- The function around operation `i` gets on. -/
def setWrapper (i : Nat) (wrapper : Wrapper) : Harness :=
  { t with wrappers := Function.update t.wrappers i wrapper }

/-- The methods of clerks are called by the functions around them. -/
def allows : DeploymentEvent → Bool
  | .invoke i =>
    match t.wrappers i with
    | .started _ => true
    | _ => false
  | _ => true

/-- One event of a test. -/
def step : HarnessEvent → Option Harness
  | .tick elapsed => some { t with clock := t.clock + elapsed }
  | .begin i =>
    match t.wrappers i with
    | .idle => some (t.setWrapper i (.started t.clock))
    | _ => none
  | .deployed e =>
    if t.allows e then (t.deployed.step ops e).map fun d => { t with deployed := d } else none
  | .stop i =>
    match t.wrappers i, t.deployed.progress i with
    | .started start, .returned _ _ => some (t.setWrapper i (.stopped start t.clock))
    | _, _ => none
  | .append i =>
    match t.wrappers i, t.deployed.progress i with
    | .stopped start finish, .returned _ result =>
      some { t.setWrapper i (.logged start finish) with
        operations := t.operations ++ [(ops i).entry (cli i) start result finish] }
    | _, _ => none

end Harness

/-- A test of the operations `ops`. -/
def harness (ops : Nat → Operation) (cli : Nat → Int) (unreliable : Bool) :
    Machine Harness HarnessEvent where
  init :=
    { deployed := makeConfig unreliable
      clock := 0
      wrappers := fun _ => .idle
      operations := [] }
  step := Harness.step ops cli

/-- The calls and returns of the operations, and the operations in the order of the log. -/
structure HarnessHistory where
  log : List (Mark Nat)
  logged : List Nat

/-- What an event adds to the history. -/
def HarnessHistory.record (ops : Nat → Operation) (t : Harness) (e : HarnessEvent) (t' : Harness)
    (h : HarnessHistory) : HarnessHistory :=
  match e with
  | .deployed e => { h with log := Deployment.record ops t.deployed e t'.deployed h.log }
  | .append i => { h with logged := h.logged ++ [i] }
  | _ => h

/-- A test with its history. -/
def recordedHarness (ops : Nat → Operation) (cli : Nat → Int) (unreliable : Bool) :
    Machine (Harness × HarnessHistory) HarnessEvent :=
  (harness ops cli unreliable).withHistory ⟨[], []⟩ (HarnessHistory.record ops)

end DistributedCloud.KvSrv
