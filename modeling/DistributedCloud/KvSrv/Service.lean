import DistributedCloud.KvSrv.Server
import DistributedCloud.Misc.Linearizability
import DistributedCloud.Misc.Machine

/-!
# Clerks, network and server

Any number of clerks (`kvsrv/client.go`), one for each client id, and the server behind a network.
A run is about a family `ops` of calls of `Put`, `Append` and `Get` that callers make at any time,
several at once on the same clerk if they like.

A call to the server is known by the operation that makes it and by its number among the calls of
that operation. Whatever has been sent may be handled by the server at any time later and any
number of times; a reply that is kept can be received by the call it belongs to as long as that
call waits for it, and is of no use to any other.
-/

namespace DistributedCloud.KvSrv

/-- What a caller asks of its clerk. -/
inductive Command where
  | put (key value : String)
  | append (key value : String)
  | get (key : String)
  deriving DecidableEq, Repr

/-- An operation that is called on the clerk of a client. -/
structure Operation where
  client : Nat
  command : Command
  deriving DecidableEq, Repr

/-- `Put` and `Append`, the operations of `PutAppend`. -/
def Operation.IsUpdate (op : Operation) : Prop :=
  match op.command with
  | .get _ => False
  | _ => True

instance : DecidablePred Operation.IsUpdate := fun op => by
  unfold Operation.IsUpdate
  split
  · infer_instance
  · infer_instance

/-- The arguments of a call to the server. -/
inductive Body where
  | get (key : String)
  | put (args : PutAppendArgs)
  | append (args : PutAppendArgs)
  | delete (clientID : Nat)
  deriving DecidableEq, Repr

/-- A call on the wire: call number `attempt` of operation `op`. The server sees the body. -/
structure Request where
  op : Nat
  attempt : Nat
  body : Body
  deriving DecidableEq, Repr

/-- The reply to a call, on its way to the caller. -/
structure Reply where
  op : Nat
  attempt : Nat
  value : String
  deriving DecidableEq, Repr

/-- What a clerk knows. -/
structure Clerk where
  seq : Nat
  /-- The operation that holds `ck.mtx`. -/
  mtx : Option Nat
  deriving DecidableEq, Repr

/-- How far an operation has got. -/
inductive Stage where
  | notInvoked
  /-- In `PutAppend`, this is where it waits for `ck.mtx`. -/
  | invoked
  /-- The call `attempt` with this body has not returned. -/
  | calling (body : Body) (attempt : Nat)
  /-- The call of `Delete` has not returned; `reply` came with the call before. -/
  | deleting (reply : String)
  /-- The caller has got `result`. -/
  | returned (reply result : String)
  deriving DecidableEq, Repr

/-- The server and the clerks, with the requests sent and the replies on their way. -/
structure World where
  server : KVServer
  clerks : Nat → Clerk
  stages : Nat → Stage
  sent : List Request
  replies : List Reply

/-- What callers, clerks, the server and the network do. -/
inductive Event where
  /-- A caller calls the operation. -/
  | invoke (op : Nat)
  /-- The operation makes its first call, in `PutAppend` once it has `ck.mtx`. -/
  | start (op : Nat)
  /-- The server handles a request; the reply is kept or lost. -/
  | handle (request : Request) (keep : Bool)
  /-- The call of the operation returns `false` and it calls again. -/
  | retry (op : Nat)
  /-- The call of the operation returns `true` with this reply. -/
  | receive (op : Nat) (value : String)
  /-- The call of `Delete` returns, whatever it returns, and the operation with it. -/
  | finish (op : Nat)
  deriving DecidableEq, Repr

/-- The handler of a request. -/
def KVServer.dispatch (kv : KVServer) : Body → KVServer × String
  | .get key => (kv, kv.get key)
  | .put args => kv.put args
  | .append args => kv.append args
  | .delete clientID => (kv.delete clientID, "")

/-- The arguments with which an operation calls the server when the clerk's counter is `seq`. -/
def Operation.body (op : Operation) (seq : Nat) : Body :=
  match op.command with
  | .put key value => .put ⟨key, value, seq, op.client⟩
  | .append key value => .append ⟨key, value, seq, op.client⟩
  | .get key => .get key

/-- `ErrVersion`. -/
def errVersion : String := "Error Version"

/-- `ErrNoKey`. -/
def errNoKey : String := "Error NoKey"

/-- What `Clerk.Get` returns for the value of its reply. -/
def getResult (value : String) : String :=
  if value = errNoKey ∨ value = errVersion then "" else value

namespace World

variable (ops : Nat → Operation) (w : World)

/-- Operation `i` gets on. -/
def setStage (i : Nat) (stage : Stage) : World :=
  { w with stages := Function.update w.stages i stage }

/-- The clerk of a client changes. -/
def setClerk (client : Nat) (clerk : Clerk) : World :=
  { w with clerks := Function.update w.clerks client clerk }

/-- Operation `i` makes call number `attempt`. -/
def call (i attempt : Nat) (body : Body) : World :=
  { w.setStage i (.calling body attempt) with sent := w.sent ++ [⟨i, attempt, body⟩] }

/-- The first call of `PutAppend` comes after taking `ck.mtx` and counting up `ck.seq`. -/
def start (i : Nat) : Option World :=
  let clerk := w.clerks (ops i).client
  if (ops i).IsUpdate then
    if clerk.mtx = none then
      some ((w.setClerk (ops i).client ⟨clerk.seq + 1, some i⟩).call i 1
        ((ops i).body (clerk.seq + 1)))
    else none
  else some (w.call i 1 ((ops i).body 0))

/-- After the reply `PutAppend` calls `Delete` once and will return the reply; `Get` returns. -/
def received (i attempt : Nat) (reply : String) : World :=
  if (ops i).IsUpdate then
    { w.setStage i (.deleting reply) with
      sent := w.sent ++ [⟨i, attempt + 1, .delete (ops i).client⟩] }
  else w.setStage i (.returned reply (getResult reply))

/-- One event. -/
def step : Event → Option World
  | .invoke i =>
    match w.stages i with
    | .notInvoked => some (w.setStage i .invoked)
    | _ => none
  | .start i =>
    match w.stages i with
    | .invoked => w.start ops i
    | _ => none
  | .handle request keep =>
    if request ∈ w.sent then
      let (server, value) := w.server.dispatch request.body
      some { w with
        server := server
        replies := if keep then ⟨request.op, request.attempt, value⟩ :: w.replies else w.replies }
    else none
  | .retry i =>
    match w.stages i with
    | .calling body attempt => some (w.call i (attempt + 1) body)
    | _ => none
  | .receive i value =>
    match w.stages i with
    | .calling _ attempt =>
      if ⟨i, attempt, value⟩ ∈ w.replies then some (w.received ops i attempt value) else none
    | _ => none
  | .finish i =>
    match w.stages i with
    | .deleting reply =>
      let clerk := w.clerks (ops i).client
      some ((w.setClerk (ops i).client ⟨clerk.seq, none⟩).setStage i (.returned reply reply))
    | _ => none

end World

/-- The service, used by the operations `ops`. -/
def service (ops : Nat → Operation) : Machine World Event where
  init :=
    { server := startKVServer
      clerks := fun _ => ⟨0, none⟩
      stages := fun _ => .notInvoked
      sent := []
      replies := [] }
  step := World.step ops

/-! ## What happened in a run -/

/-- A sequential key/value store. Its operations are those of the run. -/
def store (ops : Nat → Operation) : SequentialObject (String → Option String) Nat String where
  start := fun _ => none
  apply := fun value i =>
    match (ops i).command with
    | .put key new => Function.update value key (some new)
    | .append key new => Function.update value key (some ((value key).getD "" ++ new))
    | .get _ => value
  answer := fun value i =>
    match (ops i).command with
    | .put _ new => new
    | .append key _ => (value key).getD ""
    | .get key => (value key).getD ""

/-- The server executes the request, that is, it changes `kv.value`. -/
def KVServer.Executes (kv : KVServer) : Body → Prop
  | .put args => kv.lastSeq args.clientID + 1 = args.seq
  | .append args => kv.lastSeq args.clientID + 1 = args.seq
  | _ => False

instance (kv : KVServer) : DecidablePred kv.Executes := fun body => by
  unfold KVServer.Executes
  split
  · infer_instance
  · infer_instance
  · infer_instance

/-- `log` has the marks of all operations and `started` those of `PutAppend` in the order in which
    they got hold of the mutex of their clerk. -/
structure History where
  log : List (Mark Nat)
  started : List Nat

/-- An update is performed when it is executed, a `Get` when its kept reply is made. -/
def History.record (ops : Nat → Operation) (w : World) (e : Event) (_ : World) (h : History) :
    History :=
  match e with
  | .invoke i => { h with log := h.log ++ [.invoked i] }
  | .start i => if (ops i).IsUpdate then { h with started := h.started ++ [i] } else h
  | .handle request keep =>
    match request.body with
    | .get _ => if keep then { h with log := h.log ++ [.performed request.op] } else h
    | body =>
      if w.server.Executes body then { h with log := h.log ++ [.performed request.op] } else h
  | .retry _ => h
  | .receive i _ => if (ops i).IsUpdate then h else { h with log := h.log ++ [.returned i] }
  | .finish i => { h with log := h.log ++ [.returned i] }

/-- The service with its history. -/
def recordedService (ops : Nat → Operation) : Machine (World × History) Event :=
  (service ops).withHistory ⟨[], []⟩ (History.record ops)

end DistributedCloud.KvSrv
