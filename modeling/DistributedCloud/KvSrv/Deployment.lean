import DistributedCloud.KvSrv.Service
import DistributedCloud.Labrpc.Network

/-!
# Clerks on the simulated network

`kvsrv/config.go` sets up a network with one server and makes a client end point for every clerk, and
the clerks of `kvsrv/client.go` call the server through it. Client ids and end point names are
random; they are taken to be different, so that a client id stands for the end point of its clerk as
well. The calls of an operation are numbered from 1 as in `Service`.
-/

namespace DistributedCloud.KvSrv

/-! ## The service -/

/-- The arguments of the methods of `KVServer`. -/
inductive Args where
  | get (key : String)
  | putAppend (args : PutAppendArgs)
  | delete (clientID : Nat)
  deriving DecidableEq, Repr

namespace Args

/-- The arguments of `Get`. Decoding arguments of another type leaves the zero value. -/
def toGet : Args → String
  | .get key => key
  | _ => ""

/-- The arguments of `Put` and `Append`. -/
def toPutAppend : Args → PutAppendArgs
  | .putAppend args => args
  | _ => ⟨"", "", 0, 0⟩

/-- The arguments of `Delete`. -/
def toDelete : Args → Nat
  | .delete clientID => clientID
  | _ => 0

end Args

/-- What `MakeService` finds: the exported methods with arguments and a reply. They hold `kv.mu` from
    beginning to end and always return. -/
def kvService : Labrpc.Service KVServer Args String where
  name := "KVServer"
  methods := fun method =>
    if method = "Get" then some (fun kv args => some (kv, kv.get args.toGet))
    else if method = "Put" then some (fun kv args => some (kv.put args.toPutAppend))
    else if method = "Append" then some (fun kv args => some (kv.append args.toPutAppend))
    else if method = "Delete" then some (fun kv args => some (kv.delete args.toDelete, ""))
    else none

/-- `StartServer` makes one server. -/
def kvServers : Nat → Labrpc.Server KVServer Args String :=
  fun _ => Labrpc.makeServer.addService kvService

/-- The method that a clerk names in its call. -/
def Body.svcMeth : Body → String
  | .get _ => "KVServer." ++ "Get"
  | .put _ => "KVServer." ++ "Put"
  | .append _ => "KVServer." ++ "Append"
  | .delete _ => "KVServer." ++ "Delete"

/-- The arguments that a clerk passes to its call. -/
def Body.args : Body → Args
  | .get key => .get key
  | .put args => .putAppend args
  | .append args => .putAppend args
  | .delete clientID => .delete clientID

/-- The request of a call by the clerk of a client. -/
def Body.req (client : Nat) (body : Body) : Labrpc.ReqMsg Nat Args :=
  ⟨client, body.svcMeth, body.args⟩

/-! ## The deployment -/

/-- The network of a configuration. Its calls are named by the operation and the attempt. -/
abbrev KvNetwork := Labrpc.Network Nat Nat Args String KVServer (Nat × Nat)

/-- Whether a client has its clerk. -/
inductive Client where
  | new
  | present
  | deleted
  deriving DecidableEq, Repr

/-- How far an operation has got. -/
inductive Progress where
  | notInvoked
  | invoked
  /-- The call `attempt` with this body is being made. -/
  | calling (body : Body) (attempt : Nat)
  /-- The call `attempt` is that of `Delete`. -/
  | deleting (reply : String) (attempt : Nat)
  | returned (reply result : String)
  deriving DecidableEq, Repr

/-- What the service shows of it. -/
def Progress.stage : Progress → Stage
  | .notInvoked => .notInvoked
  | .invoked => .invoked
  | .calling body attempt => .calling body attempt
  | .deleting reply _ => .deleting reply
  | .returned reply result => .returned reply result

/-- The network, the clients with their clerks and the operations on them. -/
structure Deployment where
  net : KvNetwork
  clients : Nat → Client
  clerks : Nat → Clerk
  progress : Nat → Progress
  /-- The operations that have been called and have not returned. -/
  active : List Nat

/-- What the configuration, the network and the callers of the clerks do. -/
inductive DeploymentEvent where
  | makeClient (client : Nat)
  /-- A client that no operation is using is deleted. -/
  | deleteClient (client : Nat)
  /-- The network does something by itself, or is told how to work. -/
  | network (e : Labrpc.Event Nat Nat Args (Nat × Nat))
  /-- A caller calls the operation. -/
  | invoke (op : Nat)
  /-- The operation makes its first call, in `PutAppend` once it has `ck.mtx`. -/
  | start (op : Nat)
  /-- The call of the operation has returned `false` and it calls again. -/
  | retry (op : Nat)
  /-- The call of the operation has returned `true`. -/
  | receive (op : Nat)
  /-- The call of `Delete` has returned. -/
  | finish (op : Nat)
  deriving DecidableEq, Repr

/-- The events of the network that are not caused by the configuration or a clerk. -/
def internal : Labrpc.Event Nat Nat Args (Nat × Nat) → Bool
  | .on _ _ => true
  | .reliable _ => true
  | .longReordering _ => true
  | .cleanup => true
  | .stop => true
  | _ => false

/-- `SERVERID`. -/
def serverID : Nat := 0

/-- `make_config`. -/
def makeConfig (unreliable : Bool) : Deployment where
  net := { (Labrpc.makeNetwork startKVServer).addServer serverID 0 with reliable := !unreliable }
  clients := fun _ => .new
  clerks := fun _ => ⟨0, none⟩
  progress := fun _ => .notInvoked
  active := []

namespace Deployment

variable (ops : Nat → Operation) (d : Deployment)

/-- `makeClient`. -/
def makeClient (client : Nat) : Deployment :=
  { d with
    net := ((d.net.makeEnd client).connect client serverID).enable client true
    clients := Function.update d.clients client .present }

/-- `deleteClient`. -/
def deleteClient (client : Nat) : Deployment :=
  { d with
    net := d.net.deleteEnd client
    clients := Function.update d.clients client .deleted }

/-- Operation `i` gets on. -/
def setProgress (i : Nat) (progress : Progress) : Deployment :=
  { d with progress := Function.update d.progress i progress }

/-- Operation `i` makes call number `attempt` and goes on from there. -/
def call (i attempt : Nat) (body : Body) (progress : Progress) : Option Deployment :=
  (d.net.step kvServers (.call (i, attempt) (body.req (ops i).client))).map fun net =>
    { d.setProgress i progress with net := net }

/-- What call number `attempt` of operation `i` has returned. -/
def result (i attempt : Nat) : Option (Option String) :=
  match d.net.calls (i, attempt) with
  | some ⟨_, .returned reply, _⟩ => some reply
  | _ => none

/-- The operation returns to its caller. -/
def answer (i : Nat) (reply result : String) : Deployment :=
  { d.setProgress i (.returned reply result) with active := d.active.erase i }

/-- The first call of `PutAppend` comes after taking `ck.mtx` and counting up `ck.seq`. -/
def start (i : Nat) : Option Deployment :=
  let clerk := d.clerks (ops i).client
  if (ops i).IsUpdate then
    if clerk.mtx = none then
      let body := (ops i).body (clerk.seq + 1)
      ({ d with
          clerks := Function.update d.clerks (ops i).client ⟨clerk.seq + 1, some i⟩ } :
        Deployment).call ops i 1 body (.calling body 1)
    else none
  else d.call ops i 1 ((ops i).body 0) (.calling ((ops i).body 0) 1)

/-- After the reply `PutAppend` calls `Delete` once and will return the reply; `Get` returns. -/
def received (i attempt : Nat) (reply : String) : Option Deployment :=
  if (ops i).IsUpdate then
    d.call ops i (attempt + 1) (.delete (ops i).client) (.deleting reply (attempt + 1))
  else some (d.answer i reply (getResult reply))

/-- `defer ck.mtx.Unlock()`. -/
def finish (i : Nat) (reply : String) : Deployment :=
  let clerk := d.clerks (ops i).client
  ({ d with
      clerks := Function.update d.clerks (ops i).client ⟨clerk.seq, none⟩ } :
    Deployment).answer i reply reply

/-- One event of a process that has not ended. `cfg.deleteClient` itself does not look at the
    operations of the client; the tests call it after the last of them has returned, and only this is
    modelled. -/
def act : DeploymentEvent → Option Deployment
  | .makeClient client => if d.clients client = .new then some (d.makeClient client) else none
  | .deleteClient client =>
    -- the goroutine that has used the client deletes it
    if d.clients client = .present ∧ ∀ i ∈ d.active, (ops i).client ≠ client then
      some (d.deleteClient client)
    else none
  | .network e =>
    if internal e then (d.net.step kvServers e).map fun net => { d with net := net } else none
  | .invoke i =>
    if d.progress i = .notInvoked ∧ d.clients (ops i).client = .present then
      some { d.setProgress i .invoked with active := i :: d.active }
    else none
  | .start i =>
    match d.progress i with
    | .invoked => d.start ops i
    | _ => none
  | .retry i =>
    match d.progress i with
    | .calling body attempt =>
      match d.result i attempt with
      | some none => d.call ops i (attempt + 1) body (.calling body (attempt + 1))
      | _ => none
    | _ => none
  | .receive i =>
    match d.progress i with
    | .calling _ attempt =>
      match d.result i attempt with
      | some (some reply) => d.received ops i attempt reply
      | _ => none
    | _ => none
  | .finish i =>
    match d.progress i with
    | .deleting reply attempt =>
      match d.result i attempt with
      | some _ => some (d.finish ops i reply)
      | none => none
    | _ => none

/-- One event, as long as the process has not ended. -/
def step (e : DeploymentEvent) : Option Deployment :=
  match d.net.exit with
  | some _ => none
  | none => d.act ops e

end Deployment

/-- All schedules of the deployment. -/
def deployment (ops : Nat → Operation) (unreliable : Bool) : Machine Deployment DeploymentEvent where
  init := makeConfig unreliable
  step := Deployment.step ops

/-- The calls and returns of the operations. -/
def Deployment.record (ops : Nat → Operation) (_ : Deployment) (e : DeploymentEvent)
    (_ : Deployment) (log : List (Mark Nat)) : List (Mark Nat) :=
  match e with
  | .invoke i => log ++ [.invoked i]
  | .receive i => if (ops i).IsUpdate then log else log ++ [.returned i]
  | .finish i => log ++ [.returned i]
  | _ => log

/-- The deployment with the log of its calls and returns. -/
def recordedDeployment (ops : Nat → Operation) (unreliable : Bool) :
    Machine (Deployment × List (Mark Nat)) DeploymentEvent :=
  (deployment ops unreliable).withHistory [] (Deployment.record ops)

end DistributedCloud.KvSrv
