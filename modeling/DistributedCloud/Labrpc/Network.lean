import DistributedCloud.Misc.Machine

/-!
# The simulated network

`labrpc/labrpc.go`. A `Call` hands its request to the goroutine of the network, which starts a
goroutine `processReq` for it, which in turn starts one for the handler. What each of them does under
`rn.mu`, and each communication between them, is one event, so that a schedule of all goroutines is
a list of events. How long something takes and what is left to chance are choices of the schedule.

A handler begins when the server counts its request and finds the method, and handlers that have
begun overlap. A method that returns takes effect at one point in time before it does so, as the
methods do that hold a mutex; it may have to wait for that, and it need not come back at all.

Arguments and replies are values; that `labgob` carries them over unchanged is taken for granted.
-/

namespace DistributedCloud.Labrpc

/-! ## Servers -/

/-- `reqMsg`. The reply channel belongs to the call that is known to the network by its number. -/
structure ReqMsg (E A : Type) where
  endname : E
  svcMeth : String
  args : A
  deriving DecidableEq, Repr

/-- A method changes the objects `σ` of the process and makes a reply. Where it gives nothing it does
    not get on as long as the objects are these. -/
abbrev Method (σ A R : Type) := σ → A → Option (σ × R)

/-- `Service`, the methods that the server can call on one receiver. -/
structure Service (σ A R : Type) where
  name : String
  methods : String → Option (Method σ A R)

/-- `Server`, a collection of services that share a dispatcher. -/
structure Server (σ A R : Type) where
  services : String → Option (Service σ A R)

/-- What makes the process end. -/
inductive Exit (E : Type) where
  | endExists (endname : E)
  | noSuchEnd (endname : E)
  /-- Slicing the name of a method without a dot. -/
  | noDot (svcMeth : String)
  | unknownService (serviceName methodName : String)
  | unknownMethod (methname svcMeth : String)
  /-- `Cleanup` is called twice. -/
  | closedTwice
  deriving DecidableEq, Repr

variable {E N A R σ κ : Type}

/-- `MakeServer`. -/
def makeServer : Server σ A R := ⟨fun _ => none⟩

/-- `AddService`, by the name of the service. -/
def Server.addService (rs : Server σ A R) (svc : Service σ A R) : Server σ A R :=
  ⟨Function.update rs.services svc.name (some svc)⟩

/-- What comes before and behind the last dot. -/
def splitLast : List Char → Option (List Char × List Char)
  | [] => none
  | c :: rest =>
    match splitLast rest with
    | some (before, behind) => some (c :: before, behind)
    | none => if c = '.' then some ([], rest) else none

/-- `Service.dispatch` up to the call of the method. -/
def Service.dispatch (svc : Service σ A R) (methname : String) (req : ReqMsg E A) :
    Except (Exit E) (Method σ A R) :=
  match svc.methods methname with
  | some function => .ok function
  | none => .error (.unknownMethod methname req.svcMeth)

/-- `Server.dispatch` up to the call of the method, apart from the count. -/
def Server.dispatch (rs : Server σ A R) (req : ReqMsg E A) : Except (Exit E) (Method σ A R) :=
  match splitLast req.svcMeth.toList with
  | none => .error (.noDot req.svcMeth)
  | some (serviceName, methodName) =>
    match rs.services (String.ofList serviceName) with
    | some service => service.dispatch (String.ofList methodName) req
    | none => .error (.unknownService (String.ofList serviceName) (String.ofList methodName))

/-! ## Calls -/

/-- What `processReq` has read about an end point that is enabled and has a server. -/
structure Route (N : Type) where
  servername : N
  /-- The server itself, a pointer. -/
  server : Nat
  reliable : Bool
  longreordering : Bool
  deriving DecidableEq, Repr

/-- How far a call has got. -/
inductive Stage (N R : Type) where
  /-- `Call` waits for the goroutine of the network. -/
  | sending
  /-- `processReq` is about to begin. -/
  | accepted
  /-- There is no server, and the call fails after a while. -/
  | unanswered
  | routed (route : Route N)
  /-- In the loop that waits for the handler. -/
  | waiting (route : Route N)
  /-- Behind the loop, with the reply of the handler or because the server is dead. -/
  | concluding (route : Route N) (reply : Option R)
  /-- The reply is delayed. -/
  | postponed (reply : R)
  /-- `Call` has returned, `true` if there is a reply. -/
  | returned (reply : Option R)
  deriving DecidableEq, Repr

/-- The goroutine that runs the handler of a call. -/
inductive Handler (N R : Type) where
  | idle
  /-- The goroutine is there, and the server has not seen the request. -/
  | started (route : Route N)
  /-- The server has counted the request, and the method has not come back. -/
  | running (route : Route N)
  | finished (reply : R)
  deriving DecidableEq, Repr

/-- What `Call`, `processReq` and the goroutine of the handler know about a request. -/
structure Call (E N A R : Type) where
  req : ReqMsg E A
  stage : Stage N R
  handler : Handler N R
  deriving DecidableEq, Repr

/-! ## The network -/

/-- `Network`, with the calls made so far and the objects of the process. -/
structure Network (E N A R σ κ : Type) where
  reliable : Bool
  /-- Sometimes replies are delayed for a long time. -/
  longReordering : Bool
  ends : E → Bool
  enabled : E → Bool
  /-- `none` where there is no server or `nil`. -/
  servers : N → Option Nat
  connections : E → Option N
  /-- The goroutine that takes the requests has not returned. -/
  listening : Bool
  /-- The channel `done` is closed. -/
  done : Bool
  /-- The requests taken. -/
  count : Nat
  /-- `count` of each server, which `GetCount` returns. -/
  served : Nat → Nat
  calls : κ → Option (Call E N A R)
  objects : σ
  exit : Option (Exit E)

/-- `MakeNetwork`. -/
def makeNetwork (objects : σ) : Network E N A R σ κ where
  reliable := true
  longReordering := false
  ends := fun _ => false
  enabled := fun _ => false
  servers := fun _ => none
  connections := fun _ => none
  listening := true
  done := false
  count := 0
  served := fun _ => 0
  calls := fun _ => none
  objects := objects
  exit := none

/-- What is left to chance when a reply is there. -/
inductive Choice where
  | drop
  | postpone
  | deliver
  deriving DecidableEq, Repr

/-- What the goroutines of a call do. -/
inductive CallEvent where
  /-- `Call` returns `false` because the network has been cleaned up. -/
  | abandon
  /-- The goroutine of the network takes the request. -/
  | accept
  /-- `readEndnameInfo`. -/
  | process
  /-- The call fails as there was no server. -/
  | timeOut
  | dropRequest
  /-- `processReq` starts the handler and waits for it. -/
  | dispatch
  /-- The server counts the request and looks for the method. -/
  | begin
  /-- The method takes effect and comes back. -/
  | execute
  /-- The reply of the handler reaches `processReq`. -/
  | receive
  /-- A turn of the loop after 100 ms. -/
  | poll
  /-- What `processReq` does behind the loop. -/
  | conclude (choice : Choice)
  /-- The delayed reply. -/
  | deliver
  deriving DecidableEq, Repr

/-- The functions of the network, calls and what their goroutines do. -/
inductive Event (E N A κ : Type) where
  | makeEnd (endname : E)
  | deleteEnd (endname : E)
  | addServer (servername : N) (rs : Nat)
  | deleteServer (servername : N)
  | connect (endname : E) (servername : N)
  | enable (endname : E) (enabled : Bool)
  | reliable (yes : Bool)
  | longReordering (yes : Bool)
  | cleanup
  /-- The goroutine of the network returns. -/
  | stop
  | call (c : κ) (req : ReqMsg E A)
  | on (c : κ) (e : CallEvent)
  deriving DecidableEq, Repr

/-- An event that changes what the network knows about end points. -/
def Event.Manages : Event E N A κ → Prop
  | .makeEnd _ => True
  | .deleteEnd _ => True
  | .connect _ _ => True
  | .enable _ _ => True
  | _ => False

/-- An event that changes how the network works. -/
def Event.Configures : Event E N A κ → Prop
  | .reliable _ => True
  | .longReordering _ => True
  | .cleanup => True
  | .stop => True
  | _ => False

namespace Network

variable (net : Network E N A R σ κ)

section Names

variable [DecidableEq E] [DecidableEq N]

/-- `MakeEnd`. -/
def makeEnd (endname : E) : Network E N A R σ κ :=
  if net.ends endname then { net with exit := some (.endExists endname) }
  else
    { net with
      ends := Function.update net.ends endname true
      enabled := Function.update net.enabled endname false
      connections := Function.update net.connections endname none }

/-- `DeleteEnd`. -/
def deleteEnd (endname : E) : Network E N A R σ κ :=
  if net.ends endname then
    { net with
      ends := Function.update net.ends endname false
      enabled := Function.update net.enabled endname false
      connections := Function.update net.connections endname none }
  else { net with exit := some (.noSuchEnd endname) }

/-- `AddServer`. -/
def addServer (servername : N) (rs : Nat) : Network E N A R σ κ :=
  { net with servers := Function.update net.servers servername (some rs) }

/-- `DeleteServer`, which stores `nil`. -/
def deleteServer (servername : N) : Network E N A R σ κ :=
  { net with servers := Function.update net.servers servername none }

/-- `Connect`. -/
def connect (endname : E) (servername : N) : Network E N A R σ κ :=
  { net with connections := Function.update net.connections endname (some servername) }

/-- `Enable`. -/
def enable (endname : E) (enabled : Bool) : Network E N A R σ κ :=
  { net with enabled := Function.update net.enabled endname enabled }

end Names

/-- `Cleanup`, which closes the channel `done`. -/
def cleanup : Network E N A R σ κ :=
  if net.done then { net with exit := some .closedTwice } else { net with done := true }

/-- `readEndnameInfo`. -/
def readEndnameInfo (endname : E) : Bool × Option N × Option Nat × Bool × Bool :=
  let servername := net.connections endname
  (net.enabled endname, servername, servername.bind net.servers, net.reliable, net.longReordering)

/-- The condition under which `processReq` goes on, with what it then knows. -/
def route (endname : E) : Option (Route N) :=
  match net.readEndnameInfo endname with
  | (true, some servername, some server, reliable, longreordering) =>
    some ⟨servername, server, reliable, longreordering⟩
  | _ => none

/-- `isServerDead`: the end point is disabled, or its server has been deleted or replaced. -/
def isServerDead (endname : E) (servername : N) (server : Nat) : Bool :=
  !net.enabled endname || decide (net.servers servername ≠ some server)

variable [DecidableEq κ]

/-- The call is made or changes. -/
def setCall (c : κ) (call : Call E N A R) : Network E N A R σ κ :=
  { net with calls := Function.update net.calls c (some call) }

/-- The call gets to another stage. -/
def setStage (c : κ) (call : Call E N A R) (stage : Stage N R) : Network E N A R σ κ :=
  net.setCall c { call with stage := stage }

/-- The server counts the request before it looks for the method, and the process ends if there is
    none. -/
def begin (servers : Nat → Server σ A R) (c : κ) (call : Call E N A R) (route : Route N) :
    Network E N A R σ κ :=
  { net.setCall c { call with handler := .running route } with
    served := Function.update net.served route.server (net.served route.server + 1)
    exit :=
      match (servers route.server).dispatch call.req with
      | .ok _ => none
      | .error exit => some exit }

/-- The method that the server has found, when it does not have to wait. -/
def execute (servers : Nat → Server σ A R) (c : κ) (call : Call E N A R) (route : Route N) :
    Option (Network E N A R σ κ) :=
  match (servers route.server).dispatch call.req with
  | .ok function =>
    (function net.objects call.req.args).map fun (objects, reply) =>
      { net.setCall c { call with handler := .finished reply } with objects := objects }
  | .error _ => none

/-- The end of `processReq` for a call that has a reply or whose server was found dead. -/
def conclude (c : κ) (call : Call E N A R) (route : Route N) (reply : Option R) (choice : Choice) :
    Option (Network E N A R σ κ) :=
  let serverDead := net.isServerDead call.req.endname route.servername route.server
  match reply, serverDead with
  | some reply, false =>
    match choice with
    | .drop => if route.reliable then none else some (net.setStage c call (.returned none))
    | .postpone =>
      if route.longreordering then some (net.setStage c call (.postponed reply)) else none
    | .deliver => some (net.setStage c call (.returned (some reply)))
  | _, _ => some (net.setStage c call (.returned none))

/-- One step of the goroutines of a call. -/
def stepCall (servers : Nat → Server σ A R) (c : κ) (call : Call E N A R) :
    CallEvent → Option (Network E N A R σ κ)
  | .abandon =>
    match call.stage with
    | .sending => if net.done then some (net.setStage c call (.returned none)) else none
    | _ => none
  | .accept =>
    match call.stage with
    | .sending =>
      if net.listening then
        some { net.setStage c call .accepted with count := net.count + 1 }
      else none
    | _ => none
  | .process =>
    match call.stage with
    | .accepted =>
      match net.route call.req.endname with
      | some route => some (net.setStage c call (.routed route))
      | none => some (net.setStage c call .unanswered)
    | _ => none
  | .timeOut =>
    match call.stage with
    | .unanswered => some (net.setStage c call (.returned none))
    | _ => none
  | .dropRequest =>
    match call.stage with
    | .routed route =>
      if route.reliable then none else some (net.setStage c call (.returned none))
    | _ => none
  | .dispatch =>
    match call.stage with
    | .routed route =>
      some (net.setCall c { call with stage := .waiting route, handler := .started route })
    | _ => none
  | .begin =>
    match call.handler with
    | .started route => some (net.begin servers c call route)
    | _ => none
  | .execute =>
    match call.handler with
    | .running route => net.execute servers c call route
    | _ => none
  | .receive =>
    match call.stage, call.handler with
    | .waiting route, .finished reply =>
      some (net.setStage c call (.concluding route (some reply)))
    | _, _ => none
  | .poll =>
    match call.stage with
    | .waiting route =>
      if net.isServerDead call.req.endname route.servername route.server then
        some (net.setStage c call (.concluding route none))
      else some net
    | _ => none
  | .conclude choice =>
    match call.stage with
    | .concluding route reply => net.conclude c call route reply choice
    | _ => none
  | .deliver =>
    match call.stage with
    | .postponed reply => some (net.setStage c call (.returned (some reply)))
    | _ => none

variable [DecidableEq E] [DecidableEq N]

/-- One event of a process that has not ended. -/
def act (servers : Nat → Server σ A R) : Event E N A κ → Option (Network E N A R σ κ)
  | .makeEnd endname => some (net.makeEnd endname)
  | .deleteEnd endname => some (net.deleteEnd endname)
  | .addServer servername rs => some (net.addServer servername rs)
  | .deleteServer servername => some (net.deleteServer servername)
  | .connect endname servername => some (net.connect endname servername)
  | .enable endname enabled => some (net.enable endname enabled)
  | .reliable yes => some { net with reliable := yes }
  | .longReordering yes => some { net with longReordering := yes }
  | .cleanup => some net.cleanup
  | .stop => if net.done then some { net with listening := false } else none
  | .call c req =>
    match net.calls c with
    | some _ => none
    | none => some (net.setCall c ⟨req, .sending, .idle⟩)
  | .on c e => (net.calls c).bind fun call => net.stepCall servers c call e

/-- One event, as long as the process has not ended. -/
def step (servers : Nat → Server σ A R) (e : Event E N A κ) : Option (Network E N A R σ κ) :=
  match net.exit with
  | some _ => none
  | none => net.act servers e

end Network

/-- All schedules of a network for the servers that there are. -/
def network [DecidableEq E] [DecidableEq N] [DecidableEq κ] (servers : Nat → Server σ A R)
    (objects : σ) : Machine (Network E N A R σ κ) (Event E N A κ) where
  init := makeNetwork objects
  step := fun net e => net.step servers e

/-! ## What happened in a run -/

/-- A method that took effect; `registered` tells whether the network still had its server under the
    name that the request was sent to. -/
structure Execution (E N A R κ : Type) where
  call : κ
  req : ReqMsg E A
  route : Route N
  reply : R
  registered : Bool
  deriving DecidableEq, Repr

/-- The calls whose handlers have begun, with their servers, the methods in the order in which they
    took effect, and the servers that were added. -/
structure History (E N A R κ : Type) where
  begun : List (κ × Nat)
  executed : List (Execution E N A R κ)
  added : List Nat

/-- What an event adds to the history. -/
def History.record [DecidableEq N] (net : Network E N A R σ κ) (e : Event E N A κ)
    (net' : Network E N A R σ κ) (h : History E N A R κ) : History E N A R κ :=
  match e with
  | .addServer _ rs => { h with added := h.added ++ [rs] }
  | .on c .begin =>
    match net.calls c with
    | some ⟨_, _, .started route⟩ => { h with begun := h.begun ++ [(c, route.server)] }
    | _ => h
  | .on c .execute =>
    match net.calls c, net'.calls c with
    | some ⟨req, _, .running route⟩, some ⟨_, _, .finished reply⟩ =>
      let registered := decide (net.servers route.servername = some route.server)
      { h with executed := h.executed ++ [⟨c, req, route, reply, registered⟩] }
    | _, _ => h
  | _ => h

/-- The network with its history. -/
def recordedNetwork [DecidableEq E] [DecidableEq N] [DecidableEq κ]
    (servers : Nat → Server σ A R) (objects : σ) :
    Machine (Network E N A R σ κ × History E N A R κ) (Event E N A κ) :=
  (network servers objects).withHistory ⟨[], [], []⟩ History.record

end DistributedCloud.Labrpc
