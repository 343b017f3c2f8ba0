import DistributedCloud.KvSrv.Deployment
import DistributedCloud.KvSrv.Proofs.Linearizable
import DistributedCloud.Labrpc.Proofs.Progress
import DistributedCloud.Labrpc.Proofs.Servers

/-!
# The deployment is wired up

What each event of a deployment does, and that no call of a clerk ever finds its server dead: every
handler is executed while its call waits for it.
-/

namespace DistributedCloud.KvSrv

open Labrpc (network forall_update)

variable {ops : Nat → Operation}

/-! ## Requests -/

theorem Body.req_injective {client : Nat} {body other : Body}
    (same : body.req client = other.req client) : body = other := by
  simp only [Body.req, Labrpc.ReqMsg.mk.injEq, true_and] at same
  obtain ⟨method, args⟩ := same
  cases body <;> cases other <;> simp_all [Body.svcMeth, Body.args]

/-- The network finds the method that a clerk asks for. -/
theorem dispatch_req (client server : Nat) (body : Body) :
    ∃ function, (kvServers server).dispatch (body.req client) = .ok function ∧
      ∀ kv, function kv (body.req client).args = some (kv.dispatch body) := by
  have services : (kvServers server).services "KVServer" = some kvService := by
    simp [kvServers, Labrpc.Server.addService, kvService]
  have found : ∀ method, Labrpc.splitLast (("KVServer." ++ method).toList) =
      some ("KVServer".toList, method.toList) →
      ∀ args, (kvServers server).dispatch ⟨client, "KVServer." ++ method, args⟩ =
        kvService.dispatch method (⟨client, "KVServer." ++ method, args⟩ :
          Labrpc.ReqMsg Nat Args) := by
    intro method split args
    simp only [Labrpc.Server.dispatch, split, String.ofList_toList, services]
  cases body with
  | get key => exact ⟨_, found "Get" (by decide) _, fun _ => rfl⟩
  | put args => exact ⟨_, found "Put" (by decide) _, fun _ => rfl⟩
  | append args => exact ⟨_, found "Append" (by decide) _, fun _ => rfl⟩
  | delete clientID => exact ⟨_, found "Delete" (by decide) _, fun _ => rfl⟩

/-! ## Steps -/

/-- Operation `i` makes a call that has not been made before. -/
def Deployment.called (ops : Nat → Operation) (d : Deployment) (i attempt : Nat) (body : Body)
    (progress : Progress) : Deployment :=
  { d.setProgress i progress with
    net := d.net.setCall (i, attempt) ⟨body.req (ops i).client, .sending, .idle⟩ }

/-- The call has returned this. -/
def Deployment.Results (d : Deployment) (i attempt : Nat) (reply : Option String) : Prop :=
  ∃ call, d.net.calls (i, attempt) = some call ∧ call.stage = .returned reply

theorem results_of_result {d : Deployment} {i attempt : Nat} {reply : Option String}
    (result : d.result i attempt = some reply) : d.Results i attempt reply := by
  unfold Deployment.result at result
  split at result
  · rename_i found
    cases result
    exact ⟨_, found, rfl⟩
  · cases result

theorem called_of_call {d d' : Deployment} {i attempt : Nat} {body : Body} {progress : Progress}
    (live : d.net.exit = none) (next : d.call ops i attempt body progress = some d') :
    d.net.calls (i, attempt) = none ∧ d' = d.called ops i attempt body progress := by
  obtain ⟨net, stepped, rfl⟩ := Option.map_eq_some_iff.mp next
  simp only [Labrpc.Network.step, live, Labrpc.Network.act] at stepped
  split at stepped
  · cases stepped
  · rename_i fresh
    cases stepped
    exact ⟨fresh, rfl⟩

/-- The steps of a deployment. -/
inductive DeploymentStep (ops : Nat → Operation) (d : Deployment) :
    DeploymentEvent → Deployment → Prop
  | makeClient {client : Nat} (new : d.clients client = .new) :
      DeploymentStep ops d (.makeClient client) (d.makeClient client)
  | deleteClient {client : Nat} (present : d.clients client = .present)
      (idle : ∀ i ∈ d.active, (ops i).client ≠ client) :
      DeploymentStep ops d (.deleteClient client) (d.deleteClient client)
  | network {e : Labrpc.Event Nat Nat Args (Nat × Nat)} {net : KvNetwork}
      (inside : internal e = true) (next : d.net.step kvServers e = some net) :
      DeploymentStep ops d (.network e) { d with net := net }
  | invoke {i : Nat} (fresh : d.progress i = .notInvoked)
      (present : d.clients (ops i).client = .present) :
      DeploymentStep ops d (.invoke i) { d.setProgress i .invoked with active := i :: d.active }
  | startUpdate {i : Nat} (invoked : d.progress i = .invoked) (update : (ops i).IsUpdate)
      (free : (d.clerks (ops i).client).mtx = none) (unused : d.net.calls (i, 1) = none) :
      DeploymentStep ops d (.start i)
        (({ d with
            clerks := Function.update d.clerks (ops i).client
              ⟨(d.clerks (ops i).client).seq + 1, some i⟩ } : Deployment).called ops i 1
          ((ops i).body ((d.clerks (ops i).client).seq + 1))
          (.calling ((ops i).body ((d.clerks (ops i).client).seq + 1)) 1))
  | startGet {i : Nat} (invoked : d.progress i = .invoked) (read : ¬ (ops i).IsUpdate)
      (unused : d.net.calls (i, 1) = none) :
      DeploymentStep ops d (.start i)
        (d.called ops i 1 ((ops i).body 0) (.calling ((ops i).body 0) 1))
  | retry {i attempt : Nat} {body : Body} (calling : d.progress i = .calling body attempt)
      (failed : d.Results i attempt none) (unused : d.net.calls (i, attempt + 1) = none) :
      DeploymentStep ops d (.retry i)
        (d.called ops i (attempt + 1) body (.calling body (attempt + 1)))
  | receiveUpdate {i attempt : Nat} {body : Body} {reply : String}
      (calling : d.progress i = .calling body attempt) (update : (ops i).IsUpdate)
      (succeeded : d.Results i attempt (some reply)) (unused : d.net.calls (i, attempt + 1) = none) :
      DeploymentStep ops d (.receive i)
        (d.called ops i (attempt + 1) (.delete (ops i).client) (.deleting reply (attempt + 1)))
  | receiveGet {i attempt : Nat} {body : Body} {reply : String}
      (calling : d.progress i = .calling body attempt) (read : ¬ (ops i).IsUpdate)
      (succeeded : d.Results i attempt (some reply)) :
      DeploymentStep ops d (.receive i) (d.answer i reply (getResult reply))
  | finish {i attempt : Nat} {reply : String} {result : Option String}
      (deleting : d.progress i = .deleting reply attempt) (done : d.Results i attempt result) :
      DeploymentStep ops d (.finish i) (d.finish ops i reply)

theorem deploymentStep_of_step {d d' : Deployment} {e : DeploymentEvent}
    (next : d.step ops e = some d') : d.net.exit = none ∧ DeploymentStep ops d e d' := by
  unfold Deployment.step at next
  split at next
  · cases next
  · rename_i live
    refine ⟨live, ?_⟩
    cases e with
    | makeClient client =>
      simp only [Deployment.act, Option.ite_none_right_eq_some, Option.some.injEq] at next
      obtain ⟨new, rfl⟩ := next
      exact .makeClient new
    | deleteClient client =>
      simp only [Deployment.act, Option.ite_none_right_eq_some, Option.some.injEq] at next
      obtain ⟨⟨present, idle⟩, rfl⟩ := next
      exact .deleteClient present idle
    | network e =>
      simp only [Deployment.act, Option.ite_none_right_eq_some, Option.map_eq_some_iff] at next
      obtain ⟨inside, net, stepped, rfl⟩ := next
      exact .network inside stepped
    | invoke i =>
      simp only [Deployment.act, Option.ite_none_right_eq_some, Option.some.injEq] at next
      obtain ⟨⟨fresh, present⟩, rfl⟩ := next
      exact .invoke fresh present
    | start i =>
      simp only [Deployment.act] at next
      split at next
      · rename_i invoked
        simp only [Deployment.start] at next
        split at next
        · rename_i update
          split at next
          · rename_i free
            obtain ⟨unused, rfl⟩ := called_of_call (by exact live) next
            exact .startUpdate invoked update free unused
          · cases next
        · rename_i read
          obtain ⟨unused, rfl⟩ := called_of_call live next
          exact .startGet invoked read unused
      · cases next
    | retry i =>
      simp only [Deployment.act] at next
      split at next
      · rename_i body attempt calling
        split at next
        · rename_i failed
          obtain ⟨unused, rfl⟩ := called_of_call live next
          exact .retry calling (results_of_result failed) unused
        · cases next
      · cases next
    | receive i =>
      simp only [Deployment.act] at next
      split at next
      · rename_i body attempt calling
        split at next
        · rename_i reply succeeded
          simp only [Deployment.received] at next
          split at next
          · rename_i update
            obtain ⟨unused, rfl⟩ := called_of_call live next
            exact .receiveUpdate calling update (results_of_result succeeded) unused
          · rename_i read
            cases next
            exact .receiveGet calling read (results_of_result succeeded)
        · cases next
      · cases next
    | finish i =>
      simp only [Deployment.act] at next
      split at next
      · rename_i reply attempt deleting
        split at next
        · rename_i result done
          cases next
          exact .finish deleting (results_of_result done)
        · cases next
      · cases next

/-! ## Calls that wait for their handler -/

/-- The handler of the call begins and ends while the call waits for it, at the one server. -/
structure Direct (call : Labrpc.Call Nat Nat Args String) : Prop where
  handled : ∀ route, call.handler.route? = some route → call.stage = .waiting route
  concluding : ∀ route, call.stage ≠ .concluding route none
  route : ∀ route, call.stage = .routed route ∨ call.stage.route? = some route →
    route.servername = serverID ∧ route.server = 0

/-- The call that an operation is making. -/
def Progress.At (attempt : Nat) : Progress → Prop
  | .calling _ last => attempt = last
  | .deleting _ last => attempt = last
  | _ => False

/-- Between call and return. -/
def Progress.Busy : Progress → Prop
  | .notInvoked => False
  | .returned _ _ => False
  | _ => True

/-- The call has been made with this body. -/
def Made (ops : Nat → Operation) (net : KvNetwork) (i attempt : Nat) (body : Body) : Prop :=
  ∃ call, net.calls (i, attempt) = some call ∧ call.req = body.req (ops i).client

/-- The network has the call that operation `i` is making, and all others have returned. -/
structure Follows (ops : Nat → Operation) (net : KvNetwork) (active : List Nat) (i : Nat)
    (progress : Progress) : Prop where
  active : progress.Busy → i ∈ active
  calling : ∀ body attempt, progress = .calling body attempt →
    Made ops net i attempt body ∧ ∀ client, body ≠ .delete client
  deleting : ∀ reply attempt, progress = .deleting reply attempt →
    Made ops net i attempt (.delete (ops i).client)
  pending : ∀ attempt call, net.calls (i, attempt) = some call →
    (∀ reply, call.stage ≠ .returned reply) → progress.At attempt

/-- The server stays where it is and clients keep their end points as long as they use them. -/
structure Wired (ops : Nat → Operation) (d : Deployment) : Prop where
  reached : (network kvServers startKVServer).Reachable d.net
  server : d.net.servers serverID = some 0
  ends : ∀ client, d.clients client = .new → d.net.ends client = false
  enabled : ∀ client, d.clients client = .present → d.net.enabled client = true
  connections : ∀ client name, d.net.connections client = some name → name = serverID
  present : ∀ i ∈ d.active, d.clients (ops i).client = .present
  follows : ∀ i, Follows ops d.net d.active i (d.progress i)
  direct : ∀ c call, d.net.calls c = some call → Direct call

theorem forall_update_progress {P : Nat → Progress → Prop} {progress : Nat → Progress} {i : Nat}
    {new : Progress} (here : P i new) (others : ∀ j, j ≠ i → P j (progress j)) :
    ∀ j, P j (Function.update progress i new j) := by
  intro j
  by_cases same : j = i
  · subst same
    rwa [Function.update_self]
  · rw [Function.update_of_ne same]
    exact others j same

section Follows

variable {net net' : KvNetwork} {active active' : List Nat} {i : Nat} {progress : Progress}

theorem Follows.frame (follows : Follows ops net active i progress)
    (calls : ∀ attempt, net'.calls (i, attempt) = net.calls (i, attempt))
    (listed : i ∈ active → i ∈ active') : Follows ops net' active' i progress where
  active := fun busy => listed (follows.active busy)
  calling := by simpa only [Made, calls] using follows.calling
  deleting := by simpa only [Made, calls] using follows.deleting
  pending := by simpa only [calls] using follows.pending

/-- What the operation is doing whose call has not returned. -/
theorem Follows.doing (follows : Follows ops net active i progress) {attempt : Nat}
    {call : Labrpc.Call Nat Nat Args String} (found : net.calls (i, attempt) = some call)
    (pending : ∀ reply, call.stage ≠ .returned reply) :
    (∃ body, progress = .calling body attempt ∧ call.req = body.req (ops i).client ∧
      ∀ client, body ≠ .delete client) ∨
    ∃ reply, progress = .deleting reply attempt ∧
      call.req = (Body.delete (ops i).client).req (ops i).client := by
  have here := follows.pending attempt call found pending
  cases progress with
  | calling body last =>
    obtain rfl : attempt = last := here
    obtain ⟨⟨call', found', req⟩, update⟩ := follows.calling body attempt rfl
    cases found.symm.trans found'
    exact .inl ⟨body, rfl, req, update⟩
  | deleting reply last =>
    obtain rfl : attempt = last := here
    obtain ⟨call', found', req⟩ := follows.deleting reply attempt rfl
    cases found.symm.trans found'
    exact .inr ⟨reply, rfl, req⟩
  | notInvoked => cases here
  | invoked => cases here
  | returned reply result => cases here

/-- If the call that the operation is making has returned, then all its calls have. -/
theorem Follows.settled (follows : Follows ops net active i progress)
    (returned : ∀ attempt call, progress.At attempt → net.calls (i, attempt) = some call →
      ∃ reply, call.stage = .returned reply)
    {attempt : Nat} {call : Labrpc.Call Nat Nat Args String}
    (found : net.calls (i, attempt) = some call) : ∃ reply, call.stage = .returned reply := by
  by_contra pending
  push Not at pending
  obtain ⟨reply, stage⟩ :=
    returned attempt call (follows.pending attempt call found pending) found
  exact pending reply stage

/-- One of the calls of the operation goes on. -/
theorem Follows.setCall (follows : Follows ops net active i progress) {attempt : Nat}
    {call new : Labrpc.Call Nat Nat Args String} (found : net.calls (i, attempt) = some call)
    (calls : net'.calls = Function.update net.calls (i, attempt) (some new))
    (req : new.req = call.req)
    (stays : ∀ reply, call.stage = .returned reply → new.stage = .returned reply) :
    Follows ops net' active i progress := by
  have made : ∀ {attempt' body}, Made ops net i attempt' body → Made ops net' i attempt' body := by
    rintro attempt' body ⟨call', found', req'⟩
    by_cases same : (i, attempt') = (i, attempt)
    · rw [same] at found'
      cases found.symm.trans found'
      exact ⟨new, by rw [calls, same, Function.update_self], req.trans req'⟩
    · exact ⟨call', by rw [calls, Function.update_of_ne same, found'], req'⟩
  refine ⟨follows.active, fun body attempt' calling => ?_, fun reply attempt' deleting => ?_, ?_⟩
  · exact ⟨made (follows.calling body attempt' calling).1, (follows.calling body attempt' calling).2⟩
  · exact made (follows.deleting reply attempt' deleting)
  · intro attempt' call' found' pending
    rw [calls] at found'
    by_cases same : (i, attempt') = (i, attempt)
    · rw [same, Function.update_self] at found'
      cases found'
      cases same
      exact follows.pending attempt call found
        (fun reply returned => pending reply (stays reply returned))
    · rw [Function.update_of_ne same] at found'
      exact follows.pending attempt' call' found' pending

/-- An operation that is making no call. -/
theorem Follows.of_settled
    (settled : ∀ attempt call, net.calls (i, attempt) = some call →
      ∃ reply, call.stage = .returned reply)
    (idle : ∀ attempt, ¬ progress.At attempt) (listed : progress.Busy → i ∈ active) :
    Follows ops net active i progress := by
  refine ⟨listed, fun body attempt calling => ?_, fun reply attempt deleting => ?_, ?_⟩
  · exact absurd (by rw [calling]; rfl) (idle attempt)
  · exact absurd (by rw [deleting]; rfl) (idle attempt)
  · intro attempt call found pending
    obtain ⟨reply, stage⟩ := settled attempt call found
    exact absurd stage (pending reply)

end Follows

namespace Wired

variable {d : Deployment}

/-- A call that has not returned finds its end point enabled and its server registered. -/
theorem alive (wired : Wired ops d) {c : Nat × Nat} {call : Labrpc.Call Nat Nat Args String}
    (found : d.net.calls c = some call) {route : Labrpc.Route Nat}
    (routed : call.stage.route? = some route) :
    d.net.isServerDead call.req.endname route.servername route.server = false := by
  obtain ⟨i, attempt⟩ := c
  have follows := wired.follows i
  have pending : ∀ reply, call.stage ≠ .returned reply := by
    intro reply returned
    rw [returned] at routed
    cases routed
  have busy : (d.progress i).Busy ∧ call.req.endname = (ops i).client := by
    rcases follows.doing found pending with ⟨body, calling, req, -⟩ | ⟨reply, deleting, req⟩
    · rw [calling, req]
      exact ⟨trivial, rfl⟩
    · rw [deleting, req]
      exact ⟨trivial, rfl⟩
  obtain ⟨name, server⟩ := (wired.direct _ _ found).route route (.inr routed)
  rw [Labrpc.isServerDead_eq_false, busy.2, name, server]
  exact ⟨wired.enabled _ (wired.present i (follows.active busy.1)), wired.server⟩

/-- A stage that a call gets to. -/
theorem advance (wired : Wired ops d) {c : Nat × Nat} {call : Labrpc.Call Nat Nat Args String}
    (found : d.net.calls c = some call) {stage : Labrpc.Stage Nat String}
    (advances : Labrpc.Advance d.net call stage) : Direct { call with stage := stage } := by
  have direct := wired.direct c call found
  refine ⟨?_, ?_, ?_⟩
  · -- a call whose handler has not finished waits for it and does not find the server dead
    intro route unfinished
    have waiting := direct.handled route unfinished
    have dead := advances.dead_of_unfinished waiting unfinished
    have alive := wired.alive found (show call.stage.route? = _ by rw [waiting]; rfl)
    cases dead.symm.trans alive
  · rintro route concluding
    cases advances with
    | giveUp waiting dead =>
      have alive := wired.alive found (show call.stage.route? = _ by rw [waiting]; rfl)
      cases dead.symm.trans alive
    | abandon | accept | route | unanswered | timeOut | dropRequest | receive | fail | postpone
    | answer | deliver => cases concluding
  · rintro route (routed | routed)
    · cases advances with
      | route accepted found' =>
        cases routed
        obtain ⟨-, connected, served⟩ := Labrpc.route_eq_some found'
        have name := wired.connections _ _ connected
        rw [name, wired.server] at served
        exact ⟨name, (Option.some.inj served).symm⟩
      | abandon | accept | unanswered | timeOut | dropRequest | receive | giveUp | fail | postpone
      | answer | deliver => cases routed
    · exact direct.route route (.inr (advances.route?_eq routed))

/-- A call goes on, and the rest of the network stays as it is. -/
theorem setCall (wired : Wired ops d) {net : KvNetwork} {c : Nat × Nat}
    {call new : Labrpc.Call Nat Nat Args String}
    (reached : (network kvServers startKVServer).Reachable net)
    (frame : net.servers = d.net.servers ∧ net.ends = d.net.ends ∧ net.enabled = d.net.enabled ∧
      net.connections = d.net.connections)
    (calls : net.calls = Function.update d.net.calls c (some new))
    (found : d.net.calls c = some call) (req : new.req = call.req)
    (stays : ∀ reply, call.stage = .returned reply → new.stage = .returned reply)
    (direct : Direct new) : Wired ops { d with net := net } := by
  obtain ⟨servers, ends, enabled, connections⟩ := frame
  obtain ⟨i, attempt⟩ := c
  refine
    { reached := reached
      server := servers ▸ wired.server
      ends := by simpa only [ends] using wired.ends
      enabled := by simpa only [enabled] using wired.enabled
      connections := by simpa only [connections] using wired.connections
      present := wired.present
      follows := fun j => ?_
      direct := ?_ }
  · by_cases other : j = i
    · subst other
      exact (wired.follows j).setCall found calls req stays
    · refine (wired.follows j).frame (fun attempt' => ?_) id
      rw [calls, Function.update_of_ne (fun same => other (Prod.mk.inj same).1)]
  · rw [calls]
    exact forall_update direct (fun c' call' _ found' => wired.direct c' call' found')

theorem network (wired : Wired ops d) {e : Labrpc.Event Nat Nat Args (Nat × Nat)} {net : KvNetwork}
    (inside : internal e = true) (next : d.net.step kvServers e = some net) :
    Wired ops { d with net := net } := by
  have reached := wired.reached.step trivial next
  obtain ⟨-, step⟩ := Labrpc.step_of_step (Labrpc.working_reachable wired.reached) next
  cases step with
  | call fresh => cases inside
  | addServer => cases inside
  | deleteServer => cases inside
  | manage ends enabled connections exit manages =>
    cases e with
    | on c event => cases manages
    | reliable yes => cases manages
    | longReordering yes => cases manages
    | cleanup => cases manages
    | stop => cases manages
    | makeEnd | deleteEnd | addServer | deleteServer | connect | enable | call => cases inside
  | configure reliable longReordering listening done exit configures stopped =>
    exact ⟨reached, wired.server, wired.ends, wired.enabled, wired.connections, wired.present,
      fun i => (wired.follows i).frame (fun _ => rfl) id, wired.direct⟩
  | @on c call event _ found stepped =>
    have direct := wired.direct c call found
    cases stepped with
    | advance count other advances =>
      exact wired.setCall reached ⟨rfl, rfl, rfl, rfl⟩ rfl found rfl
        (fun reply returned => absurd returned (advances.not_returned reply))
        (wired.advance found advances)
    | @dispatch route routed =>
      refine wired.setCall reached ⟨rfl, rfl, rfl, rfl⟩ rfl found rfl ?_ ⟨?_, ?_, ?_⟩
      · intro reply returned
        cases returned.symm.trans routed
      · intro route' handled
        cases handled
        rfl
      · intro route' concluding
        cases concluding
      · rintro route' (routed' | waiting)
        · cases routed'
        · cases waiting
          exact direct.route route (.inl routed)
    | @begin route exit started method =>
      refine wired.setCall reached ⟨rfl, rfl, rfl, rfl⟩ rfl found rfl (fun _ returned => returned)
        ⟨?_, direct.concluding, direct.route⟩
      intro route' handled
      cases handled
      exact direct.handled route (by rw [started]; rfl)
    | execute running method called =>
      refine wired.setCall reached ⟨rfl, rfl, rfl, rfl⟩ rfl found rfl (fun _ returned => returned)
        ⟨?_, direct.concluding, direct.route⟩
      intro route' handled
      cases handled
    | poll waiting alive => exact wired

theorem setClerks (wired : Wired ops d) (clerks : Nat → Clerk) :
    Wired ops { d with clerks := clerks } :=
  ⟨wired.reached, wired.server, wired.ends, wired.enabled, wired.connections, wired.present,
    wired.follows, wired.direct⟩

/-- All calls of operation `i` have returned. -/
def Settled (net : KvNetwork) (i : Nat) : Prop :=
  ∀ attempt call, net.calls (i, attempt) = some call → ∃ reply, call.stage = .returned reply

/-- The call that the operation was making has returned, so that it is making none. -/
theorem settled_of_results (wired : Wired ops d) {i attempt : Nat} {reply : Option String}
    (here : ∀ attempt', (d.progress i).At attempt' → attempt' = attempt)
    (results : d.Results i attempt reply) : Settled d.net i := by
  intro attempt' call found
  refine (wired.follows i).settled ?_ found
  intro attempt'' call' at' found'
  obtain ⟨call'', found'', stage⟩ := results
  cases here attempt'' at'
  cases found'.symm.trans found''
  exact ⟨reply, stage⟩

/-- An operation makes its next call once the one before has returned. -/
theorem called (wired : Wired ops d) (live : d.net.exit = none) {i attempt : Nat} {body : Body}
    {progress : Progress} (busy : (d.progress i).Busy) (settled : Settled d.net i)
    (unused : d.net.calls (i, attempt) = none)
    (goes : (progress = .calling body attempt ∧ ∀ client, body ≠ .delete client) ∨
      ∃ reply, progress = .deleting reply attempt ∧ body = .delete (ops i).client) :
    Wired ops (d.called ops i attempt body progress) := by
  have next : d.net.step kvServers (.call (i, attempt) (body.req (ops i).client)) =
      some (d.called ops i attempt body progress).net := by
    simp [Labrpc.Network.step, Labrpc.Network.act, live, unused, Deployment.called,
      Deployment.setProgress]
  have made : Made ops (d.called ops i attempt body progress).net i attempt body :=
    ⟨_, Function.update_self _ _ _, rfl⟩
  refine
    { reached := wired.reached.step trivial next
      server := wired.server
      ends := wired.ends
      enabled := wired.enabled
      connections := wired.connections
      present := wired.present
      follows := forall_update_progress ⟨fun _ => (wired.follows i).active busy, ?_, ?_, ?_⟩ ?_
      direct := forall_update ⟨?_, ?_, ?_⟩ (fun c call _ found => wired.direct c call found) }
  · rintro body' attempt' calling
    rcases goes with ⟨same, update⟩ | ⟨reply, same, -⟩
    · cases same.symm.trans calling
      exact ⟨made, update⟩
    · cases same.symm.trans calling
  · rintro reply attempt' deleting
    rcases goes with ⟨same, -⟩ | ⟨reply', same, isDelete⟩
    · cases same.symm.trans deleting
    · cases same.symm.trans deleting
      rw [← isDelete]
      exact made
  · intro attempt' call found pending
    by_cases same : (i, attempt') = (i, attempt)
    · cases same
      rcases goes with ⟨rfl, -⟩ | ⟨reply, rfl, -⟩
      · rfl
      · rfl
    · obtain ⟨reply, stage⟩ :=
        settled attempt' call ((Function.update_of_ne same _ _).symm.trans found)
      exact absurd stage (pending reply)
  · intro j other
    refine (wired.follows j).frame (fun attempt' => ?_) id
    exact Function.update_of_ne (fun same => other (Prod.mk.inj same).1) _ _
  · intro route running
    cases running
  · intro route concluding
    cases concluding
  · rintro route (routed | routed)
    · cases routed
    · cases routed

/-- An operation returns to its caller. -/
theorem answer (wired : Wired ops d) {i : Nat} (settled : Settled d.net i)
    (reply result : String) : Wired ops (d.answer i reply result) where
  reached := wired.reached
  server := wired.server
  ends := wired.ends
  enabled := wired.enabled
  connections := wired.connections
  present := fun j listed => wired.present j (List.mem_of_mem_erase listed)
  follows := by
    refine forall_update_progress (.of_settled settled (fun _ => id) nofun) ?_
    intro j other
    exact (wired.follows j).frame (fun _ => rfl) (List.mem_erase_of_ne other).mpr
  direct := wired.direct

theorem invoke (wired : Wired ops d) {i : Nat} (fresh : d.progress i = .notInvoked)
    (present : d.clients (ops i).client = .present) :
    Wired ops { d.setProgress i .invoked with active := i :: d.active } where
  reached := wired.reached
  server := wired.server
  ends := wired.ends
  enabled := wired.enabled
  connections := wired.connections
  present := by
    intro j listed
    rcases List.mem_cons.mp listed with rfl | before
    · exact present
    · exact wired.present j before
  follows := by
    refine forall_update_progress
      (.of_settled (fun attempt call found => ?_) (fun _ => id) (fun _ => List.mem_cons_self)) ?_
    · refine (wired.follows i).settled ?_ found
      intro attempt' call' here
      rw [fresh] at here
      cases here
    · intro j _
      exact (wired.follows j).frame (fun _ => rfl) (List.mem_cons_of_mem _)
  direct := wired.direct

/-- The end point of one client changes. -/
theorem manage (wired : Wired ops d) {client : Nat} {status : Client} {net : KvNetwork}
    (reached : (Labrpc.network kvServers startKVServer).Reachable net)
    (frame : net.servers = d.net.servers ∧ net.calls = d.net.calls)
    (others : ∀ other, other ≠ client → net.ends other = d.net.ends other ∧
      net.enabled other = d.net.enabled other ∧ net.connections other = d.net.connections other)
    (old : status ≠ .new) (enabled : status = .present → net.enabled client = true)
    (connected : ∀ name, net.connections client = some name → name = serverID)
    (used : ∀ i ∈ d.active, (ops i).client = client → status = .present) :
    Wired ops { d with net := net, clients := Function.update d.clients client status } := by
  obtain ⟨servers, calls⟩ := frame
  refine
    { reached := reached
      server := servers ▸ wired.server
      ends := fun other => ?_
      enabled := fun other => ?_
      connections := fun other => ?_
      present := fun i listed => ?_
      follows := fun i => (wired.follows i).frame (fun _ => by rw [calls]) id
      direct := by simpa only [calls] using wired.direct }
  · by_cases same : other = client
    · subst same
      simp [old]
    · simpa [same, (others other same).1] using wired.ends other
  · by_cases same : other = client
    · subst same
      simpa using enabled
    · simpa [same, (others other same).2.1] using wired.enabled other
  · by_cases same : other = client
    · subst same
      exact connected
    · simpa [(others other same).2.2] using wired.connections other
  · by_cases same : (ops i).client = client
    · simpa [same] using used i listed same
    · simpa [same] using wired.present i listed

/-- `MakeEnd`, `Connect` and `Enable` one after another. -/
theorem makeClient (wired : Wired ops d) (live : d.net.exit = none) {client : Nat}
    (new : d.clients client = .new) : Wired ops (d.makeClient client) := by
  have free := wired.ends client new
  have made : (Labrpc.network kvServers startKVServer).Reachable (d.net.makeEnd client) :=
    wired.reached.step (e := .makeEnd client) trivial
      (by simp [Labrpc.network, Labrpc.Network.step, Labrpc.Network.act, live])
  have connected : (Labrpc.network kvServers startKVServer).Reachable
      ((d.net.makeEnd client).connect client serverID) :=
    made.step (e := .connect client serverID) trivial
      (by simp [Labrpc.network, Labrpc.Network.step, Labrpc.Network.act, Labrpc.Network.makeEnd,
        live, free])
  have enabled : (Labrpc.network kvServers startKVServer).Reachable
      (((d.net.makeEnd client).connect client serverID).enable client true) :=
    connected.step (e := .enable client true) trivial
      (by simp [Labrpc.network, Labrpc.Network.step, Labrpc.Network.act, Labrpc.Network.makeEnd,
        Labrpc.Network.connect, live, free])
  refine wired.manage enabled ?_ ?_ Client.noConfusion ?_ ?_ (fun _ _ _ => rfl)
  · simp [Labrpc.Network.makeEnd, Labrpc.Network.connect, Labrpc.Network.enable, free]
  · intro other differs
    simp [Labrpc.Network.makeEnd, Labrpc.Network.connect, Labrpc.Network.enable, free, differs]
  · simp [Labrpc.Network.enable]
  · simp [Labrpc.Network.connect, Labrpc.Network.enable]

theorem deleteClient (wired : Wired ops d) (live : d.net.exit = none) {client : Nat}
    (idle : ∀ i ∈ d.active, (ops i).client ≠ client) : Wired ops (d.deleteClient client) := by
  have reached : (Labrpc.network kvServers startKVServer).Reachable (d.net.deleteEnd client) :=
    wired.reached.step (e := .deleteEnd client) trivial
      (by simp [Labrpc.network, Labrpc.Network.step, Labrpc.Network.act, live])
  refine wired.manage reached ?_ ?_ (by simp) (by simp) ?_
    (fun i listed same => absurd same (idle i listed))
  · unfold Labrpc.Network.deleteEnd
    split
    · exact ⟨rfl, rfl⟩
    · exact ⟨rfl, rfl⟩
  · intro other differs
    unfold Labrpc.Network.deleteEnd
    split
    · simp [differs]
    · exact ⟨rfl, rfl, rfl⟩
  · intro name connected
    unfold Labrpc.Network.deleteEnd at connected
    split at connected
    · simp at connected
    · exact wired.connections client name connected

end Wired

theorem wired_init (unreliable : Bool) : Wired ops (makeConfig unreliable) where
  reached := by
    have added : (network kvServers startKVServer).Reachable
        ((Labrpc.makeNetwork startKVServer).addServer serverID 0 : KvNetwork) :=
      Machine.ReachableWhen.init.step (e := .addServer serverID 0) trivial rfl
    exact added.step (e := .reliable (!unreliable)) trivial rfl
  server := by simp [makeConfig, Labrpc.addServer_servers]
  ends := fun _ _ => rfl
  enabled := nofun
  connections := nofun
  present := nofun
  follows := fun _ => .of_settled nofun (fun _ => id) False.elim
  direct := nofun

theorem wired_step {d d' : Deployment} {e : DeploymentEvent} (wired : Wired ops d)
    (next : d.step ops e = some d') : Wired ops d' := by
  obtain ⟨live, step⟩ := deploymentStep_of_step next
  -- an operation that has not made a call, or whose call has returned
  have unstarted : ∀ {i : Nat}, d.progress i = .invoked → Wired.Settled d.net i := by
    intro i invoked attempt call found
    refine (wired.follows i).settled ?_ found
    intro attempt' call' here
    rw [invoked] at here
    cases here
  have called : ∀ {i attempt : Nat} {body : Body} {reply : Option String},
      d.progress i = .calling body attempt → d.Results i attempt reply →
      (d.progress i).Busy ∧ Wired.Settled d.net i := by
    intro i attempt body reply calling results
    refine ⟨by rw [calling]; trivial, wired.settled_of_results ?_ results⟩
    intro attempt' here
    rw [calling] at here
    exact here
  cases step with
  | makeClient new => exact wired.makeClient live new
  | deleteClient present idle => exact wired.deleteClient live idle
  | network inside stepped => exact wired.network inside stepped
  | invoke fresh present => exact wired.invoke fresh present
  | @startUpdate i invoked update free unused =>
    have locked := wired.setClerks (Function.update d.clerks (ops i).client
      ⟨(d.clerks (ops i).client).seq + 1, some i⟩)
    exact locked.called live (by rw [invoked]; trivial) (unstarted invoked) unused
      (.inl ⟨rfl, body_ne_delete _ _⟩)
  | startGet invoked read unused =>
    exact wired.called live (by rw [invoked]; trivial) (unstarted invoked) unused
      (.inl ⟨rfl, body_ne_delete _ _⟩)
  | retry calling failed unused =>
    obtain ⟨busy, settled⟩ := called calling failed
    exact wired.called live busy settled unused
      (.inl ⟨rfl, ((wired.follows _).calling _ _ calling).2⟩)
  | receiveUpdate calling update succeeded unused =>
    obtain ⟨busy, settled⟩ := called calling succeeded
    exact wired.called live busy settled unused (.inr ⟨_, rfl, rfl⟩)
  | receiveGet calling read succeeded =>
    exact wired.answer (called calling succeeded).2 _ _
  | @finish i attempt reply result deleting done =>
    have unlocked := wired.setClerks (Function.update d.clerks (ops i).client
      ⟨(d.clerks (ops i).client).seq, none⟩)
    refine unlocked.answer (wired.settled_of_results ?_ done) _ _
    intro attempt' here
    rw [deleting] at here
    exact here

theorem wired_reachable {unreliable : Bool}
    {ok : Deployment → DeploymentEvent → Prop} {d : Deployment}
    (reached : (deployment ops unreliable).ReachableWhen ok d) : Wired ops d := by
  apply reached.invariant (I := Wired ops)
  · exact wired_init unreliable
  · intro d e d' _ wired _ next
    exact wired_step wired next

end DistributedCloud.KvSrv
