import DistributedCloud.Labrpc.Network
import Mathlib.Tactic

/-!
# The steps of the network

What an event can do to a call and to the rest of the network.
-/

namespace DistributedCloud.Labrpc

variable {E N A R σ κ : Type}

section Frames

variable [DecidableEq κ] (net : Network E N A R σ κ) (c : κ) (call : Call E N A R) (stage : Stage N R)

@[simp] theorem setCall_calls :
    (net.setCall c call).calls = Function.update net.calls c (some call) := rfl

@[simp] theorem setCall_servers : (net.setCall c call).servers = net.servers := rfl

@[simp] theorem setCall_served : (net.setCall c call).served = net.served := rfl

@[simp] theorem setCall_exit : (net.setCall c call).exit = net.exit := rfl

@[simp] theorem setStage_calls : (net.setStage c call stage).calls =
    Function.update net.calls c (some { call with stage := stage }) := rfl

@[simp] theorem setStage_servers : (net.setStage c call stage).servers = net.servers := rfl

@[simp] theorem setStage_served : (net.setStage c call stage).served = net.served := rfl

@[simp] theorem setStage_exit : (net.setStage c call stage).exit = net.exit := rfl

end Frames

/-- What holds of the call that is new and of all others holds of all calls. -/
theorem forall_update [DecidableEq κ] {P : κ → Call E N A R → Prop} {calls : κ → Option (Call E N A R)} {c : κ}
    {new : Call E N A R} (here : P c new)
    (others : ∀ d call, d ≠ c → calls d = some call → P d call) :
    ∀ d call, Function.update calls c (some new) d = some call → P d call := by
  intro d call found
  by_cases same : d = c
  · subst same
    rw [Function.update_self] at found
    cases found
    exact here
  · rw [Function.update_of_ne same] at found
    exact others d call same found

/-- A call that has been made stays so. -/
theorem update_ne_none [DecidableEq κ] {calls : κ → Option (Call E N A R)} {c d : κ}
    {new : Call E N A R} (made : d = c ∨ calls d ≠ none) :
    Function.update calls c (some new) d ≠ none := by
  by_cases same : d = c
  · rw [same, Function.update_self]
    exact Option.some_ne_none _
  · rw [Function.update_of_ne same]
    exact made.resolve_left same

/-! ## Calls -/

/-- The route of a handler whose goroutine has not finished. -/
def Handler.route? : Handler N R → Option (Route N)
  | .started route => some route
  | .running route => some route
  | _ => none

/-- The events of the goroutine that runs the handler. -/
def CallEvent.Handles : CallEvent → Prop
  | .begin => True
  | .execute => True
  | _ => False

/-- The stages that a call can get to without a change of its handler. -/
inductive Advance (net : Network E N A R σ κ) (call : Call E N A R) : Stage N R → Prop
  | abandon (sending : call.stage = .sending) (done : net.done = true) :
      Advance net call (.returned none)
  | accept (sending : call.stage = .sending) (listening : net.listening = true) :
      Advance net call .accepted
  | route {route : Route N} (accepted : call.stage = .accepted)
      (found : net.route call.req.endname = some route) : Advance net call (.routed route)
  | unanswered (accepted : call.stage = .accepted) (missing : net.route call.req.endname = none) :
      Advance net call .unanswered
  | timeOut (unanswered : call.stage = .unanswered) : Advance net call (.returned none)
  | dropRequest {route : Route N} (routed : call.stage = .routed route)
      (unreliable : route.reliable = false) : Advance net call (.returned none)
  | receive {route : Route N} {reply : R} (waiting : call.stage = .waiting route)
      (finished : call.handler = .finished reply) :
      Advance net call (.concluding route (some reply))
  | giveUp {route : Route N} (waiting : call.stage = .waiting route)
      (dead : net.isServerDead call.req.endname route.servername route.server = true) :
      Advance net call (.concluding route none)
  | fail {route : Route N} {reply : Option R} (concluding : call.stage = .concluding route reply)
      (failed : reply = none ∨
        net.isServerDead call.req.endname route.servername route.server = true ∨
        route.reliable = false) : Advance net call (.returned none)
  | postpone {route : Route N} {reply : R} (concluding : call.stage = .concluding route (some reply))
      (alive : net.isServerDead call.req.endname route.servername route.server = false)
      (longreordering : route.longreordering = true) : Advance net call (.postponed reply)
  | answer {route : Route N} {reply : R} (concluding : call.stage = .concluding route (some reply))
      (alive : net.isServerDead call.req.endname route.servername route.server = false) :
      Advance net call (.returned (some reply))
  | deliver {reply : R} (postponed : call.stage = .postponed reply) :
      Advance net call (.returned (some reply))

section Advance

variable {net : Network E N A R σ κ} {call : Call E N A R} {stage : Stage N R}

theorem Advance.not_returned (advances : Advance net call stage) (reply : Option R) :
    call.stage ≠ .returned reply := by
  intro returned
  cases advances with
  | abandon sending => cases returned.symm.trans sending
  | accept sending => cases returned.symm.trans sending
  | route accepted => cases returned.symm.trans accepted
  | unanswered accepted => cases returned.symm.trans accepted
  | timeOut unanswered => cases returned.symm.trans unanswered
  | dropRequest routed => cases returned.symm.trans routed
  | receive waiting => cases returned.symm.trans waiting
  | giveUp waiting => cases returned.symm.trans waiting
  | fail concluding => cases returned.symm.trans concluding
  | postpone concluding => cases returned.symm.trans concluding
  | answer concluding => cases returned.symm.trans concluding
  | deliver postponed => cases returned.symm.trans postponed

/-- A call that waits for a handler only goes on if it finds the server dead. -/
theorem Advance.dead_of_unfinished (advances : Advance net call stage) {route handled : Route N}
    (waiting : call.stage = .waiting route) (unfinished : call.handler.route? = some handled) :
    net.isServerDead call.req.endname route.servername route.server = true := by
  cases advances with
  | giveUp waiting' dead =>
    cases waiting.symm.trans waiting'
    exact dead
  | receive waiting' finished =>
    rw [finished] at unfinished
    cases unfinished
  | abandon sending => cases waiting.symm.trans sending
  | accept sending => cases waiting.symm.trans sending
  | route accepted => cases waiting.symm.trans accepted
  | unanswered accepted => cases waiting.symm.trans accepted
  | timeOut unanswered => cases waiting.symm.trans unanswered
  | dropRequest routed => cases waiting.symm.trans routed
  | fail concluding => cases waiting.symm.trans concluding
  | postpone concluding => cases waiting.symm.trans concluding
  | answer concluding => cases waiting.symm.trans concluding
  | deliver postponed => cases waiting.symm.trans postponed

end Advance

variable [DecidableEq κ]

/-- The steps of the goroutines of a call. -/
inductive CallStep (servers : Nat → Server σ A R) (net : Network E N A R σ κ) (c : κ)
    (call : Call E N A R) : CallEvent → Network E N A R σ κ → Prop
  | advance {e : CallEvent} {stage : Stage N R} (count : Nat) (other : ¬ e.Handles)
      (advances : Advance net call stage) :
      CallStep servers net c call e { net.setStage c call stage with count := count }
  | dispatch {route : Route N} (routed : call.stage = .routed route) :
      CallStep servers net c call .dispatch
        (net.setCall c { call with stage := .waiting route, handler := .started route })
  | begin {route : Route N} (exit : Option (Exit E)) (started : call.handler = .started route)
      (found : exit = none → ∃ function, (servers route.server).dispatch call.req = .ok function) :
      CallStep servers net c call .begin
        { net.setCall c { call with handler := .running route } with
          served := Function.update net.served route.server (net.served route.server + 1)
          exit := exit }
  | execute {route : Route N} {function : Method σ A R} {objects : σ} {reply : R}
      (running : call.handler = .running route)
      (found : (servers route.server).dispatch call.req = .ok function)
      (called : function net.objects call.req.args = some (objects, reply)) :
      CallStep servers net c call .execute
        { net.setCall c { call with handler := .finished reply } with objects := objects }
  | poll {route : Route N} (waiting : call.stage = .waiting route)
      (alive : net.isServerDead call.req.endname route.servername route.server = false) :
      CallStep servers net c call .poll net

section Call

variable {servers : Nat → Server σ A R} {net net' : Network E N A R σ κ} {c : κ}
  {call : Call E N A R}

theorem callStep_of_conclude {route : Route N} {reply : Option R} {choice : Choice}
    (concluding : call.stage = .concluding route reply)
    (next : net.conclude c call route reply choice = some net') :
    CallStep servers net c call (.conclude choice) net' := by
  have failing : (reply = none ∨
      net.isServerDead call.req.endname route.servername route.server = true ∨
      route.reliable = false) → net' = net.setStage c call (.returned none) →
      CallStep servers net c call (.conclude choice) net' := by
    intro failed same
    rw [same]
    exact .advance net.count id (.fail concluding failed)
  cases reply with
  | none =>
    cases next
    exact failing (.inl rfl) rfl
  | some reply =>
    cases dead : net.isServerDead call.req.endname route.servername route.server with
    | true =>
      simp only [Network.conclude, dead, Option.some.injEq] at next
      exact failing (.inr (.inl dead)) next.symm
    | false =>
      simp only [Network.conclude, dead] at next
      cases choice with
      | drop =>
        simp only [Option.ite_none_left_eq_some, Option.some.injEq] at next
        exact failing (.inr (.inr (Bool.eq_false_of_not_eq_true next.1))) next.2.symm
      | postpone =>
        simp only [Option.ite_none_right_eq_some, Option.some.injEq] at next
        rw [← next.2]
        exact .advance net.count id (.postpone concluding dead next.1)
      | deliver =>
        simp only [Option.some.injEq] at next
        rw [← next]
        exact .advance net.count id (.answer concluding dead)

theorem callStep_of_stepCall {e : CallEvent} (next : net.stepCall servers c call e = some net') :
    CallStep servers net c call e net' := by
  have advanced : ∀ {e : CallEvent} {stage : Stage N R}, ¬ e.Handles → Advance net call stage →
      CallStep servers net c call e (net.setStage c call stage) := by
    intro e stage other advances
    exact .advance net.count other advances
  cases e with
  | abandon =>
    simp only [Network.stepCall] at next
    split at next
    · rename_i sending
      split at next
      · rename_i done
        cases next
        exact advanced id (.abandon sending done)
      · cases next
    · cases next
  | accept =>
    simp only [Network.stepCall] at next
    split at next
    · rename_i sending
      split at next
      · rename_i listening
        cases next
        exact .advance _ id (.accept sending listening)
      · cases next
    · cases next
  | process =>
    simp only [Network.stepCall] at next
    split at next
    · rename_i accepted
      split at next
      · rename_i route found
        cases next
        exact advanced id (.route accepted found)
      · rename_i missing
        cases next
        exact advanced id (.unanswered accepted missing)
    · cases next
  | timeOut =>
    simp only [Network.stepCall] at next
    split at next
    · rename_i unanswered
      cases next
      exact advanced id (.timeOut unanswered)
    · cases next
  | dropRequest =>
    simp only [Network.stepCall] at next
    split at next
    · rename_i route routed
      split at next
      · cases next
      · rename_i unreliable
        cases next
        exact advanced id
          (.dropRequest routed (Bool.eq_false_of_not_eq_true unreliable))
    · cases next
  | dispatch =>
    simp only [Network.stepCall] at next
    split at next
    · rename_i route routed
      cases next
      exact .dispatch routed
    · cases next
  | begin =>
    simp only [Network.stepCall] at next
    split at next
    · rename_i route started
      cases next
      refine .begin _ started ?_
      intro live
      split at live
      · rename_i function found
        exact ⟨function, found⟩
      · cases live
    · cases next
  | execute =>
    simp only [Network.stepCall] at next
    split at next
    · rename_i route running
      unfold Network.execute at next
      split at next
      · rename_i function found
        obtain ⟨⟨objects, reply⟩, called, rfl⟩ := Option.map_eq_some_iff.mp next
        exact .execute running found called
      · cases next
    · cases next
  | receive =>
    simp only [Network.stepCall] at next
    split at next
    · rename_i route reply waiting finished
      cases next
      exact advanced id (.receive waiting finished)
    · cases next
  | poll =>
    simp only [Network.stepCall] at next
    split at next
    · rename_i route waiting
      split at next
      · rename_i dead
        cases next
        exact advanced id (.giveUp waiting dead)
      · rename_i alive
        cases next
        exact .poll waiting (Bool.eq_false_of_not_eq_true alive)
    · cases next
  | conclude choice =>
    simp only [Network.stepCall] at next
    split at next
    · rename_i route reply concluding
      exact callStep_of_conclude concluding next
    · cases next
  | deliver =>
    simp only [Network.stepCall] at next
    split at next
    · rename_i reply postponed
      cases next
      exact advanced id (.deliver postponed)
    · cases next

end Call

/-! ## The network -/

variable [DecidableEq E] [DecidableEq N]

/-- The steps of the network. -/
inductive Step (servers : Nat → Server σ A R) (net : Network E N A R σ κ) :
    Event E N A κ → Network E N A R σ κ → Prop
  | call {c : κ} {req : ReqMsg E A} (fresh : net.calls c = none) :
      Step servers net (.call c req) (net.setCall c ⟨req, .sending, .idle⟩)
  | on {c : κ} {call : Call E N A R} {e : CallEvent} {net' : Network E N A R σ κ}
      (found : net.calls c = some call) (stepped : CallStep servers net c call e net') :
      Step servers net (.on c e) net'
  | addServer {servername : N} {rs : Nat} :
      Step servers net (.addServer servername rs) (net.addServer servername rs)
  | deleteServer {servername : N} :
      Step servers net (.deleteServer servername) (net.deleteServer servername)
  /-- `MakeEnd`, `DeleteEnd`, `Connect` and `Enable`. -/
  | manage {e : Event E N A κ} (ends enabled : E → Bool) (connections : E → Option N)
      (exit : Option (Exit E)) (manages : e.Manages) :
      Step servers net e
        { net with ends := ends, enabled := enabled, connections := connections, exit := exit }
  /-- `Reliable`, `LongReordering`, `Cleanup` and the end of the network's goroutine. -/
  | configure {e : Event E N A κ} (reliable longReordering listening done : Bool)
      (exit : Option (Exit E)) (configures : e.Configures)
      (stopped : listening = true ∨ done = true) :
      Step servers net e
        { net with
          reliable := reliable
          longReordering := longReordering
          listening := listening
          done := done
          exit := exit }

variable {servers : Nat → Server σ A R} {net net' : Network E N A R σ κ}

theorem step_of_step {e : Event E N A κ} (working : net.listening = true ∨ net.done = true)
    (next : net.step servers e = some net') : net.exit = none ∧ Step servers net e net' := by
  unfold Network.step at next
  split at next
  · cases next
  · rename_i running
    refine ⟨running, ?_⟩
    cases e with
    | makeEnd endname =>
      cases next
      unfold Network.makeEnd
      split
      · exact .manage net.ends net.enabled net.connections _ trivial
      · exact .manage _ _ _ net.exit trivial
    | deleteEnd endname =>
      cases next
      unfold Network.deleteEnd
      split
      · exact .manage _ _ _ net.exit trivial
      · exact .manage net.ends net.enabled net.connections _ trivial
    | addServer servername rs =>
      cases next
      exact .addServer
    | deleteServer servername =>
      cases next
      exact .deleteServer
    | connect endname servername =>
      cases next
      exact .manage net.ends net.enabled _ net.exit trivial
    | enable endname enabled =>
      cases next
      exact .manage net.ends _ net.connections net.exit trivial
    | reliable yes =>
      cases next
      exact .configure yes net.longReordering net.listening net.done net.exit trivial working
    | longReordering yes =>
      cases next
      exact .configure net.reliable yes net.listening net.done net.exit trivial working
    | cleanup =>
      cases next
      unfold Network.cleanup
      split
      · exact .configure net.reliable net.longReordering net.listening net.done _ trivial working
      · exact .configure net.reliable net.longReordering net.listening true net.exit trivial
          (.inr rfl)
    | stop =>
      simp only [Network.act] at next
      split at next
      · rename_i done
        cases next
        exact .configure net.reliable net.longReordering false net.done net.exit trivial
          (.inr done)
      · cases next
    | call c req =>
      simp only [Network.act] at next
      split at next
      · cases next
      · rename_i fresh
        cases next
        exact .call fresh
    | on c e =>
      simp only [Network.act, Option.bind_eq_some_iff] at next
      obtain ⟨call, found, stepped⟩ := next
      exact .on found (callStep_of_stepCall stepped)

omit [DecidableEq E] in
/-- The goroutine that takes the requests only ends after `Cleanup`. -/
theorem Step.working {e : Event E N A κ} (step : Step servers net e net')
    (working : net.listening = true ∨ net.done = true) :
    net'.listening = true ∨ net'.done = true := by
  cases step with
  | call fresh => exact working
  | on found stepped => cases stepped <;> exact working
  | addServer => exact working
  | deleteServer => exact working
  | manage => exact working
  | configure reliable longReordering listening done exit configures stopped => exact stopped

omit [DecidableEq E] in
/-- A call that has returned stays so. -/
theorem Step.returned_stays {e : Event E N A κ} (step : Step servers net e net') {c : κ}
    {call : Call E N A R} {reply : Option R} (found : net.calls c = some call)
    (returned : call.stage = .returned reply) :
    ∃ call', net'.calls c = some call' ∧ call'.stage = .returned reply := by
  cases step with
  | @call d req fresh =>
    have other : c ≠ d := by
      intro same
      rw [same, fresh] at found
      cases found
    exact ⟨call, (Function.update_of_ne other _ _).trans found, returned⟩
  | @on d call' event _ found' stepped =>
    by_cases same : c = d
    · subst same
      cases found.symm.trans found'
      cases stepped with
      | advance count other advances => exact absurd returned (advances.not_returned reply)
      | dispatch routed => cases returned.symm.trans routed
      | begin exit started method => exact ⟨_, Function.update_self _ _ _, returned⟩
      | execute running method called => exact ⟨_, Function.update_self _ _ _, returned⟩
      | poll waiting alive => exact ⟨call, found, returned⟩
    · refine ⟨call, ?_, returned⟩
      cases stepped with
      | advance count other advances => exact (Function.update_of_ne same _ _).trans found
      | dispatch routed => exact (Function.update_of_ne same _ _).trans found
      | begin exit started method => exact (Function.update_of_ne same _ _).trans found
      | execute running method called => exact (Function.update_of_ne same _ _).trans found
      | poll waiting alive => exact found
  | addServer => exact ⟨call, found, returned⟩
  | deleteServer => exact ⟨call, found, returned⟩
  | manage => exact ⟨call, found, returned⟩
  | configure => exact ⟨call, found, returned⟩

theorem working_reachable {objects : σ} {ok : Network E N A R σ κ → Event E N A κ → Prop}
    (reached : (network servers objects).ReachableWhen ok net) :
    net.listening = true ∨ net.done = true := by
  apply reached.invariant (I := fun net => net.listening = true ∨ net.done = true)
  · exact .inl rfl
  · intro net e net' _ working _ next
    exact (step_of_step working next).2.working working

end DistributedCloud.Labrpc
