import DistributedCloud.Labrpc.Proofs.Calls

/-!
# Calls return

Apart from the turns of the loop that waits for the handler, the goroutines of a call take at most
eight steps. As long as the call has not returned one of them can take a step, whatever end points,
servers and other calls do, unless the method that the server has called for it does not come back.
-/

namespace DistributedCloud.Labrpc

variable {E N A R σ κ : Type}

/-- The most steps that a call at this stage can still make. -/
def Stage.ahead : Stage N R → Nat
  | .sending => 6
  | .accepted => 5
  | .unanswered => 1
  | .routed _ => 4
  | .waiting _ => 3
  | .concluding _ _ => 2
  | .postponed _ => 1
  | .returned _ => 0

/-- The steps that the goroutine of the handler can still make. -/
def Handler.ahead : Handler N R → Nat
  | .idle => 2
  | .started _ => 2
  | .running _ => 1
  | .finished _ => 0

/-- The most steps that are left for a call; none once the process has ended. -/
def Network.ahead (net : Network E N A R σ κ) (c : κ) : Nat :=
  match net.exit, net.calls c with
  | some _, _ => 0
  | none, none => 8
  | none, some call => call.stage.ahead + call.handler.ahead

/-- A step of the goroutines of the call, other than a turn of the loop that finds nothing new. -/
def Event.StepOf (c : κ) : Event E N A κ → Prop
  | .on d event => d = c ∧ event ≠ .poll
  | _ => False

instance [DecidableEq κ] (c : κ) : DecidablePred (Event.StepOf (E := E) (N := N) (A := A) c)
  | .on d event => inferInstanceAs (Decidable (d = c ∧ event ≠ .poll))
  | .makeEnd _ => isFalse id
  | .deleteEnd _ => isFalse id
  | .addServer _ _ => isFalse id
  | .deleteServer _ => isFalse id
  | .connect _ _ => isFalse id
  | .enable _ _ => isFalse id
  | .reliable _ => isFalse id
  | .longReordering _ => isFalse id
  | .cleanup => isFalse id
  | .stop => isFalse id
  | .call _ _ => isFalse id

variable {servers : Nat → Server σ A R} {net net' : Network E N A R σ κ} {e : Event E N A κ}

theorem Advance.ahead_lt {call : Call E N A R} {stage : Stage N R}
    (advances : Advance net call stage) : stage.ahead < call.stage.ahead := by
  cases advances with
  | abandon sending done => simp [Stage.ahead, sending]
  | accept sending listening => simp [Stage.ahead, sending]
  | route accepted found => simp [Stage.ahead, accepted]
  | unanswered accepted missing => simp [Stage.ahead, accepted]
  | timeOut unanswered => simp [Stage.ahead, unanswered]
  | dropRequest routed unreliable => simp [Stage.ahead, routed]
  | receive waiting finished => simp [Stage.ahead, waiting]
  | giveUp waiting dead => simp [Stage.ahead, waiting]
  | fail concluding failed => simp [Stage.ahead, concluding]
  | postpone concluding alive longreordering => simp [Stage.ahead, concluding]
  | answer concluding alive => simp [Stage.ahead, concluding]
  | deliver postponed => simp [Stage.ahead, postponed]

section Ahead

variable {c : κ} {call : Call E N A R}

theorem ahead_of_found (live : net.exit = none) (found : net.calls c = some call) :
    net.ahead c = call.stage.ahead + call.handler.ahead := by
  simp [Network.ahead, live, found]

theorem ahead_of_exit (ended : net.exit ≠ none) : net.ahead c = 0 := by
  obtain ⟨exit, ended⟩ := Option.ne_none_iff_exists'.mp ended
  simp [Network.ahead, ended]

theorem ahead_le_of_calls (live : net.exit = none) (same : net'.calls c = net.calls c) :
    net'.ahead c ≤ net.ahead c := by
  cases ended : net'.exit with
  | some exit => simp [Network.ahead, ended]
  | none => simp [Network.ahead, ended, live, same]

end Ahead

variable [DecidableEq κ]

theorem ahead_of_update {c : κ} {call : Call E N A R} {calls : κ → Option (Call E N A R)}
    (live : net.exit = none) (set : net.calls = Function.update calls c (some call)) :
    net.ahead c = call.stage.ahead + call.handler.ahead :=
  ahead_of_found live (by rw [set, Function.update_self])

/-- A step of the call itself. -/
theorem CallStep.ahead_lt {c : κ} {call : Call E N A R} {event : CallEvent} (live : net.exit = none)
    (sane : call.Sane) (found : net.calls c = some call)
    (stepped : CallStep servers net c call event net') (work : event ≠ .poll) :
    net'.ahead c < net.ahead c := by
  rw [ahead_of_found live found]
  cases stepped with
  | advance count other advances =>
    refine lt_of_eq_of_lt (ahead_of_update live rfl) ?_
    exact Nat.add_lt_add_right advances.ahead_lt _
  | dispatch routed =>
    have idle : call.handler = .idle := by simpa [Call.Sane, routed] using sane
    refine lt_of_eq_of_lt (ahead_of_update live rfl) ?_
    simp [Stage.ahead, Handler.ahead, routed, idle]
  | begin exit started method =>
    cases exit with
    | none =>
      refine lt_of_eq_of_lt (ahead_of_update rfl rfl) ?_
      simp [Handler.ahead, started]
    | some exit =>
      rw [ahead_of_exit (by simp), started]
      exact Nat.succ_pos _
  | execute running method called =>
    refine lt_of_eq_of_lt (ahead_of_update live rfl) ?_
    simp [Handler.ahead, running]
  | poll waiting alive => exact absurd rfl work

/-- A turn of the loop, or a step of another call. -/
theorem CallStep.ahead_le {c d : κ} {call : Call E N A R} {event : CallEvent}
    (live : net.exit = none) (found : net.calls d = some call)
    (stepped : CallStep servers net d call event net') (idle : d ≠ c ∨ event = .poll) :
    net'.ahead c ≤ net.ahead c := by
  by_cases other : d = c
  · subst other
    obtain rfl := idle.resolve_left (fun differs => differs rfl)
    cases stepped with
    | advance count other advances =>
      rw [ahead_of_found live found]
      refine le_of_eq_of_le (ahead_of_update live rfl) ?_
      exact Nat.add_le_add_right advances.ahead_lt.le _
    | poll waiting alive => exact le_rfl
  · have same : net'.calls c = net.calls c := by
      cases stepped with
      | advance count executes advances => exact Function.update_of_ne (Ne.symm other) _ _
      | dispatch routed => exact Function.update_of_ne (Ne.symm other) _ _
      | begin exit started method => exact Function.update_of_ne (Ne.symm other) _ _
      | execute running method called => exact Function.update_of_ne (Ne.symm other) _ _
      | poll waiting alive => rfl
    exact ahead_le_of_calls live same

variable [DecidableEq E] [DecidableEq N]

theorem ahead_step (working : net.listening = true ∨ net.done = true)
    (sane : ∀ c call, net.calls c = some call → call.Sane) (next : net.step servers e = some net')
    (c : κ) : (if e.StepOf c then 1 else 0) + net'.ahead c ≤ net.ahead c := by
  obtain ⟨live, step⟩ := step_of_step working next
  have unchanged : ∀ {e : Event E N A κ}, ¬ e.StepOf c → net'.calls c = net.calls c →
      (if e.StepOf c then 1 else 0) + net'.ahead c ≤ net.ahead c := by
    intro e idle same
    rw [if_neg idle, Nat.zero_add]
    exact ahead_le_of_calls live same
  cases step with
  | @call d req fresh =>
    rw [if_neg (show ¬ (Event.call d req).StepOf c from id), Nat.zero_add]
    by_cases same : c = d
    · subst same
      refine le_of_eq_of_le (ahead_of_update live rfl) ?_
      simp [Network.ahead, live, fresh, Stage.ahead, Handler.ahead]
    · exact ahead_le_of_calls live (Function.update_of_ne same _ _)
  | @on d call event _ found stepped =>
    by_cases works : d = c ∧ event ≠ .poll
    · obtain ⟨rfl, work⟩ := works
      rw [if_pos (show (Event.on d event).StepOf d from ⟨rfl, work⟩), Nat.add_comm]
      exact stepped.ahead_lt live (sane _ _ found) found work
    · rw [if_neg (show ¬ (Event.on d event).StepOf c from works), Nat.zero_add]
      refine stepped.ahead_le live found ?_
      by_cases other : d = c
      · exact .inr (by simpa [other] using works)
      · exact .inl other
  | addServer => exact unchanged id rfl
  | deleteServer => exact unchanged id rfl
  | manage ends enabled connections exit manages =>
    refine unchanged ?_ rfl
    cases e with
    | on d event => cases manages
    | _ => exact id
  | configure reliable longReordering listening done exit configures stopped =>
    refine unchanged ?_ rfl
    cases e with
    | on d event => cases configures
    | _ => exact id

/-- What the histories of a network tell about its calls. -/
theorem sane_reachable {start : σ} (reached : (network servers start).Reachable net) :
    ∀ c call, net.calls c = some call → call.Sane := by
  obtain ⟨h, recorded⟩ := Machine.ReachableWhen.withHistory ⟨[], [], []⟩ History.record reached
  intro c call found
  exact ((accounted_reachable recorded).calls c call found).sane

theorem ahead_run {start : σ} (events : List (Event E N A κ)) :
    ∀ {net net' : Network E N A R σ κ}, (network servers start).Reachable net →
      (network servers start).run net events = some net' → ∀ c : κ,
      events.countP (fun e => decide (e.StepOf c)) + net'.ahead c ≤ net.ahead c := by
  induction events with
  | nil =>
    intro net net' reached ran c
    cases ran
    simp
  | cons e events ih =>
    intro net net' reached ran c
    simp only [Machine.run, Option.bind_eq_some_iff] at ran
    obtain ⟨middle, next, rest⟩ := ran
    have first := ahead_step (working_reachable reached) (sane_reachable reached) next c
    have later := ih (reached.step trivial next) rest c
    rw [List.countP_cons]
    simp only [decide_eq_true_eq]
    omega

theorem method_reachable {start : σ} (reached : (network servers start).Reachable net)
    (live : net.exit = none) {c : κ} {call : Call E N A R} (found : net.calls c = some call)
    {route : Route N} (running : call.handler = .running route) :
    ∃ function, (servers route.server).dispatch call.req = .ok function := by
  obtain ⟨h, recorded⟩ := Machine.ReachableWhen.withHistory ⟨[], [], []⟩ History.record reached
  exact (counted_reachable recorded).method live c call found route running

/-- If the server has called a method for the call, then it comes back from the objects that there
    are. -/
def Network.Returns (servers : Nat → Server σ A R) (net : Network E N A R σ κ)
    (call : Call E N A R) : Prop :=
  ∀ route function, call.handler = .running route →
    (servers route.server).dispatch call.req = .ok function →
    (function net.objects call.req.args).isSome

/-- A call that has not returned is not stuck. -/
theorem exists_step {start : σ} {c : κ} {call : Call E N A R}
    (reached : (network servers start).Reachable net) (live : net.exit = none)
    (found : net.calls c = some call) (pending : ∀ reply, call.stage ≠ .returned reply)
    (returns : net.Returns servers call) :
    ∃ event, event ≠ .poll ∧ (net.step servers (.on c event)).isSome := by
  have acts : ∀ event, net.step servers (.on c event) = net.stepCall servers c call event := by
    intro event
    simp [Network.step, Network.act, live, found]
  have sane := sane_reachable reached c call found
  simp only [acts]
  cases stage : call.stage with
  | sending =>
    rcases working_reachable reached with listening | done
    · exact ⟨.accept, CallEvent.noConfusion, by simp [Network.stepCall, stage, listening]⟩
    · exact ⟨.abandon, CallEvent.noConfusion, by simp [Network.stepCall, stage, done]⟩
  | accepted =>
    refine ⟨.process, CallEvent.noConfusion, ?_⟩
    simp only [Network.stepCall, stage]
    split
    · rfl
    · rfl
  | unanswered => exact ⟨.timeOut, CallEvent.noConfusion, by simp [Network.stepCall, stage]⟩
  | routed route => exact ⟨.dispatch, CallEvent.noConfusion, by simp [Network.stepCall, stage]⟩
  | waiting route =>
    cases handler : call.handler with
    | idle => simp [Call.Sane, stage, handler, Handler.route?] at sane
    | started route' => exact ⟨.begin, CallEvent.noConfusion, by simp [Network.stepCall, handler]⟩
    | running route' =>
      obtain ⟨function, method⟩ := method_reachable reached live found handler
      refine ⟨.execute, CallEvent.noConfusion, ?_⟩
      simp [Network.stepCall, Network.execute, handler, method,
        returns route' function handler method]
    | finished reply =>
      exact ⟨.receive, CallEvent.noConfusion, by simp [Network.stepCall, stage, handler]⟩
  | concluding route reply =>
    refine ⟨.conclude .deliver, CallEvent.noConfusion, ?_⟩
    simp only [Network.stepCall, stage, Network.conclude]
    split
    · rfl
    · rfl
  | postponed reply => exact ⟨.deliver, CallEvent.noConfusion, by simp [Network.stepCall, stage]⟩
  | returned reply => exact absurd stage (pending reply)

/-- In every run the goroutines of a call take at most eight steps besides the turns of the loop
    that waits for the handler. As long as the call has not returned and the process has not ended
    they can take another one, if the method called for it returns. -/
theorem call_returns (servers : Nat → Server σ A R) (start : σ) (c : κ)
    (events : List (Event E N A κ)) (net : Network E N A R σ κ)
    (ran : (network servers start).run (makeNetwork start) events = some net) :
    events.countP (fun e => decide (e.StepOf c)) ≤ 8 ∧
    (net.exit = none → ∀ call, net.calls c = some call → (∀ reply, call.stage ≠ .returned reply) →
      net.Returns servers call →
      ∃ event, event ≠ .poll ∧ (net.step servers (.on c event)).isSome) := by
  have reached : (network servers start).Reachable net := Machine.path_of_run ran
  have bound : events.countP (fun e => decide (e.StepOf c)) + net.ahead c ≤ 8 :=
    ahead_run events Machine.ReachableWhen.init ran c
  refine ⟨by omega, ?_⟩
  intro live call found pending returns
  exact exists_step reached live found pending returns

/-- The end point is disabled while the handler of the call runs, and the network is shut down. -/
def disabling : List (Event Nat Nat Nat Nat) :=
  connected ++
    [.call 0 ⟨7, "Counter.Add", 5⟩, .on 0 .accept, .on 0 .process, .on 0 .dispatch, .on 0 .begin,
      .enable 7 false, .cleanup, .stop]

/-- The methods of the counters return. -/
theorem counters_returns (net : Network Nat Nat Nat Nat Nat Nat) (call : Call Nat Nat Nat Nat) :
    net.Returns counters call := by
  intro route function _ method
  simp only [Server.dispatch, counters, Server.addService, makeServer, Function.update_apply] at method
  split at method
  · cases method
  · split at method
    · rename_i service found
      obtain ⟨-, rfl⟩ : _ ∧ counter = service := by simpa using found
      simp only [Service.dispatch, counter] at method
      split at method
      · rename_i function' add
        cases method
        split at add
        · cases add
          rfl
        · cases add
      · cases method
    · cases method

theorem call_returns_disabling :
    ∃ net, (network counters 0).run (makeNetwork 0) disabling = some net ∧
      ∃ event, event ≠ CallEvent.poll ∧ (net.step counters (.on 0 event)).isSome := by
  have ran : ((network counters 0).run (makeNetwork 0) disabling).isSome := by decide +kernel
  obtain ⟨net, ran⟩ := Option.isSome_iff_exists.mp ran
  have state : ((network counters 0).run (makeNetwork 0) disabling).map
      (fun net => (net.exit, net.calls 0)) =
        some (none, some ⟨⟨7, "Counter.Add", 5⟩, .waiting ⟨0, 0, true, false⟩,
          .running ⟨0, 0, true, false⟩⟩) := by decide +kernel
  simp only [ran, Option.map_some, Option.some.injEq, Prod.mk.injEq] at state
  obtain ⟨live, found⟩ := state
  exact ⟨net, ran, (call_returns counters 0 0 disabling net ran).2 live _ found
    (fun reply => by simp) (counters_returns net _)⟩

end DistributedCloud.Labrpc
