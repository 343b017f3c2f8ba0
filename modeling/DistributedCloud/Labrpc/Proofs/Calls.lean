import DistributedCloud.Labrpc.Proofs.Steps

/-!
# What a call can rely on

The handler of a call begins at most once and takes effect at most once, whatever the goroutines do,
and a call that returns `true` brings back what its handler has answered. What a server has counted are
the handlers that have begun.
-/

namespace DistributedCloud.Labrpc

variable {E N A R σ κ : Type}

/-! ## Stages and handlers -/

/-- The route of a call whose handler has been started and not been left alone. -/
def Stage.route? : Stage N R → Option (Route N)
  | .waiting route => some route
  | .concluding route _ => some route
  | _ => none

/-- What the stage of a call tells about its handler. -/
def Call.Sane (call : Call E N A R) : Prop :=
  match call.stage with
  | .sending => call.handler = .idle
  | .accepted => call.handler = .idle
  | .unanswered => call.handler = .idle
  | .routed _ => call.handler = .idle
  | .waiting route =>
    call.handler.route? = some route ∨ ∃ reply, call.handler = .finished reply
  | .concluding route none =>
    call.handler.route? = some route ∨ ∃ reply, call.handler = .finished reply
  | .concluding _ (some reply) => call.handler = .finished reply
  | .postponed reply => call.handler = .finished reply
  | .returned (some reply) => call.handler = .finished reply
  | .returned none => True

section Sane

variable {net : Network E N A R σ κ} {call : Call E N A R} {stage : Stage N R}

theorem Call.Sane.advance (sane : call.Sane) (advances : Advance net call stage) :
    Call.Sane { call with stage := stage } := by
  cases advances with
  | abandon sending done => trivial
  | accept sending listening => simpa [Call.Sane, sending] using sane
  | route accepted found => simpa [Call.Sane, accepted] using sane
  | unanswered accepted missing => simpa [Call.Sane, accepted] using sane
  | timeOut unanswered => trivial
  | dropRequest routed unreliable => trivial
  | receive waiting finished => exact finished
  | giveUp waiting dead => simpa [Call.Sane, waiting] using sane
  | fail concluding failed => trivial
  | postpone concluding alive longreordering => simpa [Call.Sane, concluding] using sane
  | answer concluding alive => simpa [Call.Sane, concluding] using sane
  | deliver postponed => simpa [Call.Sane, postponed] using sane

/-- Before its handler is started a call has no route that it waits on. -/
theorem Advance.route?_eq (advances : Advance net call stage) {route : Route N}
    (routed : stage.route? = some route) : call.stage.route? = some route := by
  cases advances with
  | receive waiting finished => simpa [Stage.route?, waiting] using routed
  | giveUp waiting dead => simpa [Stage.route?, waiting] using routed
  | abandon | accept | route | unanswered | timeOut | dropRequest | fail | postpone | answer
  | deliver => cases routed

theorem Call.Sane.route_eq (sane : call.Sane) {route running : Route N}
    (handler : call.handler = .running running) (routed : call.stage.route? = some route) :
    running = route := by
  unfold Call.Sane at sane
  rw [handler] at sane
  split at sane
  · cases sane
  · cases sane
  · cases sane
  · cases sane
  · rename_i waiting
    rw [waiting] at routed
    cases routed
    simpa [Handler.route?] using sane
  · rename_i concluding
    rw [concluding] at routed
    cases routed
    simpa [Handler.route?] using sane
  · cases sane
  · cases sane
  · cases sane
  · rename_i returned
    rw [returned] at routed
    cases routed

/-- The goroutine of the handler gets on and does not finish. -/
theorem Call.Sane.begin (sane : call.Sane) {route : Route N}
    (started : call.handler = .started route) :
    Call.Sane { call with handler := .running route } := by
  unfold Call.Sane at sane ⊢
  rw [started] at sane
  split at sane <;> simp_all [Handler.route?]

/-- The goroutine of the handler finishes. -/
theorem Call.Sane.execute (sane : call.Sane) {route : Route N}
    (running : call.handler = .running route) (reply : R) :
    Call.Sane { call with handler := .finished reply } := by
  unfold Call.Sane at sane ⊢
  rw [running] at sane
  split at sane <;> simp_all

end Sane

/-! ## Executions -/

/-- A handler has finished if its method took effect, and the call has no other execution. -/
structure Recorded (executed : List (Execution E N A R κ)) (c : κ) (call : Call E N A R) : Prop where
  sane : call.Sane
  finished : ∀ reply, call.handler = .finished reply ↔
    ∃ x ∈ executed, x.call = c ∧ x.reply = reply
  request : ∀ x ∈ executed, x.call = c → x.req = call.req
  route : ∀ x ∈ executed, x.call = c → ∀ route, call.stage.route? = some route → x.route = route

section Recorded

variable {net : Network E N A R σ κ} {executed : List (Execution E N A R κ)} {c : κ}
  {call : Call E N A R}

/-- The method of a handler that has not finished has not taken effect. -/
theorem Recorded.not_executed (recorded : Recorded executed c call)
    (unfinished : ∀ reply, call.handler ≠ .finished reply) : ∀ x ∈ executed, x.call ≠ c := by
  intro x listed same
  exact unfinished x.reply ((recorded.finished x.reply).mpr ⟨x, listed, same, rfl⟩)

theorem Recorded.advance (recorded : Recorded executed c call) {stage : Stage N R}
    (advances : Advance net call stage) : Recorded executed c { call with stage := stage } where
  sane := recorded.sane.advance advances
  finished := recorded.finished
  request := recorded.request
  route := fun x listed same route routed =>
    recorded.route x listed same route (advances.route?_eq routed)

theorem Recorded.dispatch (recorded : Recorded executed c call) {route : Route N}
    (routed : call.stage = .routed route) :
    Recorded executed c { call with stage := .waiting route, handler := .started route } := by
  have idle : call.handler = .idle := by simpa [Call.Sane, routed] using recorded.sane
  have never := recorded.not_executed (fun reply => by simp [idle])
  refine ⟨.inl rfl, ?_, recorded.request, ?_⟩
  · intro reply
    refine iff_of_false (by simp) ?_
    rintro ⟨x, listed, same, -⟩
    exact never x listed same
  · intro x listed same
    exact absurd same (never x listed)

/-- The server takes up the request. -/
theorem Recorded.begin (recorded : Recorded executed c call) {route : Route N}
    (started : call.handler = .started route) :
    Recorded executed c { call with handler := .running route } := by
  have never := recorded.not_executed (fun reply => by simp [started])
  refine ⟨recorded.sane.begin started, ?_, recorded.request, recorded.route⟩
  intro reply
  refine iff_of_false (by simp) ?_
  rintro ⟨x, listed, same, -⟩
  exact never x listed same

/-- The method of the call itself takes effect. -/
theorem Recorded.execute (recorded : Recorded executed c call) {route : Route N} {reply : R}
    (running : call.handler = .running route) (registered : Bool) :
    Recorded (executed ++ [⟨c, call.req, route, reply, registered⟩]) c
      { call with handler := .finished reply } := by
  have never := recorded.not_executed (fun reply => by simp [running])
  have only : ∀ x ∈ executed ++ [⟨c, call.req, route, reply, registered⟩], x.call = c →
      x = ⟨c, call.req, route, reply, registered⟩ := by
    intro x listed same
    rcases List.mem_append.mp listed with before | last
    · exact absurd same (never x before)
    · exact List.mem_singleton.mp last
  refine ⟨recorded.sane.execute running reply, ?_, ?_, ?_⟩
  · intro answer
    constructor
    · intro same
      cases same
      exact ⟨_, List.mem_append_right _ (List.mem_singleton_self _), rfl, rfl⟩
    · rintro ⟨x, listed, same, rfl⟩
      rw [only x listed same]
  · intro x listed same
    rw [only x listed same]
  · intro x listed same found routed
    rw [only x listed same]
    exact recorded.sane.route_eq running routed

/-- The method of another call takes effect. -/
theorem Recorded.other (recorded : Recorded executed c call) {new : Execution E N A R κ} (other : new.call ≠ c) :
    Recorded (executed ++ [new]) c call := by
  have before : ∀ x ∈ executed ++ [new], x.call = c → x ∈ executed := by
    intro x listed same
    rcases List.mem_append.mp listed with before | last
    · exact before
    · rw [List.mem_singleton.mp last] at same
      exact absurd same other
  refine ⟨recorded.sane, ?_, fun x listed same => ?_, ?_⟩
  · intro reply
    rw [recorded.finished]
    constructor
    · rintro ⟨x, listed, fits⟩
      exact ⟨x, List.mem_append_left _ listed, fits⟩
    · rintro ⟨x, listed, same, answer⟩
      exact ⟨x, before x listed same, same, answer⟩
  · exact recorded.request x (before x listed same) same
  · intro x listed same
    exact recorded.route x (before x listed same) same

end Recorded

/-- All executions belong to calls, and each call has at most one. -/
structure Accounted (net : Network E N A R σ κ) (executed : List (Execution E N A R κ)) : Prop where
  working : net.listening = true ∨ net.done = true
  calls : ∀ c call, net.calls c = some call → Recorded executed c call
  made : ∀ x ∈ executed, net.calls x.call ≠ none
  once : (executed.map Execution.call).Nodup

variable {servers : Nat → Server σ A R} {start : σ} {net net' : Network E N A R σ κ}
  {h : History E N A R κ} {executed : List (Execution E N A R κ)} {e : Event E N A κ}

section Record

variable [DecidableEq N] {c : κ} {call : Call E N A R}

theorem record_on {event : CallEvent} (other : ¬ event.Handles) :
    History.record net (.on c event) net' h = h := by
  cases event with
  | begin => exact absurd trivial other
  | execute => exact absurd trivial other
  | _ => rfl

theorem record_call {req : ReqMsg E A} : History.record net (.call c req) net' h = h := rfl

theorem record_manages (manages : e.Manages) : History.record net e net' h = h := by
  cases e with
  | addServer servername rs => cases manages
  | on c event => cases manages
  | _ => rfl

theorem record_configures (configures : e.Configures) : History.record net e net' h = h := by
  cases e with
  | addServer servername rs => cases configures
  | on c event => cases configures
  | _ => rfl

theorem record_begin {route : Route N} (found : net.calls c = some call)
    (started : call.handler = .started route) :
    History.record net (.on c .begin) net' h =
      { h with begun := h.begun ++ [(c, route.server)] } := by
  obtain ⟨req, stage, handler⟩ := call
  cases started
  simp [History.record, found]

theorem record_execute [DecidableEq κ] {route : Route N} {objects : σ} {reply : R}
    (found : net.calls c = some call) (running : call.handler = .running route) :
    History.record net (.on c .execute)
      { net.setCall c { call with handler := .finished reply } with objects := objects } h =
      { h with
        executed := h.executed ++
          [⟨c, call.req, route, reply, decide (net.servers route.servername = some route.server)⟩] } := by
  obtain ⟨req, stage, handler⟩ := call
  cases running
  simp [History.record, found]

end Record

variable [DecidableEq κ]

omit [DecidableEq κ] in
/-- The calls do not change. -/
theorem Accounted.frame (accounted : Accounted net executed)
    (working : net'.listening = true ∨ net'.done = true) (calls : net'.calls = net.calls) :
    Accounted net' executed where
  working := working
  calls := by simpa only [calls] using accounted.calls
  made := by simpa only [calls] using accounted.made
  once := accounted.once

/-- A call changes and no method takes effect. -/
theorem Accounted.setCall (accounted : Accounted net executed) {c : κ} {new : Call E N A R}
    (recorded : Recorded executed c new) (working : net'.listening = true ∨ net'.done = true)
    (calls : net'.calls = Function.update net.calls c (some new)) : Accounted net' executed where
  working := working
  calls := by
    rw [calls]
    exact forall_update recorded (fun d call _ found => accounted.calls d call found)
  made := by
    intro x listed
    rw [calls]
    exact update_ne_none (.inr (accounted.made x listed))
  once := accounted.once

theorem Accounted.execute (accounted : Accounted net executed) {c : κ} {call : Call E N A R}
    {route : Route N} (found : net.calls c = some call) (running : call.handler = .running route)
    (reply : R) (objects : σ) (registered : Bool) :
    Accounted { net.setCall c { call with handler := .finished reply } with objects := objects }
      (executed ++ [⟨c, call.req, route, reply, registered⟩]) where
  working := accounted.working
  calls := by
    refine forall_update ((accounted.calls c call found).execute running registered) ?_
    intro d call' other found'
    exact (accounted.calls d call' found').other (Ne.symm other)
  made := by
    intro x listed
    apply update_ne_none
    rcases List.mem_append.mp listed with before | last
    · exact .inr (accounted.made x before)
    · exact .inl (by rw [List.mem_singleton.mp last])
  once := by
    rw [List.map_append, List.map_singleton, ← List.concat_eq_append, List.nodup_concat]
    refine ⟨?_, accounted.once⟩
    intro listed
    obtain ⟨x, before, same⟩ := List.mem_map.mp listed
    exact (accounted.calls c call found).not_executed (fun reply => by simp [running]) x before same

variable [DecidableEq E] [DecidableEq N]

theorem accounted_step (accounted : Accounted net h.executed)
    (next : net.step servers e = some net') :
    Accounted net' (History.record net e net' h).executed := by
  obtain ⟨-, step⟩ := step_of_step accounted.working next
  have working := step.working accounted.working
  cases step with
  | @call c req fresh =>
    rw [record_call]
    have never : ∀ x ∈ h.executed, x.call ≠ c := by
      intro x listed same
      exact accounted.made x listed (same ▸ fresh)
    refine accounted.setCall ⟨by simp [Call.Sane], ?_, ?_, ?_⟩ working rfl
    · intro reply
      refine iff_of_false (by simp) ?_
      rintro ⟨x, listed, same, -⟩
      exact never x listed same
    · intro x listed same
      exact absurd same (never x listed)
    · intro x listed same
      exact absurd same (never x listed)
  | on found stepped =>
    have recorded := accounted.calls _ _ found
    cases stepped with
    | advance count other advances =>
      rw [record_on other]
      exact accounted.setCall (recorded.advance advances) working rfl
    | dispatch routed =>
      rw [record_on id]
      exact accounted.setCall (recorded.dispatch routed) working rfl
    | begin exit started method =>
      rw [record_begin found started]
      exact accounted.setCall (recorded.begin started) working rfl
    | execute running method called =>
      rw [record_execute found running]
      exact accounted.execute found running _ _ _
    | poll waiting alive =>
      rw [record_on id]
      exact accounted
  | addServer => exact accounted.frame working rfl
  | deleteServer => exact accounted.frame working rfl
  | manage ends enabled connections exit manages =>
    rw [record_manages manages]
    exact accounted.frame working rfl
  | configure reliable longReordering listening done exit configures stopped =>
    rw [record_configures configures]
    exact accounted.frame working rfl

theorem accounted_reachable
    {ok : Network E N A R σ κ × History E N A R κ → Event E N A κ → Prop}
    (reached : (recordedNetwork servers start).ReachableWhen ok (net, h)) :
    Accounted net h.executed := by
  apply reached.invariant (I := fun s => Accounted s.1 s.2.executed)
  · exact ⟨.inl rfl, nofun, nofun, List.nodup_nil⟩
  · rintro ⟨net, h⟩ e ⟨net', h'⟩ _ accounted _ next
    obtain ⟨stepped, recorded⟩ : net.step servers e = some net' ∧ h' = History.record net e net' h :=
      Machine.withHistory_step.mp next
    rw [recorded]
    exact accounted_step accounted stepped

/-! ## Counts -/

/-- The handler of the call has begun at this server: it runs there, or its method took effect. -/
def Call.BegunAt (executed : List (Execution E N A R κ)) (c : κ) (call : Call E N A R)
    (server : Nat) : Prop :=
  (∃ route, call.handler = .running route ∧ route.server = server) ∨
    ∃ x ∈ executed, x.call = c ∧ x.route.server = server

/-- The servers have counted the handlers that have begun, and found the methods of those that
    run. -/
structure Counted (servers : Nat → Server σ A R) (net : Network E N A R σ κ)
    (h : History E N A R κ) : Prop where
  begun : ∀ c call, net.calls c = some call →
    ∀ server, (c, server) ∈ h.begun ↔ call.BegunAt h.executed c server
  made : ∀ b ∈ h.begun, net.calls b.1 ≠ none
  once : (h.begun.map Prod.fst).Nodup
  served : ∀ server, net.served server = h.begun.countP (fun b => decide (b.2 = server))
  method : net.exit = none → ∀ c call, net.calls c = some call →
    ∀ route, call.handler = .running route →
      ∃ function, (servers route.server).dispatch call.req = .ok function

section Counted

omit [DecidableEq E] [DecidableEq N]

omit [DecidableEq κ] in
theorem begunAt_concat_of_ne {c : κ} {call : Call E N A R} {x : Execution E N A R κ}
    (other : x.call ≠ c) (server : Nat) :
    call.BegunAt (executed ++ [x]) c server ↔ call.BegunAt executed c server := by
  simp [Call.BegunAt, or_and_right, exists_or, other]

omit [DecidableEq κ] in
/-- A handler that is idle or has just been started has not begun. -/
theorem Accounted.not_begunAt (accounted : Accounted net executed) {c : κ} {call : Call E N A R}
    (found : net.calls c = some call) (waits : ∀ route, call.handler ≠ .running route)
    (unfinished : ∀ reply, call.handler ≠ .finished reply) (server : Nat) :
    ¬ call.BegunAt executed c server := by
  rintro (⟨route, running, -⟩ | ⟨x, listed, same, -⟩)
  · exact waits route running
  · exact (accounted.calls c call found).not_executed unfinished x listed same

omit [DecidableEq κ] in
theorem Counted.frame (counted : Counted servers net h) (live : net.exit = none)
    (calls : net'.calls = net.calls) (served : net'.served = net.served) {h' : History E N A R κ}
    (begun : h'.begun = h.begun) (executed : h'.executed = h.executed) :
    Counted servers net' h' where
  begun := by simpa only [calls, begun, executed] using counted.begun
  made := by simpa only [calls, begun] using counted.made
  once := by simpa only [begun] using counted.once
  served := by simpa only [served, begun] using counted.served
  method := by
    intro _
    simpa only [calls] using counted.method live

/-- A call changes and its handler neither begins nor finishes. -/
theorem Counted.setCall (counted : Counted servers net h) (live : net.exit = none) {c : κ}
    {call new : Call E N A R} (found : net.calls c = some call)
    (calls : net'.calls = Function.update net.calls c (some new)) (served : net'.served = net.served)
    (req : new.req = call.req)
    (runs : ∀ route, new.handler = .running route ↔ call.handler = .running route) :
    Counted servers net' h where
  begun := by
    rw [calls]
    refine forall_update ?_ (fun d call' _ found' => counted.begun d call' found')
    intro server
    rw [counted.begun c call found]
    simp only [Call.BegunAt, runs]
  made := by
    intro b listed
    rw [calls]
    exact update_ne_none (.inr (counted.made b listed))
  once := counted.once
  served := by simpa only [served] using counted.served
  method := by
    intro _
    rw [calls]
    refine forall_update ?_ (fun d call' _ found' => counted.method live d call' found')
    intro route running
    rw [req]
    exact counted.method live c call found route ((runs route).mp running)

theorem Counted.call (counted : Counted servers net h) (accounted : Accounted net h.executed)
    (live : net.exit = none) {c : κ} (fresh : net.calls c = none) (req : ReqMsg E A) :
    Counted servers (net.setCall c ⟨req, .sending, .idle⟩) h where
  begun := by
    refine forall_update ?_ (fun d call' _ found' => counted.begun d call' found')
    intro server
    refine iff_of_false (fun listed => counted.made _ listed fresh) ?_
    rintro (⟨route, running, -⟩ | ⟨x, listed, same, -⟩)
    · cases running
    · exact accounted.made x listed (same ▸ fresh)
  made := fun b listed => update_ne_none (.inr (counted.made b listed))
  once := counted.once
  served := counted.served
  method := by
    intro _
    refine forall_update ?_ (fun d call' _ found' => counted.method live d call' found')
    intro route running
    cases running

/-- The server counts the request of the call. -/
theorem Counted.begin (counted : Counted servers net h) (accounted : Accounted net h.executed)
    (live : net.exit = none) {c : κ} {call : Call E N A R} {route : Route N}
    (found : net.calls c = some call) (started : call.handler = .started route)
    {exit : Option (Exit E)}
    (method : exit = none → ∃ function, (servers route.server).dispatch call.req = .ok function) :
    Counted servers
      { net.setCall c { call with handler := .running route } with
        served := Function.update net.served route.server (net.served route.server + 1)
        exit := exit }
      { h with begun := h.begun ++ [(c, route.server)] } := by
  have never : ∀ server, ¬ call.BegunAt h.executed c server :=
    accounted.not_begunAt found (by simp [started]) (by simp [started])
  have first : ∀ server, (c, server) ∉ h.begun := by
    intro server listed
    exact never server ((counted.begun c call found server).mp listed)
  refine ⟨?_, ?_, ?_, ?_, ?_⟩
  · refine forall_update ?_ ?_
    · intro server
      have unexecuted : ¬ ∃ x ∈ h.executed, x.call = c ∧ x.route.server = server :=
        fun executed => never server (.inr executed)
      rw [Call.BegunAt, or_iff_left unexecuted]
      simp [first server, eq_comm]
    · intro d call' other found' server
      simp [other, counted.begun d call' found' server]
  · intro b listed
    apply update_ne_none
    rcases List.mem_append.mp listed with before | last
    · exact .inr (counted.made b before)
    · exact .inl (by rw [List.mem_singleton.mp last])
  · rw [List.map_append, List.map_singleton, ← List.concat_eq_append, List.nodup_concat]
    refine ⟨?_, counted.once⟩
    intro listed
    obtain ⟨⟨d, server⟩, before, rfl⟩ := List.mem_map.mp listed
    exact first server before
  · intro server
    by_cases same : route.server = server
    · subst same
      simp [counted.served]
    · simp [counted.served, Function.update_of_ne (Ne.symm same), same]
  · intro running
    refine forall_update ?_ (fun d call' _ found' => counted.method live d call' found')
    intro route' here
    cases here
    exact method running

/-- The method of the call takes effect. -/
theorem Counted.execute (counted : Counted servers net h) (accounted : Accounted net h.executed)
    (live : net.exit = none) {c : κ} {call : Call E N A R} {route : Route N}
    (found : net.calls c = some call) (running : call.handler = .running route) (reply : R)
    (objects : σ) (registered : Bool) :
    Counted servers
      { net.setCall c { call with handler := .finished reply } with objects := objects }
      { h with executed := h.executed ++ [⟨c, call.req, route, reply, registered⟩] } := by
  have never := (accounted.calls c call found).not_executed (fun reply => by simp [running])
  refine ⟨?_, ?_, counted.once, counted.served, ?_⟩
  · refine forall_update ?_ ?_
    · intro server
      have unexecuted : ¬ ∃ x ∈ h.executed, x.call = c ∧ x.route.server = server :=
        fun ⟨x, listed, same, _⟩ => never x listed same
      rw [counted.begun c call found server, Call.BegunAt, or_iff_left unexecuted]
      simp [Call.BegunAt, running, or_and_right, exists_or, unexecuted]
    · intro d call' other found' server
      rw [begunAt_concat_of_ne (Ne.symm other)]
      exact counted.begun d call' found' server
  · exact fun b listed => update_ne_none (.inr (counted.made b listed))
  · intro _
    refine forall_update ?_ (fun d call' _ found' => counted.method live d call' found')
    intro route' here
    cases here

end Counted

theorem counted_step (counted : Counted servers net h) (accounted : Accounted net h.executed)
    (next : net.step servers e = some net') :
    Counted servers net' (History.record net e net' h) := by
  obtain ⟨live, step⟩ := step_of_step accounted.working next
  cases step with
  | call fresh =>
    rw [record_call]
    exact counted.call accounted live fresh _
  | on found stepped =>
    cases stepped with
    | advance count other advances =>
      rw [record_on other]
      exact counted.setCall live found rfl rfl rfl (fun _ => Iff.rfl)
    | dispatch routed =>
      have idle := (accounted.calls _ _ found).sane
      simp only [Call.Sane, routed] at idle
      rw [record_on id]
      exact counted.setCall live found rfl rfl rfl (by simp [idle])
    | begin exit started method =>
      rw [record_begin found started]
      exact counted.begin accounted live found started method
    | execute running method called =>
      rw [record_execute found running]
      exact counted.execute accounted live found running _ _ _
    | poll waiting alive =>
      rw [record_on id]
      exact counted
  | addServer => refine counted.frame live ?_ ?_ ?_ ?_ <;> rfl
  | deleteServer => refine counted.frame live ?_ ?_ ?_ ?_ <;> rfl
  | manage ends enabled connections exit manages =>
    rw [record_manages manages]
    refine counted.frame live ?_ ?_ ?_ ?_ <;> rfl
  | configure reliable longReordering listening done exit configures stopped =>
    rw [record_configures configures]
    refine counted.frame live ?_ ?_ ?_ ?_ <;> rfl

theorem counted_reachable (reached : (recordedNetwork servers start).Reachable (net, h)) :
    Counted servers net h := by
  apply reached.invariant (I := fun s => Counted servers s.1 s.2)
  · exact ⟨nofun, nofun, List.nodup_nil, fun _ => rfl, fun _ => nofun⟩
  · rintro ⟨net, h⟩ e ⟨net', h'⟩ before counted _ next
    obtain ⟨stepped, recorded⟩ : net.step servers e = some net' ∧ h' = History.record net e net' h :=
      Machine.withHistory_step.mp next
    rw [recorded]
    exact counted_step counted (accounted_reachable before) stepped

/-- Under every schedule each call has its handler begun at most once and its method takes effect at
    most once. A call that has returned `true` has the answer of its own handler. What a server has
    counted are the handlers that have begun there, and these are the ones that took effect and the
    ones that still run. -/
theorem executed_once {s : Network E N A R σ κ × History E N A R κ}
    (reached : (recordedNetwork servers start).Reachable s) :
    (s.2.begun.map Prod.fst).Nodup ∧ (s.2.executed.map Execution.call).Nodup ∧
    (∀ c call reply, s.1.calls c = some call → call.stage = .returned (some reply) →
      ∃ x ∈ s.2.executed, x.call = c ∧ x.req = call.req ∧ x.reply = reply) ∧
    (∀ server, s.1.served server = s.2.begun.countP (fun b => decide (b.2 = server))) ∧
    (∀ c call server, s.1.calls c = some call →
      ((c, server) ∈ s.2.begun ↔
        (∃ route, call.handler = .running route ∧ route.server = server) ∨
        ∃ x ∈ s.2.executed, x.call = c ∧ x.route.server = server)) := by
  have accounted : Accounted s.1 s.2.executed := accounted_reachable reached
  have counted : Counted servers s.1 s.2 := counted_reachable reached
  refine ⟨counted.once, accounted.once, ?_, counted.served, ?_⟩
  · intro c call reply found returned
    have recorded := accounted.calls c call found
    have finished : call.handler = .finished reply := by
      simpa [Call.Sane, returned] using recorded.sane
    obtain ⟨x, listed, same, answer⟩ := (recorded.finished reply).mp finished
    exact ⟨x, listed, same, recorded.request x listed same, answer⟩
  · intro c call server found
    exact counted.begun c call found server

/-- A service that counts. -/
def counter : Service Nat Nat Nat where
  name := "Counter"
  methods := fun method => if method = "Add" then some (fun n k => some (n + k, n + k)) else none

/-- Each server has one counter, and they all count the same. -/
def counters : Nat → Server Nat Nat Nat := fun _ => makeServer.addService counter

/-- One end point is connected to server 0. -/
def connected : List (Event Nat Nat Nat Nat) :=
  [.makeEnd 7, .addServer 0 0, .connect 7 0, .enable 7 true]

/-- The first call is delayed in its handler and overtaken by two others, of which one is not
    answered yet. -/
def overtaking : List (Event Nat Nat Nat Nat) :=
  connected ++
    [.call 0 ⟨7, "Counter.Add", 5⟩, .on 0 .accept, .on 0 .process, .on 0 .dispatch, .on 0 .begin,
      .call 1 ⟨7, "Counter.Add", 2⟩, .on 1 .accept, .on 1 .process, .on 1 .dispatch, .on 1 .begin,
      .call 2 ⟨7, "Counter.Add", 1⟩, .on 2 .accept, .on 2 .process, .on 2 .dispatch, .on 2 .begin,
      .on 1 .execute, .on 1 .receive, .on 1 (.conclude .deliver), .on 0 .poll, .on 0 .execute,
      .on 0 .receive, .on 0 (.conclude .deliver)]

/-- The network after it. -/
def overtaken : Network Nat Nat Nat Nat Nat Nat × History Nat Nat Nat Nat Nat :=
  (recordedNetwork counters 0).after overtaking

theorem executed_once_overtaken :
    (overtaken.1.calls 0).map Call.stage = some (.returned (some 7)) ∧
      overtaken.2.executed.length = 2 ∧
      overtaken.1.served 0 = overtaken.2.begun.countP (fun b => decide (b.2 = 0)) ∧
      overtaken.1.served 0 = 3 := by
  have reached : (recordedNetwork counters 0).Reachable overtaken :=
    Machine.reachable_after overtaking
  obtain ⟨-, -, -, counted, -⟩ := executed_once reached
  exact ⟨by decide +kernel, by decide +kernel, counted 0, by decide +kernel⟩

end DistributedCloud.Labrpc
