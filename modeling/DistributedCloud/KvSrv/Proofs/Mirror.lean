import DistributedCloud.KvSrv.Proofs.Deployment

/-!
# A deployment behaves like the service

The service decides whether a reply is lost when the server makes it, the network when `processReq`
concludes. A run of the deployment is therefore followed in the knowledge of how its calls are going
to return. The handlers finish before their calls return, so that the service it mirrors runs
over a prompt network and its operations are linearizable.
-/

namespace DistributedCloud.KvSrv

variable {ops : Nat → Operation} {keeps : Nat × Nat → Bool} {d d' : Deployment} {w : World}

/-! ## How calls are going to return -/

/-- The calls that have returned did so as foretold. -/
def Foretold (keeps : Nat × Nat → Bool) (net : KvNetwork) : Prop :=
  ∀ c call reply, net.calls c = some call → call.stage = .returned reply → keeps c = reply.isSome

/-- What the calls that have returned tell about themselves. -/
def foresight (net : KvNetwork) (c : Nat × Nat) : Bool :=
  match net.calls c with
  | some ⟨_, .returned none, _⟩ => false
  | _ => true

theorem foretold_foresight (net : KvNetwork) : Foretold (foresight net) net := by
  rintro c ⟨req, stage, handler⟩ reply found returned
  cases returned
  cases reply with
  | none => simp [foresight, found]
  | some reply => simp [foresight, found]

theorem makeEnd_calls (net : KvNetwork) (client : Nat) :
    (net.makeEnd client).calls = net.calls := by
  unfold Labrpc.Network.makeEnd
  split
  · rfl
  · rfl

theorem makeEnd_objects (net : KvNetwork) (client : Nat) :
    (net.makeEnd client).objects = net.objects := by
  unfold Labrpc.Network.makeEnd
  split
  · rfl
  · rfl

theorem deleteEnd_calls (net : KvNetwork) (client : Nat) :
    (net.deleteEnd client).calls = net.calls := by
  unfold Labrpc.Network.deleteEnd
  split
  · rfl
  · rfl

theorem deleteEnd_objects (net : KvNetwork) (client : Nat) :
    (net.deleteEnd client).objects = net.objects := by
  unfold Labrpc.Network.deleteEnd
  split
  · rfl
  · rfl

/-- A call that has returned stays so. -/
theorem returned_stays {e : DeploymentEvent} (wired : Wired ops d) (next : d.step ops e = some d')
    {c : Nat × Nat} {call : Labrpc.Call Nat Nat Args String} {reply : Option String}
    (found : d.net.calls c = some call) (returned : call.stage = .returned reply) :
    ∃ call', d'.net.calls c = some call' ∧ call'.stage = .returned reply := by
  obtain ⟨live, step⟩ := deploymentStep_of_step next
  have kept : ∀ {c' : Nat × Nat} {new : Labrpc.Call Nat Nat Args String}, d.net.calls c' = none →
      Function.update d.net.calls c' (some new) c = some call := by
    intro c' new unused
    refine (Function.update_of_ne ?_ _ _).trans found
    intro same
    rw [same, unused] at found
    cases found
  cases step with
  | makeClient new => exact ⟨call, (congrFun (makeEnd_calls _ _) c).trans found, returned⟩
  | deleteClient present idle => exact ⟨call, (congrFun (deleteEnd_calls _ _) c).trans found, returned⟩
  | network inside stepped =>
    obtain ⟨-, step⟩ := Labrpc.step_of_step (Labrpc.working_reachable wired.reached) stepped
    exact step.returned_stays found returned
  | invoke fresh present => exact ⟨call, found, returned⟩
  | startUpdate invoked update free unused => exact ⟨call, kept unused, returned⟩
  | startGet invoked read unused => exact ⟨call, kept unused, returned⟩
  | retry calling failed unused => exact ⟨call, kept unused, returned⟩
  | receiveUpdate calling update succeeded unused => exact ⟨call, kept unused, returned⟩
  | receiveGet calling read succeeded => exact ⟨call, found, returned⟩
  | finish deleting done => exact ⟨call, found, returned⟩

theorem foretold_before {e : DeploymentEvent} (wired : Wired ops d) (next : d.step ops e = some d')
    (foretold : Foretold keeps d'.net) : Foretold keeps d.net := by
  intro c call reply found returned
  obtain ⟨call', found', returned'⟩ := returned_stays wired next found returned
  exact foretold c call' reply found' returned'

/-! ## The service -/

/-- What the handler of a call has answered. -/
def answered (net : KvNetwork) (c : Nat × Nat) : Option String :=
  match net.calls c with
  | some ⟨_, _, .finished reply⟩ => some reply
  | _ => none

theorem answered_eq_some {net : KvNetwork} {c : Nat × Nat} {reply : String} :
    answered net c = some reply ↔
      ∃ call, net.calls c = some call ∧ call.handler = .finished reply := by
  unfold answered
  constructor
  · intro finished
    split at finished
    · rename_i found
      cases finished
      exact ⟨_, found, rfl⟩
    · cases finished
  · rintro ⟨⟨req, stage, handler⟩, found, finished⟩
    cases finished
    rw [found]

/-- The service has the clerks, the operations and the server of the deployment. A reply is on its
    way from the moment in which the handler makes it, if it is going to be received. -/
structure Mirrors (ops : Nat → Operation) (keeps : Nat × Nat → Bool) (d : Deployment) (w : World) :
    Prop where
  server : w.server = d.net.objects
  clerks : w.clerks = d.clerks
  stages : ∀ i, w.stages i = (d.progress i).stage
  sent : ∀ i attempt call, d.net.calls (i, attempt) = some call →
    ∃ body, call.req = body.req (ops i).client ∧ ⟨i, attempt, body⟩ ∈ w.sent
  replies : ∀ i attempt value, ⟨i, attempt, value⟩ ∈ w.replies ↔
    keeps (i, attempt) = true ∧ answered d.net (i, attempt) = some value

namespace Mirrors

/-- Nothing that the service knows of. -/
theorem frame (mirrors : Mirrors ops keeps d w) (objects : d'.net.objects = d.net.objects)
    (clerks : d'.clerks = d.clerks) (progress : d'.progress = d.progress)
    (requests : ∀ c call', d'.net.calls c = some call' →
      ∃ call, d.net.calls c = some call ∧ call.req = call'.req)
    (answers : ∀ c, answered d'.net c = answered d.net c) : Mirrors ops keeps d' w where
  server := mirrors.server.trans objects.symm
  clerks := mirrors.clerks.trans clerks.symm
  stages := by simpa only [progress] using mirrors.stages
  sent := by
    intro i attempt call' found'
    obtain ⟨call, found, req⟩ := requests _ call' found'
    rw [← req]
    exact mirrors.sent i attempt call found
  replies := by simpa only [answers] using mirrors.replies

/-- One call changes and has answered neither before nor afterwards, or the same. -/
theorem setCall (mirrors : Mirrors ops keeps d w) {net : KvNetwork} {c : Nat × Nat}
    {call new : Labrpc.Call Nat Nat Args String} (objects : net.objects = d.net.objects)
    (calls : net.calls = Function.update d.net.calls c (some new))
    (found : d.net.calls c = some call) (req : new.req = call.req)
    (answers : ∀ reply, new.handler = .finished reply ↔ call.handler = .finished reply) :
    Mirrors ops keeps { d with net := net } w := by
  refine mirrors.frame objects rfl rfl ?_ ?_
  · intro c' call' found'
    have found' : net.calls c' = some call' := found'
    rw [calls] at found'
    by_cases same : c' = c
    · rw [same, Function.update_self] at found'
      cases found'
      exact ⟨call, same ▸ found, req.symm⟩
    · rw [Function.update_of_ne same] at found'
      exact ⟨call', found', rfl⟩
  · intro c'
    apply Option.ext
    intro reply
    rw [answered_eq_some, answered_eq_some]
    by_cases same : c' = c
    · subst same
      simp [calls, found, answers]
    · simp [calls, same]

/-- An operation gets on without a call. -/
theorem setProgress (mirrors : Mirrors ops keeps d w) (i : Nat) (progress : Progress)
    (active : List Nat) :
    Mirrors ops keeps { d.setProgress i progress with active := active }
      (w.setStage i progress.stage) where
  server := mirrors.server
  clerks := mirrors.clerks
  stages := by
    intro j
    by_cases same : j = i
    · simp [World.setStage, Deployment.setProgress, same]
    · simp [World.setStage, Deployment.setProgress, same, mirrors.stages j]
  sent := mirrors.sent
  replies := mirrors.replies

theorem setClerk (mirrors : Mirrors ops keeps d w) (client : Nat) (clerk : Clerk) :
    Mirrors ops keeps { d with clerks := Function.update d.clerks client clerk }
      (w.setClerk client clerk) where
  server := mirrors.server
  clerks := by rw [setClerk_clerks, mirrors.clerks]
  stages := mirrors.stages
  sent := mirrors.sent
  replies := mirrors.replies

/-- An operation makes a call. -/
theorem called (mirrors : Mirrors ops keeps d w) {i attempt : Nat} (body : Body)
    (progress : Progress) (unused : d.net.calls (i, attempt) = none) :
    Mirrors ops keeps (d.called ops i attempt body progress)
      { w.setStage i progress.stage with sent := w.sent ++ [⟨i, attempt, body⟩] } := by
  have before := mirrors.setProgress i progress d.active
  refine ⟨before.server, before.clerks, before.stages, ?_, ?_⟩
  · intro j attempt' call found
    by_cases same : (j, attempt') = (i, attempt)
    · cases same
      cases (Function.update_self _ _ _).symm.trans found
      exact ⟨body, rfl, List.mem_append_right _ (List.mem_singleton_self _)⟩
    · obtain ⟨body', req, listed⟩ :=
        mirrors.sent j attempt' call ((Function.update_of_ne same _ _).symm.trans found)
      exact ⟨body', req, List.mem_append_left _ listed⟩
  · intro j attempt' value
    refine (mirrors.replies j attempt' value).trans (and_congr_right fun _ => ?_)
    rw [answered_eq_some, answered_eq_some]
    by_cases same : (j, attempt') = (i, attempt)
    · cases same
      simp [Deployment.called, unused]
    · simp [Deployment.called, Function.update_of_ne same]

/-- The method of a call takes effect: the server handles the request. -/
theorem execute (mirrors : Mirrors ops keeps d w) {i attempt : Nat}
    {call : Labrpc.Call Nat Nat Args String} {body : Body} {net : KvNetwork} {reply : String}
    (found : d.net.calls (i, attempt) = some call)
    (unanswered : ∀ reply, call.handler ≠ .finished reply)
    (calls : net.calls =
      Function.update d.net.calls (i, attempt) (some { call with handler := .finished reply }))
    (objects : (net.objects, reply) = w.server.dispatch body) :
    Mirrors ops keeps { d with net := net }
      { w with
        server := (w.server.dispatch body).1
        replies :=
          if keeps (i, attempt) then ⟨i, attempt, (w.server.dispatch body).2⟩ :: w.replies
          else w.replies } := by
  rw [← objects]
  refine ⟨rfl, mirrors.clerks, mirrors.stages, ?_, ?_⟩
  · intro j attempt' call' found'
    have found' : net.calls (j, attempt') = some call' := found'
    rw [calls] at found'
    by_cases same : (j, attempt') = (i, attempt)
    · cases same
      rw [Function.update_self] at found'
      cases found'
      exact mirrors.sent i attempt call found
    · rw [Function.update_of_ne same] at found'
      exact mirrors.sent j attempt' call' found'
  · intro j attempt' value
    have before := mirrors.replies j attempt' value
    by_cases same : (j, attempt') = (i, attempt)
    · cases same
      have none : ⟨i, attempt, value⟩ ∉ w.replies := by
        intro listed
        obtain ⟨call', found', finished⟩ := answered_eq_some.mp (before.mp listed).2
        cases found.symm.trans found'
        exact unanswered value finished
      have now : answered net (i, attempt) = some reply := by simp [answered, calls]
      cases kept : keeps (i, attempt) with
      | false => simp [none]
      | true => simp [none, now, eq_comm]
    · have elsewhere : answered net (j, attempt') = answered d.net (j, attempt') := by
        simp [answered, calls, Function.update_of_ne same]
      rw [elsewhere, ← before]
      have other : ¬ (j = i ∧ attempt' = attempt) := fun both => same (Prod.ext both.1 both.2)
      cases kept : keeps (i, attempt) with
      | false => simp
      | true =>
        simp only [if_true, List.mem_cons, Reply.mk.injEq, or_iff_right_iff_imp]
        rintro ⟨rfl, rfl, -⟩
        exact absurd ⟨rfl, rfl⟩ other

end Mirrors

/-! ## Following a run -/

/-- The log of the deployment has the calls and returns of the service. -/
def Related (ops : Nat → Operation) (keeps : Nat × Nat → Bool) (s : Deployment × List (Mark Nat))
    (t : World × History) : Prop :=
  Mirrors ops keeps s.1 t.1 ∧ Mark.calls t.2.log = s.2

theorem calls_record_handle (w w' : World) (h : History) (request : Request) (keep : Bool) :
    Mark.calls (History.record ops w (.handle request keep) w' h).log = Mark.calls h.log := by
  unfold History.record
  simp only
  split
  · split
    · simp
    · rfl
  · split
    · simp
    · rfl

/-- The service can follow an event by which it is not left as it is. -/
def Follow (ops : Nat → Operation) (keeps : Nat × Nat → Bool) (s : Deployment × List (Mark Nat))
    (t : World × History) : Prop :=
  ∃ e t', Prompt t.1 e ∧ (recordedService ops).step t e = some t' ∧ Related ops keeps s t'

theorem follow_of_step {log : List (Mark Nat)} {h : History} {e : Event} {w' : World}
    (prompt : Prompt w e) (stepped : w.step ops e = some w') (mirrors : Mirrors ops keeps d w')
    (calls : Mark.calls (History.record ops w e w' h).log = log) :
    Follow ops keeps (d, log) (w, h) :=
  ⟨e, (w', History.record ops w e w' h), prompt, Machine.withHistory_step.mpr ⟨stepped, rfl⟩,
    mirrors, calls⟩

/-- The method of a call takes effect while the call waits, and it is the first one for it. -/
theorem follow_execute {log : List (Mark Nat)} {h : History} (wired : Wired ops d)
    (mirrors : Mirrors ops keeps d w) (same : Mark.calls h.log = log) {c : Nat × Nat}
    {call : Labrpc.Call Nat Nat Args String} {net : KvNetwork} {route : Labrpc.Route Nat}
    {function : Labrpc.Method KVServer Args String} {reply : String}
    (found : d.net.calls c = some call) (running : call.handler = .running route)
    (method : (kvServers route.server).dispatch call.req = .ok function)
    (called : function d.net.objects call.req.args = some (net.objects, reply))
    (calls : net.calls =
      Function.update d.net.calls c (some { call with handler := .finished reply })) :
    Follow ops keeps ({ d with net := net }, log) (w, h) := by
  obtain ⟨i, attempt⟩ := c
  have waiting := (wired.direct _ _ found).handled route (by rw [running]; rfl)
  obtain ⟨body, req, listed⟩ := mirrors.sent i attempt call found
  have awaits : w.Awaits ⟨i, attempt, body⟩ := by
    rcases (wired.follows i).doing found (by simp [waiting]) with
      ⟨body', calling, req', update⟩ | ⟨reply', deleting, req'⟩
    · cases Body.req_injective (req.symm.trans req')
      have stage : w.stages i = .calling body attempt := by rw [mirrors.stages, calling]; rfl
      cases body with
      | delete client => exact absurd rfl (update client)
      | get key => simp [World.Awaits, Stage.IsCalling, stage]
      | put args => simp [World.Awaits, Stage.IsCalling, stage]
      | append args => simp [World.Awaits, Stage.IsCalling, stage]
    · cases Body.req_injective (req.symm.trans req')
      have stage : w.stages i = .deleting reply' := by rw [mirrors.stages, deleting]; rfl
      simp [World.Awaits, Stage.IsDeleting, stage]
  have first : w.NoReply i attempt := by
    rintro ⟨j, attempt', value⟩ listed' rfl rfl
    obtain ⟨call', found', finished⟩ :=
      answered_eq_some.mp ((mirrors.replies j attempt' value).mp listed').2
    cases found.symm.trans found'
    cases running.symm.trans finished
  have objects : (net.objects, reply) = w.server.dispatch body := by
    obtain ⟨function', method', answers⟩ := dispatch_req (ops i).client route.server body
    rw [req] at method called
    cases method.symm.trans method'
    rw [answers, ← mirrors.server] at called
    exact (Option.some.inj called).symm
  refine follow_of_step (e := .handle ⟨i, attempt, body⟩ (keeps (i, attempt))) ⟨awaits, first⟩ ?_
    (mirrors.execute found (by simp [running]) calls objects)
    ((calls_record_handle _ _ _ _ _).trans same)
  simp [World.step, listed]

theorem follow_network {log : List (Mark Nat)} {h : History} (wired : Wired ops d)
    (mirrors : Mirrors ops keeps d w) (same : Mark.calls h.log = log)
    {e : Labrpc.Event Nat Nat Args (Nat × Nat)} {net : KvNetwork} (inside : internal e = true)
    (next : d.net.step kvServers e = some net) :
    Mirrors ops keeps { d with net := net } w ∨
      Follow ops keeps ({ d with net := net }, log) (w, h) := by
  obtain ⟨-, step⟩ := Labrpc.step_of_step (Labrpc.working_reachable wired.reached) next
  have unchanged : net.objects = d.net.objects → net.calls = d.net.calls →
      Mirrors ops keeps { d with net := net } w := by
    intro objects calls
    refine mirrors.frame objects rfl rfl (fun c call found => ⟨call, ?_, rfl⟩) (fun c => ?_)
    · rw [← calls]
      exact found
    · simp [answered, calls]
  cases step with
  | call fresh => cases inside
  | addServer => exact .inl (unchanged rfl rfl)
  | deleteServer => exact .inl (unchanged rfl rfl)
  | manage => exact .inl (unchanged rfl rfl)
  | configure => exact .inl (unchanged rfl rfl)
  | @on c call event _ found stepped =>
    cases stepped with
    | advance count other advances =>
      exact .inl (mirrors.setCall rfl rfl found rfl (fun _ => Iff.rfl))
    | @dispatch route routed =>
      have idle : call.handler = .idle := by
        simpa [Labrpc.Call.Sane, routed] using Labrpc.sane_reachable wired.reached c call found
      exact .inl (mirrors.setCall rfl rfl found rfl
        (fun reply => iff_of_false (by simp) (by simp [idle])))
    | begin exit started method =>
      exact .inl (mirrors.setCall rfl rfl found rfl
        (fun reply => iff_of_false (by simp) (by simp [started])))
    | execute running method called =>
      exact .inr (follow_execute wired mirrors same found running method called rfl)
    | poll waiting alive => exact .inl mirrors

/-- A reply that has been received was on its way. -/
theorem received_reply (wired : Wired ops d) (mirrors : Mirrors ops keeps d w)
    (foretold : Foretold keeps d.net) {i attempt : Nat} {reply : String}
    (succeeded : d.Results i attempt (some reply)) : ⟨i, attempt, reply⟩ ∈ w.replies := by
  obtain ⟨call, found, returned⟩ := succeeded
  have sane := Labrpc.sane_reachable wired.reached _ _ found
  simp only [Labrpc.Call.Sane, returned] at sane
  refine (mirrors.replies i attempt reply).mpr ⟨?_, answered_eq_some.mpr ⟨call, found, sane⟩⟩
  exact foretold _ call (some reply) found returned

theorem follow {e : DeploymentEvent} {log : List (Mark Nat)} {h : History} (wired : Wired ops d)
    (mirrors : Mirrors ops keeps d w) (same : Mark.calls h.log = log)
    (next : d.step ops e = some d') (foretold : Foretold keeps d.net) :
    Related ops keeps (d', Deployment.record ops d e d' log) (w, h) ∨
      Follow ops keeps (d', Deployment.record ops d e d' log) (w, h) := by
  obtain ⟨live, step⟩ := deploymentStep_of_step next
  have stage : ∀ {i : Nat} {progress : Progress}, d.progress i = progress →
      w.stages i = progress.stage := by
    intro i progress now
    rw [mirrors.stages, now]
  cases step with
  | makeClient new =>
    refine .inl ⟨mirrors.frame (makeEnd_objects _ _) rfl rfl ?_ ?_, same⟩
    · intro c call found
      exact ⟨call, (congrFun (makeEnd_calls _ _) c).symm.trans found, rfl⟩
    · intro c
      simp [answered, Deployment.makeClient, Labrpc.Network.connect, Labrpc.Network.enable,
        makeEnd_calls]
  | deleteClient present idle =>
    refine .inl ⟨mirrors.frame (deleteEnd_objects _ _) rfl rfl ?_ ?_, same⟩
    · intro c call found
      exact ⟨call, (congrFun (deleteEnd_calls _ _) c).symm.trans found, rfl⟩
    · intro c
      simp [answered, Deployment.deleteClient, deleteEnd_calls]
  | network inside stepped =>
    exact (follow_network wired mirrors same inside stepped).imp (fun mirrors => ⟨mirrors, same⟩) id
  | @invoke i fresh present =>
    refine .inr (follow_of_step (e := .invoke i) trivial ?_ (mirrors.setProgress i .invoked _) ?_)
    · simp [World.step, stage fresh, Progress.stage]
    · simp [History.record, Deployment.record, same]
  | @startUpdate i invoked update free unused =>
    have clerk := congrFun mirrors.clerks (ops i).client
    refine .inr (follow_of_step (e := .start i) trivial ?_ ((mirrors.setClerk _ _).called _ _ unused)
      ?_)
    · simp [World.step, stage invoked, Progress.stage, World.start, update, clerk, free,
        World.call, World.setClerk]
    · simp [History.record, Deployment.record, update, same]
  | @startGet i invoked read unused =>
    refine .inr (follow_of_step (e := .start i) trivial ?_ (mirrors.called _ _ unused) ?_)
    · simp [World.step, stage invoked, Progress.stage, World.start, read, World.call]
    · simp [History.record, Deployment.record, read, same]
  | @retry i attempt body calling failed unused =>
    obtain ⟨call, found, returned⟩ := failed
    have lost : keeps (i, attempt) = false := foretold _ call none found returned
    refine .inr (follow_of_step (e := .retry i) ?_ ?_ (mirrors.called _ _ unused) ?_)
    · simp only [Prompt, stage calling, Progress.stage]
      rintro ⟨j, attempt', value⟩ listed rfl rfl
      cases lost.symm.trans ((mirrors.replies j attempt' value).mp listed).1
    · simp [World.step, stage calling, Progress.stage, World.call]
    · simp [History.record, Deployment.record, same]
  | @receiveUpdate i attempt body reply calling update succeeded unused =>
    have listed := received_reply wired mirrors foretold succeeded
    refine .inr (follow_of_step (e := .receive i reply) trivial ?_ (mirrors.called _ _ unused) ?_)
    · simp [World.step, stage calling, Progress.stage, World.received, update, listed]
    · simp [History.record, Deployment.record, update, same]
  | @receiveGet i attempt body reply calling read succeeded =>
    have listed := received_reply wired mirrors foretold succeeded
    refine .inr (follow_of_step (e := .receive i reply) trivial ?_ (mirrors.setProgress i _ _) ?_)
    · simp [World.step, stage calling, Progress.stage, World.received, read, listed]
    · simp [History.record, Deployment.record, read, same]
  | @finish i attempt reply result deleting done =>
    refine .inr (follow_of_step (e := .finish i) trivial ?_
      ((mirrors.setClerk _ _).setProgress i _ _) ?_)
    · simp [World.step, stage deleting, Progress.stage, mirrors.clerks]
    · simp [History.record, Deployment.record, same]

theorem mirrors_init (unreliable : Bool) :
    Mirrors ops keeps (makeConfig unreliable) (service ops).init where
  server := rfl
  clerks := rfl
  stages := fun _ => rfl
  sent := nofun
  replies := fun _ _ _ => iff_of_false nofun (fun kept => nomatch kept.2)

theorem exists_mirror {unreliable : Bool} {log : List (Mark Nat)}
    (reached : (recordedDeployment ops unreliable).Reachable (d, log)) :
    ∃ keeps w h, (recordedService ops).ReachableWhen (fun s e => Prompt s.1 e) (w, h) ∧
      Mirrors ops keeps d w ∧ Mark.calls h.log = log := by
  have before : ∀ t e t', (recordedDeployment ops unreliable).Reachable t →
      (recordedDeployment ops unreliable).step t e = some t' →
      Foretold (foresight d.net) t'.1.net → Foretold (foresight d.net) t.1.net := by
    intro t e t' reached next foretold
    exact foretold_before (wired_reachable reached.dropHistory) (Machine.withHistory_step.mp next).1
      foretold
  have foreseen := Machine.Path.foresee (Q := fun s => Foretold (foresight d.net) s.1.net) before
    reached (foretold_foresight d.net)
  have followed : ∃ t, (recordedService ops).ReachableWhen (fun s e => Prompt s.1 e) t ∧
      Related ops (foresight d.net) (d, log) t := by
    refine Machine.ReachableWhen.simulate ⟨mirrors_init unreliable, rfl⟩ ?_ foreseen
    rintro ⟨d, log⟩ e ⟨d', log'⟩ ⟨w, h⟩ reached _ ⟨mirrors, same⟩ ⟨-, foretold⟩ next
    have wired : Wired ops d := wired_reachable reached.dropHistory
    have foretold := before _ e _ reached.reachable next (foretold _ next)
    obtain ⟨stepped, recorded⟩ :
        d.step ops e = some d' ∧ log' = Deployment.record ops d e d' log :=
      Machine.withHistory_step.mp next
    rw [recorded]
    exact follow wired mirrors same stepped foretold
  obtain ⟨⟨w, h⟩, reached, mirrors, same⟩ := followed
  exact ⟨foresight d.net, w, h, reached, mirrors, same⟩

/-! ## Linearizability -/

/-- What an operation returns to its caller when this is the reply. -/
def Operation.result (op : Operation) (reply : String) : String :=
  if op.IsUpdate then reply else getResult reply

/-- `PutAppend` returns the reply, `Get` what it makes of it. -/
def Progress.Returns (op : Operation) : Progress → Prop
  | .deleting _ _ => op.IsUpdate
  | .returned reply result => result = op.result reply
  | _ => True

theorem returns_reachable {unreliable : Bool} {ok : Deployment → DeploymentEvent → Prop}
    (reached : (deployment ops unreliable).ReachableWhen ok d) :
    ∀ i, (d.progress i).Returns (ops i) := by
  apply reached.invariant (I := fun d => ∀ i, (d.progress i).Returns (ops i))
  · exact fun _ => trivial
  · intro d e d' _ returns _ next
    have moves : ∀ {i : Nat} {progress : Progress}, progress.Returns (ops i) →
        ∀ j, (Function.update d.progress i progress j).Returns (ops j) := by
      intro i progress here
      exact forall_update_progress (P := fun j progress => progress.Returns (ops j)) here
        (fun j _ => returns j)
    obtain ⟨-, step⟩ := deploymentStep_of_step (show d.step ops e = some d' from next)
    cases step with
    | makeClient new => exact returns
    | deleteClient present idle => exact returns
    | network inside stepped => exact returns
    | invoke fresh present => exact moves trivial
    | startUpdate invoked update free unused => exact moves trivial
    | startGet invoked read unused => exact moves trivial
    | retry calling failed unused => exact moves trivial
    | receiveUpdate calling update succeeded unused => exact moves update
    | receiveGet calling read succeeded =>
      exact moves (by simp [Progress.Returns, Operation.result, read])
    | @finish i attempt reply result deleting done =>
      have update := returns i
      rw [deleting] at update
      exact moves (by simp [Progress.Returns, Operation.result, show (ops i).IsUpdate from update])

/-- Over a prompt network the order in which operations are performed linearizes them. -/
theorem linearizes_of_prompt {w : World} {h : History}
    (reached : (recordedService ops).ReachableWhen (fun s e => Prompt s.1 e) (w, h)) :
    (store ops).Linearizes h.log (fun i reply => ∃ result, w.stages i = .returned reply result)
      (Mark.order h.log) := by
  have stable := stable_reachable (fun _ _ prompt => prompt.deletesInTime) reached
  have sequenced := sequenced_reachable reached
  apply SequentialObject.linearizes_order sequenced.timed
  rintro i reply ⟨result, returned⟩
  by_cases update : (ops i).IsUpdate
  · have told := stable i update
    rw [returned] at told
    have answers : (store ops).AnswersAt (updates ops h.log) i reply := told.1
    rw [updates_eq_filter] at answers
    exact answers.of_filter store_inert sequenced.timed.nodup
  · have told := sequenced.reads i update
    rw [returned] at told
    exact told

theorem linearizes_deployment {unreliable : Bool} {log : List (Mark Nat)}
    (reached : (recordedDeployment ops unreliable).Reachable (d, log)) :
    ∃ order,
      (store ops).Linearizes log (fun i reply => ∃ result, d.progress i = .returned reply result)
        order ∧
      d.net.objects.value = (store ops).after order := by
  obtain ⟨keeps, w, h, prompt, mirrors, rfl⟩ := exists_mirror reached
  have linearizes := linearizes_of_prompt prompt
  refine ⟨Mark.order h.log, ?_, ?_⟩
  · refine ⟨linearizes.once, ?_, ?_, ?_, ?_⟩
    · intro i listed
      exact Mark.invoked_mem_calls.mpr (linearizes.invoked i listed)
    · intro i returned
      exact linearizes.complete i (List.mem_of_mem_filter returned)
    · intro earlier later before listed
      exact linearizes.realTime earlier later (before.trans List.filter_sublist) listed
    · rintro i reply ⟨result, returned⟩
      exact linearizes.answers i reply ⟨result, by rw [mirrors.stages, returned]; rfl⟩
  · rw [← mirrors.server]
    exact (orderly_executed prompt).2.value_order

/-- The clerks over the simulated network, reliable or not: the operations have a linearization of
    which the server's store is the outcome, and which explains what they have returned. -/
theorem deployment_linearizable (unreliable : Bool) {s : Deployment × List (Mark Nat)}
    (reached : (recordedDeployment ops unreliable).Reachable s) :
    ∃ order,
      (store ops).Linearizes s.2 (fun i reply => ∃ result, s.1.progress i = .returned reply result)
        order ∧
      s.1.net.objects.value = (store ops).after order ∧
      ∀ i reply result, s.1.progress i = .returned reply result →
        result = if (ops i).IsUpdate then reply else getResult reply := by
  obtain ⟨order, linearizes, value⟩ := linearizes_deployment reached
  refine ⟨order, linearizes, value, ?_⟩
  intro i reply result returned
  have returns := returns_reachable reached.dropHistory i
  rw [returned] at returns
  exact returns

/-- One call from end to end. -/
def callEvents (c : Nat × Nat) (choice : Labrpc.Choice) : List DeploymentEvent :=
  [.network (.on c .accept), .network (.on c .process), .network (.on c .dispatch),
    .network (.on c .begin), .network (.on c .execute), .network (.on c .receive),
    .network (.on c (.conclude choice))]

/-- The reply to the first call of an append is dropped, and a get comes in between. -/
def droppedReply : List DeploymentEvent :=
  ([.makeClient 2, .makeClient 3, .invoke 1, .start 1] : List DeploymentEvent) ++
    callEvents (1, 1) .drop ++ ([.invoke 2, .start 2] : List DeploymentEvent) ++
    callEvents (2, 1) .deliver ++ ([.receive 2, .retry 1] : List DeploymentEvent) ++
    callEvents (1, 2) .deliver ++ ([.receive 1] : List DeploymentEvent) ++
    callEvents (1, 3) .drop ++ ([.finish 1] : List DeploymentEvent)

theorem deployment_linearizable_droppedReply :
    ∃ s : Deployment × List (Mark Nat), s.1.progress 1 = .returned "" "" ∧
      s.1.progress 2 = .returned "2" "2" ∧
      ∃ order, (store threeClients).AnswersAt order 1 "" ∧
        (store threeClients).AnswersAt order 2 "2" := by
  have appended : ((recordedDeployment threeClients true).after droppedReply).1.progress 1 =
      .returned "" "" := by decide +kernel
  have got : ((recordedDeployment threeClients true).after droppedReply).1.progress 2 =
      .returned "2" "2" := by decide +kernel
  obtain ⟨order, linearizes, -, -⟩ :=
    deployment_linearizable true (Machine.reachable_after droppedReply)
  exact ⟨_, appended, got, order, linearizes.answers 1 "" ⟨"", appended⟩,
    linearizes.answers 2 "2" ⟨"2", got⟩⟩

end DistributedCloud.KvSrv
