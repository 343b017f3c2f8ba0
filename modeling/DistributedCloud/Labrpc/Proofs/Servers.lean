import DistributedCloud.Labrpc.Proofs.Calls

/-!
# Servers that are deleted

`processReq` looks for the server again before it replies. As long as no server is added a second
time, a call that returns `true` therefore had its handler executed while its server was registered:
what a server does after `DeleteServer` is never acknowledged.
-/

namespace DistributedCloud.Labrpc

variable {E N A R σ κ : Type}

/-- A server is added once. -/
def AddsNew (h : History E N A R κ) : Event E N A κ → Prop
  | .addServer _ rs => rs ∉ h.added
  | _ => True

instance (h : History E N A R κ) : DecidablePred (AddsNew h)
  | .addServer _ rs => inferInstanceAs (Decidable (rs ∉ h.added))
  | .makeEnd _ => isTrue trivial
  | .deleteEnd _ => isTrue trivial
  | .deleteServer _ => isTrue trivial
  | .connect _ _ => isTrue trivial
  | .enable _ _ => isTrue trivial
  | .reliable _ => isTrue trivial
  | .longReordering _ => isTrue trivial
  | .cleanup => isTrue trivial
  | .stop => isTrue trivial
  | .call _ _ => isTrue trivial
  | .on _ _ => isTrue trivial

/-- The server that the call is about to use, or is using, was added. -/
def Call.Uses (added : List Nat) (call : Call E N A R) : Prop :=
  ∀ route, call.stage = .routed route ∨ call.handler.route? = some route → route.server ∈ added

/-- The reply that the call has got or is about to get was made while the server was registered. -/
def Call.Acknowledged (executed : List (Execution E N A R κ)) (c : κ) (call : Call E N A R) : Prop :=
  ∀ reply, call.stage = .postponed reply ∨ call.stage = .returned (some reply) →
    ∃ x ∈ executed, x.call = c ∧ x.reply = reply ∧ x.registered = true

/-- A server that was not registered when it executed a handler will not be again. -/
def Gone (servers : N → Option Nat) (added : List Nat) (x : Execution E N A R κ) : Prop :=
  x.registered = false →
    x.route.server ∈ added ∧ servers x.route.servername ≠ some x.route.server

/-- What is known about the servers that were added once each. -/
structure Registered (net : Network E N A R σ κ) (h : History E N A R κ) : Prop where
  added : ∀ servername rs, net.servers servername = some rs → rs ∈ h.added
  uses : ∀ c call, net.calls c = some call → call.Uses h.added
  gone : ∀ x ∈ h.executed, Gone net.servers h.added x
  acknowledged : ∀ c call, net.calls c = some call → call.Acknowledged h.executed c

theorem Call.Uses.mono {added more : List Nat} {call : Call E N A R} (uses : call.Uses added)
    (longer : added ⊆ more) : call.Uses more :=
  fun route used => longer (uses route used)

theorem Call.Acknowledged.mono {executed more : List (Execution E N A R κ)} {c : κ}
    {call : Call E N A R} (acknowledged : call.Acknowledged executed c)
    (longer : executed ⊆ more) : call.Acknowledged more c := by
  intro reply answered
  obtain ⟨x, listed, fits⟩ := acknowledged reply answered
  exact ⟨x, longer listed, fits⟩

theorem isServerDead_eq_false {net : Network E N A R σ κ} {endname : E} {servername : N}
    {server : Nat} : net.isServerDead endname servername server = false ↔
      net.enabled endname = true ∧ net.servers servername = some server := by
  simp [Network.isServerDead]

theorem route_eq_some {net : Network E N A R σ κ} {endname : E} {route : Route N}
    (found : net.route endname = some route) :
    net.enabled endname = true ∧ net.connections endname = some route.servername ∧
      net.servers route.servername = some route.server := by
  unfold Network.route at found
  split at found
  · rename_i servername server reliable longreordering info
    cases found
    simp only [Network.readEndnameInfo, Prod.mk.injEq] at info
    obtain ⟨enabled, connected, served, -⟩ := info
    rw [connected] at served
    exact ⟨enabled, connected, served⟩
  · cases found

theorem addServer_servers [DecidableEq N] (net : Network E N A R σ κ) (servername : N) (rs : Nat) :
    (net.addServer servername rs).servers =
      Function.update net.servers servername (some rs) := rfl

theorem deleteServer_servers [DecidableEq N] (net : Network E N A R σ κ) (servername : N) :
    (net.deleteServer servername).servers = Function.update net.servers servername none := rfl

section Step

variable {servers : Nat → Server σ A R} {start : σ} {net net' : Network E N A R σ κ}
  {h : History E N A R κ} {e : Event E N A κ}

/-- A reply is acknowledged only if the server is still registered, so that it was registered when
    the handler was executed. -/
theorem Registered.advance [DecidableEq κ] (registered : Registered net h)
    (accounted : Accounted net h.executed) {c : κ} {call : Call E N A R}
    (found : net.calls c = some call) {stage : Stage N R} (advances : Advance net call stage)
    (count : Nat) : Registered { net.setStage c call stage with count := count } h := by
  have recorded := accounted.calls c call found
  have uses := registered.uses c call found
  have acknowledged := registered.acknowledged c call found
  refine ⟨registered.added, ?_, registered.gone, ?_⟩
  · refine forall_update ?_ (fun d call' _ found' => registered.uses d call' found')
    rintro route (routed | handled)
    · cases advances with
      | route accepted found =>
        cases routed
        exact registered.added _ _ (route_eq_some found).2.2
      | abandon | accept | unanswered | timeOut | dropRequest | receive | giveUp | fail | postpone
      | answer | deliver => cases routed
    · exact uses route (.inr handled)
  · refine forall_update ?_ (fun d call' _ found' => registered.acknowledged d call' found')
    have checked : ∀ {route : Route N} {reply : R}, call.stage = .concluding route (some reply) →
        net.isServerDead call.req.endname route.servername route.server = false →
        ∃ x ∈ h.executed, x.call = c ∧ x.reply = reply ∧ x.registered = true := by
      intro route reply concluding alive
      have finished : call.handler = .finished reply := by
        simpa [Call.Sane, concluding] using recorded.sane
      obtain ⟨x, listed, same, answer⟩ := (recorded.finished reply).mp finished
      have here : x.route = route := recorded.route x listed same route (by rw [concluding]; rfl)
      refine ⟨x, listed, same, answer, ?_⟩
      cases kept : x.registered with
      | true => rfl
      | false =>
        have gone := (registered.gone x listed kept).2
        rw [here] at gone
        exact absurd (isServerDead_eq_false.mp alive).2 gone
    rintro reply (postponed | returned)
    · cases advances with
      | postpone concluding alive longreordering =>
        cases postponed
        exact checked concluding alive
      | abandon | accept | route | unanswered | timeOut | dropRequest | receive | giveUp | fail
      | answer | deliver => cases postponed
    · cases advances with
      | answer concluding alive =>
        cases returned
        exact checked concluding alive
      | deliver postponed =>
        cases returned
        exact acknowledged _ (.inl postponed)
      | abandon | accept | route | unanswered | timeOut | dropRequest | receive | giveUp | fail
      | postpone => cases returned

theorem Registered.execute [DecidableEq κ] [DecidableEq N] (registered : Registered net h) {c : κ}
    {call : Call E N A R} {route : Route N} (found : net.calls c = some call)
    (running : call.handler = .running route) (reply : R) (objects : σ) :
    Registered
      { net.setCall c { call with handler := .finished reply } with objects := objects }
      { h with
        executed := h.executed ++ [⟨c, call.req, route, reply,
          decide (net.servers route.servername = some route.server)⟩] } := by
  have uses := registered.uses c call found
  have longer : ∀ new, h.executed ⊆ h.executed ++ [new] := fun _ => List.subset_append_left _ _
  refine ⟨registered.added, ?_, ?_, ?_⟩
  · refine forall_update ?_ (fun d call' _ found' => registered.uses d call' found')
    rintro route' (routed | handled)
    · exact uses route' (.inl routed)
    · cases handled
  · intro x listed
    rcases List.mem_append.mp listed with before | last
    · exact registered.gone x before
    · rw [List.mem_singleton.mp last]
      intro late
      exact ⟨uses route (.inr (by rw [running]; rfl)), of_decide_eq_false late⟩
  · refine forall_update ?_ (fun d call' _ found' =>
      (registered.acknowledged d call' found').mono (longer _))
    exact (registered.acknowledged c call found).mono (longer _)

variable [DecidableEq κ] [DecidableEq E] [DecidableEq N]

theorem registered_step (registered : Registered net h)
    (accounted : Accounted net h.executed) (guard : AddsNew h e)
    (next : net.step servers e = some net') : Registered net' (History.record net e net' h) := by
  obtain ⟨-, step⟩ := step_of_step accounted.working next
  cases step with
  | call fresh =>
    rw [record_call]
    refine ⟨registered.added, ?_, registered.gone, ?_⟩
    · refine forall_update ?_ (fun d call' _ found' => registered.uses d call' found')
      rintro route (routed | handled)
      · cases routed
      · cases handled
    · refine forall_update ?_ (fun d call' _ found' => registered.acknowledged d call' found')
      rintro reply (postponed | returned)
      · cases postponed
      · cases returned
  | on found stepped =>
    have uses := registered.uses _ _ found
    cases stepped with
    | advance count other advances =>
      rw [record_on other]
      exact registered.advance accounted found advances count
    | @dispatch route routed =>
      rw [record_on id]
      refine ⟨registered.added, ?_, registered.gone, ?_⟩
      · refine forall_update ?_ (fun d call' _ found' => registered.uses d call' found')
        rintro route' (routed' | handled)
        · cases routed'
        · cases handled
          exact uses route (.inl routed)
      · refine forall_update ?_ (fun d call' _ found' => registered.acknowledged d call' found')
        rintro reply (postponed | returned)
        · cases postponed
        · cases returned
    | @begin route exit started method =>
      rw [record_begin found started]
      refine ⟨registered.added, ?_, registered.gone, ?_⟩
      · refine forall_update ?_ (fun d call' _ found' => registered.uses d call' found')
        rintro route' (routed | handled)
        · exact uses route' (.inl routed)
        · cases handled
          exact uses route (.inr (by rw [started]; rfl))
      · have acknowledged := registered.acknowledged _ _ found
        exact forall_update acknowledged
          (fun d call' _ found' => registered.acknowledged d call' found')
    | execute running method called =>
      rw [record_execute found running]
      exact registered.execute found running _ _
    | poll waiting alive =>
      rw [record_on id]
      exact registered
  | @addServer servername rs =>
    have more : h.added ⊆ h.added ++ [rs] := List.subset_append_left _ _
    refine ⟨?_, fun c call found => (registered.uses c call found).mono more, ?_,
      registered.acknowledged⟩
    · intro name server found
      by_cases same : name = servername
      · subst same
        rw [addServer_servers, Function.update_self] at found
        cases found
        exact List.mem_append_right _ (List.mem_singleton_self _)
      · rw [addServer_servers, Function.update_of_ne same] at found
        exact more (registered.added name server found)
    · intro x listed late
      obtain ⟨old, gone⟩ := registered.gone x listed late
      refine ⟨more old, ?_⟩
      by_cases same : x.route.servername = servername
      · rw [addServer_servers, same, Function.update_self]
        intro again
        cases again
        exact guard old
      · rw [addServer_servers, Function.update_of_ne same]
        exact gone
  | @deleteServer servername =>
    have fewer : ∀ name server, (net.deleteServer servername).servers name = some server →
        net.servers name = some server := by
      intro name server found
      by_cases same : name = servername
      · subst same
        rw [deleteServer_servers, Function.update_self] at found
        cases found
      · rwa [deleteServer_servers, Function.update_of_ne same] at found
    refine ⟨fun name server found => registered.added name server (fewer name server found),
      registered.uses, ?_, registered.acknowledged⟩
    intro x listed late
    obtain ⟨old, gone⟩ := registered.gone x listed late
    exact ⟨old, fun found => gone (fewer _ _ found)⟩
  | manage ends enabled connections exit manages =>
    rw [record_manages manages]
    exact ⟨registered.added, registered.uses, registered.gone, registered.acknowledged⟩
  | configure reliable longReordering listening done exit configures stopped =>
    rw [record_configures configures]
    exact ⟨registered.added, registered.uses, registered.gone, registered.acknowledged⟩

/-- If no server is added twice, then a call that has returned `true` had its handler executed while
    the server was registered under the name that the call went to. -/
theorem acknowledged_while_registered {s : Network E N A R σ κ × History E N A R κ}
    (reached : (recordedNetwork servers start).ReachableWhen (fun s e => AddsNew s.2 e) s)
    {c : κ} {call : Call E N A R} (found : s.1.calls c = some call) {reply : R}
    (returned : call.stage = .returned (some reply)) :
    ∃ x ∈ s.2.executed, x.call = c ∧ x.reply = reply ∧ x.registered = true := by
  have registered : Registered s.1 s.2 := by
    apply reached.invariant (I := fun s => Registered s.1 s.2)
    · exact ⟨nofun, nofun, nofun, nofun⟩
    · rintro ⟨net, h⟩ e ⟨net', h'⟩ before registered guard next
      obtain ⟨stepped, recorded⟩ :
          net.step servers e = some net' ∧ h' = History.record net e net' h :=
        Machine.withHistory_step.mp next
      rw [recorded]
      exact registered_step registered (accounted_reachable before) guard stepped
  exact registered.acknowledged c call found reply (.inr returned)

end Step

/-- The server is replaced while it handles two requests; only the one that was already answered is
    acknowledged. -/
def replacing : List (Event Nat Nat Nat Nat) :=
  connected ++
    [.call 0 ⟨7, "Counter.Add", 5⟩, .on 0 .accept, .on 0 .process, .on 0 .dispatch, .on 0 .begin,
      .call 1 ⟨7, "Counter.Add", 2⟩, .on 1 .accept, .on 1 .process, .on 1 .dispatch, .on 1 .begin,
      .on 1 .execute, .on 1 .receive, .on 1 (.conclude .deliver), .deleteServer 0, .addServer 0 1,
      .on 0 .execute, .on 0 .receive, .on 0 (.conclude .deliver)]

/-- The network after it. -/
def replaced : Network Nat Nat Nat Nat Nat Nat × History Nat Nat Nat Nat Nat :=
  ((recordedNetwork counters 0).guarded (fun s e => AddsNew s.2 e)).after replacing

theorem acknowledged_while_registered_replaced :
    (replaced.1.calls 0).map Call.stage = some (.returned none) ∧ replaced.1.objects = 7 ∧
      ∃ x ∈ replaced.2.executed, x.call = 1 ∧ x.reply = 2 ∧ x.registered = true := by
  have reached : (recordedNetwork counters 0).ReachableWhen (fun s e => AddsNew s.2 e) replaced :=
    Machine.reachableWhen_of_guarded (Machine.reachable_after replacing)
  have found : replaced.1.calls 1 =
      some ⟨⟨7, "Counter.Add", 2⟩, .returned (some 2), .finished 2⟩ := by decide +kernel
  exact ⟨by decide +kernel, by decide +kernel, acknowledged_while_registered reached found rfl⟩

end DistributedCloud.Labrpc
