import DistributedCloud.RaftLab.Proofs.Elections

/-!
# Who sends `AppendEntries`

`heartbeat` checks that the peer is the leader and starts goroutines; each of them builds its
request later, under its own lock, and does not check again. If the term has risen in
between, the request carries a term in which its sender may never have been elected. As long
as no goroutine builds its request in a term later than that of the check, every request
comes from the leader of the term it carries.
-/

namespace DistributedCloud.RaftLab

variable {n : Nat} {Byte Command : Type}

/-- The term in which `heartbeat` saw the peer as leader before it started the goroutine. -/
def Task.checkedIn? : Task n → Option Int
  | .heartbeat => none
  | .replicateLogsToFollower _ checkedIn => some checkedIn
  | .processAppendEntriesReply _ _ checkedIn => some checkedIn

/-- The step does not build a request in another term than that of `heartbeat`'s check. -/
def BuiltInTermOfCheck (w : World n Byte Command) : Event n Command → Prop
  | .send peer k => ∀ task ∈ (w.nodes peer).tasks[k]?, ∀ checkedIn ∈ task.checkedIn?,
      checkedIn = (w.rf peer).currentTerm
  | _ => True

instance (w : World n Byte Command) (e : Event n Command) : Decidable (BuiltInTermOfCheck w e) :=
  match e with
  | .send peer k => inferInstanceAs (Decidable (∀ task ∈ (w.nodes peer).tasks[k]?,
      ∀ checkedIn ∈ task.checkedIn?, checkedIn = (w.rf peer).currentTerm))
  | .election _ | .start _ _ | .heartbeat _ _ | .replicate _ _ | .requestVote _
  | .requestVoteReply _ | .appendEntries _ | .appendEntriesReply _ | .applyTake _ _ | .applySend _
  | .applyDone _ | .crash _ => isTrue trivial

/-- A goroutine's check was made in a term the peer has reached, and if the peer is still in
    that term it is still its leader. -/
def Checked (rf : Raft n Byte Command) (task : Task n) : Prop :=
  ∀ checkedIn ∈ task.checkedIn?, checkedIn ≤ rf.currentTerm ∧
    (checkedIn = rf.currentTerm → rf.whoami = .leader)

variable [Labgob Byte Command]

theorem Checked.step {w w' : World n Byte Command} {e : Event n Command} {peer : Fin n}
    {task : Task n} (checked : Checked (w.rf peer) task) (step : PeerStep w w' e peer)
    (alive : e ≠ .crash peer) : Checked (w'.rf peer) task := by
  intro checkedIn found
  obtain ⟨reached, leads⟩ := checked checkedIn found
  have mono := step.termStep.mono
  refine ⟨by omega, fun same => ?_⟩
  exact step.leaderKept alive (leads (by omega)) (by omega)

variable [Zero Command]

/-- Where a goroutine of a peer comes from: it was there before, or it is started by a won
    election, by `heartbeat` at a leader, or by `replicateLogsToFollower` for another peer. -/
inductive Spawned (w : World n Byte Command) (peer : Fin n) : Task n → Prop
  | kept {task : Task n} (member : task ∈ (w.nodes peer).tasks) : Spawned w peer task
  | heartbeat : Spawned w peer .heartbeat
  | round (role : (w.rf peer).whoami = .leader) :
      Spawned w peer (.replicateLogsToFollower true (w.rf peer).currentTerm)
  | request {server : Fin n} {isHeartbeat : Bool} {checkedIn : Int} (other : server ≠ peer)
      (round : .replicateLogsToFollower isHeartbeat checkedIn ∈ (w.nodes peer).tasks) :
      Spawned w peer (.processAppendEntriesReply server isHeartbeat checkedIn)

theorem step_spawned {w w' : World n Byte Command} {e : Event n Command} {peer : Fin n}
    (step : w.Step e w') (actor : w.actor e = some peer) :
    ∀ task ∈ (w'.nodes peer).tasks, Spawned w peer task := by
  cases step with
  | heartbeatEnds =>
    cases actor
    simp only [setNode_nodes_self]
    exact fun task member => .kept (List.mem_of_mem_eraseIdx member)
  | heartbeat role =>
    cases actor
    simp only [setNode_nodes_self]
    intro task member
    rcases List.mem_append.mp member with old | new
    · exact .kept old
    · obtain rfl := List.mem_singleton.mp new
      exact .round role
  | replicate found =>
    cases actor
    simp only [setNode_nodes_self]
    intro task member
    rcases List.mem_append.mp member with old | new
    · exact .kept (List.mem_of_mem_eraseIdx old)
    · obtain ⟨server, other, rfl⟩ := List.mem_map.mp new
      exact .request (mem_others.mp other) (List.mem_of_getElem? found)
  | send =>
    cases actor
    simp only [setNode_nodes_self]
    exact fun task member => .kept (List.mem_of_mem_eraseIdx member)
  | requestVoteReply found _ _ outcome =>
    simp only [World.actor, found, Option.map_some, Option.some.injEq] at actor
    subst actor
    simp only [setNode_nodes_self]
    intro task member
    rcases List.mem_append.mp member with old | new
    · exact .kept old
    · cases outcome with
      | ignored | steppedDown | counted => cases new
      | elected =>
        obtain rfl := List.mem_singleton.mp new
        exact .heartbeat
  | requestVote found | appendEntries found | appendEntriesReply found =>
    simp only [World.actor, found, Option.map_some, Option.some.injEq] at actor
    subst actor
    simp only [setNode_nodes_self]
    exact fun task member => .kept member
  | crash =>
    cases actor
    simp only [setNode_nodes_self, Node.boot]
    simp
  | election | start | applyTake | applySend | applyDone =>
    cases actor
    simp only [setNode_nodes_self]
    exact fun task member => .kept member

omit [Labgob Byte Command] [Zero Command] in
/-- A goroutine that a step starts is checked, or was started by one that is. -/
theorem Spawned.checked {w : World n Byte Command} {peer : Fin n} {task : Task n}
    (before : ∀ task ∈ (w.nodes peer).tasks, Checked (w.rf peer) task)
    (spawned : Spawned w peer task) : Checked (w.rf peer) task := by
  cases spawned with
  | kept member => exact before task member
  | heartbeat =>
    intro checkedIn found
    cases found
  | round role =>
    rintro checkedIn ⟨⟩
    exact ⟨le_refl _, fun _ => role⟩
  | request _ round =>
    have spawner := before _ round
    exact spawner

/-- No peer sends requests to itself. -/
theorem targets_reachable {w : World n Byte Command}
    (reached : (cluster n Byte Command).Reachable w) :
    ∀ peer server isHeartbeat checkedIn,
      .processAppendEntriesReply server isHeartbeat checkedIn ∈ (w.nodes peer).tasks →
      server ≠ peer := by
  refine Machine.ReachableWhen.invariant (I := fun w => ∀ peer server isHeartbeat checkedIn,
    .processAppendEntriesReply server isHeartbeat checkedIn ∈ (w.nodes peer).tasks →
    server ≠ peer) ?_ ?_ reached
  · intro peer server isHeartbeat checkedIn member
    cases member
  · intro w e w' before targets _ next q server isHeartbeat checkedIn member
    have step := reachable_step before next
    obtain ⟨peer, actor, frame⟩ := step_actor step
    by_cases same : q = peer
    · subst same
      cases step_spawned step actor _ member with
      | kept old => exact targets q server isHeartbeat checkedIn old
      | request other => exact other
    · rw [frame q same] at member
      exact targets q server isHeartbeat checkedIn member

theorem checked_reachable {w : World n Byte Command}
    (reached : (cluster n Byte Command).Reachable w) :
    ∀ peer, ∀ task ∈ (w.nodes peer).tasks, Checked (w.rf peer) task := by
  refine Machine.ReachableWhen.invariant
    (I := fun w => ∀ peer, ∀ task ∈ (w.nodes peer).tasks, Checked (w.rf peer) task) ?_ ?_ reached
  · intro peer task member
    cases member
  · intro w e w' before checked _ next q task member
    have step := reachable_step before next
    obtain ⟨peer, actor, frame⟩ := step_actor step
    by_cases same : q = peer
    · subst same
      have acts := step_peer (nodeDurable_reachable before q) step actor
      by_cases alive : e = .crash q
      · subst alive
        cases step with
        | crash =>
          simp only [setNode_nodes_self, Node.boot] at member
          cases member
      · exact ((step_spawned step actor task member).checked (checked q)).step acts alive
    · rw [World.rf, frame q same] at *
      exact checked q task member

/-! ## The requests of a run -/

/-- The request was built by the leader of the term it carries, in that term. -/
def Authentic (h : History n Command) (s : Sent n Command) : Prop :=
  h.leader s.args.term = some s.peer ∧ s.whoami = .leader ∧ s.currentTerm = s.args.term

/-- What a step adds to the requests sent. -/
theorem record_sent {w w' : World n Byte Command} {e : Event n Command} {h : History n Command}
    (step : w.Step e w') :
    (History.record w e w' h).sent = h.sent ∨
    ∃ peer task call isHeartbeat checkedIn, e = .send peer task ∧
      (w.nodes peer).tasks[task]? =
        some (.processAppendEntriesReply call.server isHeartbeat checkedIn) ∧
      w'.appends = w.appends ++ [call] ∧ BuiltArgs (w.rf peer) call.server call.args ∧
      (History.record w e w' h).sent =
        h.sent ++ [⟨peer, (w.rf peer).whoami, (w.rf peer).currentTerm, call.args⟩] := by
  cases step with
  | send found built =>
    refine Or.inr ⟨_, _, _, _, _, rfl, found, rfl, built, ?_⟩
    simp [History.record, World.actor, History.note, History.observe]
  | appendEntries found =>
    refine Or.inl ?_
    simp only [History.record, World.actor, found, Option.map_some, History.note,
      History.observe]
    split
    · rfl
    · rfl
  | requestVote found | requestVoteReply found | appendEntriesReply found =>
    refine Or.inl ?_
    simp only [History.record, World.actor, found, Option.map_some, History.note,
      History.observe]
  | election | start | heartbeatEnds | heartbeat | replicate | applyTake | applySend | applyDone
  | crash => exact Or.inl rfl

/-- In every run in which no goroutine builds a request in another term than that of
    `heartbeat`'s check, every request was built by the leader of its term. -/
theorem sent_by_leader {w : World n Byte Command} {h : History n Command}
    (reached : (recordedCluster n Byte Command).ReachableWhen
      (fun s e => BuiltInTermOfCheck s.1 e) (w, h)) :
    ∀ s ∈ h.sent, Authentic h s := by
  refine Machine.ReachableWhen.invariant (I := fun s => ∀ r ∈ s.2.sent, Authentic s.2 r) ?_ ?_
    reached
  · intro s member
    cases member
  · intro s e s' before authentic guard next r member
    obtain ⟨step, recorded⟩ := recorded_step before next
    have old : r ∈ s.2.sent → Authentic s'.2 r := fun earlier =>
      have ⟨elected, role, term⟩ := authentic r earlier
      ⟨leader_step before next elected, role, term⟩
    rw [recorded] at member
    rcases record_sent (h := s.2) step with
      same | ⟨peer, task, call, _, checkedIn, event, found, -, built, sent⟩
    · rw [same] at member
      exact old member
    · rw [sent] at member
      rcases List.mem_append.mp member with earlier | now
      · exact old earlier
      · obtain rfl := List.mem_singleton.mp now
        subst event
        have term : checkedIn = (s.1.rf peer).currentTerm := guard _ found _ rfl
        have checked := checked_reachable before.dropHistory peer _ (List.mem_of_getElem? found)
        have leads : (s.1.rf peer).whoami = .leader := (checked _ rfl).2 term
        have elected := (ballots_reachable before).1.leaders peer leads
        rw [← built.term] at elected
        exact ⟨leader_step before next elected, leads, built.term.symm⟩

/-- A leader whose heartbeat has built its first request. -/
theorem sent_by_leader_first :
    let s := ((recordedCluster 3 (Token Int) Int).guarded (fun s e => BuiltInTermOfCheck s.1 e)).after
      [.election 0, .requestVote 0, .requestVoteReply 0, .heartbeat 0 0, .replicate 0 1, .send 0 1]
    s.2.sent.length = 1 ∧ ∀ r ∈ s.2.sent, Authentic s.2 r := by
  intro s
  have reached : (recordedCluster 3 (Token Int) Int).ReachableWhen
      (fun s e => BuiltInTermOfCheck s.1 e) s :=
    Machine.reachableWhen_of_guarded (Machine.reachable_after _)
  exact ⟨by decide +kernel, sent_by_leader reached⟩

/-- Peer 0 leads term 1 and has a goroutine waiting to build a request. The vote request of
    peer 1 moves peer 0 to term 2 as a follower, and then the goroutine takes the lock. -/
def sentAfterStepDown : List (Event 3 Int) :=
  [.election 0, .requestVote 0, .requestVoteReply 0, .heartbeat 0 0, .replicate 0 1,
    .election 1, .requestVote 1, .send 0 1]

/-- The request carries term 2, in which peer 0 is a follower. -/
theorem sent_by_follower :
    ¬ ∀ s, (recordedCluster 3 (Token Int) Int).Reachable s → ∀ r ∈ s.2.sent, Authentic s.2 r := by
  intro always
  let s := (recordedCluster 3 (Token Int) Int).after sentAfterStepDown
  have sent : s.2.sent = [⟨0, .follower, 2, ⟨2, 0, 1, 0, none, 0⟩⟩] := by decide +kernel
  have member : (⟨0, .follower, 2, ⟨2, 0, 1, 0, none, 0⟩⟩ : Sent 3 Int) ∈ s.2.sent := by
    rw [sent]
    exact List.mem_singleton_self _
  have authentic := always s (Machine.reachable_after _) _ member
  cases authentic.2.1

end DistributedCloud.RaftLab
