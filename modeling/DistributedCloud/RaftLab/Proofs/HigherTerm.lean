import DistributedCloud.RaftLab.Proofs.Bounds

/-!
# The higher-term rule

A peer that sees a term above its own should move to that term and give up any role it has in
the old one. Both request handlers do so. Both reply handlers look at the reply's term only
behind another guard, and each guard leaves out replies: a vote reply is read only by a
candidate of the term it asked in, and an `AppendEntries` reply of the current term is read
by its leader without a look at the reply's term.
-/

namespace DistributedCloud.RaftLab

variable {n : Nat} {Byte Command : Type}

/-- A message on its way into a peer. A reply comes with the arguments of its call, which the
    waiting goroutine holds. -/
inductive Incoming (Command : Type) where
  | requestVote (args : RequestVoteArgs)
  | requestVoteReply (args : RequestVoteArgs) (reply : RequestVoteReply)
  | appendEntries (args : AppendEntriesArgs Command)
  | appendEntriesReply (args : AppendEntriesArgs Command) (reply : AppendEntriesReply)
  deriving DecidableEq

/-- The `Term` field of a message. -/
def Incoming.term : Incoming Command → Int
  | .requestVote args => args.term
  | .requestVoteReply _ reply => reply.term
  | .appendEntries args => args.term
  | .appendEntriesReply _ reply => reply.term

/-- The peer that an event brings a message to, and the message. -/
def World.delivers (w : World n Byte Command) : Event n Command → Option (Fin n × Incoming Command)
  | .requestVote k => do
    let call ← w.votes[k]?
    if call.reply = none then some (call.server, .requestVote call.args) else none
  | .requestVoteReply k => do
    let call ← w.votes[k]?
    let reply ← call.reply
    if call.epoch = (w.nodes call.caller).epoch then
      some (call.caller, .requestVoteReply call.args reply)
    else none
  | .appendEntries k => do
    let call ← w.appends[k]?
    if call.reply = none then some (call.server, .appendEntries call.args) else none
  | .appendEntriesReply k => do
    let call ← w.appends[k]?
    let reply ← call.reply
    if call.epoch = (w.nodes call.caller).epoch then
      some (call.caller, .appendEntriesReply call.args reply)
    else none
  | _ => none

/-- The peer has caught up with `term` and given up its role in the term it had before. -/
def StepsDown (term : Int) (rf rf' : Raft n Byte Command) : Prop :=
  term ≤ rf'.currentTerm ∧
    ¬ ((rf'.whoami = .leader ∨ rf'.whoami = .candidate) ∧ rf'.currentTerm = rf.currentTerm)

/-- The guards in front of the term check: none for a request, being a candidate of the term
    asked in for a vote reply, and not being the leader of the term sent in for an
    `AppendEntries` reply. -/
def LooksAtTerm (rf : Raft n Byte Command) : Incoming Command → Prop
  | .requestVote _ => True
  | .requestVoteReply args _ => args.term = rf.currentTerm ∧ rf.whoami = .candidate
  | .appendEntries _ => True
  | .appendEntriesReply args _ => args.term ≠ rf.currentTerm ∨ rf.whoami ≠ .leader

variable [Labgob Byte Command]

omit [Labgob Byte Command] in
theorem stepsDown_of_follower {rf rf' : Raft n Byte Command} {term : Int}
    (now : rf'.currentTerm = term) (role : rf'.whoami = .follower) : StepsDown term rf rf' := by
  refine ⟨now.ge, ?_⟩
  rintro ⟨leader | candidate, -⟩
  · rw [role] at leader
    cases leader
  · rw [role] at candidate
    cases candidate

omit [Labgob Byte Command] in
theorem not_stepsDown_of_same {rf rf' : Raft n Byte Command} {term : Int}
    (higher : rf.currentTerm < term) (same : rf'.currentTerm = rf.currentTerm) :
    ¬ StepsDown term rf rf' := by
  rintro ⟨reached, -⟩
  omega

theorem observeTerm_higher {rf : Raft n Byte Command} {term : Int}
    (higher : rf.currentTerm < term) : rf.observeTerm term = rf.convertToFollower term := by
  rw [Raft.observeTerm, if_pos higher]

theorem requestVote_stepsDown {rf rf' : Raft n Byte Command} {args : RequestVoteArgs}
    {reply : RequestVoteReply} (higher : rf.currentTerm < args.term)
    (outcome : RequestVoteOutcome rf args rf' reply) : StepsDown args.term rf rf' := by
  cases outcome with
  | stale older => omega
  | refused =>
    rw [observeTerm_higher higher]
    exact stepsDown_of_follower rfl rfl
  | granted =>
    rw [observeTerm_higher higher]
    exact stepsDown_of_follower rfl rfl

theorem appendEntries_stepsDown {rf rf' : Raft n Byte Command} {args : AppendEntriesArgs Command}
    {reply : AppendEntriesReply} (higher : rf.currentTerm < args.term)
    (outcome : AppendEntriesOutcome rf args rf' reply) : StepsDown args.term rf rf' := by
  cases outcome with
  | stale older => omega
  | short =>
    rw [observeTerm_higher higher]
    exact stepsDown_of_follower rfl rfl
  | mismatch =>
    rw [observeTerm_higher higher]
    exact stepsDown_of_follower rfl rfl
  | accepted =>
    rw [observeTerm_higher higher]
    exact stepsDown_of_follower (by rw [accept_currentTerm]; rfl) (by rw [accept_whoami]; rfl)

theorem requestVoteReply_stepsDown {rf rf' : Raft n Byte Command} {voteCounts voteCounts' : Int}
    {args : RequestVoteArgs} {reply : RequestVoteReply} {spawned : List (Task n)}
    (higher : rf.currentTerm < reply.term)
    (outcome : VoteReplyOutcome rf voteCounts args reply (rf', voteCounts', spawned)) :
    StepsDown reply.term rf rf' ↔ args.term = rf.currentTerm ∧ rf.whoami = .candidate := by
  cases outcome with
  | ignored _ notHigher =>
    refine iff_of_false (not_stepsDown_of_same higher rfl) ?_
    rintro ⟨term, role⟩
    have := notHigher term role
    omega
  | steppedDown term role =>
    exact iff_of_true (stepsDown_of_follower rfl rfl) ⟨term, role⟩
  | counted _ _ notHigher => omega
  | elected _ _ notHigher => omega

theorem appendEntriesReply_stepsDown {rf rf' : Raft n Byte Command} {server : Fin n}
    {args : AppendEntriesArgs Command} {reply : AppendEntriesReply}
    (higher : rf.currentTerm < reply.term)
    (outcome : AppendReplyOutcome rf server args reply rf') :
    StepsDown reply.term rf rf' ↔ args.term ≠ rf.currentTerm ∨ rf.whoami ≠ .leader := by
  have unread : args.term = rf.currentTerm → rf.whoami = .leader →
      ¬ (args.term ≠ rf.currentTerm ∨ rf.whoami ≠ .leader) := by
    rintro term role (other | other)
    · exact other term
    · exact other role
  cases outcome with
  | ignored _ notHigher => omega
  | steppedDown stale => exact iff_of_true (stepsDown_of_follower rfl rfl) stale
  | backedUp term role => exact iff_of_false (not_stepsDown_of_same higher rfl) (unread term role)
  | heartbeat term role => exact iff_of_false (not_stepsDown_of_same higher rfl) (unread term role)
  | acknowledged term role _ committed =>
    refine iff_of_false (not_stepsDown_of_same higher ?_) (unread term role)
    obtain ⟨k, rfl⟩ := checkAndCommitLogs_frame committed
    rfl

variable [Zero Command]

/-- In every reachable world, a peer that processes a message of a higher term steps down
    exactly if the guards of its handler let it look at the message's term. -/
theorem stepsDown_iff_looksAtTerm {w : World n Byte Command} {e : Event n Command} {peer : Fin n}
    {msg : Incoming Command} (reached : (cluster n Byte Command).Reachable w)
    (delivered : w.delivers e = some (peer, msg)) (higher : (w.rf peer).currentTerm < msg.term) :
    ∃ w', (cluster n Byte Command).step w e = some w' ∧
      (StepsDown msg.term (w.rf peer) (w'.rf peer) ↔ LooksAtTerm (w.rf peer) msg) := by
  have bounds := worldBounds_reachable reached
  cases e with
  | requestVote k =>
    obtain ⟨call, found, rest⟩ := Option.bind_eq_some_iff.mp delivered
    obtain ⟨pending, ⟨⟩⟩ := Option.ite_none_right_eq_some.mp rest
    obtain ⟨rf', reply, handled, outcome⟩ := requestVote_returns (w.rf call.server) call.args
    rw [World.rf] at handled
    refine ⟨_, by simp [cluster, World.step, World.requestVote, found, pending, handled]; rfl, ?_⟩
    simp only [World.rf, setNode_nodes_self]
    exact iff_of_true (requestVote_stepsDown higher outcome) trivial
  | requestVoteReply k =>
    obtain ⟨call, found, rest⟩ := Option.bind_eq_some_iff.mp delivered
    obtain ⟨reply, replied, rest⟩ := Option.bind_eq_some_iff.mp rest
    obtain ⟨epoch, ⟨⟩⟩ := Option.ite_none_right_eq_some.mp rest
    have outcome := requestVoteReply_cases (w.rf call.caller)
      ((w.nodes call.caller).voteCounts call.args.term) call.args reply
    refine ⟨_, by simp [cluster, World.step, World.requestVoteReply, found, replied, epoch]; rfl, ?_⟩
    simp only [World.rf, setNode_nodes_self]
    exact requestVoteReply_stepsDown higher outcome
  | appendEntries k =>
    obtain ⟨call, found, rest⟩ := Option.bind_eq_some_iff.mp delivered
    obtain ⟨pending, ⟨⟩⟩ := Option.ite_none_right_eq_some.mp rest
    obtain ⟨rf', reply, handled⟩ := appendEntries_returns (bounds.peers call.server).log.ne_nil
      (bounds.requests call (List.mem_of_getElem? found)).prev
    refine ⟨_, by simp [cluster, World.step, World.appendEntries, found, pending, handled]; rfl, ?_⟩
    simp only [World.rf, setNode_nodes_self]
    exact iff_of_true (appendEntries_stepsDown higher (appendEntries_cases handled)) trivial
  | appendEntriesReply k =>
    obtain ⟨call, found, rest⟩ := Option.bind_eq_some_iff.mp delivered
    obtain ⟨reply, replied, rest⟩ := Option.bind_eq_some_iff.mp rest
    obtain ⟨epoch, ⟨⟩⟩ := Option.ite_none_right_eq_some.mp rest
    obtain ⟨rf', handled⟩ := processAppendEntriesReply_returns call.server call.args reply
      (bounds.peers call.caller).commit
    refine ⟨_, by
      simp [cluster, World.step, World.appendEntriesReply, found, replied, epoch, handled]; rfl, ?_⟩
    simp only [World.rf, setNode_nodes_self]
    exact appendEntriesReply_stepsDown higher (processAppendEntriesReply_cases handled)
  | election | start | heartbeat | replicate | send | applyTake | applySend | applyDone | crash =>
    cases delivered

/-- Peer 0 leads term 1 and has sent a request to peer 2, which meanwhile stands for term 2 and
    rejects it. The rejection, of term 2, is on its way back as call 0. -/
def rejectedByHigherTerm : List (Event 3 Int) :=
  [.election 0, .requestVote 0, .requestVoteReply 0, .heartbeat 0 0, .replicate 0 1, .send 0 2,
    .election 2, .election 2, .appendEntries 0]

/-- The vote request of peer 2 makes peer 0 step down. -/
theorem leader_stepsDown_on_request :
    let w := (cluster 3 (Token Int) Int).after rejectedByHigherTerm
    (w.rf 0).whoami = .leader ∧ ∃ w', (cluster 3 (Token Int) Int).step w (.requestVote 3) = some w' ∧
      StepsDown 2 (w.rf 0) (w'.rf 0) := by
  intro w
  have delivered : w.delivers (.requestVote 3) = some (0, .requestVote ⟨2, 2, 0, 0⟩) := by
    decide +kernel
  have higher : (w.rf 0).currentTerm < 2 := by decide +kernel
  obtain ⟨w', next, rule⟩ := stepsDown_iff_looksAtTerm
    (Machine.reachable_after rejectedByHigherTerm) delivered higher
  exact ⟨by decide +kernel, w', next, rule.mpr trivial⟩

/-- The rejection, also of term 2, leaves peer 0 the leader of term 1. -/
theorem leader_ignores_higher_term :
    ¬ ∀ w e peer msg, (cluster 3 (Token Int) Int).Reachable w →
      w.delivers e = some (peer, msg) → (w.rf peer).currentTerm < msg.term →
      ∀ w', (cluster 3 (Token Int) Int).step w e = some w' →
        StepsDown msg.term (w.rf peer) (w'.rf peer) := by
  intro always
  let w := (cluster 3 (Token Int) Int).after rejectedByHigherTerm
  have delivered : w.delivers (.appendEntriesReply 0) =
      some (0, .appendEntriesReply ⟨1, 0, 1, 0, none, 0⟩ ⟨2, false, 0, 0⟩) := by
    decide +kernel
  have higher : (w.rf 0).currentTerm < 2 := by decide +kernel
  have term : ((cluster 3 (Token Int) Int).step w (.appendEntriesReply 0)).map
      (fun w' => (w'.rf 0).currentTerm) = some 1 := by
    decide +kernel
  obtain ⟨w', next, now⟩ := Option.map_eq_some_iff.mp term
  have rule := always w _ 0 _ (Machine.reachable_after rejectedByHigherTerm) delivered higher w' next
  have reached : (2 : Int) ≤ (w'.rf 0).currentTerm := rule.1
  omega

end DistributedCloud.RaftLab
