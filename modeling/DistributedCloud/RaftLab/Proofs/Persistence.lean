import DistributedCloud.RaftLab.Proofs.Steps

/-!
# What a crash loses

Every critical section that changes `currentTerm`, `votedFor` or the log has called `persist`
after the last such change by the time it releases the lock. So at any point of any run a
peer rebuilt from its persister has the three fields it had in memory.
-/

namespace DistributedCloud.RaftLab

variable {n : Nat} {Byte Command : Type} [Labgob Byte Command] [Zero Command]

section Make

variable (me : Fin n) (persister : Persister Byte)

omit [Zero Command] in
theorem readPersist_frame (rf : Raft n Byte Command) (data : List Byte) :
    ∃ term votedFor log, rf.readPersist data =
      { rf with currentTerm := term, votedFor := votedFor, log := log } := by
  unfold Raft.readPersist
  split
  · exact ⟨_, _, _, rfl⟩
  · split
    · exact ⟨_, _, _, rfl⟩
    · split
      · exact ⟨_, _, _, rfl⟩
      · split
        · exact ⟨_, _, _, rfl⟩
        · exact ⟨_, _, _, rfl⟩

variable (Command) in
/-- The fields that `make` sets whatever the persister holds. -/
theorem make_frame : ∃ term votedFor log, (make me persister : Raft n Byte Command) =
    { me := me, persister := persister, whoami := .follower, currentTerm := term,
      votedFor := votedFor, log := log, committedIndex := 0, lastApplied := 0,
      nextIndex := fun _ => 1, matchIndex := fun _ => 0 } := by
  obtain ⟨term, votedFor, log, read⟩ := readPersist_frame
    (⟨me, persister, .follower, 0, -1, [sentinel], 0, 0, fun _ => 1, fun _ => 0⟩ :
      Raft n Byte Command) persister.raftstate
  exact ⟨term, votedFor, log, read⟩

@[simp] theorem make_me : (make me persister : Raft n Byte Command).me = me := by
  obtain ⟨term, votedFor, log, made⟩ := make_frame Command me persister
  rw [made]

@[simp] theorem make_persister :
    (make me persister : Raft n Byte Command).persister = persister := by
  obtain ⟨term, votedFor, log, made⟩ := make_frame Command me persister
  rw [made]

@[simp] theorem make_whoami : (make me persister : Raft n Byte Command).whoami = .follower := by
  obtain ⟨term, votedFor, log, made⟩ := make_frame Command me persister
  rw [made]

@[simp] theorem make_committedIndex :
    (make me persister : Raft n Byte Command).committedIndex = 0 := by
  obtain ⟨term, votedFor, log, made⟩ := make_frame Command me persister
  rw [made]

@[simp] theorem make_lastApplied : (make me persister : Raft n Byte Command).lastApplied = 0 := by
  obtain ⟨term, votedFor, log, made⟩ := make_frame Command me persister
  rw [made]

@[simp] theorem make_nextIndex :
    (make me persister : Raft n Byte Command).nextIndex = fun _ => 1 := by
  obtain ⟨term, votedFor, log, made⟩ := make_frame Command me persister
  rw [made]

end Make

/-- A peer rebuilt from the persister has the term, the vote and the log of this one. -/
structure Durable (rf : Raft n Byte Command) : Prop where
  currentTerm : (make rf.me rf.persister : Raft n Byte Command).currentTerm = rf.currentTerm
  votedFor : (make rf.me rf.persister : Raft n Byte Command).votedFor = rf.votedFor
  log : (make rf.me rf.persister : Raft n Byte Command).log = rf.log

omit [Zero Command] in
/-- Reading what `persist` has just written gives back what it wrote. -/
theorem readPersist_persist (rf fresh : Raft n Byte Command) :
    fresh.readPersist rf.persist.persister.raftstate =
      { fresh with currentTerm := rf.currentTerm, votedFor := rf.votedFor, log := rf.log } := by
  have nonempty : ¬ (rf.persist.persister.raftstate.length < 1) := by
    have first := List.length_pos_iff.mpr (Labgob.encodeInt_ne_nil rf.currentTerm :
      Labgob.encodeInt Command rf.currentTerm ≠ ([] : List Byte))
    simp only [Raft.persist, List.length_append]
    omega
  have last : Labgob.decodeLog (Labgob.encodeLog rf.log : List Byte) = some (rf.log, []) := by
    have law := Labgob.decodeLog_encodeLog rf.log ([] : List Byte)
    rwa [List.append_nil] at law
  rw [Raft.readPersist, if_neg nonempty]
  simp only [Raft.persist, Labgob.decodeInt_encodeInt, last]

theorem durable_persist (rf : Raft n Byte Command) : Durable rf.persist := by
  constructor
  · simp only [make, readPersist_persist, persist_currentTerm]
  · simp only [make, readPersist_persist, persist_votedFor]
  · simp only [make, readPersist_persist, persist_log]

theorem durable_make (me : Fin n) (persister : Persister Byte) :
    Durable (make me persister : Raft n Byte Command) := by
  constructor <;> simp

/-- `Durable` only looks at the persister and the three persistent fields. -/
theorem Durable.of_same {rf rf' : Raft n Byte Command} (durable : Durable rf)
    (me : rf'.me = rf.me) (persister : rf'.persister = rf.persister)
    (currentTerm : rf'.currentTerm = rf.currentTerm) (votedFor : rf'.votedFor = rf.votedFor)
    (log : rf'.log = rf.log) : Durable rf' := by
  constructor
  · rw [me, persister, currentTerm]
    exact durable.currentTerm
  · rw [me, persister, votedFor]
    exact durable.votedFor
  · rw [me, persister, log]
    exact durable.log

theorem durable_observeTerm {rf : Raft n Byte Command} (durable : Durable rf) (term : Int) :
    Durable (rf.observeTerm term) := by
  unfold Raft.observeTerm
  split
  · exact durable_persist _
  · exact durable

theorem durable_accept (rf : Raft n Byte Command) (log : List (LogEntries Command))
    (leaderCommit : Int) : Durable (rf.accept log leaderCommit) := by
  unfold Raft.accept
  dsimp only
  split
  · exact (durable_persist { rf with log := log }).of_same rfl rfl rfl rfl rfl
  · exact durable_persist { rf with log := log }

/-! ## The handlers -/

/-- What a critical section must keep of a peer: its index, and durability. -/
structure Kept (rf rf' : Raft n Byte Command) : Prop where
  me : rf'.me = rf.me
  durable : Durable rf → Durable rf'

omit [Zero Command] in
theorem requestVote_me {rf rf' : Raft n Byte Command} {args : RequestVoteArgs}
    {reply : RequestVoteReply} (outcome : RequestVoteOutcome rf args rf' reply) :
    rf'.me = rf.me := by
  cases outcome with
  | stale => rfl
  | refused => simp
  | granted => simp

theorem requestVote_kept {rf rf' : Raft n Byte Command} {args : RequestVoteArgs}
    {reply : RequestVoteReply} (outcome : RequestVoteOutcome rf args rf' reply) : Kept rf rf' := by
  refine ⟨requestVote_me outcome, fun durable => ?_⟩
  cases outcome with
  | stale => exact durable
  | refused => exact durable_observeTerm durable _
  | granted => exact durable_persist _

theorem requestVoteReply_kept {rf rf' : Raft n Byte Command} {voteCounts voteCounts' : Int}
    {args : RequestVoteArgs} {reply : RequestVoteReply} {spawned : List (Task n)}
    (outcome : VoteReplyOutcome rf voteCounts args reply (rf', voteCounts', spawned)) :
    Kept rf rf' := by
  cases outcome with
  | ignored => exact ⟨rfl, id⟩
  | steppedDown => exact ⟨rfl, fun _ => durable_persist _⟩
  | counted => exact ⟨rfl, id⟩
  | elected => exact ⟨rfl, fun durable => durable.of_same rfl rfl rfl rfl rfl⟩

theorem appendEntries_kept {rf rf' : Raft n Byte Command} {args : AppendEntriesArgs Command}
    {reply : AppendEntriesReply} (outcome : AppendEntriesOutcome rf args rf' reply) :
    Kept rf rf' := by
  cases outcome with
  | stale => exact ⟨rfl, id⟩
  | short => exact ⟨by simp, fun durable => durable_observeTerm durable _⟩
  | mismatch => exact ⟨by simp, fun durable => durable_observeTerm durable _⟩
  | accepted => exact ⟨by simp, fun _ => durable_accept _ _ _⟩

theorem appendEntriesReply_kept {rf rf' : Raft n Byte Command} {server : Fin n}
    {args : AppendEntriesArgs Command} {reply : AppendEntriesReply}
    (outcome : AppendReplyOutcome rf server args reply rf') : Kept rf rf' := by
  cases outcome with
  | ignored => exact ⟨rfl, id⟩
  | steppedDown => exact ⟨rfl, fun _ => durable_persist _⟩
  | backedUp => exact ⟨rfl, fun durable => durable.of_same rfl rfl rfl rfl rfl⟩
  | heartbeat => exact ⟨rfl, id⟩
  | acknowledged _ _ _ committed =>
    obtain ⟨k, rfl⟩ := checkAndCommitLogs_frame committed
    exact ⟨rfl, fun durable => durable.of_same rfl rfl rfl rfl rfl⟩

theorem start_kept (rf : Raft n Byte Command) (command : Command) :
    Kept rf (rf.start command).1 := by
  rcases start_cases rf command with ⟨-, same⟩ | ⟨-, appended⟩
  · rw [same]
    exact ⟨rfl, id⟩
  · rw [appended]
    exact ⟨rfl, fun _ => durable_persist _⟩

/-! ## Whole runs -/

/-- What every node keeps throughout a run. -/
structure NodeDurable (peer : Fin n) (nd : Node n Byte Command) : Prop where
  me : nd.rf.me = peer
  durable : Durable nd.rf

theorem NodeDurable.kept {peer : Fin n} {nd nd' : Node n Byte Command}
    (before : NodeDurable peer nd) (kept : Kept nd.rf nd'.rf) : NodeDurable peer nd' :=
  ⟨kept.me.trans before.me, kept.durable before.durable⟩

theorem nodeDurable_step {w w' : World n Byte Command} {e : Event n Command}
    (before : ∀ peer, NodeDurable peer (w.nodes peer)) (next : w.step e = some w') :
    ∀ peer, NodeDurable peer (w'.nodes peer) := by
  have step := step_cases (fun peer => (before peer).me) next
  cases step with
  | election _ me => exact setNode_forall w _ _ before ⟨me, durable_persist _⟩
  | start => exact setNode_forall w _ _ before ((before _).kept (start_kept _ _))
  | heartbeatEnds => exact setNode_forall w _ _ before ((before _).kept ⟨rfl, id⟩)
  | heartbeat => exact setNode_forall w _ _ before ((before _).kept ⟨rfl, id⟩)
  | replicate => exact setNode_forall w _ _ before ((before _).kept ⟨rfl, id⟩)
  | send => exact setNode_forall w _ _ before ((before _).kept ⟨rfl, id⟩)
  | requestVote _ _ outcome =>
    exact setNode_forall w _ _ before ((before _).kept (requestVote_kept outcome))
  | requestVoteReply _ _ _ outcome =>
    exact setNode_forall w _ _ before ((before _).kept (requestVoteReply_kept outcome))
  | appendEntries _ _ outcome =>
    exact setNode_forall w _ _ before ((before _).kept (appendEntries_kept outcome))
  | appendEntriesReply _ _ _ outcome =>
    exact setNode_forall w _ _ before ((before _).kept (appendEntriesReply_kept outcome))
  | applyTake => exact setNode_forall w _ _ before ((before _).kept ⟨rfl, id⟩)
  | applySend => exact setNode_forall w _ _ before ((before _).kept ⟨rfl, id⟩)
  | applyDone =>
    exact setNode_forall w _ _ before
      ((before _).kept ⟨rfl, fun durable => durable.of_same rfl rfl rfl rfl rfl⟩)
  | crash => exact setNode_forall w _ _ before ⟨make_me _ _, durable_make _ _⟩

theorem nodeDurable_reachable {w : World n Byte Command}
    (reached : (cluster n Byte Command).Reachable w) :
    ∀ peer, NodeDurable peer (w.nodes peer) := by
  refine Machine.ReachableWhen.invariant (I := fun w => ∀ peer, NodeDurable peer (w.nodes peer))
    ?_ ?_ reached
  · intro peer
    exact ⟨make_me _ _, durable_make peer ⟨[]⟩⟩
  · intro w e w' _ before _ next
    exact nodeDurable_step before next

/-- The step relation of every reachable world. -/
theorem reachable_step {w w' : World n Byte Command} {e : Event n Command}
    (reached : (cluster n Byte Command).Reachable w)
    (next : (cluster n Byte Command).step w e = some w') : w.Step e w' :=
  step_cases (fun peer => (nodeDurable_reachable reached peer).me) next

/-- Crashing a peer at any point of any run and rebuilding it by `make` restores exactly the
    term, the vote and the log it had in memory. -/
theorem crash_restores {w : World n Byte Command}
    (reached : (cluster n Byte Command).Reachable w) (peer : Fin n) :
    ((w.crash peer).rf peer).currentTerm = (w.rf peer).currentTerm ∧
    ((w.crash peer).rf peer).votedFor = (w.rf peer).votedFor ∧
    ((w.crash peer).rf peer).log = (w.rf peer).log := by
  obtain ⟨me, durable⟩ := nodeDurable_reachable reached peer
  have rebuilt : (w.crash peer).rf peer = make (w.nodes peer).rf.me (w.rf peer).persister := by
    rw [me]
    simp [World.crash, World.rf, Node.boot]
  rw [rebuilt]
  exact ⟨durable.currentTerm, durable.votedFor, durable.log⟩

/-- Peer 1 has voted in term 1 and peer 0 has won it and appended a command; both are restored. -/
theorem crash_restores_voter_and_leader :
    let w := (cluster 3 (Token Int) Int).after
      [.election 0, .requestVote 0, .requestVoteReply 0, .start 0 7]
    (w.rf 1).votedFor = 0 ∧ ((w.crash 1).rf 1).votedFor = (w.rf 1).votedFor ∧
    (w.rf 0).log.length = 2 ∧ ((w.crash 0).rf 0).log = (w.rf 0).log := by
  intro w
  have voter := crash_restores (Machine.reachable_after
    (m := cluster 3 (Token Int) Int)
    [.election 0, .requestVote 0, .requestVoteReply 0, .start 0 7]) 1
  have leader := crash_restores (Machine.reachable_after
    (m := cluster 3 (Token Int) Int)
    [.election 0, .requestVote 0, .requestVoteReply 0, .start 0 7]) 0
  exact ⟨by decide +kernel, voter.2.1, by decide +kernel, leader.2.2⟩

end DistributedCloud.RaftLab
