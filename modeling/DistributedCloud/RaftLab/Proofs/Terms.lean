import DistributedCloud.RaftLab.History
import DistributedCloud.RaftLab.Proofs.Persistence

/-!
# Terms, votes and roles

What any step can do to the term, the vote and the role of the peer that takes it, and what
is recorded of it. `votedFor` changes within a term only from -1, and only an election or a
vote reply gives a peer a role.
-/

namespace DistributedCloud.RaftLab

open ReplicatedLog (setAt)

variable {n : Nat} {Byte Command : Type}

/-! ## The history of one step -/

section Record

variable (h : History n Command) (w w' : World n Byte Command) (e : Event n Command)

/-- What `note` leaves to `observe`. -/
theorem note_frame : ∃ bid accepted sent, h.note w w' e =
    { h with bid := bid, accepted := accepted, sent := sent } := by
  unfold History.note
  split
  · exact ⟨_, _, _, rfl⟩
  · split
    · exact ⟨_, _, _, rfl⟩
    · exact ⟨_, _, _, rfl⟩
  · split
    · exact ⟨_, _, _, rfl⟩
    · split
      · exact ⟨_, _, _, rfl⟩
      · exact ⟨_, _, _, rfl⟩
  · exact ⟨_, _, _, rfl⟩

@[simp] theorem note_voted : (h.note w w' e).voted = h.voted := by
  obtain ⟨bid, accepted, sent, noted⟩ := note_frame h w w' e
  rw [noted]

@[simp] theorem note_leader : (h.note w w' e).leader = h.leader := by
  obtain ⟨bid, accepted, sent, noted⟩ := note_frame h w w' e
  rw [noted]

@[simp] theorem note_termLog : (h.note w w' e).termLog = h.termLog := by
  obtain ⟨bid, accepted, sent, noted⟩ := note_frame h w w' e
  rw [noted]

variable {h w w' e}

theorem note_bid (quiet : ∀ p, e ≠ .election p) : (h.note w w' e).bid = h.bid := by
  unfold History.note
  split
  · exact absurd rfl (quiet _)
  · split <;> rfl
  · split
    · rfl
    · split <;> rfl
  · rfl

theorem note_accepted (quiet : ∀ k, e ≠ .appendEntries k) :
    (h.note w w' e).accepted = h.accepted := by
  unfold History.note
  split
  · rfl
  · split <;> rfl
  · exact absurd rfl (quiet _)
  · rfl

/-- What is recorded of an `AppendEntries` request that the peer accepts, and of one that it
    does not. -/
theorem note_appendEntries {k : Nat} {call : Call n (AppendEntriesArgs Command) AppendEntriesReply}
    (found : w.appends[k]? = some call) :
    (h.note w w' (.appendEntries k)).accepted =
      if Accepts (w.rf call.server) call.args then
        setAt h.accepted call.server call.args.term (max (h.accepted call.server call.args.term)
          (call.args.prevLogIndex + call.args.items.length))
      else h.accepted := by
  simp only [History.note, found]
  split <;> rfl

theorem record_eq {peer : Fin n} (actor : w.actor e = some peer) :
    History.record w e w' h = (h.note w w' e).observe peer (w'.rf peer) := by
  simp only [History.record, actor]

theorem record_voted {peer : Fin n} (actor : w.actor e = some peer) :
    (History.record w e w' h).voted =
      setAt h.voted peer (w'.rf peer).currentTerm (w'.rf peer).votedFor := by
  rw [record_eq actor]
  simp [History.observe]

theorem record_leader {peer : Fin n} (actor : w.actor e = some peer) :
    (History.record w e w' h).leader =
      if (w'.rf peer).whoami = .leader then
        Function.update h.leader (w'.rf peer).currentTerm (some peer)
      else h.leader := by
  rw [record_eq actor]
  simp [History.observe]

variable [Labgob Byte Command] [Zero Command]

/-- A step changes no node but that of the peer that takes it. -/
theorem step_actor (step : w.Step e w') :
    ∃ peer, w.actor e = some peer ∧ ∀ q, q ≠ peer → w'.nodes q = w.nodes q := by
  cases step with
  | requestVote found =>
    exact ⟨_, by simp [World.actor, found], fun q other => setNode_nodes_ne _ _ _ other⟩
  | requestVoteReply found =>
    exact ⟨_, by simp [World.actor, found], fun q other => setNode_nodes_ne _ _ _ other⟩
  | appendEntries found =>
    exact ⟨_, by simp [World.actor, found], fun q other => setNode_nodes_ne _ _ _ other⟩
  | appendEntriesReply found =>
    exact ⟨_, by simp [World.actor, found], fun q other => setNode_nodes_ne _ _ _ other⟩
  | election | start | heartbeatEnds | heartbeat | replicate | send | applyTake | applySend
  | applyDone | crash => exact ⟨_, rfl, fun q other => setNode_nodes_ne _ _ _ other⟩

end Record

/-! ## Terms and votes of one peer -/

/-- What a handler that does not win an election can do to the term, the vote and the role of
    its peer. -/
inductive TermChange (rf rf' : Raft n Byte Command) : Prop
  | same (term : rf'.currentTerm = rf.currentTerm) (vote : rf'.votedFor = rf.votedFor)
      (role : rf'.whoami = rf.whoami)
  | raised (higher : rf.currentTerm < rf'.currentTerm) (role : rf'.whoami = .follower)
  | voted (term : rf'.currentTerm = rf.currentTerm) (free : rf.votedFor = -1)
      (role : rf'.whoami = rf.whoami)

section Handlers

variable [Labgob Byte Command]

theorem observeTerm_change (rf : Raft n Byte Command) (term : Int) :
    TermChange rf (rf.observeTerm term) := by
  unfold Raft.observeTerm
  split
  · rename_i higher
    exact .raised higher rfl
  · exact .same rfl rfl rfl

theorem requestVote_change {rf rf' : Raft n Byte Command} {args : RequestVoteArgs}
    {reply : RequestVoteReply} (outcome : RequestVoteOutcome rf args rf' reply) :
    TermChange rf rf' := by
  cases outcome with
  | stale => exact .same rfl rfl rfl
  | refused => exact observeTerm_change rf args.term
  | granted current canVote =>
    rcases current.lt_or_eq with higher | same
    · have raised : rf.observeTerm args.term = rf.convertToFollower args.term := if_pos higher
      rw [raised]
      exact .raised higher rfl
    · have stays : rf.observeTerm args.term = rf := if_neg (by omega)
      rw [stays] at canVote ⊢
      rcases canVote with free | again
      · exact .voted rfl free rfl
      · exact .same rfl again.symm rfl

theorem appendEntries_change {rf rf' : Raft n Byte Command} {args : AppendEntriesArgs Command}
    {reply : AppendEntriesReply} (outcome : AppendEntriesOutcome rf args rf' reply) :
    TermChange rf rf' := by
  cases outcome with
  | stale => exact .same rfl rfl rfl
  | short => exact observeTerm_change rf args.term
  | mismatch => exact observeTerm_change rf args.term
  | @accepted log =>
    have term := accept_currentTerm (rf.observeTerm args.term) log args.leaderCommit
    have vote := accept_votedFor (rf.observeTerm args.term) log args.leaderCommit
    have who := accept_whoami (rf.observeTerm args.term) log args.leaderCommit
    cases observeTerm_change rf args.term with
    | same now kept role => exact .same (term.trans now) (vote.trans kept) (who.trans role)
    | raised higher role => exact .raised (term ▸ higher) (who.trans role)
    | voted now free role => exact .voted (term.trans now) free (who.trans role)

/-- A request that is not stale brings its receiver to its term. -/
theorem appendEntries_term {rf rf' : Raft n Byte Command} {args : AppendEntriesArgs Command}
    {reply : AppendEntriesReply} (outcome : AppendEntriesOutcome rf args rf' reply)
    (current : rf.currentTerm ≤ args.term) : rf'.currentTerm = args.term := by
  cases outcome with
  | stale older => omega
  | short => exact observeTerm_currentTerm current
  | mismatch => exact observeTerm_currentTerm current
  | accepted =>
    rw [accept_currentTerm]
    exact observeTerm_currentTerm current

theorem appendEntriesReply_change {rf rf' : Raft n Byte Command} {server : Fin n}
    {args : AppendEntriesArgs Command} {reply : AppendEntriesReply}
    (outcome : AppendReplyOutcome rf server args reply rf') : TermChange rf rf' := by
  cases outcome with
  | ignored => exact .same rfl rfl rfl
  | steppedDown _ higher => exact .raised higher rfl
  | backedUp => exact .same rfl rfl rfl
  | heartbeat => exact .same rfl rfl rfl
  | acknowledged _ _ _ committed =>
    obtain ⟨k, rfl⟩ := checkAndCommitLogs_frame committed
    exact .same rfl rfl rfl

theorem start_change (rf : Raft n Byte Command) (command : Command) :
    TermChange rf (rf.start command).1 := by
  rcases start_cases rf command with ⟨-, same⟩ | ⟨-, appended⟩
  · rw [same]
    exact .same rfl rfl rfl
  · rw [appended]
    exact .same rfl rfl rfl

end Handlers

variable [Labgob Byte Command] [Zero Command]

/-- What an event does to the state of the peer that takes it. -/
inductive Handled (w w' : World n Byte Command) (peer : Fin n) : Event n Command → Prop
  | stood (role : (w.rf peer).whoami ≠ .leader)
      (after : w'.rf peer = (w.rf peer).startElection) : Handled w w' peer (.election peer)
  | started {command : Command} (after : w'.rf peer = ((w.rf peer).start command).1) :
      Handled w w' peer (.start peer command)
  | voted {k : Nat} {call : Call n RequestVoteArgs RequestVoteReply} {reply : RequestVoteReply}
      (found : w.votes[k]? = some call) (server : call.server = peer)
      (outcome : RequestVoteOutcome (w.rf peer) call.args (w'.rf peer) reply) :
      Handled w w' peer (.requestVote k)
  | counted {k : Nat} {call : Call n RequestVoteArgs RequestVoteReply} {reply : RequestVoteReply}
      {voteCounts : Int} {spawned : List (Task n)}
      (found : w.votes[k]? = some call) (caller : call.caller = peer)
      (replied : call.reply = some reply)
      (outcome : VoteReplyOutcome (w.rf peer) ((w.nodes peer).voteCounts call.args.term) call.args
        reply (w'.rf peer, voteCounts, spawned)) :
      Handled w w' peer (.requestVoteReply k)
  | appended {k : Nat} {call : Call n (AppendEntriesArgs Command) AppendEntriesReply}
      {reply : AppendEntriesReply}
      (found : w.appends[k]? = some call) (server : call.server = peer)
      (outcome : AppendEntriesOutcome (w.rf peer) call.args (w'.rf peer) reply) :
      Handled w w' peer (.appendEntries k)
  | answered {k : Nat} {call : Call n (AppendEntriesArgs Command) AppendEntriesReply}
      {reply : AppendEntriesReply}
      (found : w.appends[k]? = some call) (caller : call.caller = peer)
      (replied : call.reply = some reply)
      (outcome : AppendReplyOutcome (w.rf peer) call.server call.args reply (w'.rf peer)) :
      Handled w w' peer (.appendEntriesReply k)
  | applied {lastApplied : Int} (later : (w.rf peer).lastApplied ≤ lastApplied)
      (after : w'.rf peer = { w.rf peer with lastApplied := lastApplied }) :
      Handled w w' peer (.applyDone peer)
  | crashed (after : w'.rf peer = make peer (w.rf peer).persister) : Handled w w' peer (.crash peer)
  | idle {e : Event n Command} (standing : ∀ p, e ≠ .election p)
      (appending : ∀ k, e ≠ .appendEntries k) (after : w'.rf peer = w.rf peer) :
      Handled w w' peer e

theorem step_handled {w w' : World n Byte Command} {e : Event n Command} {peer : Fin n}
    (step : w.Step e w') (actor : w.actor e = some peer) : Handled w w' peer e := by
  cases step with
  | election role =>
    cases actor
    exact .stood role (by simp only [World.rf, setNode_nodes_self])
  | start =>
    cases actor
    exact .started (by simp only [World.rf, setNode_nodes_self])
  | @requestVote k call rf reply found _ outcome =>
    simp only [World.actor, found, Option.map_some, Option.some.injEq] at actor
    subst actor
    refine .voted found rfl (?_ : RequestVoteOutcome _ _ _ reply)
    simp only [World.rf, setNode_nodes_self]
    exact outcome
  | @requestVoteReply k call reply rf voteCounts spawned found replied _ outcome =>
    simp only [World.actor, found, Option.map_some, Option.some.injEq] at actor
    subst actor
    refine .counted found rfl replied (?_ : VoteReplyOutcome _ _ _ _ (_, voteCounts, spawned))
    simp only [World.rf, setNode_nodes_self]
    exact outcome
  | @appendEntries k call rf reply found _ outcome =>
    simp only [World.actor, found, Option.map_some, Option.some.injEq] at actor
    subst actor
    refine .appended found rfl (?_ : AppendEntriesOutcome _ _ _ reply)
    simp only [World.rf, setNode_nodes_self]
    exact outcome
  | appendEntriesReply found replied _ outcome =>
    simp only [World.actor, found, Option.map_some, Option.some.injEq] at actor
    subst actor
    refine .answered found rfl replied ?_
    simp only [World.rf, setNode_nodes_self]
    exact outcome
  | @applyDone peer applyEnd =>
    cases actor
    refine .applied (le_max_right applyEnd _) ?_
    simp only [World.rf, setNode_nodes_self]
  | crash =>
    cases actor
    exact .crashed (by simp only [World.rf, setNode_nodes_self, Node.boot])
  | heartbeatEnds | heartbeat | replicate | send | applyTake | applySend =>
    cases actor
    exact .idle (by simp) (by simp) (by simp only [World.rf, setNode_nodes_self])

/-- What a step is for the peer that takes it: the start of its election, the vote that wins
    it, a crash, or a change of the kind above. -/
inductive PeerStep (w w' : World n Byte Command) (e : Event n Command) (peer : Fin n) : Prop
  | stood (event : e = .election peer) (before : (w.rf peer).whoami ≠ .leader)
      (after : w'.rf peer = (w.rf peer).startElection)
  | elected {k : Nat} {call : Call n RequestVoteArgs RequestVoteReply} {reply : RequestVoteReply}
      (event : e = .requestVoteReply k) (found : w.votes[k]? = some call)
      (caller : call.caller = peer) (replied : call.reply = some reply)
      (vote : reply.voteGranted = true) (term : call.args.term = (w.rf call.caller).currentTerm)
      (role : (w.rf call.caller).whoami = .candidate)
      (enough : (n / 2 : Nat) < (w.nodes call.caller).voteCounts call.args.term + 1)
      (after : w'.rf peer = (w.rf peer).convertToLeader.1)
  | restarted (event : e = .crash peer)
      (term : (w'.rf peer).currentTerm = (w.rf peer).currentTerm)
      (vote : (w'.rf peer).votedFor = (w.rf peer).votedFor)
      (role : (w'.rf peer).whoami = .follower)
  | changed (change : TermChange (w.rf peer) (w'.rf peer))

theorem step_peer {w w' : World n Byte Command} {e : Event n Command} {peer : Fin n}
    (node : NodeDurable peer (w.nodes peer)) (step : w.Step e w')
    (actor : w.actor e = some peer) : PeerStep w w' e peer := by
  cases step_handled step actor with
  | stood role after => exact .stood rfl role after
  | @started command after => exact .changed (after ▸ start_change (w.rf peer) command)
  | voted _ _ outcome => exact .changed (requestVote_change outcome)
  | @counted k call reply voteCounts spawned found caller replied outcome =>
    subst caller
    generalize after : w'.rf call.caller = rf at outcome
    cases outcome with
    | ignored => exact .changed (after ▸ .same rfl rfl rfl)
    | steppedDown _ _ higher => exact .changed (after ▸ .raised higher rfl)
    | counted => exact .changed (after ▸ .same rfl rfl rfl)
    | elected term role _ vote majority =>
      exact .elected rfl found rfl replied vote term role majority after
  | appended _ _ outcome => exact .changed (appendEntries_change outcome)
  | answered _ _ _ outcome => exact .changed (appendEntriesReply_change outcome)
  | applied _ after => exact .changed (after ▸ .same rfl rfl rfl)
  | crashed after =>
    obtain ⟨me, durable⟩ := node
    have term := durable.currentTerm
    have vote := durable.votedFor
    rw [me] at term vote
    rw [← World.rf, ← after] at term vote
    exact .restarted rfl term vote (after ▸ make_whoami _ _)
  | idle _ _ after => exact .changed (after ▸ .same rfl rfl rfl)

/-! ## What follows for the peer that takes a step -/

/-- The role of a peer that still has one is the one it had, in the same term. -/
def RoleKept (rf rf' : Raft n Byte Command) : Prop :=
  rf'.whoami ≠ .follower → rf'.whoami = rf.whoami ∧ rf'.currentTerm = rf.currentTerm

/-- The term does not go down, a vote given stays as long as the term does, and a peer with a
    role in its term has it from before or has voted for itself. -/
structure TermStep (rf rf' : Raft n Byte Command) : Prop where
  mono : rf.currentTerm ≤ rf'.currentTerm
  kept : rf'.currentTerm = rf.currentTerm → rf.votedFor = -1 ∨ rf'.votedFor = rf.votedFor
  role : rf'.whoami ≠ .follower →
    (rf'.currentTerm = rf.currentTerm ∧ rf.whoami ≠ .follower) ∨ rf'.votedFor = (rf.me : Nat)

omit [Labgob Byte Command] [Zero Command] in
theorem TermChange.roleKept {rf rf' : Raft n Byte Command} (change : TermChange rf rf') :
    RoleKept rf rf' := by
  intro active
  cases change with
  | same term _ role => exact ⟨role, term⟩
  | raised _ role => exact absurd role active
  | voted term _ role => exact ⟨role, term⟩

omit [Labgob Byte Command] [Zero Command] in
theorem TermChange.termStep {rf rf' : Raft n Byte Command} (change : TermChange rf rf') :
    TermStep rf rf' := by
  have role : rf'.whoami ≠ .follower →
      (rf'.currentTerm = rf.currentTerm ∧ rf.whoami ≠ .follower) ∨ rf'.votedFor = (rf.me : Nat) := by
    intro active
    obtain ⟨same, term⟩ := change.roleKept active
    exact Or.inl ⟨term, same ▸ active⟩
  cases change with
  | same term vote => exact ⟨term.ge, fun _ => Or.inr vote, role⟩
  | raised higher => exact ⟨higher.le, fun same => by omega, role⟩
  | voted term free => exact ⟨term.ge, fun _ => Or.inl free, role⟩

omit [Zero Command] in
theorem PeerStep.termStep {w w' : World n Byte Command} {e : Event n Command} {peer : Fin n}
    (step : PeerStep w w' e peer) : TermStep (w.rf peer) (w'.rf peer) := by
  cases step with
  | stood _ _ after =>
    rw [after]
    refine ⟨?_, ?_, fun _ => Or.inr rfl⟩
    · change (w.rf peer).currentTerm ≤ (w.rf peer).currentTerm + 1
      omega
    · intro same
      change (w.rf peer).currentTerm + 1 = (w.rf peer).currentTerm at same
      omega
  | elected _ _ caller _ _ _ role _ after =>
    rw [after]
    rw [caller] at role
    refine ⟨le_refl _, fun _ => Or.inr rfl, fun _ => Or.inl ⟨rfl, ?_⟩⟩
    rw [role]
    simp
  | restarted _ term vote role =>
    exact ⟨term.ge, fun _ => Or.inr vote, fun active => absurd role active⟩
  | changed change => exact change.termStep

omit [Zero Command] in
/-- Only an election or a vote reply gives a peer a new role. -/
theorem PeerStep.roleKept {w w' : World n Byte Command} {e : Event n Command} {peer : Fin n}
    (step : PeerStep w w' e peer) (standing : e ≠ .election peer)
    (counting : ∀ k, e ≠ .requestVoteReply k) : RoleKept (w.rf peer) (w'.rf peer) := by
  cases step with
  | stood event => exact absurd event standing
  | elected event => exact absurd event (counting _)
  | restarted _ _ _ role => exact fun active => absurd role active
  | changed change => exact change.roleKept

omit [Zero Command] in
/-- Only a crash takes the leader's role from a peer within a term. -/
theorem PeerStep.leaderKept {w w' : World n Byte Command} {e : Event n Command} {peer : Fin n}
    (step : PeerStep w w' e peer) (alive : e ≠ .crash peer)
    (leads : (w.rf peer).whoami = .leader)
    (term : (w'.rf peer).currentTerm = (w.rf peer).currentTerm) :
    (w'.rf peer).whoami = .leader := by
  cases step with
  | stood _ before => exact absurd leads before
  | elected _ _ _ _ _ _ _ _ after =>
    rw [after]
    rfl
  | restarted event => exact absurd event alive
  | changed change =>
    cases change with
    | same _ _ role => exact role.trans leads
    | raised higher => omega
    | voted _ _ role => exact role.trans leads

end DistributedCloud.RaftLab
