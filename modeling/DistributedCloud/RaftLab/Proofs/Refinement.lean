import DistributedCloud.RaftLab.Proofs.Requests

/-!
# The cluster refines the replicas

If every request is built by a leader, each critical section of the cluster is a sequence of
at most two actions of the abstract replicas: the peer reaches the term it sees, and then votes
in it or takes over a part of its log. What the two levels know about each other is kept by
every step.
-/

namespace DistributedCloud.RaftLab

open ReplicatedLog (Replicas Formed Act Extends Covered Agree setAt setAt_self setAt_ne)

variable {n : Nat} {Byte Command : Type}

/-- The actions that lead from one recorded world to another. -/
def Acts (ok : Replicas (Fin n) (LogEntries Command) → Fin n → Nat → Prop)
    (w : World n Byte Command) (h : History n Command) (w' : World n Byte Command)
    (h' : History n Command) : Prop :=
  Relation.ReflTransGen (Act LogEntries.term ok) (replicas w h) (replicas w' h')

variable [Labgob Byte Command] [Zero Command]

/-! ## The actions of one step -/

section Step

variable {w w' : World n Byte Command} {h : History n Command} {e : Event n Command} {peer : Fin n}
  {ok : Replicas (Fin n) (LogEntries Command) → Fin n → Nat → Prop}

omit [Zero Command] in
/-- The vote that is on record for a term a peer has just seen. -/
theorem Ballots.observed (ballots : Ballots w h) (term : Int) :
    h.voted peer ((w.rf peer).observeTerm term).currentTerm =
      ((w.rf peer).observeTerm term).votedFor := by
  unfold Raft.observeTerm
  split
  · rename_i higher
    exact ballots.future peer term higher
  · exact ballots.current peer

omit [Labgob Byte Command] in
/-- A term that a candidate wins has had no leader. -/
theorem Replicating.vacant (inv : Replicating w h) (ballots : Ballots w h) (calls : VoteCalls w h)
    {k : Nat} {call : Call n RequestVoteArgs RequestVoteReply} {reply : RequestVoteReply}
    (found : w.votes[k]? = some call) (replied : call.reply = some reply)
    (vote : reply.voteGranted = true) (term : call.args.term = (w.rf call.caller).currentTerm)
    (role : (w.rf call.caller).whoami = .candidate)
    (enough : (n / 2 : Nat) < (w.nodes call.caller).voteCounts call.args.term + 1) :
    h.leader (w.rf call.caller).currentTerm = none := by
  cases led : h.leader (w.rf call.caller).currentTerm with
  | none => rfl
  | some q =>
    have own := calls.majority found replied vote term role enough
    rw [term] at own
    obtain rfl := leader_unique (ballots.won _ q led) own
    exact absurd led (inv.standing _ role).fresh

/-- A leader's own requests do not come back to it, and no other peer sends any in its term. -/
theorem Replicating.not_leader (inv : Replicating w h) (ballots : Ballots w h)
    {call : Call n (AppendEntriesArgs Command) AppendEntriesReply} {rf : Raft n Byte Command}
    {reply : AppendEntriesReply} (member : call ∈ w.appends)
    (outcome : AppendEntriesOutcome (w.rf call.server) call.args rf reply)
    (current : (w.rf call.server).currentTerm ≤ call.args.term) : rf.whoami ≠ .leader := by
  intro leads
  have request := inv.requests call member
  have term := appendEntries_term outcome current
  obtain ⟨role, stays⟩ := (appendEntries_change outcome).roleKept (by simp [leads])
  have led := ballots.leaders call.server (role ▸ leads)
  rw [← stays, term, request.leader] at led
  exact request.other (Option.some.inj led).symm

section Actions

variable (actor : w.actor e = some peer) (frame : ∀ q, q ≠ peer → w'.nodes q = w.nodes q)
  (ballots : Ballots w h) (inv : Replicating w h) (bounds : PeerBounds (w.rf peer))

include actor frame ballots inv bounds

omit [Labgob Byte Command] in
/-- A step that leaves the persistent fields as they are is no action. -/
theorem acts_quiet {rf : Raft n Byte Command} (here : w'.rf peer = rf)
    (role : rf.whoami = .leader → (w.rf peer).whoami = .leader)
    (term : rf.currentTerm = (w.rf peer).currentTerm)
    (vote : rf.votedFor = (w.rf peer).votedFor) (log : rf.log = (w.rf peer).log)
    (bid : (h.note w w' e).bid = h.bid) (accepted : (h.note w w' e).accepted = h.accepted) :
    Acts ok w h w' (History.record w e w' h) := by
  subst here
  rw [Acts, replicas_quiet actor frame ballots inv.formed bounds.log.ne_nil role term vote log bid
    accepted]

/-- A step in which the peer only sees a term raises it. -/
theorem acts_observed {term : Int} (here : w'.rf peer = (w.rf peer).observeTerm term)
    (bid : (h.note w w' e).bid = h.bid) (accepted : (h.note w w' e).accepted = h.accepted) :
    Acts ok w h w' (History.record w e w' h) := by
  have change : TermChange (w.rf peer) (w'.rf peer) := here ▸ observeTerm_change _ term
  have vote : h.voted peer (w'.rf peer).currentTerm = (w'.rf peer).votedFor :=
    here ▸ ballots.observed term
  have log : (w'.rf peer).log = (w.rf peer).log := here ▸ observeTerm_log _ term
  rw [Acts, replicas_raised actor frame ballots inv.formed bounds.log.ne_nil change vote log bid
    accepted]
  exact .single (.raise change.termStep.mono)

omit [Labgob Byte Command] in
/-- A won election. -/
theorem acts_elected (calls : VoteCalls w h) {k : Nat}
    {call : Call n RequestVoteArgs RequestVoteReply} {reply : RequestVoteReply}
    (found : w.votes[k]? = some call) (caller : call.caller = peer)
    (replied : call.reply = some reply) (vote : reply.voteGranted = true)
    (term : call.args.term = (w.rf call.caller).currentTerm)
    (role : (w.rf call.caller).whoami = .candidate)
    (enough : (n / 2 : Nat) < (w.nodes call.caller).voteCounts call.args.term + 1)
    (after : w'.rf peer = (w.rf peer).convertToLeader.1) (bid : (h.note w w' e).bid = h.bid)
    (accepted : (h.note w w' e).accepted = h.accepted) :
    Acts ok w h w' (History.record w e w' h) := by
  have vacant := inv.vacant ballots calls found replied vote term role enough
  have won := calls.majority found replied vote term role enough
  subst caller
  rw [term] at won
  rw [Acts, replicas_elected actor frame ballots bounds.log.ne_nil after bid accepted]
  refine .single (.lead vacant ?_ ((inv.standing _ role).bid vacant) (won.mono ?_))
  · have positive := bounds.role (by simp [role])
    change 0 < (w.rf call.caller).currentTerm
    omega
  · intro f voted
    rw [supporters, Finset.mem_filter] at voted
    rw [Replicas.voters, Finset.mem_filter]
    exact ⟨Finset.mem_univ f, candidateOf_eq_some.mpr voted.2⟩

omit [Labgob Byte Command] in
/-- A vote. -/
theorem acts_granted {k : Nat} {call : Call n RequestVoteArgs RequestVoteReply}
    (calls : VoteCalls w h) (found : w.votes[k]? = some call) (server : call.server = peer)
    (current : (w.rf peer).currentTerm ≤ call.args.term)
    (upToDate : UpToDate call.args (w.rf peer).log)
    (change : TermChange (w.rf peer) (w'.rf peer))
    (term : (w'.rf peer).currentTerm = call.args.term)
    (vote : (w'.rf peer).votedFor = call.args.candidateId)
    (log : (w'.rf peer).log = (w.rf peer).log)
    (bid : (h.note w w' e).bid = h.bid) (accepted : (h.note w w' e).accepted = h.accepted) :
    Acts ok w h w' (History.record w e w' h) := by
  have member := List.mem_of_getElem? found
  have asked := calls.each call member
  have other : call.caller ≠ peer := fun same => asked.other (server.trans same.symm)
  rw [asked.candidate] at vote
  rw [Acts, replicas_granted actor frame ballots inv.formed bounds.log.ne_nil change vote log bid
    accepted, term]
  refine .tail (.single (.raise current)) (.vote ?_ ?_)
  · simp only [Replicas.raise, Function.update_self, Function.update_of_ne other]
    exact asked.term
  · simp only [Replicas.raise, Function.update_self]
    exact (inv.bids call member).upToDate upToDate

/-- An accepted request. -/
theorem acts_accepted {k : Nat} {call : Call n (AppendEntriesArgs Command) AppendEntriesReply}
    {log : List (LogEntries Command)} (found : w.appends[k]? = some call)
    (event : e = .appendEntries k) (server : call.server = peer)
    (accepts : Accepts (w.rf call.server) call.args)
    (installed : installEntries (w.rf call.server).log call.args.prevLogIndex call.args.items =
      some log)
    (here : w'.rf peer = ((w.rf peer).observeTerm call.args.term).accept log call.args.leaderCommit)
    (allowed : ∀ j : Nat, (j : Int) = call.args.prevLogIndex + call.args.items.length →
      ok ((replicas w h).raise call.server call.args.term) call.server j) :
    Acts ok w h w' (History.record w e w' h) := by
  subst server event
  have member := List.mem_of_getElem? found
  have request := inv.requests call member
  have current : (w.rf call.server).currentTerm ≤ call.args.term := accepts.1
  obtain ⟨j, index, inside, taken⟩ := inv.installed member bounds.log accepts installed
  have outcome := AppendEntriesOutcome.accepted accepts installed
  rw [← here] at outcome
  have term := appendEntries_term outcome current
  have follows := inv.not_leader ballots member outcome current
  have vote : h.voted call.server (w'.rf call.server).currentTerm =
      (w'.rf call.server).votedFor := by
    rw [here, accept_currentTerm, accept_votedFor]
    exact ballots.observed _
  rw [Acts, replicas_appended (j := j) actor frame ballots inv.formed bounds.log.ne_nil follows vote
    ?_ (note_bid (by simp)) ?_, term]
  · have leads : ((replicas w h).raise call.server call.args.term).leader
        (((replicas w h).raise call.server call.args.term).term call.server) =
          some call.caller := by
      simp only [Replicas.raise, Function.update_self]
      exact request.leader
    refine .tail (.single (.raise current))
      (.accept leads request.other.symm ?_ (allowed j index))
    simp only [Replicas.raise, Function.update_self]
    exact inside
  · rw [term, here, accept_log, taken]
  · rw [note_appendEntries found, if_pos accepts, term, index]

end Actions

/-- Every step is a sequence of actions, given that `ok` allows what it accepts. -/
theorem step_acts (node : ∀ p, NodeDurable p (w.nodes p)) (bounds : WorldBounds w)
    (ballots : Ballots w h) (calls : VoteCalls w h) (inv : Replicating w h) (step : w.Step e w')
    (allowed : w.WhenAppend (fun call => Accepts (w.rf call.server) call.args →
      ∀ j : Nat, (j : Int) = call.args.prevLogIndex + call.args.items.length →
        ok ((replicas w h).raise call.server call.args.term) call.server j) e) :
    Acts ok w h w' (History.record w e w' h) := by
  obtain ⟨peer, actor, frame⟩ := step_actor step
  have peers : PeerBounds (w.rf peer) := bounds.peers peer
  cases step_handled step actor with
  | stood _ after =>
    rw [Acts, replicas_stood actor frame ballots inv.formed peers.log.ne_nil after (node peer).me rfl
      (note_accepted (by simp))]
    exact .single (.stand (by rw [replicas_term]; omega))
  | @started command after =>
    rcases start_cases (w.rf peer) command with ⟨-, same⟩ | ⟨role, appended⟩
    · exact acts_quiet actor frame ballots inv peers (after.trans same) id rfl rfl rfl rfl rfl
    · have here := after.trans appended
      have log : (w'.rf peer).log = (w.rf peer).log ++ [⟨(w.rf peer).currentTerm, command⟩] := by
        rw [here, persist_log]
      rw [Acts, replicas_extended actor frame ballots role (here ▸ role) (by rw [here]; rfl)
        (by rw [here]; rfl) log rfl rfl]
      exact .single (.extend (ballots.leaders peer role) rfl)
  | @voted k call reply found server outcome =>
    have change := requestVote_change outcome
    generalize after : w'.rf peer = rf at outcome
    cases outcome with
    | stale => exact acts_quiet actor frame ballots inv peers after id rfl rfl rfl rfl rfl
    | refused => exact acts_observed actor frame ballots inv peers after rfl rfl
    | granted current _ upToDate =>
      refine acts_granted actor frame ballots inv peers calls found server current upToDate change
        ?_ ?_ ?_ rfl rfl
      · rw [after, persist_currentTerm]
        exact observeTerm_currentTerm current
      · rw [after, persist_votedFor]
      · rw [after, persist_log]
        exact observeTerm_log _ _
  | @counted k call reply voteCounts spawned found caller replied outcome =>
    generalize after : w'.rf peer = rf at outcome
    cases outcome with
    | ignored | counted => exact acts_quiet actor frame ballots inv peers after id rfl rfl rfl rfl rfl
    | steppedDown _ _ higher =>
      have observed : (w.rf peer).observeTerm reply.term = _ := if_pos higher
      exact acts_observed actor frame ballots inv peers (after.trans observed.symm) rfl rfl
    | elected term role _ vote majority =>
      subst caller
      exact acts_elected actor frame ballots inv peers calls found rfl replied vote term role
        majority after rfl rfl
  | @appended k call reply found server outcome =>
    have noted : (h.note w w' (.appendEntries k)).accepted = _ := note_appendEntries found
    generalize after : w'.rf peer = rf at outcome
    subst server
    cases outcome with
    | stale older =>
      refine acts_quiet actor frame ballots inv peers after id rfl rfl rfl (note_bid (by simp)) ?_
      rw [noted, if_neg fun accepts => absurd accepts.1 (by omega)]
    | short current beyond =>
      refine acts_observed actor frame ballots inv peers after (note_bid (by simp)) ?_
      rw [noted, if_neg fun accepts => absurd (accepts_iff.mp accepts).2.1 (by omega)]
    | mismatch current within differs =>
      refine acts_observed actor frame ballots inv peers after (note_bid (by simp)) ?_
      rw [noted, if_neg fun accepts => differs (accepts_iff.mp accepts).2.2]
    | accepted accepts installed =>
      exact acts_accepted actor frame ballots inv peers found rfl rfl accepts installed after
        (allowed call found accepts)
  | @answered k call reply found caller replied outcome =>
    generalize after : w'.rf peer = rf at outcome
    cases outcome with
    | ignored | heartbeat =>
      exact acts_quiet actor frame ballots inv peers after id rfl rfl rfl rfl rfl
    | steppedDown _ higher =>
      have observed : (w.rf peer).observeTerm reply.term = _ := if_pos higher
      exact acts_observed actor frame ballots inv peers (after.trans observed.symm) rfl rfl
    | backedUp => exact acts_quiet actor frame ballots inv peers after id rfl rfl rfl rfl rfl
    | acknowledged _ _ _ committed =>
      obtain ⟨k, rfl⟩ := checkAndCommitLogs_frame committed
      exact acts_quiet actor frame ballots inv peers after id rfl rfl rfl rfl rfl
  | applied _ after => exact acts_quiet actor frame ballots inv peers after id rfl rfl rfl rfl rfl
  | crashed after =>
    obtain ⟨me, durable⟩ := node peer
    obtain ⟨term, vote, log⟩ := durable
    rw [me] at term vote log
    refine acts_quiet actor frame ballots inv peers after ?_ term vote log rfl rfl
    intro leads
    rw [make_whoami] at leads
    cases leads
  | idle standing appending after =>
    exact acts_quiet actor frame ballots inv peers after id rfl rfl rfl (note_bid standing)
      (note_accepted appending)

end Step

end DistributedCloud.RaftLab
