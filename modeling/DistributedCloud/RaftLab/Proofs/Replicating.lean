import DistributedCloud.RaftLab.Proofs.Refinement

/-!
# Replication in a whole run

The invariants of `Requests.lean` hold in every run whose requests are built by leaders. Each
of them is about calls in flight, candidates or leaders; what a step does to those is listed
first, and everything else follows from what the actions of the step add.
-/

namespace DistributedCloud.RaftLab

open ReplicatedLog (Replicas Formed Act Extends Covered Agree setAt setAt_self setAt_ne)

variable {n : Nat} {Byte Command : Type} [Labgob Byte Command] [Zero Command]

/-! ## Calls and leaders after a step -/

/-- Where a vote request in flight comes from. -/
inductive VoteOrigin (w : World n Byte Command) (e : Event n Command) :
    Call n RequestVoteArgs RequestVoteReply → Prop
  | kept {call old : Call n RequestVoteArgs RequestVoteReply} (member : old ∈ w.votes)
      (caller : call.caller = old.caller) (args : call.args = old.args) : VoteOrigin w e call
  | asked {peer server : Fin n} (event : e = .election peer) :
      VoteOrigin w e (voteCall w peer server)

/-- Where an `AppendEntries` request or its reply in flight comes from. -/
inductive AppendOrigin (w w' : World n Byte Command) (e : Event n Command) :
    Call n (AppendEntriesArgs Command) AppendEntriesReply → Prop
  | kept {call : Call n (AppendEntriesArgs Command) AppendEntriesReply}
      (member : call ∈ w.appends) : AppendOrigin w w' e call
  | sent {peer server : Fin n} {task epoch : Nat} {isHeartbeat : Bool} {checkedIn : Int}
      {args : AppendEntriesArgs Command} (event : e = .send peer task)
      (found : (w.nodes peer).tasks[task]? =
        some (.processAppendEntriesReply server isHeartbeat checkedIn))
      (built : BuiltArgs (w.rf peer) server args) :
      AppendOrigin w w' e ⟨peer, epoch, server, args, none⟩
  | answered {k : Nat} {call : Call n (AppendEntriesArgs Command) AppendEntriesReply}
      {reply : AppendEntriesReply} (event : e = .appendEntries k)
      (found : w.appends[k]? = some call)
      (outcome : AppendEntriesOutcome (w.rf call.server) call.args (w'.rf call.server) reply) :
      AppendOrigin w w' e { call with reply := some reply }

/-- What a step is for a peer that leads after it. -/
inductive LeaderStep (w w' : World n Byte Command) (peer : Fin n) : Prop
  | kept (role : (w.rf peer).whoami = .leader)
      (term : (w'.rf peer).currentTerm = (w.rf peer).currentTerm)
      (next : (w'.rf peer).nextIndex = (w.rf peer).nextIndex)
      (matched : (w'.rf peer).matchIndex = (w.rf peer).matchIndex)
  | elected (role : (w.rf peer).whoami = .candidate)
      (after : w'.rf peer = (w.rf peer).convertToLeader.1)
  | backedUp {call : Call n (AppendEntriesArgs Command) AppendEntriesReply}
      {reply : AppendEntriesReply} {next : Int} (member : call ∈ w.appends)
      (caller : call.caller = peer) (replied : call.reply = some reply)
      (term : call.args.term = (w.rf peer).currentTerm) (role : (w.rf peer).whoami = .leader)
      (backed : backedUpIndex (w.rf peer).log reply = some next)
      (after : w'.rf peer =
        { w.rf peer with nextIndex := Function.update (w.rf peer).nextIndex call.server next })
  | acknowledged {call : Call n (AppendEntriesArgs Command) AppendEntriesReply}
      {reply : AppendEntriesReply} (member : call ∈ w.appends)
      (caller : call.caller = peer) (replied : call.reply = some reply)
      (term : call.args.term = (w.rf peer).currentTerm) (role : (w.rf peer).whoami = .leader)
      (success : reply.success = true)
      (committed : ((w.rf peer).acknowledge call.server
        (call.args.prevLogIndex + call.args.items.length)).checkAndCommitLogs = some (w'.rf peer))

section Step

variable {w w' : World n Byte Command} {e : Event n Command} {peer : Fin n}

theorem step_votes (step : w.Step e w') : ∀ call ∈ w'.votes, VoteOrigin w e call := by
  intro call member
  cases step with
  | election =>
    rcases List.mem_append.mp member with old | new
    · exact .kept old rfl rfl
    · obtain ⟨server, -, rfl⟩ := List.mem_map.mp new
      exact .asked rfl
  | requestVote found =>
    rcases List.mem_or_eq_of_mem_set member with old | rfl
    · exact .kept old rfl rfl
    · exact .kept (List.mem_of_getElem? found) rfl rfl
  | requestVoteReply => exact .kept (List.mem_of_mem_eraseIdx member) rfl rfl
  | start | heartbeatEnds | heartbeat | replicate | send | appendEntries | appendEntriesReply
  | applyTake | applySend | applyDone | crash => exact .kept member rfl rfl

theorem step_appends (step : w.Step e w') : ∀ call ∈ w'.appends, AppendOrigin w w' e call := by
  intro call member
  cases step with
  | send found built =>
    rcases List.mem_append.mp member with old | new
    · exact .kept old
    · obtain rfl := List.mem_singleton.mp new
      exact .sent rfl found built
  | appendEntries found _ outcome =>
    rcases List.mem_or_eq_of_mem_set member with old | rfl
    · exact .kept old
    · refine .answered rfl found ?_
      simp only [World.rf, setNode_nodes_self]
      exact outcome
  | appendEntriesReply => exact .kept (List.mem_of_mem_eraseIdx member)
  | election | start | heartbeatEnds | heartbeat | replicate | requestVote | requestVoteReply
  | applyTake | applySend | applyDone | crash => exact .kept member

omit [Zero Command] in
theorem requestVote_leads {rf rf' : Raft n Byte Command} {args : RequestVoteArgs}
    {reply : RequestVoteReply} (outcome : RequestVoteOutcome rf args rf' reply) :
    rf'.nextIndex = rf.nextIndex ∧ rf'.matchIndex = rf.matchIndex := by
  cases outcome with
  | stale => exact ⟨rfl, rfl⟩
  | refused => exact ⟨observeTerm_nextIndex _ _, observeTerm_matchIndex _ _⟩
  | granted => exact ⟨observeTerm_nextIndex _ _, observeTerm_matchIndex _ _⟩

omit [Zero Command] in
theorem appendEntries_leads {rf rf' : Raft n Byte Command} {args : AppendEntriesArgs Command}
    {reply : AppendEntriesReply} (outcome : AppendEntriesOutcome rf args rf' reply) :
    rf'.nextIndex = rf.nextIndex ∧ rf'.matchIndex = rf.matchIndex := by
  cases outcome with
  | stale => exact ⟨rfl, rfl⟩
  | short => exact ⟨observeTerm_nextIndex _ _, observeTerm_matchIndex _ _⟩
  | mismatch => exact ⟨observeTerm_nextIndex _ _, observeTerm_matchIndex _ _⟩
  | accepted => simp

omit [Zero Command] in
theorem start_leads (rf : Raft n Byte Command) (command : Command) :
    (rf.start command).1.nextIndex = rf.nextIndex ∧
      (rf.start command).1.matchIndex = rf.matchIndex := by
  rcases start_cases rf command with ⟨-, same⟩ | ⟨-, appended⟩
  · rw [same]
    exact ⟨rfl, rfl⟩
  · rw [appended]
    exact ⟨rfl, rfl⟩

theorem step_leads (step : w.Step e w') (actor : w.actor e = some peer)
    (leads : (w'.rf peer).whoami = .leader) : LeaderStep w w' peer := by
  have active : (w'.rf peer).whoami ≠ .follower := by
    rw [leads]
    simp
  cases step_handled step actor with
  | stood _ after =>
    rw [after] at leads
    cases leads
  | @started command after =>
    obtain ⟨role, term⟩ := (start_change (w.rf peer) command).roleKept (after ▸ active)
    obtain ⟨next, matched⟩ := start_leads (w.rf peer) command
    rw [← after] at role term next matched
    exact .kept (role ▸ leads) term next matched
  | voted _ _ outcome =>
    obtain ⟨role, term⟩ := (requestVote_change outcome).roleKept active
    obtain ⟨next, matched⟩ := requestVote_leads outcome
    exact .kept (role ▸ leads) term next matched
  | counted _ _ _ outcome =>
    generalize after : w'.rf peer = rf at outcome
    cases outcome with
    | ignored | counted => exact .kept (after ▸ leads) (by rw [after]) (by rw [after]) (by rw [after])
    | steppedDown =>
      rw [after] at leads
      cases leads
    | elected _ role => exact .elected role after
  | appended _ _ outcome =>
    obtain ⟨role, term⟩ := (appendEntries_change outcome).roleKept active
    obtain ⟨next, matched⟩ := appendEntries_leads outcome
    exact .kept (role ▸ leads) term next matched
  | answered found caller replied outcome =>
    have member := List.mem_of_getElem? found
    generalize after : w'.rf peer = rf at outcome
    cases outcome with
    | ignored | heartbeat =>
      exact .kept (after ▸ leads) (by rw [after]) (by rw [after]) (by rw [after])
    | steppedDown =>
      rw [after] at leads
      cases leads
    | backedUp term role _ backed => exact .backedUp member caller replied term role backed after
    | acknowledged term role success committed =>
      exact .acknowledged member caller replied term role success (after ▸ committed)
  | applied _ after =>
    rw [after] at leads
    exact .kept leads (by rw [after]) (by rw [after]) (by rw [after])
  | crashed after =>
    rw [after, make_whoami] at leads
    cases leads
  | idle _ _ after => exact .kept (after ▸ leads) (by rw [after]) (by rw [after]) (by rw [after])

end Step

/-! ## What the actions keep -/

section Acts

variable {ok : Replicas (Fin n) (LogEntries Command) → Fin n → Nat → Prop}
  {w w' : World n Byte Command} {h h' : History n Command}

omit [Labgob Byte Command] in
theorem Replicating.extends (inv : Replicating w h) (acts : Acts ok w h w' h') :
    Extends LogEntries.term (replicas w h) (replicas w' h') :=
  inv.formed.extends acts

omit [Labgob Byte Command] in
/-- A peer that has accepted nothing so far had not before. -/
theorem Replicating.nothing (inv : Replicating w h) (acts : Acts ok w h w' h') {f : Fin n}
    {term : Int} (nothing : h'.accepted f term = -1) : h.accepted f term = -1 := by
  have least : -1 ≤ h.accepted f term := inv.formed.accepting.least f term
  have up : h.accepted f term ≤ h'.accepted f term := (inv.extends acts).accepted f term
  omega

omit [Labgob Byte Command] [Zero Command] in
theorem VoteBid.extends {call : Call n RequestVoteArgs RequestVoteReply} (bid : VoteBid h call)
    (reached : call.args.term ≤ (w.rf call.caller).currentTerm)
    (grows : Extends LogEntries.term (replicas w h) (replicas w' h')) : VoteBid h' call := by
  have same : h'.bid call.caller call.args.term = h.bid call.caller call.args.term :=
    grows.bid call.caller call.args.term reached
  refine ⟨?_, ?_, ?_⟩
  · rw [same]
    exact bid.nonempty
  · rw [same]
    exact bid.index
  · rw [same]
    exact bid.term

omit [Labgob Byte Command] in
theorem Request.acts (inv : Replicating w h) (acts : Acts ok w h w' h')
    {call : Call n (AppendEntriesArgs Command) AppendEntriesReply} (request : Request h call) :
    Request h' call := by
  have grows := inv.extends acts
  refine ⟨grows.leader _ _ request.leader, request.other, ?_⟩
  have same : h'.bid call.caller call.args.term = h.bid call.caller call.args.term :=
    grows.bid _ _ (inv.formed.coherent.reached _ _ request.leader)
  rw [same]
  exact request.shape.mono (grows.termLog call.args.term)

omit [Labgob Byte Command] in
theorem Probing.acts (inv : Replicating w h) (acts : Acts ok w h w' h')
    {call : Call n (AppendEntriesArgs Command) AppendEntriesReply} (request : Request h call)
    (probing : Probing w h call) : Probing w' h' call := by
  have grows := inv.extends acts
  have up : (w.rf call.server).currentTerm ≤ (w'.rf call.server).currentTerm :=
    grows.term call.server
  refine ⟨?_, ?_, ?_⟩
  · intro reply replied
    have := probing.answered reply replied
    omega
  · intro nothing
    exact (probing.covered (inv.nothing acts nothing)).acts inv.formed acts request.leader
      request.other nothing
  · intro nothing now reply replied
    have before := probing.answered reply replied
    have reached : (w.rf call.server).currentTerm = call.args.term := by omega
    have kept : (w'.rf call.server).log = (w.rf call.server).log :=
      ReplicatedLog.log_acts inv.formed acts request.leader request.other reached now nothing
    rw [kept]
    exact probing.rejected (inv.nothing acts nothing) reached reply replied

omit [Zero Command] in
/-- A handler's reply to a request that is not accepted rejects it. -/
theorem Probing.answer {call : Call n (AppendEntriesArgs Command) AppendEntriesReply}
    {reply : AppendEntriesReply} (request : RequestBounds call.args)
    (probing : Probing w' h' call)
    (recorded : Accepts (w.rf call.server) call.args →
      call.args.prevLogIndex + call.args.items.length ≤ h'.accepted call.server call.args.term)
    (outcome : AppendEntriesOutcome (w.rf call.server) call.args (w'.rf call.server) reply) :
    Probing w' h' { call with reply := some reply } := by
  have prev := request.prev
  refine ⟨?_, probing.covered, ?_⟩
  · rintro _ ⟨⟩
    change call.args.term ≤ (w'.rf call.server).currentTerm
    rcases Int.lt_or_le call.args.term (w.rf call.server).currentTerm with older | current
    · exact le_trans older.le (appendEntries_change outcome).termStep.mono
    · exact (appendEntries_term outcome current).ge
  · rintro nothing now _ ⟨⟩
    change h'.accepted call.server call.args.term = -1 at nothing
    change (w'.rf call.server).currentTerm = call.args.term at now
    change Rejection (w'.rf call.server).log call.args reply
    generalize w'.rf call.server = rf at outcome now
    cases outcome with
    | stale older => omega
    | short _ beyond =>
      rw [observeTerm_log]
      exact .short rfl beyond rfl rfl
    | mismatch _ within differs scanned =>
      rw [observeTerm_log]
      exact .mismatch rfl within differs rfl scanned
    | accepted accepts =>
      have := recorded accepts
      omega

end Acts

/-! ## The invariant -/

section Invariant

variable {ok : Replicas (Fin n) (LogEntries Command) → Fin n → Nat → Prop}
  {w w' : World n Byte Command} {h : History n Command} {e : Event n Command} {peer : Fin n}

omit [Labgob Byte Command] [Zero Command] in
/-- A leader on record after a step was one before, or is the peer that took the step. -/
theorem leader_of_record (actor : w.actor e = some peer) {term : Int} {q : Fin n}
    (led : (History.record w e w' h).leader term = some q) :
    h.leader term = some q ∨ q = peer ∧ (w'.rf peer).whoami = .leader := by
  rw [record_leader actor] at led
  split at led
  · rename_i leads
    by_cases here : term = (w'.rf peer).currentTerm
    · subst here
      rw [Function.update_self] at led
      exact Or.inr ⟨(Option.some.inj led).symm, leads⟩
    · rw [Function.update_of_ne here] at led
      exact Or.inl led
  · exact Or.inl led

theorem standing_step (inv : Replicating w h) (acts : Acts ok w h w' (History.record w e w' h))
    (actor : w.actor e = some peer) (frame : ∀ q, q ≠ peer → w'.nodes q = w.nodes q)
    (step : PeerStep w w' e peer) :
    ∀ p, (w'.rf p).whoami = .candidate → Standing w' (History.record w e w' h) p := by
  have grows := inv.extends acts
  have formed := inv.formed.acts acts
  intro p candidate
  -- a candidate that was one in this term before
  have kept : (w.rf p).whoami = .candidate → (w'.rf p).currentTerm = (w.rf p).currentTerm →
      Standing w' (History.record w e w' h) p := by
    intro before term
    have standing := inv.standing p before
    refine ⟨?_, ?_⟩
    · intro led
      rw [term] at led
      rcases leader_of_record actor led with old | ⟨rfl, leads⟩
      · exact standing.fresh old
      · rw [candidate] at leads
        cases leads
    · intro vacant
      rw [term] at vacant ⊢
      have log : (w'.rf p).log = (w.rf p).log :=
        ReplicatedLog.log_vacant inv.formed acts term vacant
      have unled : h.leader (w.rf p).currentTerm = none := grows.vacant vacant
      rw [log, standing.bid unled]
      exact (grows.bid p _ (le_refl _)).symm
  by_cases same : p = peer
  · subst same
    cases step with
    | stood event _ after =>
      subst event
      have term : (w'.rf p).currentTerm = (w.rf p).currentTerm + 1 := by
        rw [after]
        rfl
      refine ⟨?_, ?_⟩
      · intro led
        rcases leader_of_record actor led with old | ⟨-, leads⟩
        · have reached : (w'.rf p).currentTerm ≤ (w.rf p).currentTerm :=
            inv.formed.coherent.reached _ p old
          omega
        · rw [candidate] at leads
          cases leads
      · intro _
        rw [record_eq actor, term, after]
        change _ = setAt h.bid p _ _ p _
        rw [setAt_self]
        rfl
    | elected _ _ _ _ _ _ _ _ after =>
      rw [after] at candidate
      cases candidate
    | restarted _ _ _ role =>
      rw [role] at candidate
      cases candidate
    | changed change =>
      obtain ⟨role, term⟩ := change.roleKept (by simp [candidate])
      exact kept (role ▸ candidate) term
  · have node : w'.rf p = w.rf p := congrArg Node.rf (frame p same)
    exact kept (node ▸ candidate) (by rw [node])

omit [Labgob Byte Command] in
/-- What a leader looks back to stays covered through a step that does not change it. -/
theorem Replicating.next_kept {h' : History n Command} (inv : Replicating w h)
    (acts : Acts ok w h w' h') {p f : Fin n} {k : Int}
    (leads : h.leader (w.rf p).currentTerm = some p) (other : f ≠ p)
    (term : (w'.rf p).currentTerm = (w.rf p).currentTerm)
    (covered : h.accepted f (w.rf p).currentTerm = -1 →
      Covered (replicas w h) p (w.rf p).currentTerm f k)
    (nothing : h'.accepted f (w'.rf p).currentTerm = -1) :
    Covered (replicas w' h') p (w'.rf p).currentTerm f k := by
  rw [term] at nothing ⊢
  exact (covered (inv.nothing acts nothing)).acts inv.formed acts leads other nothing

omit [Labgob Byte Command] in
/-- A rejection leads back to an index that covers the follower. -/
theorem Replicating.next_backedUp (inv : Replicating w h) (bounds : WorldBounds w)
    (ballots : Ballots w h) {call : Call n (AppendEntriesArgs Command) AppendEntriesReply}
    {reply : AppendEntriesReply} {next : Int} (member : call ∈ w.appends)
    (replied : call.reply = some reply)
    (term : call.args.term = (w.rf call.caller).currentTerm)
    (role : (w.rf call.caller).whoami = .leader)
    (backed : backedUpIndex (w.rf call.caller).log reply = some next)
    (nothing : h.accepted call.server call.args.term = -1) :
    Covered (replicas w h) call.caller call.args.term call.server (next - 1) := by
  have probing := inv.probing call member
  have request := inv.requests call member
  have reached := probing.answered reply replied
  have coherent := inv.formed.coherent
  have own : (w.rf call.caller).log = h.termLog call.args.term := by
    rw [term]
    exact coherent.own call.caller (ballots.leaders call.caller role)
  rw [own] at backed
  refine ⟨?_, ?_⟩
  · intro behind
    rw [replicas_term] at behind
    omega
  · intro now j agree
    have before := (probing.covered nothing).reached now j agree
    refine ⟨?_, before.2⟩
    exact rejection_covers (bounds.peers call.server).log.grounded
      ((coherent.traced call.server).ordered coherent.termLogs.ordered)
      (coherent.termLogs.ordered call.args.term) (bounds.requests call member).prev request.shape
      (probing.rejected nothing now reply replied) backed agree before.2

omit [Labgob Byte Command] in
/-- A follower that has acknowledged a request has accepted something, or has left the term. -/
theorem Replicating.next_acknowledged (inv : Replicating w h)
    {call : Call n (AppendEntriesArgs Command) AppendEntriesReply} {reply : AppendEntriesReply}
    {k : Int} (member : call ∈ w.appends) (replied : call.reply = some reply)
    (success : reply.success = true) (nothing : h.accepted call.server call.args.term = -1) :
    Covered (replicas w h) call.caller call.args.term call.server k := by
  have probing := inv.probing call member
  have reached := probing.answered reply replied
  refine ⟨?_, ?_⟩
  · intro behind
    rw [replicas_term] at behind
    omega
  · intro now
    cases probing.rejected nothing now reply replied with
    | short failed | mismatch failed =>
      rw [success] at failed
      cases failed

omit [Labgob Byte Command] in
/-- A new leader looks back to the end of its log. -/
theorem Replicating.next_elected (inv : Replicating w h)
    (acts : Acts ok w h w' (History.record w e w' h))
    (ballots' : Ballots w' (History.record w e w' h)) {f : Fin n}
    (role : (w.rf peer).whoami = .candidate)
    (after : w'.rf peer = (w.rf peer).convertToLeader.1) :
    Covered (replicas w' (History.record w e w' h)) peer (w'.rf peer).currentTerm f
      ((w'.rf peer).nextIndex f - 1) := by
  have grows := inv.extends acts
  have coherent' := (inv.formed.acts acts).coherent
  have term : (w'.rf peer).currentTerm = (w.rf peer).currentTerm := by rw [after]; rfl
  have log : (w'.rf peer).log = (w.rf peer).log := by rw [after]; rfl
  have next : (w'.rf peer).nextIndex f = (w.rf peer).log.length + 1 := by rw [after]; rfl
  have leads := ballots'.leaders peer (by rw [after]; rfl)
  have own : (w'.rf peer).log = (History.record w e w' h).termLog (w'.rf peer).currentTerm :=
    coherent'.own peer leads
  have vacant : h.leader (w.rf peer).currentTerm = none := by
    cases led : h.leader (w.rf peer).currentTerm with
    | none => rfl
    | some q =>
      have led' : (History.record w e w' h).leader (w.rf peer).currentTerm = some q :=
        grows.leader _ q led
      rw [← term, leads] at led'
      cases led'
      exact absurd led (inv.standing peer role).fresh
  have bid : (History.record w e w' h).bid peer (w'.rf peer).currentTerm = (w.rf peer).log := by
    rw [(inv.standing peer role).bid vacant, term]
    exact grows.bid peer _ (le_refl _)
  refine ⟨?_, ?_⟩
  · intro _
    rw [replicas_bid, bid, next]
    omega
  · intro _ j agree
    have inside := agree.inside_right
    rw [replicas_termLog, ← own, log] at inside
    rw [replicas_bid, bid, next]
    exact ⟨by omega, inside⟩

theorem next_step (inv : Replicating w h) (bounds : WorldBounds w) (ballots : Ballots w h)
    (step : w.Step e w') (acts : Acts ok w h w' (History.record w e w' h))
    (ballots' : Ballots w' (History.record w e w' h)) (p f : Fin n)
    (leads : (w'.rf p).whoami = .leader) (other : f ≠ p)
    (nothing : (History.record w e w' h).accepted f (w'.rf p).currentTerm = -1) :
    Covered (replicas w' (History.record w e w' h)) p (w'.rf p).currentTerm f
      ((w'.rf p).nextIndex f - 1) := by
  obtain ⟨peer, actor, frame⟩ := step_actor step
  by_cases same : p = peer
  · subst same
    cases step_leads step actor leads with
    | kept role term next =>
      rw [next]
      exact inv.next_kept acts (ballots.leaders p role) other term (inv.next p f role other) nothing
    | elected role after => exact inv.next_elected acts ballots' role after
    | @backedUp call reply next member caller replied term role backed after =>
      subst caller
      have stays : (w'.rf call.caller).currentTerm = (w.rf call.caller).currentTerm := by rw [after]
      refine inv.next_kept acts (ballots.leaders _ role) other stays ?_ nothing
      rw [after]
      by_cases here : f = call.server
      · subst here
        simp only [Function.update_self]
        rw [← term]
        exact inv.next_backedUp bounds ballots member replied term role backed
      · simp only [Function.update_of_ne here]
        exact inv.next call.caller f role other
    | @acknowledged call reply member caller replied term role success committed =>
      subst caller
      obtain ⟨_, after⟩ := checkAndCommitLogs_frame committed
      have stays : (w'.rf call.caller).currentTerm = (w.rf call.caller).currentTerm := by
        rw [after]
        rfl
      have next : (w'.rf call.caller).nextIndex = Function.update (w.rf call.caller).nextIndex
          call.server (call.args.prevLogIndex + call.args.items.length + 1) := by
        rw [after]
        rfl
      refine inv.next_kept acts (ballots.leaders _ role) other stays ?_ nothing
      rw [next]
      by_cases here : f = call.server
      · subst here
        rw [← term]
        exact inv.next_acknowledged member replied success
      · rw [Function.update_of_ne here]
        exact inv.next call.caller f role other
  · have node : w'.rf p = w.rf p := congrArg Node.rf (frame p same)
    have role : (w.rf p).whoami = .leader := node ▸ leads
    refine inv.next_kept acts (ballots.leaders p role) other (by rw [node]) ?_ nothing
    rw [node]
    exact inv.next p f role other

omit [Labgob Byte Command] in
/-- The request a leader builds is one of its term, and looks back far enough. -/
theorem Replicating.sent (inv : Replicating w h) (bounds : WorldBounds w) (ballots : Ballots w h)
    {server : Fin n} {epoch : Nat} {args : AppendEntriesArgs Command}
    (leads : (w.rf peer).whoami = .leader) (other : server ≠ peer)
    (built : BuiltArgs (w.rf peer) server args) :
    Request h ⟨peer, epoch, server, args, none⟩ ∧ Probing w h ⟨peer, epoch, server, args, none⟩ := by
  have led := ballots.leaders peer leads
  have own : (w.rf peer).log = h.termLog (w.rf peer).currentTerm :=
    inv.formed.coherent.own peer led
  have inside : (h.bid peer (w.rf peer).currentTerm).length ≤ (w.rf peer).log.length := by
    rw [own]
    exact (inv.formed.coherent.bidPrefix _ peer led).length_le
  refine ⟨⟨?_, other, ?_⟩, ⟨by simp, ?_, by simp⟩⟩
  · rw [built.term]
    exact led
  · rw [built.term, ← own]
    exact built.shape (bounds.peers peer).log.ne_nil ((bounds.peers peer).next _) inside
  · rw [built.term, built.prevLogIndex]
    exact inv.next peer server leads other

/-- What is recorded of a request that its receiver accepts. -/
theorem Replicating.recorded (inv : Replicating w h) (ballots : Ballots w h)
    {k : Nat} {call : Call n (AppendEntriesArgs Command) AppendEntriesReply}
    {reply : AppendEntriesReply} (found : w.appends[k]? = some call)
    (outcome : AppendEntriesOutcome (w.rf call.server) call.args (w'.rf call.server) reply)
    (accepts : Accepts (w.rf call.server) call.args) :
    call.args.prevLogIndex + call.args.items.length ≤
      (History.record w (.appendEntries k) w' h).accepted call.server call.args.term := by
  have follows := inv.not_leader ballots (List.mem_of_getElem? found) outcome accepts.1
  have actor : w.actor (.appendEntries k) = some call.server := by simp [World.actor, found]
  have unobserved : (History.record w (.appendEntries k) w' h).accepted =
      (h.note w w' (.appendEntries k)).accepted := by
    rw [record_eq actor]
    exact if_neg follows
  rw [unobserved, note_appendEntries found, if_pos accepts, setAt_self]
  exact le_max_right _ _

theorem replicating_step (node : ∀ p, NodeDurable p (w.nodes p)) (bounds : WorldBounds w)
    (ballots : Ballots w h) (calls : VoteCalls w h)
    (targets : ∀ peer server isHeartbeat checkedIn,
      .processAppendEntriesReply server isHeartbeat checkedIn ∈ (w.nodes peer).tasks →
      server ≠ peer)
    (inv : Replicating w h) (guard : SentByLeader w e) (step : w.Step e w')
    (acts : Acts ok w h w' (History.record w e w' h))
    (ballots' : Ballots w' (History.record w e w' h)) :
    Replicating w' (History.record w e w' h) := by
  obtain ⟨peer, actor, frame⟩ := step_actor step
  have flight : ∀ call ∈ w'.appends,
      Request (History.record w e w' h) call ∧ Probing w' (History.record w e w' h) call := by
    intro call member
    cases step_appends step call member with
    | kept old =>
      have request := inv.requests call old
      exact ⟨request.acts inv acts, (inv.probing call old).acts inv acts request⟩
    | sent event found built =>
      subst event
      have other := targets _ _ _ _ (List.mem_of_getElem? found)
      obtain ⟨request, probing⟩ := inv.sent bounds ballots guard other built
      exact ⟨request.acts inv acts, probing.acts inv acts request⟩
    | @answered k old reply event found outcome =>
      subst event
      have member := List.mem_of_getElem? found
      have request := inv.requests old member
      have after := request.acts inv acts
      refine ⟨⟨after.leader, after.other, after.shape⟩, ?_⟩
      exact ((inv.probing old member).acts inv acts request).answer (bounds.requests old member)
        (inv.recorded ballots found outcome) outcome
  refine ⟨inv.formed.acts acts, ?_, ?_, fun call member => (flight call member).1,
    fun call member => (flight call member).2, ?_⟩
  · exact standing_step inv acts actor frame (step_peer (node peer) step actor)
  · intro call member
    cases step_votes step call member with
    | @kept _ old before caller args =>
      have bid := (inv.bids old before).extends (calls.each old before).term (inv.extends acts)
      refine ⟨?_, ?_, ?_⟩
      · rw [caller, args]
        exact bid.nonempty
      · rw [caller, args]
        exact bid.index
      · rw [caller, args]
        exact bid.term
    | @asked q server event =>
      subst event
      have bid : (History.record w (.election q) w' h).bid q ((w.rf q).currentTerm + 1) =
          (w.rf q).log := by
        rw [record_eq rfl]
        exact setAt_self _ _ _ _
      refine ⟨?_, ?_, ?_⟩
      · change (History.record w (.election q) w' h).bid q ((w.rf q).currentTerm + 1) ≠ []
        rw [bid]
        exact (bounds.peers q).log.ne_nil
      · change _ = lastLogIndex
          ((History.record w (.election q) w' h).bid q ((w.rf q).currentTerm + 1))
        rw [bid]
        rfl
      · change _ = termAt ((History.record w (.election q) w' h).bid q ((w.rf q).currentTerm + 1))
          (lastLogIndex ((History.record w (.election q) w' h).bid q ((w.rf q).currentTerm + 1)))
        rw [bid]
        rfl
  · exact next_step inv bounds ballots step acts ballots'

end Invariant

/-! ## Whole runs -/

theorem replicas_init :
    replicas (World.init : World n Byte Command) History.start = Replicas.start sentinel := by
  have boot : ∀ p, (World.init : World n Byte Command).rf p =
      ⟨p, ⟨[]⟩, .follower, 0, -1, [sentinel], 0, 0, fun _ => 1, fun _ => 0⟩ := fun _ => rfl
  refine Replicas.ext ?_ ?_ ?_ rfl rfl rfl rfl
  · funext p
    rw [replicas_term, boot]
    rfl
  · funext p
    rw [replicas_log, boot]
    rfl
  · funext p term
    exact candidateOf_none

theorem replicating_init : Replicating (World.init : World n Byte Command) History.start := by
  constructor
  · rw [replicas_init]
    exact ReplicatedLog.formed_start rfl
  · intro p candidate
    cases candidate
  · intro call member
    cases member
  · intro call member
    cases member
  · intro call member
    cases member
  · intro p f leads
    cases leads

/-- In every run whose requests are built by leaders. -/
theorem replicating_reachable {s : World n Byte Command × History n Command}
    (reached : (recordedCluster n Byte Command).ReachableWhen
      (fun s e => SentByLeader s.1 e) s) : Replicating s.1 s.2 := by
  refine Machine.ReachableWhen.invariant (I := fun s => Replicating s.1 s.2) replicating_init ?_
    reached
  intro s e s' before inv guard next
  have node := nodeDurable_reachable before.dropHistory
  have bounds := worldBounds_reachable before.dropHistory
  obtain ⟨ballots, calls⟩ := ballots_reachable before
  obtain ⟨step, recorded⟩ := recorded_step before next
  have ballots' := (ballots_reachable (before.step guard next)).1
  rw [recorded] at ballots' ⊢
  have acts : Acts (fun _ _ _ => True) s.1 s.2 s'.1 (History.record s.1 e s'.1 s.2) := by
    refine step_acts node bounds ballots calls inv step ?_
    cases e with
    | appendEntries => exact fun _ _ _ _ _ => trivial
    | _ => trivial
  exact replicating_step node bounds ballots calls (targets_reachable before.dropHistory) inv guard
    step acts ballots'

end DistributedCloud.RaftLab
