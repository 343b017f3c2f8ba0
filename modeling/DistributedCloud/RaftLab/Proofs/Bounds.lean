import DistributedCloud.RaftLab.Proofs.Persistence

/-!
# Sentinels and index bounds

Every log starts with the sentinel of term 0 and has terms between 1 and `currentTerm` after
it. Together with what this says about the requests and replies in flight, it keeps every
`nextIndex` at 1 or above, and then no index expression of a handler is out of range.
-/

namespace DistributedCloud.RaftLab

variable {n : Nat} {Byte Command : Type} [Labgob Byte Command] [Zero Command]

/-- A log with its sentinel, and terms from 1 to `term` after it. -/
def LogBounds (term : Int) (log : List (LogEntries Command)) : Prop :=
  ∃ rest, log = sentinel :: rest ∧ ∀ e ∈ rest, 1 ≤ e.term ∧ e.term ≤ term

/-- What holds of the numbers of a peer. -/
structure PeerBounds (rf : Raft n Byte Command) : Prop where
  log : LogBounds rf.currentTerm rf.log
  term : 0 ≤ rf.currentTerm
  role : rf.whoami ≠ .follower → 1 ≤ rf.currentTerm
  next : ∀ server, 1 ≤ rf.nextIndex server
  commit : 0 ≤ rf.committedIndex

/-- What holds of the numbers of a request. -/
structure RequestBounds (args : AppendEntriesArgs Command) : Prop where
  prev : 0 ≤ args.prevLogIndex
  sentinel : args.prevLogIndex = 0 → args.prevLogTerm = 0
  items : ∀ e ∈ args.items, 1 ≤ e.term ∧ e.term ≤ args.term

/-- A rejection either names the sentinel's term, as every stale-term rejection does, or
    carries a positive index. -/
def ReplyBounds (reply : AppendEntriesReply) : Prop :=
  reply.success = false → reply.conflictTerm = 0 ∨ 1 ≤ reply.conflictIndex

/-! ## Logs -/

section Logs

omit [Labgob Byte Command]

theorem LogBounds.ne_nil {term : Int} {log : List (LogEntries Command)}
    (bounds : LogBounds term log) : log ≠ [] := by
  obtain ⟨rest, rfl, -⟩ := bounds
  simp

theorem LogBounds.mono {term term' : Int} {log : List (LogEntries Command)}
    (bounds : LogBounds term log) (le : term ≤ term') : LogBounds term' log := by
  obtain ⟨rest, shape, terms⟩ := bounds
  refine ⟨rest, shape, fun e member => ?_⟩
  have := terms e member
  omega

theorem LogBounds.termAt_zero {term : Int} {log : List (LogEntries Command)}
    (bounds : LogBounds term log) : termAt log 0 = 0 := by
  obtain ⟨rest, rfl, -⟩ := bounds
  rfl

theorem LogBounds.termAt_pos {term : Int} {log : List (LogEntries Command)}
    (bounds : LogBounds term log) {i : Nat} (positive : 1 ≤ i) (inside : i < log.length) :
    1 ≤ termAt log i ∧ termAt log i ≤ term := by
  obtain ⟨rest, rfl, terms⟩ := bounds
  obtain ⟨k, rfl⟩ : ∃ k, i = k + 1 := ⟨i - 1, by omega⟩
  have bound : k < rest.length := by simpa using inside
  rw [termAt_cons_succ, termAt_of_getElem? (List.getElem?_eq_getElem bound)]
  exact terms _ (List.getElem_mem bound)

/-- An entry of term 0 and only positive terms after it. -/
structure Grounded (log : List (LogEntries Command)) : Prop where
  first : ∃ e, log[0]? = some e ∧ e.term = 0
  positive : ∀ i e, 1 ≤ i → log[i]? = some e → 1 ≤ e.term

section Grounded

omit [Zero Command]

variable {log : List (LogEntries Command)}

theorem Grounded.ne_nil (grounded : Grounded log) : log ≠ [] := by
  rintro rfl
  obtain ⟨e, found, -⟩ := grounded.first
  cases found

theorem Grounded.termAt_pos (grounded : Grounded log) {i : Nat} (positive : 1 ≤ i)
    (inside : i < log.length) : 1 ≤ termAt log i := by
  rw [termAt_of_getElem? (List.getElem?_eq_getElem inside)]
  exact grounded.positive i _ positive (List.getElem?_eq_getElem inside)

theorem Grounded.termAt_nonneg (grounded : Grounded log) {i : Nat} (inside : i < log.length) :
    0 ≤ termAt log i := by
  rcases Nat.eq_zero_or_pos i with rfl | positive
  · obtain ⟨e, found, zero⟩ := grounded.first
    rw [termAt_of_getElem? found, zero]
  · exact le_trans (by omega) (grounded.termAt_pos positive inside)

end Grounded

theorem LogBounds.grounded {term : Int} {log : List (LogEntries Command)}
    (bounds : LogBounds term log) : Grounded log := by
  refine ⟨?_, ?_⟩
  · obtain ⟨rest, rfl, -⟩ := bounds
    exact ⟨sentinel, rfl, rfl⟩
  · intro i e positive found
    have inside := (List.getElem?_eq_some_iff.mp found).1
    rw [← termAt_of_getElem? found]
    exact (bounds.termAt_pos positive inside).1

/-- Cutting a log after its sentinel and appending entries of good terms. -/
theorem LogBounds.take_append {term : Int} {log entries : List (LogEntries Command)}
    (bounds : LogBounds term log) {q : Nat} (positive : 0 < q)
    (good : ∀ e ∈ entries, 1 ≤ e.term ∧ e.term ≤ term) :
    LogBounds term (log.take q ++ entries) := by
  obtain ⟨rest, rfl, terms⟩ := bounds
  obtain ⟨k, rfl⟩ : ∃ k, q = k + 1 := ⟨q - 1, by omega⟩
  refine ⟨rest.take k ++ entries, rfl, fun e member => ?_⟩
  rcases List.mem_append.mp member with old | new
  · exact terms e (List.mem_of_mem_take old)
  · exact good e new

theorem LogBounds.mem_drop {term : Int} {log : List (LogEntries Command)}
    (bounds : LogBounds term log) {k : Nat} (positive : 1 ≤ k) {e : LogEntries Command}
    (member : e ∈ log.drop k) : 1 ≤ e.term ∧ e.term ≤ term := by
  obtain ⟨rest, rfl, terms⟩ := bounds
  obtain ⟨j, rfl⟩ : ∃ j, k = j + 1 := ⟨k - 1, by omega⟩
  rw [List.drop_succ_cons] at member
  exact terms e (List.mem_of_mem_drop member)

end Logs

/-! ## The handlers -/

section Handlers

/-- A term change forgets the role; everything else about the bounds is kept. -/
theorem PeerBounds.convertToFollower {rf : Raft n Byte Command} (bounds : PeerBounds rf)
    {term : Int} (higher : rf.currentTerm < term) : PeerBounds (rf.convertToFollower term) where
  log := bounds.log.mono (le_of_lt higher)
  term := le_trans bounds.term (le_of_lt higher)
  role := fun notFollower => absurd rfl notFollower
  next := bounds.next
  commit := bounds.commit

theorem PeerBounds.observeTerm {rf : Raft n Byte Command} (bounds : PeerBounds rf) (term : Int) :
    PeerBounds (rf.observeTerm term) := by
  unfold Raft.observeTerm
  split
  · rename_i higher
    exact bounds.convertToFollower higher
  · exact bounds

theorem PeerBounds.startElection {rf : Raft n Byte Command} (bounds : PeerBounds rf) :
    PeerBounds rf.startElection where
  log := bounds.log.mono (by simp [Raft.startElection])
  term := by
    have := bounds.term
    simp only [Raft.startElection, persist_currentTerm]
    omega
  role := by
    have := bounds.term
    intro _
    simp only [Raft.startElection, persist_currentTerm]
    omega
  next := bounds.next
  commit := bounds.commit

theorem PeerBounds.requestVote {rf rf' : Raft n Byte Command} {args : RequestVoteArgs}
    {reply : RequestVoteReply} (bounds : PeerBounds rf)
    (outcome : RequestVoteOutcome rf args rf' reply) : PeerBounds rf' := by
  cases outcome with
  | stale => exact bounds
  | refused => exact bounds.observeTerm _
  | granted =>
    obtain ⟨log, term, role, next, commit⟩ := bounds.observeTerm args.term
    exact ⟨log, term, role, next, commit⟩

theorem PeerBounds.requestVoteReply {rf rf' : Raft n Byte Command} {voteCounts voteCounts' : Int}
    {args : RequestVoteArgs} {reply : RequestVoteReply} {spawned : List (Task n)}
    (bounds : PeerBounds rf)
    (outcome : VoteReplyOutcome rf voteCounts args reply (rf', voteCounts', spawned)) :
    PeerBounds rf' := by
  cases outcome with
  | ignored => exact bounds
  | steppedDown _ _ higher => exact bounds.convertToFollower higher
  | counted => exact bounds
  | elected _ role =>
    refine ⟨bounds.log, bounds.term, fun _ => bounds.role (by rw [role]; simp), ?_, bounds.commit⟩
    intro server
    simp only [Raft.convertToLeader]
    omega

theorem PeerBounds.start {rf : Raft n Byte Command} (bounds : PeerBounds rf) (command : Command) :
    PeerBounds (rf.start command).1 := by
  rcases start_cases rf command with ⟨-, same⟩ | ⟨role, appended⟩
  · rw [same]
    exact bounds
  · rw [appended]
    have positive : 1 ≤ rf.currentTerm := bounds.role (by rw [role]; simp)
    refine ⟨?_, bounds.term, bounds.role, bounds.next, bounds.commit⟩
    have extended : LogBounds rf.currentTerm
        (rf.log.take rf.log.length ++ [⟨rf.currentTerm, command⟩]) :=
      bounds.log.take_append (List.length_pos_iff.mpr bounds.log.ne_nil) (by simpa using positive)
    rwa [List.take_length] at extended

omit [Labgob Byte Command] [Zero Command] in
/-- An accepted request leaves the part of the log up to `PrevLogIndex` in place. -/
theorem accepted_shape {rf : Raft n Byte Command} {args : AppendEntriesArgs Command}
    {log : List (LogEntries Command)} (nonempty : rf.log ≠ []) (prev : 0 ≤ args.prevLogIndex)
    (within : args.prevLogIndex ≤ lastLogIndex rf.log)
    (installed : installEntries rf.log args.prevLogIndex args.items = some log) :
    ∃ q, args.prevLogIndex.toNat < q ∧ q ≤ rf.log.length ∧ log = rf.log.take q ++ args.items := by
  obtain ⟨p, hp⟩ := Int.eq_ofNat_of_zero_le prev
  rw [lastLogIndex_of_ne_nil nonempty] at within
  obtain ⟨q, lower, upper, update⟩ := installEntries_returns rf.log args.items (p := p) (by omega)
  rw [hp] at installed
  refine ⟨q, by omega, upper, ?_⟩
  rw [installed] at update
  exact Option.some.inj update

theorem PeerBounds.appendEntries {rf rf' : Raft n Byte Command} {args : AppendEntriesArgs Command}
    {reply : AppendEntriesReply} (bounds : PeerBounds rf) (request : RequestBounds args)
    (outcome : AppendEntriesOutcome rf args rf' reply) : PeerBounds rf' := by
  cases outcome with
  | stale => exact bounds
  | short => exact bounds.observeTerm _
  | mismatch => exact bounds.observeTerm _
  | @accepted log accepts installed =>
    obtain ⟨current, within, -⟩ := accepts
    have observed := bounds.observeTerm args.term
    have now : (rf.observeTerm args.term).currentTerm = args.term :=
      observeTerm_currentTerm current
    obtain ⟨q, positive, -, rfl⟩ := accepted_shape bounds.log.ne_nil request.prev within installed
    have newLog : LogBounds args.term (rf.log.take q ++ args.items) :=
      (bounds.log.mono current).take_append (by omega) request.items
    have length := List.length_pos_iff.mpr newLog.ne_nil
    refine ⟨?_, ?_, ?_, ?_, ?_⟩
    · rw [accept_currentTerm, accept_log, now]
      exact newLog
    · rw [accept_currentTerm]
      exact observed.term
    · rw [accept_whoami, accept_currentTerm]
      exact observed.role
    · rw [accept_nextIndex]
      exact observed.next
    · have before := bounds.commit
      rw [accept_committedIndex, observeTerm_committedIndex]
      split
      · rw [le_min_iff]
        omega
      · exact before

/-- The rejections of `AppendEntries` carry no index below 1 with a term of an entry. -/
theorem PeerBounds.reply {rf rf' : Raft n Byte Command} {args : AppendEntriesArgs Command}
    {reply : AppendEntriesReply} (bounds : PeerBounds rf) (request : RequestBounds args)
    (outcome : AppendEntriesOutcome rf args rf' reply) : ReplyBounds reply := by
  intro failed
  cases outcome with
  | stale => exact Or.inl rfl
  | short =>
    have := List.length_pos_iff.mpr bounds.log.ne_nil
    exact Or.inr (by dsimp only; omega)
  | mismatch _ within differs scanned =>
    obtain ⟨p, hp⟩ := Int.eq_ofNat_of_zero_le request.prev
    rw [hp] at scanned differs
    have positive : 1 ≤ p := by
      by_contra zero
      obtain rfl : p = 0 := by omega
      exact differs ((request.sentinel hp).trans bounds.log.termAt_zero.symm)
    rw [lastLogIndex_of_ne_nil bounds.log.ne_nil] at within
    have term := bounds.log.termAt_pos positive (by omega : p < rf.log.length)
    obtain ⟨start, rfl, -, run, -⟩ := conflictIndexOf_spec scanned
    right
    -- the run of the conflicting term cannot reach back to the sentinel
    by_contra low
    obtain rfl : start = 0 := by dsimp only at low; omega
    have atZero := run 0 (le_refl 0) (Nat.zero_le p)
    have zero := bounds.log.termAt_zero
    rw [Nat.cast_zero] at atZero
    omega
  | accepted => cases failed

theorem PeerBounds.appendEntriesReply {rf rf' : Raft n Byte Command} {server : Fin n}
    {args : AppendEntriesArgs Command} {reply : AppendEntriesReply} (bounds : PeerBounds rf)
    (request : RequestBounds args) (answer : ReplyBounds reply)
    (outcome : AppendReplyOutcome rf server args reply rf') : PeerBounds rf' := by
  cases outcome with
  | ignored => exact bounds
  | steppedDown _ higher => exact bounds.convertToFollower higher
  | @backedUp next _ _ failed backed =>
    refine ⟨bounds.log, bounds.term, bounds.role, fun peer => ?_, bounds.commit⟩
    have positive : 1 ≤ next := by
      rcases backedUpIndex_cases rf.log reply with ⟨returned, why⟩ | ⟨j, -, returned, -⟩
      · rw [backed] at returned
        cases returned
        rcases answer failed with zero | index
        · -- the sentinel has the term of a stale-term rejection
          exfalso
          rcases why with short | absent
          · omega
          · have length := List.length_pos_iff.mpr bounds.log.ne_nil
            have here := absent 0 length
            rw [Nat.cast_zero, bounds.log.termAt_zero] at here
            exact here zero.symm
        · exact index
      · rw [backed] at returned
        cases returned
        omega
    by_cases same : peer = server
    · subst same
      simpa using positive
    · simpa [same] using bounds.next peer
  | heartbeat => exact bounds
  | acknowledged _ _ _ committed =>
    have acked : PeerBounds (rf.acknowledge server (args.prevLogIndex + args.items.length)) := by
      refine ⟨bounds.log, bounds.term, bounds.role, fun peer => ?_, bounds.commit⟩
      have := request.prev
      by_cases same : peer = server
      · subst same
        simp only [Raft.acknowledge, Function.update_self]
        omega
      · simpa [Raft.acknowledge, same] using bounds.next peer
    rcases checkAndCommitLogs_cases committed with rfl | ⟨k, commits, rfl⟩
    · exact acked
    · have advances := commits.advances
      have before := acked.commit
      exact ⟨acked.log, acked.term, acked.role, acked.next, by dsimp only; omega⟩

omit [Labgob Byte Command] in
theorem PeerBounds.builtArgs {rf : Raft n Byte Command} {server : Fin n}
    {args : AppendEntriesArgs Command} (bounds : PeerBounds rf) (built : BuiltArgs rf server args) :
    RequestBounds args := by
  have next := bounds.next server
  refine ⟨?_, ?_, ?_⟩
  · rw [built.prevLogIndex]
    omega
  · intro zero
    rw [built.prevLogTerm, zero]
    exact bounds.log.termAt_zero
  · intro e member
    rw [built.items] at member
    rw [built.term]
    exact bounds.log.mem_drop (by omega) member

theorem peerBounds_make {rf : Raft n Byte Command} (bounds : PeerBounds rf)
    (durable : Durable rf) : PeerBounds (make rf.me rf.persister : Raft n Byte Command) where
  log := by
    rw [durable.currentTerm, durable.log]
    exact bounds.log
  term := by
    rw [durable.currentTerm]
    exact bounds.term
  role := fun notFollower => absurd (make_whoami _ _) notFollower
  next := fun server => by simp
  commit := by simp

end Handlers

/-! ## Whole runs -/

/-- The bounds of a world: of its peers, and of the requests and replies in flight. -/
structure WorldBounds (w : World n Byte Command) : Prop where
  peers : ∀ peer, PeerBounds (w.nodes peer).rf
  requests : ∀ call ∈ w.appends, RequestBounds call.args
  replies : ∀ call ∈ w.appends, ∀ reply, call.reply = some reply → ReplyBounds reply

omit [Labgob Byte Command] [Zero Command] in
/-- A step that only touches one peer keeps what is said about the messages. -/
theorem setNode_peers {P : Raft n Byte Command → Prop} (w : World n Byte Command) {peer : Fin n}
    {nd : Node n Byte Command} (before : ∀ q, P (w.nodes q).rf) (now : P nd.rf) :
    ∀ q, P ((w.setNode peer nd).nodes q).rf :=
  setNode_forall w peer nd (P := fun _ nd => P nd.rf) before now

theorem worldBounds_step {w w' : World n Byte Command} {e : Event n Command}
    (durable : ∀ peer, NodeDurable peer (w.nodes peer)) (bounds : WorldBounds w)
    (step : w.Step e w') : WorldBounds w' := by
  obtain ⟨peers, requests, replies⟩ := bounds
  cases step with
  | @election peer =>
    exact ⟨setNode_peers w peers (peers peer).startElection, requests, replies⟩
  | @start peer command =>
    exact ⟨setNode_peers w peers ((peers peer).start command), requests, replies⟩
  | @heartbeatEnds peer => exact ⟨setNode_peers w peers (peers peer), requests, replies⟩
  | @heartbeat peer => exact ⟨setNode_peers w peers (peers peer), requests, replies⟩
  | @replicate peer => exact ⟨setNode_peers w peers (peers peer), requests, replies⟩
  | @send peer server _ _ _ args _ built =>
    refine ⟨setNode_peers w peers (peers peer), ?_, ?_⟩
    · intro call member
      rcases List.mem_append.mp member with old | new
      · exact requests call old
      · rw [List.mem_singleton.mp new]
        exact (peers peer).builtArgs built
    · intro call member reply replied
      rcases List.mem_append.mp member with old | new
      · exact replies call old reply replied
      · rw [List.mem_singleton.mp new] at replied
        cases replied
  | @requestVote _ call _ _ _ _ outcome =>
    exact ⟨setNode_peers w peers ((peers call.server).requestVote outcome), requests, replies⟩
  | @requestVoteReply _ call _ _ _ _ _ _ _ outcome =>
    exact ⟨setNode_peers w peers ((peers call.caller).requestVoteReply outcome), requests, replies⟩
  | @appendEntries k call rf reply found pending outcome =>
    have request := requests call (List.mem_of_getElem? found)
    refine ⟨setNode_peers w peers ((peers call.server).appendEntries request outcome), ?_, ?_⟩
    · intro other member
      rcases List.mem_or_eq_of_mem_set member with old | new
      · exact requests other old
      · rw [new]
        exact request
    · intro other member answer replied
      rcases List.mem_or_eq_of_mem_set member with old | new
      · exact replies other old answer replied
      · rw [new] at replied
        cases replied
        exact (peers call.server).reply request outcome
  | @appendEntriesReply k call rf reply found replied _ outcome =>
    have member := List.mem_of_getElem? found
    refine ⟨setNode_peers w peers ((peers call.caller).appendEntriesReply (requests call member)
      (replies call member reply replied) outcome), ?_, ?_⟩
    · intro other kept
      exact requests other (List.mem_of_mem_eraseIdx kept)
    · intro other kept
      exact replies other (List.mem_of_mem_eraseIdx kept)
  | @applyTake peer => exact ⟨setNode_peers w peers (peers peer), requests, replies⟩
  | @applySend peer => exact ⟨setNode_peers w peers (peers peer), requests, replies⟩
  | @applyDone peer =>
    obtain ⟨log, term, role, next, commit⟩ := peers peer
    exact ⟨setNode_peers w peers ⟨log, term, role, next, commit⟩, requests, replies⟩
  | @crash peer =>
    have rebuilt := peerBounds_make (peers peer) (durable peer).durable
    rw [(durable peer).me] at rebuilt
    exact ⟨setNode_peers w peers rebuilt, requests, replies⟩

theorem logBounds_init (me : Fin n) :
    PeerBounds (make me ⟨[]⟩ : Raft n Byte Command) := by
  refine ⟨⟨[], rfl, by simp⟩, le_refl 0, fun h => absurd rfl h, fun _ => ?_, le_refl 0⟩
  simp

theorem worldBounds_reachable {w : World n Byte Command}
    (reached : (cluster n Byte Command).Reachable w) : WorldBounds w := by
  refine Machine.ReachableWhen.invariant (I := WorldBounds) ?_ ?_ reached
  · refine ⟨fun peer => logBounds_init peer, ?_, ?_⟩
    · intro call member
      cases member
    · intro call member
      cases member
  · intro w e w' before bounds _ next
    exact worldBounds_step (nodeDurable_reachable before) bounds (reachable_step before next)

/-- In every reachable world the logs keep their sentinel and their terms, every `nextIndex`
    is at least 1, every request has a non-negative `PrevLogIndex` and entries of positive
    term, and no handler that may run next panics. -/
theorem indexSafety {w : World n Byte Command} (reached : (cluster n Byte Command).Reachable w) :
    (∀ peer, ∃ first rest, (w.rf peer).log = first :: rest ∧ first.term = 0 ∧
      ∀ e ∈ rest, 1 ≤ e.term ∧ e.term ≤ (w.rf peer).currentTerm) ∧
    (∀ peer server, 1 ≤ (w.rf peer).nextIndex server) ∧
    (∀ call ∈ w.appends, 0 ≤ call.args.prevLogIndex ∧ ∀ e ∈ call.args.items, 1 ≤ e.term) ∧
    (∀ call ∈ w.votes, ((w.rf call.server).requestVote call.args).isSome) ∧
    (∀ call ∈ w.appends, ((w.rf call.server).appendEntries call.args).isSome) ∧
    (∀ peer server isHeartbeat,
      ((w.rf peer).processAppendEntriesArgs server isHeartbeat).isSome) ∧
    (∀ call ∈ w.appends, ∀ reply, call.reply = some reply →
      ((w.rf call.caller).processAppendEntriesReply call.server call.args reply).isSome) ∧
    (∀ peer, (w.rf peer).checkAndCommitLogs.isSome) := by
  obtain ⟨peers, requests, replies⟩ := worldBounds_reachable reached
  refine ⟨?_, fun peer => (peers peer).next, ?_, ?_, ?_, ?_, ?_, ?_⟩
  · intro peer
    obtain ⟨rest, shape, terms⟩ := (peers peer).log
    exact ⟨sentinel, rest, shape, rfl, terms⟩
  · intro call member
    exact ⟨(requests call member).prev, fun e inside => ((requests call member).items e inside).1⟩
  · intro call _
    obtain ⟨rf', reply, handled, -⟩ := requestVote_returns (w.rf call.server) call.args
    rw [handled]
    rfl
  · intro call member
    obtain ⟨rf', reply, handled⟩ := appendEntries_returns (peers call.server).log.ne_nil
      (requests call member).prev
    rw [World.rf, handled]
    rfl
  · intro peer server isHeartbeat
    obtain ⟨args, built⟩ := processAppendEntriesArgs_returns isHeartbeat
      ((peers peer).next server)
    rw [World.rf, built]
    rfl
  · intro call _ reply _
    obtain ⟨rf', handled⟩ := processAppendEntriesReply_returns call.server call.args reply
      (peers call.caller).commit
    rw [World.rf, handled]
    rfl
  · intro peer
    obtain ⟨rf', checked⟩ := checkAndCommitLogs_returns (peers peer).commit
    rw [World.rf, checked]
    rfl

/-- A leader that has sent its first request, which probes one index past its log. -/
theorem indexSafety_first_probe :
    let w := (cluster 3 (Token Int) Int).after
      [.election 0, .requestVote 0, .requestVoteReply 0, .heartbeat 0 0, .replicate 0 1, .send 0 1]
    w.appends.length = 1 ∧ 1 ≤ (w.rf 0).nextIndex 1 ∧
      ∀ call ∈ w.appends, ((w.rf call.server).appendEntries call.args).isSome := by
  intro w
  have safe := indexSafety (Machine.reachable_after (m := cluster 3 (Token Int) Int)
    [.election 0, .requestVote 0, .requestVoteReply 0, .heartbeat 0 0, .replicate 0 1, .send 0 1])
  exact ⟨by decide +kernel, safe.2.1 0 1, safe.2.2.2.2.1⟩

end DistributedCloud.RaftLab
