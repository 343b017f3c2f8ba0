import DistributedCloud.RaftLab.Proofs.Bounds

/-!
# Commit bounds

`lastApplied ≤ committedIndex ≤ getLastLogIndex()` is broken by exactly one thing: an accepted
`AppendEntries` request cuts the log right after its own last entry, also when the log went on
without a conflict. A request that was overtaken by a later one can so cut the log below
`committedIndex`. In every run in which no accepted request ends below the commit index of
the peer that accepts it, the bounds hold.
-/

namespace DistributedCloud.RaftLab

variable {n : Nat} {Byte Command : Type} [Labgob Byte Command] [Zero Command]

/-- The bounds of one node. A batch that the apply loop is sending ends at an index that is
    committed. -/
structure CommitBounds (nd : Node n Byte Command) : Prop where
  nonneg : 0 ≤ nd.rf.lastApplied
  applied : nd.rf.lastApplied ≤ nd.rf.committedIndex
  committed : nd.rf.committedIndex ≤ lastLogIndex nd.rf.log
  sending : ∀ applyEnd next rest, nd.applyLoop = .sending applyEnd next rest →
    applyEnd ≤ nd.rf.committedIndex

/-- The step does not accept a request that ends below the commit index of the peer that
    handles it. -/
def EndsPastCommit (w : World n Byte Command) : Event n Command → Prop :=
  w.WhenAppend fun call => Accepts (w.rf call.server) call.args →
    (w.rf call.server).committedIndex ≤ call.args.prevLogIndex + call.args.items.length

instance (w : World n Byte Command) (e : Event n Command) : Decidable (EndsPastCommit w e) :=
  inferInstanceAs (Decidable (w.WhenAppend _ e))

/-- What a critical section other than an accepted request does to the bounds: the log does
    not get shorter and the commit index does not go down or past the log. -/
structure Advances (rf rf' : Raft n Byte Command) : Prop where
  lastApplied : rf'.lastApplied = rf.lastApplied
  committedIndex : rf.committedIndex ≤ rf'.committedIndex
  bound : rf.committedIndex ≤ lastLogIndex rf.log → rf'.committedIndex ≤ lastLogIndex rf'.log

omit [Labgob Byte Command] [Zero Command] in
theorem Advances.of_same {rf rf' : Raft n Byte Command} (lastApplied : rf'.lastApplied = rf.lastApplied)
    (committedIndex : rf'.committedIndex = rf.committedIndex) (log : rf'.log = rf.log) :
    Advances rf rf' :=
  ⟨lastApplied, committedIndex.ge, fun bound => by rw [committedIndex, log]; exact bound⟩

omit [Labgob Byte Command] [Zero Command] in
theorem CommitBounds.advance {nd nd' : Node n Byte Command} (bounds : CommitBounds nd)
    (advances : Advances nd.rf nd'.rf) (loop : nd'.applyLoop = nd.applyLoop) : CommitBounds nd' := by
  have applied := bounds.applied
  have up := advances.committedIndex
  refine ⟨?_, ?_, advances.bound bounds.committed, ?_⟩
  · rw [advances.lastApplied]
    exact bounds.nonneg
  · rw [advances.lastApplied]
    omega
  · intro applyEnd next rest sending
    rw [loop] at sending
    exact le_trans (bounds.sending applyEnd next rest sending) up

omit [Zero Command] in
theorem requestVote_advances {rf rf' : Raft n Byte Command} {args : RequestVoteArgs}
    {reply : RequestVoteReply} (outcome : RequestVoteOutcome rf args rf' reply) :
    Advances rf rf' := by
  cases outcome with
  | stale => exact Advances.of_same rfl rfl rfl
  | refused => exact Advances.of_same (by simp) (by simp) (by simp)
  | granted => exact Advances.of_same (by simp) (by simp) (by simp)

omit [Zero Command] in
theorem requestVoteReply_advances {rf rf' : Raft n Byte Command} {voteCounts voteCounts' : Int}
    {args : RequestVoteArgs} {reply : RequestVoteReply} {spawned : List (Task n)}
    (outcome : VoteReplyOutcome rf voteCounts args reply (rf', voteCounts', spawned)) :
    Advances rf rf' := by
  cases outcome with
  | ignored => exact Advances.of_same rfl rfl rfl
  | steppedDown => exact Advances.of_same rfl rfl rfl
  | counted => exact Advances.of_same rfl rfl rfl
  | elected => exact Advances.of_same rfl rfl rfl

omit [Zero Command] in
theorem appendEntriesReply_advances {rf rf' : Raft n Byte Command} {server : Fin n}
    {args : AppendEntriesArgs Command} {reply : AppendEntriesReply}
    (outcome : AppendReplyOutcome rf server args reply rf') : Advances rf rf' := by
  cases outcome with
  | ignored => exact Advances.of_same rfl rfl rfl
  | steppedDown => exact Advances.of_same rfl rfl rfl
  | backedUp => exact Advances.of_same rfl rfl rfl
  | heartbeat => exact Advances.of_same rfl rfl rfl
  | acknowledged _ _ _ committed =>
    rcases checkAndCommitLogs_cases committed with rfl | ⟨k, commits, rfl⟩
    · exact Advances.of_same rfl rfl rfl
    · exact ⟨rfl, le_of_lt commits.advances, fun _ => commits.inside⟩

omit [Zero Command] in
theorem start_advances (rf : Raft n Byte Command) (command : Command) :
    Advances rf (rf.start command).1 := by
  rcases start_cases rf command with ⟨-, same⟩ | ⟨-, appended⟩
  · rw [same]
    exact Advances.of_same rfl rfl rfl
  · rw [appended]
    refine ⟨rfl, le_refl _, fun bound => ?_⟩
    have longer : lastLogIndex rf.log ≤ lastLogIndex (rf.log ++ [⟨rf.currentTerm, command⟩]) := by
      simp only [lastLogIndex, List.length_append, List.length_singleton]
      split <;> omega
    exact le_trans bound longer

omit [Zero Command] in
theorem appendEntries_lastApplied {rf rf' : Raft n Byte Command} {args : AppendEntriesArgs Command}
    {reply : AppendEntriesReply} (outcome : AppendEntriesOutcome rf args rf' reply) :
    rf'.lastApplied = rf.lastApplied := by
  cases outcome with
  | stale => rfl
  | short | mismatch => exact observeTerm_lastApplied ..
  | accepted => rw [accept_lastApplied, observeTerm_lastApplied]

/-- The one step that can break the bounds, when it does not. -/
theorem appendEntries_advances {rf rf' : Raft n Byte Command} {args : AppendEntriesArgs Command}
    {reply : AppendEntriesReply} (bounds : PeerBounds rf) (request : RequestBounds args)
    (far : Accepts rf args → rf.committedIndex ≤ args.prevLogIndex + args.items.length)
    (outcome : AppendEntriesOutcome rf args rf' reply) : Advances rf rf' := by
  cases outcome with
  | stale => exact Advances.of_same rfl rfl rfl
  | short => exact Advances.of_same (by simp) (by simp) (by simp)
  | mismatch => exact Advances.of_same (by simp) (by simp) (by simp)
  | @accepted log accepts installed =>
    have reaches := far accepts
    have prev := request.prev
    obtain ⟨q, lower, upper, rfl⟩ :=
      accepted_shape bounds.log.ne_nil request.prev accepts.2.1 installed
    have length : (rf.log.take q ++ args.items).length = q + args.items.length := by
      rw [List.length_append, List.length_take, Nat.min_eq_left upper]
    have last : lastLogIndex (rf.log.take q ++ args.items) = q + args.items.length - 1 := by
      rw [lastLogIndex, if_neg (by omega), length]
      omega
    refine ⟨by simp, ?_, fun _ => ?_⟩
    · rw [accept_committedIndex, observeTerm_committedIndex, length]
      split <;> omega
    · rw [accept_committedIndex, observeTerm_committedIndex, accept_log, last, length]
      split <;> omega

omit [Labgob Byte Command] [Zero Command] in
theorem setNode_bounds (w : World n Byte Command) {peer : Fin n} {nd : Node n Byte Command}
    (before : ∀ q, CommitBounds (w.nodes q)) (now : CommitBounds nd) :
    ∀ q, CommitBounds ((w.setNode peer nd).nodes q) :=
  setNode_forall w peer nd (P := fun _ nd => CommitBounds nd) before now

theorem commitBounds_step {w w' : World n Byte Command} {e : Event n Command}
    (world : WorldBounds w) (bounds : ∀ peer, CommitBounds (w.nodes peer))
    (far : EndsPastCommit w e) (world' : WorldBounds w') (step : w.Step e w') :
    ∀ peer, CommitBounds (w'.nodes peer) := by
  cases step with
  | @election peer =>
    exact setNode_bounds w bounds ((bounds peer).advance (Advances.of_same rfl rfl rfl) rfl)
  | @start peer command =>
    exact setNode_bounds w bounds ((bounds peer).advance (start_advances _ command) rfl)
  | @heartbeatEnds peer =>
    exact setNode_bounds w bounds ((bounds peer).advance (Advances.of_same rfl rfl rfl) rfl)
  | @heartbeat peer =>
    exact setNode_bounds w bounds ((bounds peer).advance (Advances.of_same rfl rfl rfl) rfl)
  | @replicate peer =>
    exact setNode_bounds w bounds ((bounds peer).advance (Advances.of_same rfl rfl rfl) rfl)
  | @send peer =>
    exact setNode_bounds w bounds ((bounds peer).advance (Advances.of_same rfl rfl rfl) rfl)
  | @requestVote _ call _ _ _ _ outcome =>
    exact setNode_bounds w bounds
      ((bounds call.server).advance (requestVote_advances outcome) rfl)
  | @requestVoteReply _ call _ _ _ _ _ _ _ outcome =>
    exact setNode_bounds w bounds
      ((bounds call.caller).advance (requestVoteReply_advances outcome) rfl)
  | @appendEntries _ call _ _ found _ outcome =>
    have advances := appendEntries_advances (world.peers call.server)
      (world.requests call (List.mem_of_getElem? found)) (far call found) outcome
    exact setNode_bounds w bounds ((bounds call.server).advance advances rfl)
  | @appendEntriesReply _ call _ _ _ _ _ outcome =>
    exact setNode_bounds w bounds
      ((bounds call.caller).advance (appendEntriesReply_advances outcome) rfl)
  | @applyTake peer =>
    obtain ⟨nonneg, applied, committed, -⟩ := bounds peer
    refine setNode_bounds w bounds ⟨nonneg, applied, committed, ?_⟩
    intro applyEnd next rest sending
    cases sending
    exact le_refl _
  | @applySend peer applyEnd next entry rest batch =>
    obtain ⟨nonneg, applied, committed, earlier⟩ := bounds peer
    refine setNode_bounds w bounds ⟨nonneg, applied, committed, ?_⟩
    intro applyEnd' next' rest' sending
    cases sending
    exact earlier applyEnd next _ batch
  | @applyDone peer applyEnd next batch =>
    obtain ⟨nonneg, applied, committed, earlier⟩ := bounds peer
    have batchEnd := earlier applyEnd next _ batch
    refine setNode_bounds w bounds ⟨?_, ?_, committed, ?_⟩
    · exact le_trans nonneg (le_max_right _ _)
    · exact max_le batchEnd applied
    · intro applyEnd' next' rest' sending
      cases sending
  | @crash peer =>
    have rebuilt := world'.peers peer
    rw [setNode_nodes_self] at rebuilt
    refine setNode_bounds w bounds ⟨?_, ?_, ?_, ?_⟩
    · simp [Node.boot]
    · simp [Node.boot]
    · simp only [Node.boot, make_committedIndex]
      exact lastLogIndex_nonneg _
    · intro applyEnd next rest sending
      cases sending

/-- In every run whose accepted requests all end at or past the commit index of the peer that
    accepts them, every peer satisfies the commit bounds in every state. -/
theorem commitBounds_reachable {w : World n Byte Command}
    (reached : (cluster n Byte Command).ReachableWhen EndsPastCommit w) (peer : Fin n) :
    0 ≤ (w.rf peer).lastApplied ∧ (w.rf peer).lastApplied ≤ (w.rf peer).committedIndex ∧
      (w.rf peer).committedIndex ≤ (w.rf peer).getLastLogIndex := by
  have all : ∀ peer, CommitBounds (w.nodes peer) := by
    refine Machine.ReachableWhen.invariant
      (I := fun w => ∀ peer, CommitBounds (w.nodes peer)) ?_ ?_ reached
    · intro peer
      refine ⟨?_, ?_, ?_, ?_⟩
      · exact le_refl 0
      · exact le_refl 0
      · exact lastLogIndex_nonneg _
      · intro applyEnd next rest sending
        cases sending
    · intro w e w' before bounds far next
      have step := reachable_step before.reachable next
      have after : (cluster n Byte Command).Reachable w' := (before.step far next).reachable
      exact commitBounds_step (worldBounds_reachable before.reachable) bounds far
        (worldBounds_reachable after) step
  obtain ⟨nonneg, applied, committed, -⟩ := all peer
  exact ⟨nonneg, applied, committed⟩

/-! ## A heartbeat that is overtaken -/

/-- Peer 0 leads term 1. Its second request to peer 1, an empty heartbeat at index 0, stays in
    flight as call 0 while the next one brings the command 7 to peer 1 and the leader commits
    it. -/
def overtakenHeartbeat : List (Event 3 Int) :=
  [.election 0, .requestVote 0, .requestVoteReply 0,
    .heartbeat 0 0, .replicate 0 1, .send 0 1, .appendEntries 0, .appendEntriesReply 0,
    .heartbeat 0 0, .replicate 0 2, .send 0 2,
    .start 0 7, .heartbeat 0 0, .replicate 0 3, .send 0 3, .appendEntries 1, .appendEntriesReply 1]

/-- Peer 1 learns of the commit, and the overtaken heartbeat is lost. -/
theorem commitBounds_reachable_lost :
    let w := ((cluster 3 (Token Int) Int).guarded EndsPastCommit).after
      (overtakenHeartbeat ++ [.heartbeat 0 0, .replicate 0 4, .send 0 4, .appendEntries 1])
    (w.rf 1).committedIndex = 1 ∧ (w.rf 1).committedIndex ≤ (w.rf 1).getLastLogIndex := by
  intro w
  have bounds := commitBounds_reachable (Machine.reachableWhen_of_guarded
    (Machine.reachable_after (m := (cluster 3 (Token Int) Int).guarded EndsPastCommit)
      (overtakenHeartbeat ++ [.heartbeat 0 0, .replicate 0 4, .send 0 4, .appendEntries 1]))) 1
  exact ⟨by decide +kernel, bounds.2.2⟩

/-- Peer 1 learns of the commit before the overtaken heartbeat arrives. -/
def overtakenAfterCommit : List (Event 3 Int) :=
  overtakenHeartbeat ++
    [.heartbeat 0 0, .replicate 0 4, .send 0 4, .appendEntries 1, .appendEntries 0]

/-- The overtaken heartbeat leaves peer 1 with `committedIndex` 1 and nothing but the sentinel
    in its log. -/
theorem commitBounds_overtaken :
    ¬ ∀ w, (cluster 3 (Token Int) Int).Reachable w → ∀ peer,
      0 ≤ (w.rf peer).lastApplied ∧ (w.rf peer).lastApplied ≤ (w.rf peer).committedIndex ∧
        (w.rf peer).committedIndex ≤ (w.rf peer).getLastLogIndex := by
  intro always
  have bounds := always _ (Machine.reachable_after overtakenAfterCommit) 1
  have broken : ¬ (((cluster 3 (Token Int) Int).after overtakenAfterCommit).rf 1).committedIndex ≤
      (((cluster 3 (Token Int) Int).after overtakenAfterCommit).rf 1).getLastLogIndex := by
    decide +kernel
  exact broken bounds.2.2

end DistributedCloud.RaftLab
