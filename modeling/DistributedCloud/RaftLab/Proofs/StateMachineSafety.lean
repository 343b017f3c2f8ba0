import DistributedCloud.RaftLab.Proofs.Acknowledged

/-!
# State machine safety

In an orderly run everything that a peer commits, learns to be committed or sends on its
`applyCh` is chosen for its index, and at most one entry is chosen for an index. Without the
order a delayed heartbeat takes a committed entry away from the follower that made it
committed; a majority without it elects a new leader, and that leader commits another entry at
the same index.
-/

namespace DistributedCloud.RaftLab

open ReplicatedLog (Replicas Extends Agree Keeps Sound Committed CommittedBy HoldsCommitted ChosenAt
  OwnAt acceptors)

variable {n : Nat} {Byte Command : Type}

/-! ## Commit indices and apply loops after a step -/

/-- What a step does to the commit index of the peer that takes it. -/
inductive CommitStep [Labgob Byte Command] (w w' : World n Byte Command) (e : Event n Command)
    (peer : Fin n) : Prop
  | kept (same : (w'.rf peer).committedIndex = (w.rf peer).committedIndex)
  | reset (zero : (w'.rf peer).committedIndex = 0)
  | learned {k : Nat} {call : Call n (AppendEntriesArgs Command) AppendEntriesReply}
      {reply : AppendEntriesReply}
      (event : e = .appendEntries k) (found : w.appends[k]? = some call)
      (server : call.server = peer) (accepts : Accepts (w.rf peer) call.args)
      (outcome : AppendEntriesOutcome (w.rf peer) call.args (w'.rf peer) reply)
      (bound : (w'.rf peer).committedIndex ≤ call.args.leaderCommit)
      (inside : (w'.rf peer).committedIndex < (w'.rf peer).log.length)
  | advanced (role : (w'.rf peer).whoami = .leader)
      (further : (w.rf peer).committedIndex < (w'.rf peer).committedIndex)
      (entry : ∃ a, goIndex (w'.rf peer).log (w'.rf peer).committedIndex = some a ∧
        a.term = (w'.rf peer).currentTerm)
      (majority : n / 2 + 1 ≤ (w'.rf peer).replicas (w'.rf peer).committedIndex)

/-- What a step does to the apply loop of the peer that takes it, and to what was applied. -/
inductive ApplyStep (w w' : World n Byte Command) (peer : Fin n) : Prop
  | idle (loop : (w'.nodes peer).applyLoop = (w.nodes peer).applyLoop)
      (applied : w'.applied = w.applied)
  | took {beyond : List (LogEntries Command)}
      (behind : (w.rf peer).lastApplied < (w.rf peer).committedIndex)
      (loop : (w'.nodes peer).applyLoop = .sending (w.rf peer).committedIndex
        ((w.rf peer).lastApplied + 1)
        ((((w.rf peer).log ++ beyond).take ((w.rf peer).committedIndex + 1).toNat).drop
          ((w.rf peer).lastApplied + 1).toNat))
      (applied : w'.applied = w.applied)
  | sent {applyEnd next : Int} {entry : LogEntries Command} {rest : List (LogEntries Command)}
      {epoch : Nat} (sending : (w.nodes peer).applyLoop = .sending applyEnd next (entry :: rest))
      (loop : (w'.nodes peer).applyLoop = .sending applyEnd (next + 1) rest)
      (applied : w'.applied = w.applied ++ [⟨peer, epoch, ⟨true, entry.command, next⟩⟩])
  | stopped (loop : (w'.nodes peer).applyLoop = .waiting) (applied : w'.applied = w.applied)

variable [Labgob Byte Command] [Zero Command]

section Step

variable {w w' : World n Byte Command} {e : Event n Command} {peer : Fin n}

theorem step_commits (step : w.Step e w') (actor : w.actor e = some peer)
    (bounds : PeerBounds (w'.rf peer)) : CommitStep w w' e peer := by
  have nonempty := List.length_pos_iff.mpr bounds.log.ne_nil
  cases step_handled step actor with
  | stood _ after => exact .kept (by rw [after]; rfl)
  | @started command after =>
    rcases start_cases (w.rf peer) command with ⟨-, same⟩ | ⟨-, appended⟩
    · exact .kept (by rw [after, same])
    · exact .kept (by rw [after, appended, persist_committedIndex])
  | voted _ _ outcome =>
    generalize after : w'.rf peer = rf at outcome
    cases outcome with
    | stale => exact .kept (by rw [after])
    | refused => exact .kept (by rw [after, observeTerm_committedIndex])
    | granted => exact .kept (by rw [after, persist_committedIndex, observeTerm_committedIndex])
  | counted _ _ _ outcome =>
    generalize after : w'.rf peer = rf at outcome
    cases outcome with
    | ignored | counted => exact .kept (by rw [after])
    | steppedDown => exact .kept (by rw [after]; rfl)
    | elected => exact .kept (by rw [after]; rfl)
  | @appended k call reply found server outcome =>
    have handled := outcome
    generalize after : w'.rf peer = rf at outcome
    cases outcome with
    | stale => exact .kept (by rw [after])
    | short | mismatch => exact .kept (by rw [after, observeTerm_committedIndex])
    | @accepted log accepts installed =>
      have index := congrArg Raft.committedIndex after
      rw [accept_committedIndex, observeTerm_committedIndex] at index
      have length : (w'.rf peer).log = log := by rw [after, accept_log]
      split at index
      · refine .learned rfl found server accepts handled ?_ ?_
        · rw [index]
          exact min_le_left _ _
        · rw [length] at nonempty ⊢
          rw [index]
          omega
      · exact .kept index
  | answered _ _ _ outcome =>
    generalize after : w'.rf peer = rf at outcome
    cases outcome with
    | ignored | heartbeat => exact .kept (by rw [after])
    | steppedDown => exact .kept (by rw [after]; rfl)
    | backedUp => exact .kept (by rw [after])
    | acknowledged _ role _ committed =>
      rcases checkAndCommitLogs_cases committed with same | ⟨index, commits, same⟩
      · exact .kept (by rw [after, same]; rfl)
      · rw [same] at after
        refine .advanced ?_ ?_ ?_ ?_
        · rw [after]
          exact role
        · rw [after]
          exact commits.advances
        · rw [after]
          exact commits.entry
        · rw [after]
          exact commits.majority
  | applied _ after => exact .kept (by rw [after])
  | crashed after => exact .reset (by rw [after, make_committedIndex])
  | idle _ _ after => exact .kept (by rw [after])

theorem step_applies (step : w.Step e w') (actor : w.actor e = some peer) :
    ApplyStep w w' peer := by
  cases step with
  | @applyTake _ beyond _ _ behind _ copied =>
    cases actor
    refine @ApplyStep.took _ _ _ _ _ _ beyond behind ?_ rfl
    simp only [setNode_nodes_self]
    rw [copied]
  | applySend sending =>
    cases actor
    exact .sent sending (by simp only [setNode_nodes_self]) rfl
  | applyDone =>
    cases actor
    exact .stopped (by simp only [setNode_nodes_self]) rfl
  | crash =>
    cases actor
    exact .stopped (by simp only [setNode_nodes_self, Node.boot]) rfl
  | requestVote found | requestVoteReply found | appendEntries found | appendEntriesReply found =>
    simp only [World.actor, found, Option.map_some, Option.some.injEq] at actor
    subst actor
    exact .idle (by simp only [setNode_nodes_self]) rfl
  | election | start | heartbeatEnds | heartbeat | replicate | send =>
    cases actor
    exact .idle (by simp only [setNode_nodes_self]) rfl

/-- `lastApplied` does not go down, unless the peer crashes. -/
theorem step_lastApplied (step : w.Step e w') (actor : w.actor e = some peer) :
    (w.rf peer).lastApplied ≤ (w'.rf peer).lastApplied ∨ (w'.rf peer).lastApplied = 0 := by
  cases step_handled step actor with
  | stood _ after => exact Or.inl (by rw [after]; rfl)
  | @started command after =>
    exact Or.inl (by rw [after, (start_advances (w.rf peer) command).lastApplied])
  | voted _ _ outcome => exact Or.inl (requestVote_advances outcome).lastApplied.ge
  | counted _ _ _ outcome => exact Or.inl (requestVoteReply_advances outcome).lastApplied.ge
  | appended _ _ outcome => exact Or.inl (appendEntries_lastApplied outcome).ge
  | answered _ _ _ outcome => exact Or.inl (appendEntriesReply_advances outcome).lastApplied.ge
  | applied later after => exact Or.inl (by rw [after]; exact later)
  | crashed after => exact Or.inr (by rw [after, make_lastApplied])
  | idle _ _ after => exact Or.inl (by rw [after])

end Step

/-! ## Chosen entries -/

/-- Everything the peers know to be committed is, and everything they apply is chosen. -/
structure Applies (w : World n Byte Command) (h : History n Command) : Prop where
  nonneg : ∀ p, 0 ≤ (w.rf p).lastApplied
  committed : ∀ p (c : Nat), 0 < c → (w.rf p).committedIndex = c →
    HoldsCommitted LogEntries.term (replicas w h) p c
  requests : ∀ call ∈ w.appends, ∀ c : Nat, 0 < c → call.args.leaderCommit = c →
    CommittedBy LogEntries.term (replicas w h) call.args.term c
  batches : ∀ p applyEnd next rest, (w.nodes p).applyLoop = .sending applyEnd next rest →
    ∃ m : Nat, next = m ∧ ∀ k a, rest[k]? = some a →
      ChosenAt LogEntries.term (replicas w h) (m + k) a
  applied : ∀ a ∈ w.applied, ∃ (m : Nat) (entry : LogEntries Command), a.msg.commandIndex = m ∧
    a.msg.command = entry.command ∧ ChosenAt LogEntries.term (replicas w h) m entry

section Chosen

variable {w w' : World n Byte Command} {h : History n Command} {e : Event n Command} {peer : Fin n}

omit [Labgob Byte Command] [Zero Command] in
/-- The peers whose `matchIndex` counts for an index, and the leader, have accepted it. -/
theorem Matched.majority (matched : Matched w h) (leads : (w.rf peer).whoami = .leader)
    (me : (w.rf peer).me = peer) {k : Nat} (positive : 0 < k)
    (counted : n / 2 + 1 ≤ (w.rf peer).replicas k)
    (own : (k : Int) ≤ h.accepted peer (w.rf peer).currentTerm) :
    Majority (acceptors (replicas w h) (w.rf peer).currentTerm k) := by
  rw [Raft.replicas, me, countP_finRange] at counted
  have alone : peer ∉ Finset.univ.filter fun f : Fin n =>
      f ≠ peer ∧ (w.rf peer).matchIndex f ≥ k := by
    simp
  have size := Finset.card_insert_of_notMem alone
  have subset : insert peer (Finset.univ.filter fun f : Fin n =>
      f ≠ peer ∧ (w.rf peer).matchIndex f ≥ k) ⊆
      acceptors (replicas w h) (w.rf peer).currentTerm k := by
    intro f member
    rw [acceptors, Finset.mem_filter]
    refine ⟨Finset.mem_univ f, ?_⟩
    change (k : Int) ≤ h.accepted f (w.rf peer).currentTerm
    rcases Finset.mem_insert.mp member with rfl | counts
    · exact own
    · have reaches := (Finset.mem_filter.mp counts).2.2
      have bound := matched.leaders peer f leads
      omega
  refine Majority.mono ?_ subset
  unfold Majority
  rw [Fintype.card_fin]
  omega

omit [Labgob Byte Command] in
/-- What a leader commits by counting is committed. -/
theorem advanced_holds (sound : Sound LogEntries.term sentinel (replicas w h))
    (matched : Matched w h) (leads : (w.rf peer).whoami = .leader)
    (led : h.leader (w.rf peer).currentTerm = some peer) (me : (w.rf peer).me = peer) {c : Nat}
    (positive : 0 < c) (index : (w.rf peer).committedIndex = c)
    (entry : ∃ a, goIndex (w.rf peer).log (w.rf peer).committedIndex = some a ∧
      a.term = (w.rf peer).currentTerm)
    (majority : n / 2 + 1 ≤ (w.rf peer).replicas (w.rf peer).committedIndex) :
    HoldsCommitted LogEntries.term (replicas w h) peer c := by
  rw [index] at entry majority
  obtain ⟨a, found, now⟩ := entry
  rw [goIndex_natCast] at found
  have inside := (List.getElem?_eq_some_iff.mp found).1
  have own : (w.rf peer).log = h.termLog (w.rf peer).currentTerm := sound.coherent.own peer led
  have reach : h.accepted peer (w.rf peer).currentTerm = (w.rf peer).log.length - 1 :=
    sound.accepting.leads peer led
  have committed : Committed LogEntries.term (replicas w h) (w.rf peer).currentTerm c := by
    refine ⟨⟨a, ?_, now⟩, matched.majority leads me positive majority (by omega)⟩
    rw [replicas_termLog, ← own]
    exact found
  refine ⟨(w.rf peer).currentTerm, c, committed, le_refl _, le_refl c, ?_⟩
  rw [replicas_termLog, ← own]
  exact Agree.refl inside

omit [Labgob Byte Command] in
/-- What a follower learns to be committed, it holds. -/
theorem learned_holds (sound : Sound LogEntries.term sentinel (replicas w h)) {leader : Fin n}
    {term : Int} {c : Nat} (led : h.leader term = some leader)
    (now : (w.rf peer).currentTerm = term) (some : 0 ≤ h.accepted peer term)
    (committed : CommittedBy LogEntries.term (replicas w h) term c)
    (inside : c < (w.rf peer).log.length) :
    HoldsCommitted LogEntries.term (replicas w h) peer c := by
  subst now
  have follows := sound.accepting.follows peer some
  exact committed.holds sound.coherent sound.lasting led (Agree.of_isPrefix follows inside)

theorem committed_step (bounds : WorldBounds w) (inv : Replicating w h) (ballots : Ballots w h)
    (applies : Applies w h) (sound : Sound LogEntries.term sentinel (replicas w h))
    (step : w.Step e w') (acts : Acts Keeps w h w' (History.record w e w' h))
    (bounds' : WorldBounds w') (node' : ∀ p, NodeDurable p (w'.nodes p))
    (ballots' : Ballots w' (History.record w e w' h))
    (faithful' : Faithful w' (History.record w e w' h)) (p : Fin n) (c : Nat) (positive : 0 < c)
    (index : (w'.rf p).committedIndex = c) :
    HoldsCommitted LogEntries.term (replicas w' (History.record w e w' h)) p c := by
  obtain ⟨peer, actor, frame⟩ := step_actor step
  have kept : (w'.rf p).committedIndex = (w.rf p).committedIndex →
      HoldsCommitted LogEntries.term (replicas w' (History.record w e w' h)) p c := by
    intro same
    exact (applies.committed p c positive (same ▸ index)).acts sound acts
  by_cases same : p = peer
  · subst same
    cases step_commits step actor (bounds'.peers p) with
    | kept same => exact kept same
    | reset zero => omega
    | @learned k call reply event found server accepts outcome bound inside =>
      subst event server
      have member := List.mem_of_getElem? found
      have grows := inv.extends acts
      have recorded := inv.recorded ballots found outcome accepts
      have prev := (bounds.requests call member).prev
      obtain ⟨lc, leaderCommit⟩ := Int.eq_ofNat_of_zero_le
        (show 0 ≤ call.args.leaderCommit by omega)
      have announced := (applies.requests call member lc (by omega) leaderCommit).mono
        (show c ≤ lc by omega)
      exact learned_holds faithful'.sound (grows.leader _ _ (inv.requests call member).leader)
        (appendEntries_term outcome accepts.1) (by omega) (announced.extends grows) (by omega)
    | advanced role _ entry majority =>
      exact advanced_holds faithful'.sound faithful'.matched role (ballots'.leaders p role)
        (node' p).me positive index entry majority
  · apply kept
    exact congrArg (fun nd => nd.rf.committedIndex) (frame p same)

/-- The entries to send from index `next` on are chosen for the indices they stand at. -/
def ChosenFrom (r : Replicas (Fin n) (LogEntries Command)) (next : Int)
    (rest : List (LogEntries Command)) : Prop :=
  ∃ m : Nat, next = m ∧ ∀ k a, rest[k]? = some a → ChosenAt LogEntries.term r (m + k) a

omit [Zero Command] in
theorem ChosenFrom.extends {r r' : Replicas (Fin n) (LogEntries Command)} {next : Int}
    {rest : List (LogEntries Command)} (chosen : ChosenFrom r next rest)
    (grows : Extends LogEntries.term r r') : ChosenFrom r' next rest := by
  obtain ⟨m, start, each⟩ := chosen
  exact ⟨m, start, fun k a found => (each k a found).extends grows⟩

omit [Zero Command] in
theorem ChosenFrom.tail {r : Replicas (Fin n) (LogEntries Command)} {next : Int}
    {entry : LogEntries Command} {rest : List (LogEntries Command)}
    (chosen : ChosenFrom r next (entry :: rest)) : ChosenFrom r (next + 1) rest := by
  obtain ⟨m, start, each⟩ := chosen
  refine ⟨m + 1, by omega, fun k a found => ?_⟩
  have shifted := each (k + 1) a (by rw [List.getElem?_cons_succ]; exact found)
  rwa [show m + 1 + k = m + (k + 1) by omega]

omit [Labgob Byte Command] [Zero Command] in
/-- The batch that the apply loop copies lies inside the committed part of the log, not in what
    is beyond it. -/
theorem Applies.taken (applies : Applies w h) {beyond : List (LogEntries Command)}
    (behind : (w.rf peer).lastApplied < (w.rf peer).committedIndex) :
    ChosenFrom (replicas w h) ((w.rf peer).lastApplied + 1)
      ((((w.rf peer).log ++ beyond).take ((w.rf peer).committedIndex + 1).toNat).drop
        ((w.rf peer).lastApplied + 1).toNat) := by
  have nonneg := applies.nonneg peer
  obtain ⟨c, index⟩ := Int.eq_ofNat_of_zero_le (show 0 ≤ (w.rf peer).committedIndex by omega)
  obtain ⟨m, start⟩ := Int.eq_ofNat_of_zero_le (show 0 ≤ (w.rf peer).lastApplied + 1 by omega)
  have holds := applies.committed peer c (by omega) index
  have inside : c < (w.rf peer).log.length := by
    obtain ⟨_, _, _, _, _, agree⟩ := holds
    exact agree.inside
  refine ⟨m, start, fun k a found => ?_⟩
  rw [start, index, Int.toNat_natCast, show ((c : Int) + 1).toNat = c + 1 by omega,
    List.take_append_of_le_length (by omega), List.getElem?_drop, List.getElem?_take] at found
  split at found
  · exact holds.chosen (by omega) found
  · cases found

theorem batches_step (applies : Applies w h) (inv : Replicating w h)
    (acts : Acts Keeps w h w' (History.record w e w' h)) (step : w.Step e w') (p : Fin n)
    (applyEnd next : Int) (rest : List (LogEntries Command))
    (sending : (w'.nodes p).applyLoop = .sending applyEnd next rest) :
    ChosenFrom (replicas w' (History.record w e w' h)) next rest := by
  obtain ⟨peer, actor, frame⟩ := step_actor step
  have grows := inv.extends acts
  have before : ∀ {applyEnd next rest}, (w.nodes p).applyLoop = .sending applyEnd next rest →
      ChosenFrom (replicas w h) next rest := applies.batches p _ _ _
  by_cases same : p = peer
  · subst same
    cases step_applies step actor with
    | idle loop => exact (before (loop ▸ sending)).extends grows
    | took behind loop =>
      rw [loop] at sending
      cases sending
      exact (applies.taken behind).extends grows
    | sent first loop =>
      rw [loop] at sending
      cases sending
      exact (before first).tail.extends grows
    | stopped loop =>
      rw [loop] at sending
      cases sending
  · rw [frame p same] at sending
    exact (before sending).extends grows

theorem applied_step (applies : Applies w h) (inv : Replicating w h)
    (acts : Acts Keeps w h w' (History.record w e w' h)) (step : w.Step e w') :
    ∀ a ∈ w'.applied, ∃ (m : Nat) (entry : LogEntries Command), a.msg.commandIndex = m ∧
      a.msg.command = entry.command ∧
      ChosenAt LogEntries.term (replicas w' (History.record w e w' h)) m entry := by
  obtain ⟨peer, actor, -⟩ := step_actor step
  have grows := inv.extends acts
  intro a member
  have earlier : a ∈ w.applied → ∃ (m : Nat) (entry : LogEntries Command),
      a.msg.commandIndex = m ∧ a.msg.command = entry.command ∧
      ChosenAt LogEntries.term (replicas w' (History.record w e w' h)) m entry := by
    intro old
    obtain ⟨m, entry, index, command, chosen⟩ := applies.applied a old
    exact ⟨m, entry, index, command, chosen.extends grows⟩
  cases step_applies step actor with
  | idle _ applied => exact earlier (applied ▸ member)
  | took _ _ applied => exact earlier (applied ▸ member)
  | @sent _ _ entry _ _ sending _ applied =>
    rw [applied] at member
    rcases List.mem_append.mp member with old | new
    · exact earlier old
    · obtain rfl := List.mem_singleton.mp new
      obtain ⟨m, start, chosen⟩ := applies.batches peer _ _ _ sending
      exact ⟨m, entry, start, rfl, (chosen 0 entry rfl).extends grows⟩
  | stopped _ applied => exact earlier (applied ▸ member)

theorem applies_step (bounds : WorldBounds w) (inv : Replicating w h) (ballots : Ballots w h)
    (applies : Applies w h) (sound : Sound LogEntries.term sentinel (replicas w h))
    (step : w.Step e w')
    (acts : Acts Keeps w h w' (History.record w e w' h))
    (bounds' : WorldBounds w') (node' : ∀ p, NodeDurable p (w'.nodes p))
    (ballots' : Ballots w' (History.record w e w' h))
    (faithful' : Faithful w' (History.record w e w' h)) :
    Applies w' (History.record w e w' h) := by
  obtain ⟨peer, actor, frame⟩ := step_actor step
  have grows := inv.extends acts
  refine ⟨?_, ?_, ?_, batches_step applies inv acts step, applied_step applies inv acts step⟩
  · intro p
    have before := applies.nonneg p
    by_cases same : p = peer
    · subst same
      have := step_lastApplied step actor
      omega
    · have node : w'.rf p = w.rf p := congrArg Node.rf (frame p same)
      rw [node]
      exact before
  · exact committed_step bounds inv ballots applies sound step acts bounds' node' ballots' faithful'
  · intro call member c positive leaderCommit
    cases step_appends step call member with
    | kept old => exact (applies.requests call old c positive leaderCommit).extends grows
    | @sent p server task epoch isHeartbeat checkedIn args event found built =>
      rw [built.leaderCommit] at leaderCommit
      have holds := (applies.committed p c positive leaderCommit).committedBy
      rw [built.term]
      exact holds.extends grows
    | @answered k old reply event found outcome =>
      have before := applies.requests old (List.mem_of_getElem? found) c positive leaderCommit
      exact before.extends grows

end Chosen

/-! ## Whole runs -/

theorem applies_init : Applies (World.init : World n Byte Command) History.start := by
  constructor
  · intro p
    exact le_refl 0
  · intro p c positive index
    change (0 : Int) = c at index
    omega
  · intro call member
    cases member
  · intro p applyEnd next rest sending
    cases sending
  · intro a member
    cases member

theorem applies_reachable {s : World n Byte Command × History n Command}
    (reached : (recordedCluster n Byte Command).ReachableWhen Orderly s) : Applies s.1 s.2 := by
  refine Machine.ReachableWhen.invariant (I := fun s => Applies s.1 s.2) applies_init ?_ reached
  intro s e s' before applies guard next
  have inv := replicating_reachable (before.mono fun _ _ both => both.1)
  have acts := orderly_acts before guard next
  have after := before.step guard next
  have ballots' := (ballots_reachable after).1
  have faithful' := faithful_reachable after
  obtain ⟨step, recorded⟩ := recorded_step before next
  rw [recorded] at acts ballots' faithful' ⊢
  exact applies_step (worldBounds_reachable before.dropHistory) inv (ballots_reachable before).1
    applies (faithful_reachable before).sound step acts
    (worldBounds_reachable after.dropHistory) (nodeDurable_reachable after.dropHistory) ballots'
    faithful'

/-- In every orderly run two messages sent on `applyCh` under the same index carry the same
    command. -/
theorem stateMachineSafety {w : World n Byte Command} {h : History n Command}
    (reached : (recordedCluster n Byte Command).ReachableWhen Orderly (w, h))
    {a b : Applied n Command} (first : a ∈ w.applied) (second : b ∈ w.applied)
    (same : a.msg.commandIndex = b.msg.commandIndex) : a.msg.command = b.msg.command := by
  have applies : Applies w h := applies_reachable reached
  have faithful : Faithful w h := faithful_reachable reached
  obtain ⟨i, entry, index, command, chosen⟩ := applies.applied a first
  obtain ⟨j, entry', index', command', chosen'⟩ := applies.applied b second
  obtain rfl : i = j := by omega
  rw [command, command', ReplicatedLog.chosenAt_unique faithful.sound.coherent
    faithful.sound.lasting chosen chosen']

/-- Leader 0 and follower 1 both apply command 7, and the overtaken heartbeat is lost. -/
theorem stateMachineSafety_lost :
    let w := ((cluster 3 (Token Int) Int).guarded
      (fun w e => SentByLeader w e ∧ EndsPastLog w e)).after (overtakenHeartbeat ++
        [.applyTake 0 [], .applySend 0, .heartbeat 0 0, .replicate 0 4, .send 0 4,
          .appendEntries 1, .applyTake 1 [], .applySend 1])
    w.applied.map Applied.peer = [0, 1] ∧ ∀ a ∈ w.applied, ∀ b ∈ w.applied,
      a.msg.commandIndex = b.msg.commandIndex → a.msg.command = b.msg.command := by
  intro w
  have reached : (cluster 3 (Token Int) Int).ReachableWhen
      (fun w e => SentByLeader w e ∧ EndsPastLog w e) w :=
    Machine.reachableWhen_of_guarded (Machine.reachable_after _)
  obtain ⟨h, orderly⟩ := orderly_of_endsPastLog reached
  refine ⟨by decide +kernel, fun a first b second same => ?_⟩
  exact stateMachineSafety orderly first second same

/-- Leader 0 has applied command 7 at index 1. The overtaken heartbeat takes the entry from peer
    1, which then votes for peer 2; peer 2 leads term 2 and commits command 8 at index 1. -/
def committedTwice : List (Event 3 Int) :=
  overtakenHeartbeat ++
    [.applyTake 0 [], .applySend 0, .appendEntries 0,
      .election 2, .election 2, .requestVote 4, .requestVoteReply 4, .start 2 8,
      .heartbeat 2 0, .replicate 2 1, .send 2 2, .appendEntries 1, .appendEntriesReply 1,
      .heartbeat 2 0, .replicate 2 2, .send 2 3, .appendEntries 1, .appendEntriesReply 1,
      .applyTake 2 [], .applySend 2]

/-- Peers 0 and 2 apply different commands at index 1. -/
theorem stateMachineSafety_committedTwice :
    ¬ ∀ w, (cluster 3 (Token Int) Int).Reachable w → ∀ a ∈ w.applied, ∀ b ∈ w.applied,
      a.msg.commandIndex = b.msg.commandIndex → a.msg.command = b.msg.command := by
  intro always
  have applied : ((cluster 3 (Token Int) Int).after committedTwice).applied =
      [⟨0, 0, ⟨true, 7, 1⟩⟩, ⟨2, 0, ⟨true, 8, 1⟩⟩] := by decide +kernel
  have same := always _ (Machine.reachable_after committedTwice) ⟨0, 0, ⟨true, 7, 1⟩⟩
    (by rw [applied]; simp) ⟨2, 0, ⟨true, 8, 1⟩⟩ (by rw [applied]; simp) rfl
  revert same
  decide

end DistributedCloud.RaftLab
