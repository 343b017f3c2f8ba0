import DistributedCloud.RaftLab.Proofs.Elections

/-!
# One vote in a term

Terms and votes are persisted before anyone hears of them. So over a whole run, in which peers crash
and are restarted at any point, a term never goes back, a vote that was cast stays while the term
does, and no two candidates of one term are ever granted the vote of the same peer.
-/

namespace DistributedCloud.RaftLab

variable {n : Nat} {Byte Command : Type} [Labgob Byte Command] [Zero Command]
  {s s' : World n Byte Command × History n Command} {e : Event n Command}

/-- The reply to the request has granted the vote of the server. -/
def Call.Granted (call : Call n RequestVoteArgs RequestVoteReply) : Prop :=
  ∃ reply, call.reply = some reply ∧ reply.voteGranted = true

/-- One step of a run: no term goes back, and a recorded vote stays. -/
theorem voted_step (reached : (recordedCluster n Byte Command).Reachable s)
    (next : (recordedCluster n Byte Command).step s e = some s') :
    (∀ p, (s.1.rf p).currentTerm ≤ (s'.1.rf p).currentTerm) ∧
      ∀ p term, s.2.voted p term ≠ -1 → s'.2.voted p term = s.2.voted p term := by
  obtain ⟨ballots, -⟩ := ballots_reachable reached
  obtain ⟨step, recorded⟩ := recorded_step reached next
  obtain ⟨peer, actor, frame⟩ := step_actor step
  have terms := (step_peer (nodeDurable_reachable reached.dropHistory peer) step actor).termStep
  refine ⟨?_, ?_⟩
  · intro p
    by_cases same : p = peer
    · subst same
      exact terms.mono
    · rw [World.rf, World.rf, frame p same]
  · intro p term voted
    rw [recorded]
    exact ballots.votes_kept actor terms voted

/-- What one step keeps, a run keeps. -/
theorem voted_path {ok : World n Byte Command × History n Command → Event n Command → Prop}
    (reached : (recordedCluster n Byte Command).Reachable s)
    (later : (recordedCluster n Byte Command).Path ok s s') :
    (recordedCluster n Byte Command).Reachable s' ∧
      (∀ p, (s.1.rf p).currentTerm ≤ (s'.1.rf p).currentTerm) ∧
      ∀ p term, s.2.voted p term ≠ -1 → s'.2.voted p term = s.2.voted p term := by
  induction later with
  | refl => exact ⟨reached, fun p => le_rfl, fun p term voted => rfl⟩
  | tail e before guard next ih =>
    obtain ⟨there, terms, votes⟩ := ih
    obtain ⟨up, kept⟩ := voted_step there next
    refine ⟨there.step trivial next, fun p => (terms p).trans (up p), ?_⟩
    intro p term voted
    have still := votes p term voted
    rw [kept p term (still ▸ voted), still]

/-- In every run, whatever is lost, delayed and reordered, and with crashes and restarts at any
    point: between an earlier and a later state the term of no peer goes back, a peer that is still
    in the same term has the vote it had cast, and two requests of one term that the same peer has
    granted, the one earlier and the other later, are those of one candidate. -/
theorem vote_once {w w' : World n Byte Command} (reached : (cluster n Byte Command).Reachable w)
    (later : (cluster n Byte Command).Path Machine.anyStep w w') :
    (∀ p, (w.rf p).currentTerm ≤ (w'.rf p).currentTerm) ∧
      (∀ p, (w'.rf p).currentTerm = (w.rf p).currentTerm → (w.rf p).votedFor ≠ -1 →
        (w'.rf p).votedFor = (w.rf p).votedFor) ∧
      ∀ call ∈ w.votes, ∀ call' ∈ w'.votes, call.Granted → call'.Granted →
        call.server = call'.server → call.args.term = call'.args.term →
          call.caller = call'.caller := by
  obtain ⟨h, recorded⟩ := reached.withHistory History.start History.record
  obtain ⟨h', path⟩ := later.withHistory History.start History.record h
  obtain ⟨recorded', terms, votes⟩ := voted_path recorded.reachable path
  obtain ⟨ballots, calls⟩ := ballots_reachable recorded
  obtain ⟨ballots', calls'⟩ := ballots_reachable recorded'
  refine ⟨terms, ?_, ?_⟩
  · intro p same cast
    have before := ballots.current p
    rw [← ballots'.current p, same, votes p _ (before ▸ cast)]
    exact before
  · rintro call member call' member' ⟨reply, replied, granted⟩ ⟨reply', replied', granted'⟩ server term
    have first := (calls.each call member).granted reply replied granted
    have second := (calls'.each call' member').granted reply' replied' granted'
    rw [← server, ← term, votes _ _ (by rw [first]; omega), first] at second
    exact Fin.ext (by exact_mod_cast second)

/-- Peer 1 votes for peer 0, crashes and is restarted, and refuses peer 2 its vote in the same
    term. -/
theorem vote_once_restarted :
    let w := (cluster 3 (Token Int) Int).after [.election 0, .requestVote 0]
    let w' := (cluster 3 (Token Int) Int).afterFrom w [.crash 1, .election 2, .requestVote 3]
    (w.rf 1).votedFor = 0 ∧ (w'.votes[3]?).map (fun call => (call.server, call.reply)) =
      some (1, some ⟨1, false⟩) ∧ (w'.rf 1).votedFor = 0 := by
  intro w w'
  have cast : (w.rf 1).votedFor = 0 := by decide +kernel
  have term : (w'.rf 1).currentTerm = (w.rf 1).currentTerm := by decide +kernel
  refine ⟨cast, by decide +kernel, ?_⟩
  have once := vote_once (Machine.reachable_after _) (Machine.path_afterFrom w
    [.crash 1, .election 2, .requestVote 3])
  exact (once.2.1 1 term (by rw [cast]; decide)).trans cast

end DistributedCloud.RaftLab
