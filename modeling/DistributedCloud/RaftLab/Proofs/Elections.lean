import DistributedCloud.Misc.Majority
import DistributedCloud.RaftLab.Proofs.Terms

/-!
# Election safety

A peer votes at most once in a term, also across crashes. Each vote reply is delivered at most
once, so what a candidate has counted is no more than the number of peers that have voted for
it. Two leaders of one term would each have a majority of votes, and some peer would have
voted for both.
-/

namespace DistributedCloud.RaftLab

open ReplicatedLog (setAt setAt_self setAt_ne)

variable {n : Nat} {Byte Command : Type} [Labgob Byte Command] [Zero Command]

/-! ## Votes of a whole run -/

/-- The peers that have voted for `peer` in `term`. -/
def supporters (h : History n Command) (peer : Fin n) (term : Int) : Finset (Fin n) :=
  Finset.univ.filter fun f => h.voted f term = (peer : Nat)

/-- What names a vote request: who asked whom in which term. -/
def voteKey (call : Call n RequestVoteArgs RequestVoteReply) : Fin n × Int × Fin n :=
  (call.caller, call.args.term, call.server)

/-- The supporters of `peer` in `term` whose vote has arrived. -/
def counted (w : World n Byte Command) (h : History n Command) (peer : Fin n) (term : Int) :
    Finset (Fin n) :=
  (supporters h peer term).filter fun f => (peer, term, f) ∉ w.votes.map voteKey

/-- The recorded votes agree with the peers, and the recorded leaders with the votes. -/
structure Ballots (w : World n Byte Command) (h : History n Command) : Prop where
  current : ∀ p, h.voted p (w.rf p).currentTerm = (w.rf p).votedFor
  future : ∀ p term, (w.rf p).currentTerm < term → h.voted p term = -1
  self : ∀ p, (w.rf p).whoami ≠ .follower → (w.rf p).votedFor = (p : Nat)
  leaders : ∀ p, (w.rf p).whoami = .leader → h.leader (w.rf p).currentTerm = some p
  won : ∀ term p, h.leader term = some p → Majority (supporters h p term)

/-- A vote request names its sender and goes to another peer, and a granted reply to it is
    backed by a vote. -/
structure VoteCall (w : World n Byte Command) (h : History n Command)
    (call : Call n RequestVoteArgs RequestVoteReply) : Prop where
  candidate : call.args.candidateId = (call.caller : Nat)
  other : call.server ≠ call.caller
  term : call.args.term ≤ (w.rf call.caller).currentTerm
  granted : ∀ reply, call.reply = some reply → reply.voteGranted = true →
    h.voted call.server call.args.term = (call.caller : Nat)

/-- The vote requests and replies in flight agree with the votes: no two calls are about the
    same vote, and no candidate has counted more votes than have arrived. -/
structure VoteCalls (w : World n Byte Command) (h : History n Command) : Prop where
  each : ∀ call ∈ w.votes, VoteCall w h call
  distinct : (w.votes.map voteKey).Nodup
  counts : ∀ p, (w.rf p).whoami = .candidate →
    (w.nodes p).voteCounts (w.rf p).currentTerm ≤ (counted w h p (w.rf p).currentTerm).card

omit [Labgob Byte Command] [Zero Command] in
/-- No peer votes for two candidates in one term. -/
theorem leader_unique {h : History n Command} {p q : Fin n} {term : Int}
    (first : Majority (supporters h p term)) (second : Majority (supporters h q term)) : p = q := by
  obtain ⟨f, votedP, votedQ⟩ := first.inter second
  simp only [supporters, Finset.mem_filter, Finset.mem_univ, true_and] at votedP votedQ
  rw [votedP] at votedQ
  exact Fin.ext (by exact_mod_cast votedQ)

section Step

variable {w w' : World n Byte Command} {h : History n Command} {e : Event n Command} {peer : Fin n}

omit [Labgob Byte Command] [Zero Command] in
/-- A vote that is recorded stays recorded. -/
theorem Ballots.votes_kept (ballots : Ballots w h) (actor : w.actor e = some peer)
    (terms : TermStep (w.rf peer) (w'.rf peer)) {f : Fin n} {term : Int}
    (voted : h.voted f term ≠ -1) : (History.record w e w' h).voted f term = h.voted f term := by
  rw [record_voted actor]
  by_cases here : f = peer ∧ term = (w'.rf peer).currentTerm
  · obtain ⟨rfl, rfl⟩ := here
    rw [setAt_self]
    rcases terms.mono.lt_or_eq with higher | same
    · exact absurd (ballots.future f _ higher) voted
    · rw [← same, ballots.current f] at voted ⊢
      rcases terms.kept same.symm with free | kept
      · exact absurd free voted
      · exact kept
  · rw [setAt_ne _ _ here]

omit [Labgob Byte Command] [Zero Command] in
theorem Ballots.supporters_mono (ballots : Ballots w h) (actor : w.actor e = some peer)
    (terms : TermStep (w.rf peer) (w'.rf peer)) (q : Fin n) (term : Int) :
    supporters h q term ⊆ supporters (History.record w e w' h) q term := by
  intro f voted
  simp only [supporters, Finset.mem_filter, Finset.mem_univ, true_and] at voted ⊢
  rw [ballots.votes_kept actor terms, voted]
  rw [voted]
  omega

omit [Labgob Byte Command] [Zero Command] in
theorem ballots_step (ballots : Ballots w h) (actor : w.actor e = some peer)
    (frame : ∀ q, q ≠ peer → w'.nodes q = w.nodes q) (me : (w.rf peer).me = peer)
    (terms : TermStep (w.rf peer) (w'.rf peer))
    (elected : (w'.rf peer).whoami = .leader →
      Majority (supporters h peer (w'.rf peer).currentTerm)) :
    Ballots w' (History.record w e w' h) := by
  have other : ∀ q, q ≠ peer → w'.rf q = w.rf q :=
    fun q differs => congrArg Node.rf (frame q differs)
  constructor
  · intro q
    rw [record_voted actor]
    by_cases same : q = peer
    · subst same
      rw [setAt_self]
    · rw [setAt_ne _ _ (fun both => same both.1), other q same]
      exact ballots.current q
  · intro q term later
    rw [record_voted actor]
    by_cases same : q = peer
    · subst same
      rw [setAt_ne _ _ (by omega)]
      exact ballots.future q term (lt_of_le_of_lt terms.mono later)
    · rw [setAt_ne _ _ (fun both => same both.1)]
      rw [other q same] at later
      exact ballots.future q term later
  · intro q active
    by_cases same : q = peer
    · subst same
      rcases terms.role active with ⟨term, before⟩ | own
      · have vote := ballots.self q before
        rcases terms.kept term with free | kept
        · omega
        · rw [kept, vote]
      · rw [own, me]
    · rw [other q same] at active ⊢
      exact ballots.self q active
  · intro q leads
    rw [record_leader actor]
    by_cases same : q = peer
    · subst same
      rw [if_pos leads, Function.update_self]
    · rw [other q same] at leads ⊢
      have before := ballots.leaders q leads
      split
      · rename_i now
        by_cases term : (w.rf q).currentTerm = (w'.rf peer).currentTerm
        · rw [term] at before
          exact absurd (leader_unique (ballots.won _ q before) (elected now)) same
        · rw [Function.update_of_ne term]
          exact before
      · exact before
  · intro term q record
    rw [record_leader actor] at record
    have grows : ∀ q t, supporters h q t ⊆ supporters (History.record w e w' h) q t :=
      ballots.supporters_mono actor terms
    split at record
    · rename_i now
      by_cases here : term = (w'.rf peer).currentTerm
      · subst here
        rw [Function.update_self] at record
        cases record
        exact (elected now).mono (grows _ _)
      · rw [Function.update_of_ne here] at record
        exact (ballots.won term q record).mono (grows _ _)
    · exact (ballots.won term q record).mono (grows _ _)

/-! ## The calls of an election -/

omit [Labgob Byte Command] [Zero Command] in
/-- A vote that arrives has not been counted before. -/
theorem VoteCalls.arrives (calls : VoteCalls w h) {k : Nat}
    {call : Call n RequestVoteArgs RequestVoteReply} {reply : RequestVoteReply}
    (found : w.votes[k]? = some call) (replied : call.reply = some reply)
    (vote : reply.voteGranted = true) :
    (counted w h call.caller call.args.term).card + 1 ≤
      ((supporters h call.caller call.args.term).filter fun f =>
        (call.caller, call.args.term, f) ∉ (w.votes.eraseIdx k).map voteKey).card := by
  have member := List.mem_of_getElem? found
  have listed : voteKey call ∈ w.votes.map voteKey := List.mem_map_of_mem member
  have uncounted : call.server ∉ counted w h call.caller call.args.term := by
    intro already
    exact (Finset.mem_filter.mp already).2 listed
  rw [← Finset.card_insert_of_notMem uncounted]
  apply Finset.card_le_card
  intro f either
  rw [Finset.mem_filter]
  rcases Finset.mem_insert.mp either with rfl | before
  · refine ⟨?_, ?_⟩
    · rw [supporters, Finset.mem_filter]
      exact ⟨Finset.mem_univ _, (calls.each call member).granted reply replied vote⟩
    · intro again
      rw [← List.eraseIdx_map, List.mem_eraseIdx_iff_getElem?] at again
      obtain ⟨i, differs, repeated⟩ := again
      have here : (w.votes.map voteKey)[k]? = some (voteKey call) := by
        rw [List.getElem?_map, found, Option.map_some]
      have inside : i < (w.votes.map voteKey).length := (List.getElem?_eq_some_iff.mp repeated).1
      exact differs ((List.getElem?_inj inside calls.distinct).mp (repeated.trans here.symm))
  · obtain ⟨voted, absent⟩ := Finset.mem_filter.mp before
    refine ⟨voted, fun still => absent ?_⟩
    rw [← List.eraseIdx_map] at still
    exact List.mem_of_mem_eraseIdx still

omit [Labgob Byte Command] [Zero Command] in
/-- A call stays in order while the votes are kept and terms do not go down. -/
theorem VoteCall.step {call : Call n RequestVoteArgs RequestVoteReply} {h' : History n Command}
    (ordered : VoteCall w h call)
    (kept : ∀ f term, h.voted f term ≠ -1 → h'.voted f term = h.voted f term)
    (mono : ∀ q, (w.rf q).currentTerm ≤ (w'.rf q).currentTerm) : VoteCall w' h' call := by
  refine ⟨ordered.candidate, ordered.other, le_trans ordered.term (mono _), ?_⟩
  intro reply replied vote
  have voted := ordered.granted reply replied vote
  rw [kept _ _ (by omega), voted]

omit [Labgob Byte Command] [Zero Command] in
theorem counted_mono {h' : History n Command} {q : Fin n} {term : Int}
    (kept : ∀ f term, h.voted f term ≠ -1 → h'.voted f term = h.voted f term)
    (fewer : ∀ f, (q, term, f) ∈ w'.votes.map voteKey → (q, term, f) ∈ w.votes.map voteKey) :
    counted w h q term ⊆ counted w' h' q term := by
  intro f before
  simp only [counted, supporters, Finset.mem_filter, Finset.mem_univ, true_and] at before ⊢
  refine ⟨?_, fun listed => before.2 (fewer f listed)⟩
  rw [kept _ _ (by omega), before.1]

omit [Labgob Byte Command] [Zero Command] in
/-- A step that counts no vote and starts no election leaves the counts in order. -/
theorem VoteCalls.uncounted {h' : History n Command} (calls : VoteCalls w h)
    (kept : ∀ f term, h.voted f term ≠ -1 → h'.voted f term = h.voted f term)
    (frame : ∀ q, q ≠ peer → w'.nodes q = w.nodes q)
    (role : RoleKept (w.rf peer) (w'.rf peer))
    (counts : (w'.rf peer).whoami ≠ .follower →
      (w'.nodes peer).voteCounts = (w.nodes peer).voteCounts)
    (each : ∀ call ∈ w'.votes, VoteCall w' h' call)
    (keys : w'.votes.map voteKey = w.votes.map voteKey) : VoteCalls w' h' := by
  refine ⟨each, keys ▸ calls.distinct, ?_⟩
  intro q candidate
  have more : ∀ term, (counted w h q term).card ≤ (counted w' h' q term).card := fun term =>
    Finset.card_le_card (counted_mono kept fun f listed => keys ▸ listed)
  by_cases same : q = peer
  · subst same
    have active : (w'.rf q).whoami ≠ .follower := by
      rw [candidate]
      simp
    obtain ⟨before, term⟩ := role active
    rw [counts active, term]
    exact le_trans (calls.counts q (before ▸ candidate)) (by exact_mod_cast more _)
  · have node := frame q same
    rw [World.rf, node] at candidate ⊢
    exact le_trans (calls.counts q candidate) (by exact_mod_cast more _)

omit [Labgob Byte Command] [Zero Command] in
/-- The votes of a candidate whose last vote arrives with `call`. -/
theorem VoteCalls.counts_arrived (calls : VoteCalls w h) {k : Nat}
    {call : Call n RequestVoteArgs RequestVoteReply} {reply : RequestVoteReply}
    (found : w.votes[k]? = some call) (replied : call.reply = some reply)
    (vote : reply.voteGranted = true) (term : call.args.term = (w.rf call.caller).currentTerm)
    (role : (w.rf call.caller).whoami = .candidate) :
    (w.nodes call.caller).voteCounts call.args.term + 1 ≤
      (((supporters h call.caller call.args.term).filter fun f =>
        (call.caller, call.args.term, f) ∉ (w.votes.eraseIdx k).map voteKey).card : Int) := by
  have before := calls.counts call.caller role
  have arrives := calls.arrives found replied vote
  rw [← term] at before
  omega

omit [Labgob Byte Command] [Zero Command] in
theorem VoteCalls.majority (calls : VoteCalls w h) {k : Nat}
    {call : Call n RequestVoteArgs RequestVoteReply} {reply : RequestVoteReply}
    (found : w.votes[k]? = some call) (replied : call.reply = some reply)
    (vote : reply.voteGranted = true) (term : call.args.term = (w.rf call.caller).currentTerm)
    (role : (w.rf call.caller).whoami = .candidate)
    (enough : (n / 2 : Nat) < (w.nodes call.caller).voteCounts call.args.term + 1) :
    Majority (supporters h call.caller call.args.term) := by
  have votes := calls.counts_arrived found replied vote term role
  have arrived : Majority ((supporters h call.caller call.args.term).filter fun f =>
      (call.caller, call.args.term, f) ∉ (w.votes.eraseIdx k).map voteKey) := by
    unfold Majority
    rw [Fintype.card_fin]
    omega
  exact arrived.mono (Finset.filter_subset _ _)

omit [Zero Command] in
/-- A peer that leads after its own step has the votes of a majority. -/
theorem step_elected (ballots : Ballots w h) (calls : VoteCalls w h)
    (step : PeerStep w w' e peer) (leads : (w'.rf peer).whoami = .leader) :
    Majority (supporters h peer (w'.rf peer).currentTerm) := by
  cases step with
  | stood _ _ after =>
    rw [after] at leads
    cases leads
  | elected _ found caller replied vote term role enough after =>
    have won := calls.majority found replied vote term role enough
    rw [term, caller] at won
    rw [after]
    exact won
  | restarted _ _ _ role =>
    rw [role] at leads
    cases leads
  | changed change =>
    have active : (w'.rf peer).whoami ≠ .follower := by
      rw [leads]
      simp
    obtain ⟨same, term⟩ := change.roleKept active
    rw [term]
    exact ballots.won _ peer (ballots.leaders peer (same ▸ leads))

omit [Labgob Byte Command] [Zero Command] in
theorem VoteCalls.election {h' : History n Command} (calls : VoteCalls w h)
    (kept : ∀ f term, h.voted f term ≠ -1 → h'.voted f term = h.voted f term)
    (frame : ∀ q, q ≠ peer → w'.nodes q = w.nodes q)
    (mono : ∀ q, (w.rf q).currentTerm ≤ (w'.rf q).currentTerm)
    (votes : w'.votes = w.votes ++ (others peer).map (voteCall w peer))
    (term : (w'.rf peer).currentTerm = (w.rf peer).currentTerm + 1)
    (self : h'.voted peer ((w.rf peer).currentTerm + 1) = (peer : Nat))
    (counts : (w'.nodes peer).voteCounts ((w.rf peer).currentTerm + 1) = 1) :
    VoteCalls w' h' := by
  have each : ∀ call ∈ w'.votes, VoteCall w' h' call := by
    intro call member
    rw [votes] at member
    rcases List.mem_append.mp member with old | new
    · exact (calls.each call old).step kept mono
    · obtain ⟨server, asked, rfl⟩ := List.mem_map.mp new
      exact ⟨rfl, mem_others.mp asked, term.ge, fun reply replied => by cases replied⟩
  refine ⟨each, ?_, ?_⟩
  · rw [votes, List.map_append, List.nodup_append, List.map_map]
    refine ⟨calls.distinct, ?_, ?_⟩
    · refine (nodup_others peer).map ?_
      intro f g same
      exact congrArg (fun key : Fin n × Int × Fin n => key.2.2) same
    · -- an older request of the same peer is of an earlier term
      intro key old key' new same
      obtain ⟨call, member, rfl⟩ := List.mem_map.mp old
      obtain ⟨server, -, rfl⟩ := List.mem_map.mp new
      have earlier := (calls.each call member).term
      have caller : call.caller = peer := congrArg Prod.fst same
      have asked : call.args.term = (w.rf peer).currentTerm + 1 :=
        congrArg (fun key : Fin n × Int × Fin n => key.2.1) same
      rw [caller] at earlier
      omega
  · intro q candidate
    by_cases same : q = peer
    · subst same
      rw [term, counts]
      have own : q ∈ counted w' h' q ((w.rf q).currentTerm + 1) := by
        simp only [counted, supporters, Finset.mem_filter, Finset.mem_univ, true_and]
        refine ⟨self, fun listed => ?_⟩
        obtain ⟨call, member, key⟩ := List.mem_map.mp listed
        have caller : call.caller = q := congrArg Prod.fst key
        have server : call.server = q :=
          congrArg (fun key : Fin n × Int × Fin n => key.2.2) key
        exact (each call member).other (server.trans caller.symm)
      exact_mod_cast Finset.card_pos.mpr ⟨q, own⟩
    · have node := frame q same
      rw [World.rf, node] at candidate ⊢
      have more : counted w h q (w.rf q).currentTerm ⊆ counted w' h' q (w.rf q).currentTerm := by
        refine counted_mono kept fun f listed => ?_
        rw [votes, List.map_append, List.mem_append] at listed
        rcases listed with old | new
        · exact old
        · obtain ⟨call, member, key⟩ := List.mem_map.mp new
          obtain ⟨server, -, rfl⟩ := List.mem_map.mp member
          exact absurd (congrArg Prod.fst key).symm same
      exact le_trans (calls.counts q candidate) (by exact_mod_cast Finset.card_le_card more)

omit [Labgob Byte Command] [Zero Command] in
theorem map_voteKey_set {k : Nat} {call call' : Call n RequestVoteArgs RequestVoteReply}
    (found : w.votes[k]? = some call) (same : voteKey call' = voteKey call) :
    (w.votes.set k call').map voteKey = w.votes.map voteKey := by
  rw [List.map_set, same]
  refine List.ext_getElem? fun i => ?_
  rw [List.getElem?_set]
  split
  · rename_i here
    subst here
    split
    · rw [List.getElem?_map, found, Option.map_some]
    · rename_i outside
      rw [List.getElem?_eq_none (by omega)]
  · rfl

omit [Labgob Byte Command] [Zero Command] in
theorem counted_subset_erase (k : Nat) (p : Fin n) (term : Int) :
    counted w h p term ⊆ (supporters h p term).filter fun f =>
      (p, term, f) ∉ (w.votes.eraseIdx k).map voteKey := by
  intro f before
  obtain ⟨voted, absent⟩ := Finset.mem_filter.mp before
  refine Finset.mem_filter.mpr ⟨voted, fun still => absent ?_⟩
  rw [← List.eraseIdx_map] at still
  exact List.mem_of_mem_eraseIdx still

omit [Labgob Byte Command] [Zero Command] in
theorem VoteCalls.reply {h' : History n Command} (calls : VoteCalls w h) {k : Nat}
    {call : Call n RequestVoteArgs RequestVoteReply}
    (kept : ∀ f term, h.voted f term ≠ -1 → h'.voted f term = h.voted f term)
    (frame : ∀ q, q ≠ call.caller → w'.nodes q = w.nodes q)
    (mono : ∀ q, (w.rf q).currentTerm ≤ (w'.rf q).currentTerm)
    (votes : w'.votes = w.votes.eraseIdx k)
    (counts : (w'.rf call.caller).whoami = .candidate →
      (w'.nodes call.caller).voteCounts (w'.rf call.caller).currentTerm ≤
        (((supporters h call.caller (w'.rf call.caller).currentTerm).filter fun f =>
          (call.caller, (w'.rf call.caller).currentTerm, f) ∉
            (w.votes.eraseIdx k).map voteKey).card : Int)) :
    VoteCalls w' h' := by
  refine ⟨?_, ?_, ?_⟩
  · intro other member
    rw [votes] at member
    exact (calls.each other (List.mem_of_mem_eraseIdx member)).step kept mono
  · rw [votes]
    exact calls.distinct.sublist ((List.eraseIdx_sublist w.votes k).map voteKey)
  · intro q candidate
    by_cases same : q = call.caller
    · subst same
      refine le_trans (counts candidate) ?_
      have more : ((supporters h call.caller (w'.rf call.caller).currentTerm).filter fun f =>
          (call.caller, (w'.rf call.caller).currentTerm, f) ∉ (w.votes.eraseIdx k).map voteKey) ⊆
          counted w' h' call.caller (w'.rf call.caller).currentTerm := by
        intro f before
        simp only [counted, supporters, Finset.mem_filter, Finset.mem_univ, true_and] at before ⊢
        rw [votes]
        exact ⟨by rw [kept _ _ (by omega), before.1], before.2⟩
      exact_mod_cast Finset.card_le_card more
    · have node := frame q same
      rw [World.rf, node] at candidate ⊢
      have more : counted w h q (w.rf q).currentTerm ⊆ counted w' h' q (w.rf q).currentTerm := by
        refine counted_mono kept fun f listed => ?_
        rw [votes, ← List.eraseIdx_map] at listed
        exact List.mem_of_mem_eraseIdx listed
      exact le_trans (calls.counts q candidate) (by exact_mod_cast Finset.card_le_card more)

omit [Zero Command] in
/-- A granted vote is the vote the peer has in the term asked for. -/
theorem requestVote_granted {rf rf' : Raft n Byte Command} {args : RequestVoteArgs}
    {reply : RequestVoteReply} (outcome : RequestVoteOutcome rf args rf' reply)
    (vote : reply.voteGranted = true) :
    rf'.currentTerm = args.term ∧ rf'.votedFor = args.candidateId := by
  cases outcome with
  | stale => cases vote
  | refused => cases vote
  | granted current => exact ⟨observeTerm_currentTerm current, rfl⟩

theorem voteCalls_step (ballots : Ballots w h) (calls : VoteCalls w h) (step : w.Step e w')
    (acts : PeerStep w w' e peer) (actor : w.actor e = some peer)
    (frame : ∀ q, q ≠ peer → w'.nodes q = w.nodes q) :
    VoteCalls w' (History.record w e w' h) := by
  have terms := acts.termStep
  have kept : ∀ f term, h.voted f term ≠ -1 →
      (History.record w e w' h).voted f term = h.voted f term := fun f term voted =>
    ballots.votes_kept actor terms voted
  have mono : ∀ q, (w.rf q).currentTerm ≤ (w'.rf q).currentTerm := by
    intro q
    by_cases same : q = peer
    · subst same
      exact terms.mono
    · rw [World.rf, World.rf, frame q same]
  have noted : (History.record w e w' h).voted =
      setAt h.voted peer (w'.rf peer).currentTerm (w'.rf peer).votedFor := record_voted actor
  have role := acts.roleKept
  have quiet : w'.votes = w.votes → RoleKept (w.rf peer) (w'.rf peer) →
      ((w'.rf peer).whoami ≠ .follower →
        (w'.nodes peer).voteCounts = (w.nodes peer).voteCounts) →
      VoteCalls w' (History.record w e w' h) := by
    intro votes role counts
    refine calls.uncounted kept frame role counts ?_ (by rw [votes])
    intro call member
    rw [votes] at member
    exact (calls.each call member).step kept mono
  cases step with
  | election _ me =>
    cases actor
    refine calls.election kept frame mono rfl ?_ ?_ ?_
    · simp only [World.rf, setNode_nodes_self]
      rfl
    · rw [record_voted rfl]
      simp only [World.rf, setNode_nodes_self]
      change setAt h.voted peer ((w.rf peer).currentTerm + 1) ((w.rf peer).me : Nat) peer
        ((w.rf peer).currentTerm + 1) = _
      rw [setAt_self, me]
    · simp
  | requestVote found pending outcome =>
    simp only [World.actor, found, Option.map_some, Option.some.injEq] at actor
    subst actor
    refine calls.uncounted kept frame (role (by simp) (by simp)) ?_ ?_ (map_voteKey_set found rfl)
    · intro _
      simp only [setNode_nodes_self]
    · intro call member
      rcases List.mem_or_eq_of_mem_set member with old | rfl
      · exact (calls.each call old).step kept mono
      · have before := (calls.each _ (List.mem_of_getElem? found)).step kept mono
        refine ⟨before.candidate, before.other, before.term, ?_⟩
        intro reply replied vote
        cases replied
        obtain ⟨term, voted⟩ := requestVote_granted outcome vote
        rw [noted]
        simp only [World.rf, setNode_nodes_self]
        rw [term, voted, setAt_self]
        exact before.candidate
  | @requestVoteReply k call _ _ _ _ found replied epoch outcome =>
    simp only [World.actor, found, Option.map_some, Option.some.injEq] at actor
    subst actor
    refine calls.reply kept frame mono rfl ?_
    simp only [World.rf, setNode_nodes_self]
    intro candidate
    cases outcome with
    | ignored =>
      rw [Function.update_eq_self]
      refine le_trans (calls.counts _ candidate) ?_
      exact_mod_cast Finset.card_le_card (counted_subset_erase _ _ _)
    | steppedDown => cases candidate
    | counted term stood _ vote =>
      have arrived := calls.counts_arrived found replied vote term stood
      have now : (w.nodes call.caller).rf.currentTerm = call.args.term := term.symm
      rw [World.rf, now, Function.update_self]
      exact arrived
    | elected => cases candidate
  | appendEntries found =>
    simp only [World.actor, found, Option.map_some, Option.some.injEq] at actor
    subst actor
    exact quiet rfl (role (by simp) (by simp)) fun _ => by simp only [setNode_nodes_self]
  | appendEntriesReply found =>
    simp only [World.actor, found, Option.map_some, Option.some.injEq] at actor
    subst actor
    exact quiet rfl (role (by simp) (by simp)) fun _ => by simp only [setNode_nodes_self]
  | crash =>
    cases actor
    refine quiet rfl (role (by simp) (by simp)) fun active => ?_
    simp only [World.rf, setNode_nodes_self, Node.boot] at active
    exact absurd (make_whoami _ _) active
  | start | heartbeatEnds | heartbeat | replicate | send | applyTake | applySend | applyDone =>
    cases actor
    exact quiet rfl (role (by simp) (by simp)) fun _ => by simp only [setNode_nodes_self]

end Step

/-! ## Whole runs -/

section Runs

variable {ok : World n Byte Command × History n Command → Event n Command → Prop}

/-- A step of the recorded cluster is a step of the cluster. -/
theorem recorded_step {s s' : World n Byte Command × History n Command} {e : Event n Command}
    (reached : (recordedCluster n Byte Command).ReachableWhen ok s)
    (next : (recordedCluster n Byte Command).step s e = some s') :
    s.1.Step e s'.1 ∧ s'.2 = History.record s.1 e s'.1 s.2 := by
  obtain ⟨moved, recorded⟩ := Machine.withHistory_step.mp next
  exact ⟨reachable_step reached.dropHistory moved, recorded⟩

theorem ballots_init : Ballots (World.init : World n Byte Command) History.start := by
  constructor
  · intro p
    rfl
  · intro p term later
    rfl
  · intro p active
    exact absurd rfl active
  · intro p leads
    cases leads
  · intro term p leads
    cases leads

theorem voteCalls_init : VoteCalls (World.init : World n Byte Command) History.start := by
  constructor
  · intro call member
    cases member
  · exact List.nodup_nil
  · intro p candidate
    cases candidate

/-- Both invariants hold in every state of every run, whatever its steps. -/
theorem ballots_reachable {s : World n Byte Command × History n Command}
    (reached : (recordedCluster n Byte Command).ReachableWhen ok s) :
    Ballots s.1 s.2 ∧ VoteCalls s.1 s.2 := by
  refine Machine.ReachableWhen.invariant (I := fun s => Ballots s.1 s.2 ∧ VoteCalls s.1 s.2)
    ⟨ballots_init, voteCalls_init⟩ ?_ reached
  intro s e s' before holds _ next
  obtain ⟨ballots, calls⟩ := holds
  have node := nodeDurable_reachable before.dropHistory
  obtain ⟨step, recorded⟩ := recorded_step before next
  obtain ⟨peer, actor, frame⟩ := step_actor step
  have acts := step_peer (node peer) step actor
  rw [recorded]
  refine ⟨ballots_step ballots actor frame (node peer).me acts.termStep ?_, ?_⟩
  · exact step_elected ballots calls acts
  · exact voteCalls_step ballots calls step acts actor frame

/-- A term that has a leader keeps it. -/
theorem leader_step {s s' : World n Byte Command × History n Command} {e : Event n Command}
    {term : Int} {p : Fin n} (reached : (recordedCluster n Byte Command).ReachableWhen ok s)
    (next : (recordedCluster n Byte Command).step s e = some s')
    (leads : s.2.leader term = some p) : s'.2.leader term = some p := by
  obtain ⟨ballots, calls⟩ := ballots_reachable reached
  obtain ⟨step, recorded⟩ := recorded_step reached next
  obtain ⟨peer, actor, -⟩ := step_actor step
  have acts := step_peer (nodeDurable_reachable reached.dropHistory peer) step actor
  rw [recorded, record_leader actor]
  split
  · rename_i now
    by_cases here : term = (s'.1.rf peer).currentTerm
    · subst here
      have again := step_elected ballots calls acts now
      rw [Function.update_self, leader_unique (ballots.won _ p leads) again]
    · rw [Function.update_of_ne here]
      exact leads
  · exact leads

/-- At most one peer is ever the leader of a term. -/
theorem electionSafety {w w' : World n Byte Command} {p q : Fin n}
    (reached : (cluster n Byte Command).Reachable w)
    (later : (cluster n Byte Command).Path Machine.anyStep w w')
    (first : (w.rf p).whoami = .leader) (second : (w'.rf q).whoami = .leader)
    (sameTerm : (w.rf p).currentTerm = (w'.rf q).currentTerm) : p = q := by
  obtain ⟨h, recorded⟩ := reached.withHistory History.start History.record
  obtain ⟨h', path⟩ := later.withHistory History.start History.record h
  have leads : h.leader (w.rf p).currentTerm = some p :=
    (ballots_reachable recorded).1.leaders p first
  -- the record of the first leader is still there when the second one leads
  have stays := Machine.Path.invariant
    (I := fun s => (recordedCluster n Byte Command).Reachable s ∧
      s.2.leader (w.rf p).currentTerm = some p)
    ⟨recorded, leads⟩
    (fun s e s' held guard next => ⟨held.1.step guard next, leader_step held.1 next held.2⟩) path
  have leads' := (ballots_reachable stays.1).1.leaders q second
  rw [← sameTerm, stays.2] at leads'
  exact Option.some.inj leads'

/-- Peer 0 wins term 1 and still leads it when peer 1 has won term 2. -/
theorem electionSafety_old_leader :
    let w := (cluster 3 (Token Int) Int).after [.election 0, .requestVote 0, .requestVoteReply 0]
    let w' := (cluster 3 (Token Int) Int).afterFrom w
      [.start 0 7, .election 1, .requestVote 2, .requestVoteReply 2]
    (w'.rf 1).whoami = .leader ∧ ∃ p q, (w.rf p).whoami = .leader ∧ (w'.rf q).whoami = .leader ∧
      (w.rf p).currentTerm = (w'.rf q).currentTerm ∧ p = q := by
  intro w w'
  have first : (w.rf 0).whoami = .leader := by decide +kernel
  have second : (w'.rf 0).whoami = .leader := by decide +kernel
  have term : (w.rf 0).currentTerm = (w'.rf 0).currentTerm := by decide +kernel
  refine ⟨by decide +kernel, 0, 0, first, second, term, ?_⟩
  exact electionSafety (Machine.reachable_after _) (Machine.path_afterFrom w _) first second term

end Runs

end DistributedCloud.RaftLab
