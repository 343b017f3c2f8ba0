import DistributedCloud.RaftLab.Proofs.Requests

/-!
# Backing up to a follower's log

A new leader does not know how far a follower's log agrees with its own. It starts one index past
its log and, probe by probe, goes back to where a rejection sends it. The three ways to go back
(to the end of a log that is too short, behind the leader's last entry of the conflicting term,
to the follower's first entry of it) each lower `nextIndex` and none passes the last index on
which the logs agree. There the follower accepts, and has the leader's log.
-/

namespace DistributedCloud.RaftLab

open ReplicatedLog (Agree Traced Ordered)

variable {n : Nat} {Byte Command : Type} [Labgob Byte Command]

/-- The probes of `leader` at `server` until one is accepted: the values `nextIndex` was backed up
    to, the accepted request and the follower behind it. The probes are heartbeats or not as
    `isHeartbeat` says. -/
def backUp (server : Fin n) (isHeartbeat : Nat → Bool) :
    Nat → Raft n Byte Command → Raft n Byte Command →
      Option (List Int × AppendEntriesArgs Command × Raft n Byte Command)
  | 0, _, _ => none
  | probes + 1, leader, follower => do
    let args ← leader.processAppendEntriesArgs server (isHeartbeat probes)
    let (follower, reply) ← follower.appendEntries args
    if reply.success then some ([], args, follower)
    else do
      let leader ← leader.processAppendEntriesReply server args reply
      let (nexts, accepted, follower) ← backUp server isHeartbeat probes leader follower
      return (leader.nextIndex server :: nexts, accepted, follower)

/-- A log for each term: entries of earlier terms, and behind them only entries of the term. -/
def References (reference : Int → List (LogEntries Command)) : Prop :=
  ∀ t, ∃ earlier own, reference t = earlier ++ own ∧
    (∀ e ∈ earlier, e.term < t) ∧ ∀ e ∈ own, e.term = t

omit [Labgob Byte Command] in
theorem References.bound {reference : Int → List (LogEntries Command)}
    (references : References reference) : ∀ t, ∀ e ∈ reference t, e.term ≤ t := by
  intro t e member
  obtain ⟨earlier, own, split, below, same⟩ := references t
  rw [split] at member
  rcases List.mem_append.mp member with early | late
  · exact le_of_lt (below e early)
  · exact le_of_eq (same e late)

/-- A leader and a follower whose logs agree up to `m` and no further. -/
structure CatchingUp (reference : Int → List (LogEntries Command)) (server : Fin n) (m : Nat)
    (leader follower : Raft n Byte Command) : Prop where
  role : leader.whoami = .leader
  term : follower.currentTerm ≤ leader.currentTerm
  grounded : Grounded leader.log
  groundedFollower : Grounded follower.log
  traced : Traced LogEntries.term reference leader.log
  tracedFollower : Traced LogEntries.term reference follower.log
  agreement : IsGreatest {j | Agree leader.log follower.log j} m
  next : (m : Int) + 1 ≤ leader.nextIndex server

section Probe

variable {reference : Int → List (LogEntries Command)} {server : Fin n} {m : Nat}
  {leader follower follower' : Raft n Byte Command} {args : AppendEntriesArgs Command}
  {reply : AppendEntriesReply}

omit [Labgob Byte Command]

theorem CatchingUp.agree_le (catching : CatchingUp reference server m leader follower) {p : Nat}
    (inside : p < leader.log.length) (inside' : p < follower.log.length)
    (same : termAt leader.log p = termAt follower.log p) : p ≤ m :=
  catching.agreement.2 (agree_of_termAt catching.traced catching.tracedFollower inside inside' same)

/-! ## A rejection -/

/-- The leader's last entry of the follower's term at `p` stands before `p`: both logs follow the
    log of that term. -/
theorem CatchingUp.last_lt (catching : CatchingUp reference server m leader follower) {p j : Nat}
    (inside : p < follower.log.length) (inLeader : j < leader.log.length)
    (found : termAt leader.log j = termAt follower.log p)
    (differs : termAt leader.log p ≠ termAt follower.log p) : j < p := by
  by_contra reaches
  obtain ⟨e, here, term⟩ := exists_termAt inLeader
  obtain ⟨e', there, term'⟩ := exists_termAt inside
  have leaderTrace := catching.traced j e here
  have followerTrace := catching.tracedFollower p e' there
  rw [show e'.term = e.term by rw [← term', ← term, found]] at followerTrace
  have agree := (leaderTrace.mono (not_lt.mp reaches)).trans followerTrace.symm
  exact differs (termAt_eq_of_agree agree (le_refl p))

/-- A rejection sends the leader back. -/
theorem CatchingUp.lowers (catching : CatchingUp reference server m leader follower)
    (built : BuiltArgs leader server args) (rejected : Rejection follower.log args reply)
    {next : Int} (backed : backedUpIndex leader.log reply = some next) :
    next < leader.nextIndex server := by
  have start := catching.next
  have prev := built.prevLogIndex
  cases rejected with
  | short _ beyond conflictTerm conflictIndex =>
    rw [lastLogIndex_of_ne_nil catching.groundedFollower.ne_nil] at beyond
    rcases backedUpIndex_cases leader.log reply with ⟨returned, -⟩ | ⟨_, -, -, given, -⟩
    · rw [backed, conflictIndex] at returned
      cases returned
      omega
    · exact absurd conflictTerm given
  | mismatch _ within differs conflictTerm scanned =>
    obtain ⟨p, at_p⟩ := Int.eq_ofNat_of_zero_le (by omega : 0 ≤ args.prevLogIndex)
    rw [lastLogIndex_of_ne_nil catching.groundedFollower.ne_nil] at within
    rw [built.prevLogTerm, at_p] at differs
    rw [at_p] at conflictTerm scanned
    rcases backedUpIndex_cases leader.log reply with
      ⟨returned, -⟩ | ⟨j, inLeader, returned, -, found, -⟩
    · rw [backed] at returned
      cases returned
      obtain ⟨first, index, before, -⟩ := conflictIndexOf_spec scanned
      omega
    · rw [backed] at returned
      cases returned
      rw [conflictTerm] at found
      have before := catching.last_lt (by omega) inLeader found differs
      omega

/-- No rejection sends the leader back behind the agreement of the logs. -/
theorem CatchingUp.covers (references : References reference)
    (catching : CatchingUp reference server m leader follower)
    (built : BuiltArgs leader server args) (rejected : Rejection follower.log args reply)
    {next : Int} (backed : backedUpIndex leader.log reply = some next) : (m : Int) + 1 ≤ next := by
  have start := catching.next
  have prev := built.prevLogIndex
  have shape : RequestShape leader.log leader.log.length args :=
    built.shape catching.grounded.ne_nil (by omega) (le_refl _)
  have agree : Agree follower.log leader.log m := catching.agreement.1.symm
  have covered := rejection_covers catching.groundedFollower
    (catching.tracedFollower.ordered_of_bound references.bound)
    (catching.traced.ordered_of_bound references.bound) (by omega) shape rejected backed agree
    agree.inside_right
  omega

/-! ## The acceptance -/

/-- A request is accepted only where the logs stop agreeing. -/
theorem CatchingUp.accepted_at (catching : CatchingUp reference server m leader follower)
    (built : BuiltArgs leader server args) (accepts : Accepts follower args) :
    args.prevLogIndex = m := by
  obtain ⟨-, within, same⟩ := accepts_iff.mp accepts
  have start := catching.next
  have prev := built.prevLogIndex
  obtain ⟨p, at_p⟩ := Int.eq_ofNat_of_zero_le (by omega : 0 ≤ args.prevLogIndex)
  rw [lastLogIndex_of_ne_nil catching.groundedFollower.ne_nil] at within
  rw [built.prevLogTerm, at_p] at same
  rcases Nat.lt_or_ge p leader.log.length with inside | beyond
  · have := catching.agree_le inside (by omega) same
    omega
  · -- past the leader's log the request names term 0, which only the sentinel has
    have length := List.length_pos_iff.mpr catching.grounded.ne_nil
    have positive := catching.groundedFollower.termAt_pos (i := p) (by omega) (by omega)
    rw [termAt_of_le (by omega)] at same
    omega

/-- The entries from there on make the follower's log the leader's. -/
theorem CatchingUp.installs (catching : CatchingUp reference server m leader follower)
    {log : List (LogEntries Command)}
    (installed : installEntries follower.log m (leader.log.drop (m + 1)) = some log) :
    log = leader.log := by
  have agree : Agree follower.log leader.log m := catching.agreement.1.symm
  have inside := agree.inside_right
  rcases installEntries_cases follower.log (leader.log.drop (m + 1)) agree.inside with
    updated | ⟨j, positive, sent, below, same, -, -⟩
  · rw [updated] at installed
    cases installed
    rw [take_append_of_agree agree (List.prefix_refl _), List.length_drop, List.take_of_length_le]
    omega
  · -- a later conflict would mean that the logs agree at `m + 1` too
    rw [List.length_drop] at sent
    have first := same 0 positive
    have shifted : termAt (leader.log.drop (m + 1)) (0 : Nat) = termAt leader.log (m + 1 : Nat) := by
      simp only [termAt, goIndex_natCast, List.getElem?_drop, Nat.add_zero]
    rw [shifted, Nat.add_zero] at first
    have := catching.agree_le (p := m + 1) (by omega) (by omega) first.symm
    omega

end Probe

/-! ## The probes -/

section Probes

variable {reference : Int → List (LogEntries Command)} {server : Fin n} {m : Nat}
  {leader follower follower' : Raft n Byte Command} {args : AppendEntriesArgs Command}
  {reply : AppendEntriesReply}

/-- What a probe comes to: the follower has the leader's log, or says how its own differs. -/
theorem CatchingUp.probe (catching : CatchingUp reference server m leader follower)
    (built : BuiltArgs leader server args)
    (handled : follower.appendEntries args = some (follower', reply)) :
    (reply.success = true ∧ args.prevLogIndex = m ∧ follower'.log = leader.log) ∨
    (reply.success = false ∧ Rejection follower.log args reply ∧
      follower' = follower.observeTerm leader.currentTerm) := by
  have term := built.term
  have current := catching.term
  cases appendEntries_cases handled with
  | stale older => omega
  | short _ beyond => exact Or.inr ⟨rfl, .short rfl beyond rfl rfl, by rw [term]⟩
  | mismatch _ within differs scanned =>
    exact Or.inr ⟨rfl, .mismatch rfl within differs rfl scanned, by rw [term]⟩
  | accepted accepts installed =>
    have place := catching.accepted_at built accepts
    have items := built.items
    have prev := built.prevLogIndex
    rw [show (leader.nextIndex server).toNat = m + 1 by omega] at items
    rw [place, items] at installed
    exact Or.inl ⟨rfl, place, by rw [accept_log]; exact catching.installs installed⟩

/-- The leader after a rejection that sends it back to `next`. -/
def Raft.backTo (rf : Raft n Byte Command) (server : Fin n) (next : Int) : Raft n Byte Command :=
  { rf with nextIndex := Function.update rf.nextIndex server next }

omit [Labgob Byte Command] in
@[simp] theorem backTo_nextIndex (next : Int) : (leader.backTo server next).nextIndex server = next :=
  Function.update_self ..

theorem CatchingUp.backed (catching : CatchingUp reference server m leader follower) {next : Int}
    (covered : (m : Int) + 1 ≤ next) :
    CatchingUp reference server m (leader.backTo server next)
      (follower.observeTerm leader.currentTerm) where
  role := catching.role
  term := by
    rw [observeTerm_currentTerm catching.term]
    exact le_refl _
  grounded := catching.grounded
  groundedFollower := by
    rw [observeTerm_log]
    exact catching.groundedFollower
  traced := catching.traced
  tracedFollower := by
    rw [observeTerm_log]
    exact catching.tracedFollower
  agreement := by
    rw [observeTerm_log]
    exact catching.agreement
  next := by
    rw [backTo_nextIndex]
    exact covered

theorem processAppendEntriesReply_rejected {next : Int} (role : leader.whoami = .leader)
    (term : args.term = leader.currentTerm) (failed : reply.success = false)
    (backed : backedUpIndex leader.log reply = some next) :
    leader.processAppendEntriesReply server args reply = some (leader.backTo server next) := by
  simp [Raft.processAppendEntriesReply, Raft.backTo, role, term, failed, backed]

/-- As many probes as there are indices above the agreement are enough. -/
theorem CatchingUp.backUp_returns (references : References reference) (isHeartbeat : Nat → Bool) :
    ∀ (probes : Nat) (leader follower : Raft n Byte Command),
      CatchingUp reference server m leader follower → leader.nextIndex server ≤ m + probes →
      ∃ nexts accepted follower',
        backUp server isHeartbeat probes leader follower = some (nexts, accepted, follower') ∧
        (leader.nextIndex server :: nexts).Pairwise (· > ·) ∧
        (∀ next ∈ nexts, (m : Int) + 1 ≤ next) ∧
        accepted.prevLogIndex = m ∧ follower'.log = leader.log := by
  intro probes
  induction probes with
  | zero =>
    intro leader follower catching few
    have := catching.next
    omega
  | succ probes ih =>
    intro leader follower catching few
    have start := catching.next
    obtain ⟨args, request⟩ := processAppendEntriesArgs_returns (isHeartbeat probes)
      (by omega : 1 ≤ leader.nextIndex server)
    have built := processAppendEntriesArgs_cases request
    have prev := built.prevLogIndex
    obtain ⟨follower', reply, handled⟩ := appendEntries_returns
      catching.groundedFollower.ne_nil (by omega : 0 ≤ args.prevLogIndex)
    rcases catching.probe built handled with
      ⟨success, place, log⟩ | ⟨failed, rejected, observed⟩
    · refine ⟨[], args, follower', ?_, List.pairwise_singleton _ _, by simp, place, log⟩
      simp [backUp, request, handled, success]
    · obtain ⟨next, backed⟩ := backedUpIndex_returns leader.log reply
      have lower := catching.lowers built rejected backed
      have covered := catching.covers references built rejected backed
      have replied : leader.processAppendEntriesReply server args reply =
          some (leader.backTo server next) :=
        processAppendEntriesReply_rejected catching.role built.term failed backed
      have again := catching.backed covered
      rw [← observed] at again
      obtain ⟨nexts, accepted, last, rest, falling, above, place, log⟩ :=
        ih _ _ again (by rw [backTo_nextIndex]; omega)
      rw [backTo_nextIndex] at falling
      refine ⟨next :: nexts, accepted, last, ?_, ?_, ?_, place, log⟩
      · simp [backUp, request, handled, failed, replied, rest]
      · refine List.pairwise_cons.mpr ⟨?_, falling⟩
        intro later member
        rcases List.mem_cons.mp member with rfl | behind
        · exact lower
        · exact lt_trans ((List.pairwise_cons.mp falling).1 later behind) lower
      · intro later member
        rcases List.mem_cons.mp member with rfl | behind
        · exact covered
        · exact above later behind

end Probes

/-- The log of a follower that is not in a later term becomes the leader's. However the probes are
    made, every rejection lowers `nextIndex` and none below `m + 1`, and the accepted request
    starts behind `m`, the last index up to which the logs agree. -/
theorem backUp_catches_up {reference : Int → List (LogEntries Command)} {server : Fin n} {m : Nat}
    {leader follower : Raft n Byte Command} (references : References reference)
    (role : leader.whoami = .leader) (term : follower.currentTerm ≤ leader.currentTerm)
    (grounded : Grounded leader.log) (groundedFollower : Grounded follower.log)
    (traced : Traced LogEntries.term reference leader.log)
    (tracedFollower : Traced LogEntries.term reference follower.log)
    (agreement : IsGreatest {j | Agree leader.log follower.log j} m)
    (start : leader.nextIndex server = leader.log.length + 1) (isHeartbeat : Nat → Bool) :
    ∃ nexts accepted follower',
      backUp server isHeartbeat (leader.log.length + 1) leader follower =
        some (nexts, accepted, follower') ∧
      (leader.nextIndex server :: nexts).Pairwise (· > ·) ∧
      (∀ next ∈ nexts, (m : Int) + 1 ≤ next) ∧
      accepted.prevLogIndex = m ∧ follower'.log = leader.log := by
  have inside : m < leader.log.length := agreement.1.inside
  have catching : CatchingUp reference server m leader follower :=
    ⟨role, term, grounded, groundedFollower, traced, tracedFollower, agreement, by omega⟩
  exact CatchingUp.backUp_returns references isHeartbeat _ leader follower catching
    (by push_cast; omega)

/-- The leader of term 2 and a follower with an entry of term 1 that the leader does not have. -/
def divergedPeer (me : Fin 3) (whoami : NodeType) (log : List (LogEntries Int)) :
    Raft 3 (Token Int) Int where
  me := me
  persister := ⟨[]⟩
  whoami := whoami
  currentTerm := 2
  votedFor := -1
  log := log
  committedIndex := 0
  lastApplied := 0
  nextIndex := fun _ => 4
  matchIndex := fun _ => 0

/-- The logs of three terms, of which the last one has left the one before at its last entry. -/
def divergedLog : Int → List (LogEntries Int)
  | 0 => [⟨0, 0⟩]
  | 1 => [⟨0, 0⟩, ⟨1, 7⟩, ⟨1, 9⟩]
  | 2 => [⟨0, 0⟩, ⟨1, 7⟩, ⟨2, 8⟩]
  | _ => []

theorem divergedLog_references : References divergedLog := by
  intro t
  unfold divergedLog
  split
  · exact ⟨[], _, rfl, by simp, by simp⟩
  · exact ⟨[⟨0, 0⟩], _, rfl, by simp, by simp⟩
  · exact ⟨[⟨0, 0⟩, ⟨1, 7⟩], _, rfl, by simp, by simp⟩
  · exact ⟨[], [], rfl, by simp, by simp⟩

theorem divergedLog_traced {t : Int} (led : t = 1 ∨ t = 2) :
    Grounded (divergedLog t) ∧ Traced LogEntries.term divergedLog (divergedLog t) := by
  refine ⟨⟨⟨⟨0, 0⟩, ?_, rfl⟩, ?_⟩, ?_⟩
  · rcases led with rfl | rfl <;> rfl
  · intro i e positive found
    have inside := (List.getElem?_eq_some_iff.mp found).1
    rcases led with rfl | rfl <;> change i < 3 at inside <;> interval_cases i <;> cases found <;>
      decide
  · intro i e found
    have inside := (List.getElem?_eq_some_iff.mp found).1
    rcases led with rfl | rfl <;> change i < 3 at inside <;> interval_cases i <;> cases found <;>
      exact ⟨by decide, by decide⟩

/-- The first probe finds the follower's log too short, the second an entry of term 1 where the
    leader has one of term 2. -/
theorem backUp_catches_up_diverged :
    ∃ accepted follower', backUp 1 (fun _ => true) 4 (divergedPeer 0 .leader (divergedLog 2))
        (divergedPeer 1 .follower (divergedLog 1)) = some ([3, 2], accepted, follower') ∧
      accepted.prevLogIndex = 1 ∧ follower'.log = divergedLog 2 := by
  have agreement : IsGreatest {j | Agree (divergedLog 2) (divergedLog 1) j} 1 := by
    refine ⟨⟨by decide, by decide⟩, fun j agree => ?_⟩
    by_contra above
    exact absurd (agree.getElem? (show 2 ≤ j by omega)) (by decide)
  obtain ⟨grounded, traced⟩ := divergedLog_traced (t := 2) (Or.inr rfl)
  obtain ⟨groundedFollower, tracedFollower⟩ := divergedLog_traced (t := 1) (Or.inl rfl)
  have caughtUp := @backUp_catches_up _ _ _ _ _ 1 _ (divergedPeer 0 .leader (divergedLog 2))
    (divergedPeer 1 .follower (divergedLog 1)) divergedLog_references rfl (le_refl _) grounded
    groundedFollower traced tracedFollower agreement rfl (fun _ => true)
  obtain ⟨nexts, accepted, follower', returned, -, -, place, log⟩ := caughtUp
  have backed : (backUp 1 (fun _ => true) 4 (divergedPeer 0 .leader (divergedLog 2))
      (divergedPeer 1 .follower (divergedLog 1))).map Prod.fst = some [3, 2] := by
    decide +kernel
  change backUp 1 (fun _ => true) 4 _ _ = _ at returned
  rw [returned] at backed
  cases backed
  exact ⟨accepted, follower', returned, place, log⟩

end DistributedCloud.RaftLab
