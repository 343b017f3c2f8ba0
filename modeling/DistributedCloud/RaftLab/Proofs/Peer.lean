import DistributedCloud.RaftLab.Peer
import Mathlib.Tactic

/-!
# What the functions of one peer can do

One lemma for each function of `RaftLab/Peer.lean`, stating every outcome it has together
with the guards under which it has it. The proofs about whole runs use these and do not
unfold the functions again.
-/

namespace DistributedCloud.RaftLab

variable {n : Nat} {Byte Command : Type}

/-! ## The log -/

/-- The term at an index, 0 outside the log. -/
def termAt (log : List (LogEntries Command)) (index : Int) : Int :=
  ((goIndex log index).map LogEntries.term).getD 0

theorem logTerm_eq (log : List (LogEntries Command)) (index : Int) :
    logTerm log index = some (termAt log index) := by
  unfold logTerm termAt
  split
  · rename_i outside
    have absent : goIndex log index = none := by
      rw [← Option.not_isSome_iff_eq_none, goIndex_isSome]
      omega
    simp [absent]
  · rename_i inside
    have present : (goIndex log index).isSome := goIndex_isSome.mpr (by omega)
    obtain ⟨entry, found⟩ := Option.isSome_iff_exists.mp present
    simp [found]

@[simp] theorem getLogTerm_eq (rf : Raft n Byte Command) (index : Int) :
    rf.getLogTerm index = some (termAt rf.log index) := logTerm_eq rf.log index

theorem termAt_of_getElem? {log : List (LogEntries Command)} {i : Nat} {e : LogEntries Command}
    (found : log[i]? = some e) : termAt log i = e.term := by
  simp [termAt, found]

theorem termAt_cons_succ (e : LogEntries Command) (log : List (LogEntries Command)) (k : Nat) :
    termAt (e :: log) (k + 1 : Nat) = termAt log k := by
  rw [termAt, termAt, goIndex_natCast, goIndex_natCast, List.getElem?_cons_succ]

theorem termAt_of_le {log : List (LogEntries Command)} {index : Int}
    (outside : (log.length : Int) ≤ index) : termAt log index = 0 := by
  have absent : goIndex log index = none := by
    rw [← Option.not_isSome_iff_eq_none, goIndex_isSome]
    omega
  simp [termAt, absent]

theorem lastLogIndex_of_ne_nil {log : List (LogEntries Command)} (nonempty : log ≠ []) :
    lastLogIndex log = log.length - 1 := by
  simp [lastLogIndex, nonempty]

theorem lastLogIndex_nonneg (log : List (LogEntries Command)) : 0 ≤ lastLogIndex log := by
  unfold lastLogIndex
  split <;> omega

theorem le_lastLogIndex {log : List (LogEntries Command)} {i : Nat} (inside : i < log.length) :
    (i : Int) ≤ lastLogIndex log := by
  unfold lastLogIndex
  split <;> omega

/-! ## Persistence and role changes -/

section Persist

variable [Labgob Byte Command] (rf : Raft n Byte Command) (term : Int)

@[simp] theorem persist_me : rf.persist.me = rf.me := rfl
@[simp] theorem persist_whoami : rf.persist.whoami = rf.whoami := rfl
@[simp] theorem persist_currentTerm : rf.persist.currentTerm = rf.currentTerm := rfl
@[simp] theorem persist_votedFor : rf.persist.votedFor = rf.votedFor := rfl
@[simp] theorem persist_log : rf.persist.log = rf.log := rfl
@[simp] theorem persist_committedIndex : rf.persist.committedIndex = rf.committedIndex := rfl
@[simp] theorem persist_lastApplied : rf.persist.lastApplied = rf.lastApplied := rfl
@[simp] theorem persist_nextIndex : rf.persist.nextIndex = rf.nextIndex := rfl
@[simp] theorem persist_matchIndex : rf.persist.matchIndex = rf.matchIndex := rfl

/-- What both handlers do first with the term of a request that is not stale. -/
def Raft.observeTerm : Raft n Byte Command :=
  if term > rf.currentTerm then rf.convertToFollower term else rf

@[simp] theorem observeTerm_me : (rf.observeTerm term).me = rf.me := by
  unfold Raft.observeTerm Raft.convertToFollower
  split <;> rfl

@[simp] theorem observeTerm_log : (rf.observeTerm term).log = rf.log := by
  unfold Raft.observeTerm Raft.convertToFollower
  split <;> rfl

@[simp] theorem observeTerm_committedIndex :
    (rf.observeTerm term).committedIndex = rf.committedIndex := by
  unfold Raft.observeTerm Raft.convertToFollower
  split <;> rfl

@[simp] theorem observeTerm_lastApplied :
    (rf.observeTerm term).lastApplied = rf.lastApplied := by
  unfold Raft.observeTerm Raft.convertToFollower
  split <;> rfl

@[simp] theorem observeTerm_nextIndex : (rf.observeTerm term).nextIndex = rf.nextIndex := by
  unfold Raft.observeTerm Raft.convertToFollower
  split <;> rfl

@[simp] theorem observeTerm_matchIndex : (rf.observeTerm term).matchIndex = rf.matchIndex := by
  unfold Raft.observeTerm Raft.convertToFollower
  split <;> rfl

theorem observeTerm_currentTerm {rf : Raft n Byte Command} {term : Int}
    (current : rf.currentTerm ≤ term) : (rf.observeTerm term).currentTerm = term := by
  unfold Raft.observeTerm Raft.convertToFollower
  split
  · rfl
  · omega

end Persist

/-! ## Elections -/

theorem candidateRequestVote_eq (rf : Raft n Byte Command) :
    rf.candidateRequestVote = some ⟨rf.currentTerm, (rf.me : Nat), lastLogIndex rf.log,
      termAt rf.log (lastLogIndex rf.log)⟩ := by
  simp [Raft.candidateRequestVote, Raft.getLastLogIndex]

/-- The candidate's log, as its request describes it, is at least as up to date as `log`. -/
def UpToDate (args : RequestVoteArgs) (log : List (LogEntries Command)) : Prop :=
  args.lastLogTerm > termAt log (lastLogIndex log) ∨
    (args.lastLogTerm = termAt log (lastLogIndex log) ∧ args.lastLogIndex ≥ lastLogIndex log)

section Handlers

variable [Labgob Byte Command]

/-- The outcomes of `RequestVote`. -/
inductive RequestVoteOutcome (rf : Raft n Byte Command) (args : RequestVoteArgs) :
    Raft n Byte Command → RequestVoteReply → Prop
  | stale (older : args.term < rf.currentTerm) :
      RequestVoteOutcome rf args rf ⟨rf.currentTerm, false⟩
  | refused (current : rf.currentTerm ≤ args.term) :
      RequestVoteOutcome rf args (rf.observeTerm args.term) ⟨rf.currentTerm, false⟩
  | granted (current : rf.currentTerm ≤ args.term)
      (canVote : (rf.observeTerm args.term).votedFor = -1 ∨
        (rf.observeTerm args.term).votedFor = args.candidateId)
      (upToDate : UpToDate args rf.log) :
      RequestVoteOutcome rf args
        ({ rf.observeTerm args.term with votedFor := args.candidateId } : Raft n Byte Command).persist
        ⟨rf.currentTerm, true⟩

theorem requestVote_returns (rf : Raft n Byte Command) (args : RequestVoteArgs) :
    ∃ rf' reply, rf.requestVote args = some (rf', reply) ∧
      RequestVoteOutcome rf args rf' reply := by
  by_cases older : args.term < rf.currentTerm
  · exact ⟨rf, _, by simp [Raft.requestVote, older], .stale older⟩
  · have current : rf.currentTerm ≤ args.term := by omega
    by_cases grant : ((rf.observeTerm args.term).votedFor = -1 ∨
        (rf.observeTerm args.term).votedFor = args.candidateId) ∧ UpToDate args rf.log
    · refine ⟨_, _, ?_, .granted current grant.1 grant.2⟩
      have cond := grant
      unfold UpToDate at cond
      rw [← observeTerm_log rf args.term] at cond
      simp only [Raft.requestVote, if_neg older, getLogTerm_eq, Raft.getLastLogIndex,
        Option.bind_eq_bind, Option.bind_some]
      exact if_pos cond
    · refine ⟨_, _, ?_, .refused current⟩
      have cond := grant
      unfold UpToDate at cond
      rw [← observeTerm_log rf args.term] at cond
      simp only [Raft.requestVote, if_neg older, getLogTerm_eq, Raft.getLastLogIndex,
        Option.bind_eq_bind, Option.bind_some]
      exact if_neg cond

theorem requestVote_cases {rf rf' : Raft n Byte Command} {args : RequestVoteArgs}
    {reply : RequestVoteReply} (handled : rf.requestVote args = some (rf', reply)) :
    RequestVoteOutcome rf args rf' reply := by
  obtain ⟨rf'', reply', returned, outcome⟩ := requestVote_returns rf args
  rw [handled] at returned
  cases returned
  exact outcome

/-- The outcomes of a vote reply. -/
inductive VoteReplyOutcome (rf : Raft n Byte Command) (voteCounts : Int) (args : RequestVoteArgs)
    (reply : RequestVoteReply) : Raft n Byte Command × Int × List (Task n) → Prop
  | ignored (why : ¬ (args.term = rf.currentTerm ∧ rf.whoami = .candidate) ∨
        reply.voteGranted = false) (notHigher : args.term = rf.currentTerm →
        rf.whoami = .candidate → reply.term ≤ rf.currentTerm) :
      VoteReplyOutcome rf voteCounts args reply (rf, voteCounts, [])
  | steppedDown (term : args.term = rf.currentTerm) (role : rf.whoami = .candidate)
      (higher : reply.term > rf.currentTerm) :
      VoteReplyOutcome rf voteCounts args reply (rf.convertToFollower reply.term, voteCounts, [])
  | counted (term : args.term = rf.currentTerm) (role : rf.whoami = .candidate)
      (notHigher : reply.term ≤ rf.currentTerm) (vote : reply.voteGranted = true)
      (few : voteCounts + 1 ≤ (n / 2 : Nat)) :
      VoteReplyOutcome rf voteCounts args reply (rf, voteCounts + 1, [])
  | elected (term : args.term = rf.currentTerm) (role : rf.whoami = .candidate)
      (notHigher : reply.term ≤ rf.currentTerm) (vote : reply.voteGranted = true)
      (majority : (n / 2 : Nat) < voteCounts + 1) :
      VoteReplyOutcome rf voteCounts args reply
        (rf.convertToLeader.1, voteCounts + 1, rf.convertToLeader.2)

theorem requestVoteReply_cases (rf : Raft n Byte Command) (voteCounts : Int)
    (args : RequestVoteArgs) (reply : RequestVoteReply) :
    VoteReplyOutcome rf voteCounts args reply (rf.requestVoteReply voteCounts args reply) := by
  unfold Raft.requestVoteReply
  split
  · rename_i current
    split
    · rename_i higher
      exact .steppedDown current.1 current.2 higher
    · rename_i notHigher
      have notHigher : reply.term ≤ rf.currentTerm := by omega
      split
      · rename_i vote
        dsimp only
        split
        · rename_i majority
          exact .elected current.1 current.2 notHigher vote majority
        · rename_i few
          exact .counted current.1 current.2 notHigher vote (by omega)
      · rename_i vote
        exact .ignored (.inr (by simpa using vote)) (fun _ _ => notHigher)
  · rename_i other
    exact .ignored (.inl other) (fun term role => absurd ⟨term, role⟩ other)

end Handlers

end DistributedCloud.RaftLab
