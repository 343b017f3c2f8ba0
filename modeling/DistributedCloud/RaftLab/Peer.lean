import DistributedCloud.RaftLab.Defs
import Mathlib.Data.List.FinRange

/-!
# The functions of one Raft peer

Every function below runs while the peer holds `rf.mu`, from taking the lock to releasing
it. `none` is a run-time panic. `processAppendEntriesReply` and the closure in
`CandidateRequestVote` release the lock around the RPC, so each of them appears in two parts:
what is built before the call, and what is done with the reply.
-/

namespace DistributedCloud.RaftLab

variable {n : Nat} {Byte Command : Type}

/-! ## The log -/

/-- `getLastLogIndex`, as a function of the log alone. -/
def lastLogIndex (log : List (LogEntries Command)) : Int :=
  if log.length = 0 then 0 else log.length - 1

/-- `getLogTerm`, as a function of the log alone. -/
def logTerm (log : List (LogEntries Command)) (index : Int) : Option Int :=
  if index = -1 ∨ index < 0 ∨ index ≥ log.length then some 0
  else (goIndex log index).map LogEntries.term

/-- `getLastLogIndex`. -/
def Raft.getLastLogIndex (rf : Raft n Byte Command) : Int := lastLogIndex rf.log

/-- `getLogTerm`. -/
def Raft.getLogTerm (rf : Raft n Byte Command) (index : Int) : Option Int :=
  logTerm rf.log index

/-! ## Persistence and role changes -/

section Persist

variable [Labgob Byte Command]

/-- `persist`. -/
def Raft.persist (rf : Raft n Byte Command) : Raft n Byte Command :=
  { rf with
    persister := ⟨Labgob.encodeInt Command rf.currentTerm ++
      (Labgob.encodeInt Command rf.votedFor ++ Labgob.encodeLog rf.log)⟩ }

/-- A failed `Decode` ends the chain of decodes but not the function: the variables not
    reached keep their zero values and are assigned all the same. -/
def Raft.readPersist (rf : Raft n Byte Command) (data : List Byte) : Raft n Byte Command :=
  if data.length < 1 then rf
  else
    match Labgob.decodeInt Command data with
    | none => { rf with currentTerm := 0, votedFor := 0, log := [] }
    | some (term, rest) =>
      match Labgob.decodeInt Command rest with
      | none => { rf with currentTerm := term, votedFor := 0, log := [] }
      | some (votedFor, rest) =>
        match Labgob.decodeLog rest with
        | none => { rf with currentTerm := term, votedFor := votedFor, log := [] }
        | some (log, _) => { rf with currentTerm := term, votedFor := votedFor, log := log }

/-- `convertToFollower`. -/
def Raft.convertToFollower (rf : Raft n Byte Command) (term : Int) : Raft n Byte Command :=
  ({ rf with currentTerm := term, whoami := .follower, votedFor := -1 }).persist

/-- `convertToLeader`, with the goroutine it starts. -/
def Raft.convertToLeader (rf : Raft n Byte Command) : Raft n Byte Command × List (Task n) :=
  ({ rf with
      whoami := .leader
      nextIndex := fun _ => rf.log.length + 1
      matchIndex := fun _ => 0 }, [.heartbeat])

/-- The peer's state after `StartElection`, which goes on to send `candidateRequestVote`. -/
def Raft.startElection (rf : Raft n Byte Command) : Raft n Byte Command :=
  ({ rf with
    votedFor := (rf.me : Nat)
    whoami := .candidate
    currentTerm := rf.currentTerm + 1 }).persist

/-- The entry at index 0 of every log, `LogEntries{0, 0}`. -/
def sentinel [Zero Command] : LogEntries Command := ⟨0, 0⟩

/-- `Make`. -/
def make [Zero Command] (me : Fin n) (persister : Persister Byte) : Raft n Byte Command :=
  let rf : Raft n Byte Command :=
    { me := me
      persister := persister
      whoami := .follower
      currentTerm := 0
      votedFor := -1
      log := [sentinel]
      committedIndex := 0
      lastApplied := 0
      nextIndex := fun _ => 0
      matchIndex := fun _ => 0 }
  let rf := { rf with
    matchIndex := fun _ => 0
    nextIndex := fun _ => rf.getLastLogIndex + 1 }
  rf.readPersist persister.raftstate

end Persist

/-! ## Elections -/

/-- The request `CandidateRequestVote` sends to every other peer. -/
def Raft.candidateRequestVote (rf : Raft n Byte Command) : Option RequestVoteArgs := do
  let lastLogTerm ← rf.getLogTerm rf.getLastLogIndex
  return ⟨rf.currentTerm, (rf.me : Nat), rf.getLastLogIndex, lastLogTerm⟩

section Handlers

variable [Labgob Byte Command]

/-- `RequestVote`. -/
def Raft.requestVote (rf : Raft n Byte Command) (args : RequestVoteArgs) :
    Option (Raft n Byte Command × RequestVoteReply) :=
  let reply : RequestVoteReply := ⟨rf.currentTerm, false⟩
  if args.term < rf.currentTerm then some (rf, reply)
  else do
    let rf := if args.term > rf.currentTerm then rf.convertToFollower args.term else rf
    let lastLogIndex := rf.getLastLogIndex
    let lastLogTerm ← rf.getLogTerm lastLogIndex
    let candidateIsUpToDate : Prop := args.lastLogTerm > lastLogTerm ∨
      (args.lastLogTerm = lastLogTerm ∧ args.lastLogIndex ≥ lastLogIndex)
    let canVote : Prop := rf.votedFor = -1 ∨ rf.votedFor = args.candidateId
    if canVote ∧ candidateIsUpToDate then
      some (({ rf with votedFor := args.candidateId }).persist, { reply with voteGranted := true })
    else some (rf, reply)

/-- What the goroutine of `CandidateRequestVote` does with a reply: the new state, the new
    value of the election's `voteCounts` and the goroutines started. -/
def Raft.requestVoteReply (rf : Raft n Byte Command) (voteCounts : Int) (args : RequestVoteArgs)
    (reply : RequestVoteReply) : Raft n Byte Command × Int × List (Task n) :=
  if args.term = rf.currentTerm ∧ rf.whoami = .candidate then
    if reply.term > rf.currentTerm then (rf.convertToFollower reply.term, voteCounts, [])
    else if reply.voteGranted then
      let voteCounts := voteCounts + 1
      if voteCounts > (n / 2 : Nat) then
        (rf.convertToLeader.1, voteCounts, rf.convertToLeader.2)
      else (rf, voteCounts, [])
    else (rf, voteCounts, [])
  else (rf, voteCounts, [])

/-! ## Log replication -/

/-- The backward scan for the first index of the conflicting term: `conflictIndex` is `i + 1`
    when the loop looks at `i`. -/
def conflictScan (log : List (LogEntries Command)) (conflictTerm : Int) : Nat → Option Int
  | 0 => some 0
  | i + 1 => do
    let term ← logTerm log i
    if conflictTerm ≠ term then some (i + 1) else conflictScan log conflictTerm i

/-- `ConflictIndex` for a mismatch at `prevLogIndex`. -/
def conflictIndexOf (log : List (LogEntries Command)) (conflictTerm prevLogIndex : Int) :
    Option Int :=
  if prevLogIndex ≤ 0 then some prevLogIndex
  else conflictScan log conflictTerm prevLogIndex.toNat

/-- The scan of the new entries for the first one that conflicts with the log. It stops one
    short of the log's last index. -/
def findConflict (log : List (LogEntries Command)) (newEntriesStart : Int) :
    Int → List (LogEntries Command) → Option Int
  | _, [] => some (-1)
  | i, entry :: rest =>
    if newEntriesStart + i ≥ lastLogIndex log then some (-1)
    else do
      let old ← goIndex log (newEntriesStart + i)
      if old.term ≠ entry.term then some i else findConflict log newEntriesStart (i + 1) rest

/-- The log after the update in `AppendEntries`. On a conflict the log is cut there and *all*
    the new entries are appended; otherwise it is cut right after `prevLogIndex`. -/
def installEntries (log : List (LogEntries Command)) (prevLogIndex : Int)
    (entries : List (LogEntries Command)) : Option (List (LogEntries Command)) := do
  let newEntriesStart := prevLogIndex + 1
  let conflictIndex ← findConflict log newEntriesStart 0 entries
  let log ← if conflictIndex ≠ -1 then goSliceTo log (newEntriesStart + conflictIndex) else some log
  if conflictIndex ≠ -1 ∧ log.length > 0 then some (log ++ entries)
  else do
    let kept ← goSliceTo log (prevLogIndex + 1)
    return kept ++ entries

/-- The request passes the checks of `AppendEntries` in front of the log update. -/
def Accepts (rf : Raft n Byte Command) (args : AppendEntriesArgs Command) : Prop :=
  rf.currentTerm ≤ args.term ∧ args.prevLogIndex ≤ rf.getLastLogIndex ∧
    rf.getLogTerm args.prevLogIndex = some args.prevLogTerm

instance (rf : Raft n Byte Command) (args : AppendEntriesArgs Command) :
    Decidable (Accepts rf args) :=
  inferInstanceAs (Decidable (_ ∧ _ ∧ _))

/-- `AppendEntries`. -/
def Raft.appendEntries (rf : Raft n Byte Command) (args : AppendEntriesArgs Command) :
    Option (Raft n Byte Command × AppendEntriesReply) :=
  let reply : AppendEntriesReply := ⟨rf.currentTerm, false, 0, 0⟩
  if args.term < rf.currentTerm then some (rf, reply)
  else
    let rf := if args.term > rf.currentTerm then rf.convertToFollower args.term else rf
    if args.prevLogIndex > rf.getLastLogIndex then
      some (rf, { reply with conflictIndex := rf.log.length, conflictTerm := -1 })
    else do
      let prevTerm ← rf.getLogTerm args.prevLogIndex
      if args.prevLogTerm ≠ prevTerm then
        let conflictIndex ← conflictIndexOf rf.log prevTerm args.prevLogIndex
        some (rf, { reply with conflictTerm := prevTerm, conflictIndex := conflictIndex })
      else
        let log ← installEntries rf.log args.prevLogIndex args.items
        let rf := ({ rf with log := log }).persist
        let rf :=
          if args.leaderCommit > rf.committedIndex then
            { rf with committedIndex := min args.leaderCommit (rf.log.length - 1) }
          else rf
        some (rf, { reply with success := true })

end Handlers

/-- The first part of `processAppendEntriesReply`: the request built for `server`. Whether the
    peer is still the leader is not looked at. -/
def Raft.processAppendEntriesArgs (rf : Raft n Byte Command) (server : Fin n)
    (isHeartbeat : Bool) : Option (AppendEntriesArgs Command) := do
  let nextIndex := rf.nextIndex server
  let prevLogIndex := nextIndex - 1
  let prevLogTerm ← rf.getLogTerm prevLogIndex
  let entries ←
    if nextIndex < rf.log.length then (goSliceFrom rf.log nextIndex).map some
    else if isHeartbeat then some none
    else some (some [])
  return ⟨rf.currentTerm, (rf.me : Nat), prevLogIndex, prevLogTerm, entries, rf.committedIndex⟩

/-- The number of peers that hold index `index`, by the leader's count. -/
def Raft.replicas (rf : Raft n Byte Command) (index : Int) : Nat :=
  1 + (List.finRange n).countP (fun peer => peer ≠ rf.me ∧ rf.matchIndex peer ≥ index)

/-- The loop of `checkAndCommitLogs`, with as many rounds left as there are indices between
    `index` and `committedIndex`. -/
def Raft.commitScan (rf : Raft n Byte Command) : Nat → Int → Option (Raft n Byte Command)
  | 0, _ => some rf
  | rounds + 1, index => do
    let entry ← goIndex rf.log index
    if entry.term ≠ rf.currentTerm then rf.commitScan rounds (index - 1)
    else if rf.replicas index ≥ n / 2 + 1 then some { rf with committedIndex := index }
    else rf.commitScan rounds (index - 1)

/-- `checkAndCommitLogs`. -/
def Raft.checkAndCommitLogs (rf : Raft n Byte Command) : Option (Raft n Byte Command) :=
  rf.commitScan (rf.getLastLogIndex - rf.committedIndex).toNat rf.getLastLogIndex

/-- The leader's backward scan for the last entry of `conflictTerm` below `i`; `-1` if there
    is none. -/
def lastIndexOfTerm (log : List (LogEntries Command)) (conflictTerm : Int) : Nat → Option Int
  | 0 => some (-1)
  | i + 1 => do
    let entry ← goIndex log i
    if conflictTerm = entry.term then some i else lastIndexOfTerm log conflictTerm i

/-- The value `nextIndex[server]` takes after a rejection. -/
def backedUpIndex (log : List (LogEntries Command)) (reply : AppendEntriesReply) : Option Int :=
  if reply.conflictTerm = -1 then some reply.conflictIndex
  else do
    let lastConflictIndexInTerm ← lastIndexOfTerm log reply.conflictTerm log.length
    if lastConflictIndexInTerm ≠ -1 then some (lastConflictIndexInTerm + 1)
    else some reply.conflictIndex

/-- The second part of `processAppendEntriesReply`: what is done with the reply of `server`. -/
def Raft.processAppendEntriesReply [Labgob Byte Command] (rf : Raft n Byte Command)
    (server : Fin n) (args : AppendEntriesArgs Command) (reply : AppendEntriesReply) :
    Option (Raft n Byte Command) :=
  if args.term ≠ rf.currentTerm ∨ rf.whoami ≠ .leader then
    if reply.term > rf.currentTerm then some (rf.convertToFollower reply.term) else some rf
  else if ¬ reply.success then do
    let next ← backedUpIndex rf.log reply
    return { rf with nextIndex := Function.update rf.nextIndex server next }
  else
    match args.entries with
    | none => some rf
    | some entries =>
      let matched := args.prevLogIndex + entries.length
      ({ rf with
        matchIndex := Function.update rf.matchIndex server matched
        nextIndex := Function.update rf.nextIndex server (matched + 1) }).checkAndCommitLogs

/-- `Start` for a peer that believes to be the leader; any other peer returns at once. -/
def Raft.start [Labgob Byte Command] (rf : Raft n Byte Command) (command : Command) :
    Raft n Byte Command × Int × Int × Bool :=
  if rf.whoami ≠ .leader then (rf, -1, -1, false)
  else
    let newEntry : LogEntries Command := ⟨rf.currentTerm, command⟩
    let rf := ({ rf with log := rf.log ++ [newEntry] }).persist
    (rf, rf.getLastLogIndex, rf.currentTerm, true)

end DistributedCloud.RaftLab
