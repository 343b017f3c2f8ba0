import DistributedCloud.RaftLab.Network
import DistributedCloud.ReplicatedLog.Replicas

/-!
# What happened in a run

History variables of a cluster: who voted for whom, who stood for a term with which log, who
won it, the log its leader built in it, how far each peer has accepted requests of it, and
every request with the state of its sender when it was built. They are recorded from the
worlds before and after a step; no step reads them.
-/

namespace DistributedCloud.RaftLab

open ReplicatedLog (setAt)

/-- A request that `peer` has sent, with the role and the term it had when it built it. -/
structure Sent (n : Nat) (Command : Type) where
  peer : Fin n
  whoami : NodeType
  currentTerm : Int
  args : AppendEntriesArgs Command
  deriving DecidableEq

/-- What peers have done in the terms so far. -/
structure History (n : Nat) (Command : Type) where
  /-- The value of `votedFor` that a peer last had in a term. -/
  voted : Fin n → Int → Int
  /-- The log with which a peer started its election of a term. -/
  bid : Fin n → Int → List (LogEntries Command)
  /-- The peer that became leader in a term. -/
  leader : Int → Option (Fin n)
  /-- The log of the leader of a term, as last seen in that term. -/
  termLog : Int → List (LogEntries Command)
  /-- The largest index up to which a peer has accepted requests of a term, -1 if it has
      accepted none; for the leader itself, the last index of its log. -/
  accepted : Fin n → Int → Int
  /-- The requests sent so far. -/
  sent : List (Sent n Command)

variable {n : Nat} {Byte Command : Type}

/-- Nothing has happened. -/
def History.start [Zero Command] : History n Command where
  voted := fun _ _ => -1
  bid := fun _ _ => []
  leader := fun _ => none
  termLog := fun term => if term = 0 then [sentinel] else []
  accepted := fun _ _ => -1
  sent := []

/-- The peer whose critical section an event is. -/
def World.actor (w : World n Byte Command) : Event n Command → Option (Fin n)
  | .election peer | .start peer _ | .heartbeat peer _ | .replicate peer _ | .send peer _
  | .applyTake peer _ | .applySend peer | .applyDone peer | .crash peer => some peer
  | .requestVote k => w.votes[k]?.map Call.server
  | .requestVoteReply k => w.votes[k]?.map Call.caller
  | .appendEntries k => w.appends[k]?.map Call.server
  | .appendEntriesReply k => w.appends[k]?.map Call.caller

/-- What is recorded of the election or the request a step is about. -/
def History.note (h : History n Command) (w w' : World n Byte Command) :
    Event n Command → History n Command
  | .election peer =>
    { h with bid := setAt h.bid peer ((w.rf peer).currentTerm + 1) (w.rf peer).log }
  | .send peer _ =>
    match w'.appends.getLast? with
    | none => h
    | some call =>
      { h with
        sent := h.sent ++ [⟨peer, (w.rf peer).whoami, (w.rf peer).currentTerm, call.args⟩] }
  | .appendEntries k =>
    match w.appends[k]? with
    | none => h
    | some call =>
      if Accepts (w.rf call.server) call.args then
        { h with
          accepted := setAt h.accepted call.server call.args.term
            (max (h.accepted call.server call.args.term)
              (call.args.prevLogIndex + call.args.items.length)) }
      else h
  | _ => h

/-- What is recorded of the peer that took the step. -/
def History.observe (h : History n Command) (peer : Fin n) (rf : Raft n Byte Command) :
    History n Command :=
  { h with
    voted := setAt h.voted peer rf.currentTerm rf.votedFor
    leader := if rf.whoami = .leader then Function.update h.leader rf.currentTerm (some peer)
      else h.leader
    termLog := if rf.whoami = .leader then Function.update h.termLog rf.currentTerm rf.log
      else h.termLog
    accepted := if rf.whoami = .leader then
        setAt h.accepted peer rf.currentTerm (lastLogIndex rf.log)
      else h.accepted }

/-- What an event adds to the history, for the peer that acts. -/
def History.record (w : World n Byte Command) (e : Event n Command) (w' : World n Byte Command)
    (h : History n Command) : History n Command :=
  match w.actor e with
  | none => h
  | some peer => (h.note w w' e).observe peer (w'.rf peer)

/-- The cluster with its history. -/
def recordedCluster (n : Nat) (Byte Command : Type) [Labgob Byte Command] [Zero Command] :
    Machine (World n Byte Command × History n Command) (Event n Command) :=
  (cluster n Byte Command).withHistory History.start History.record

end DistributedCloud.RaftLab
