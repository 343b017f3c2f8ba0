import DistributedCloud.Misc.GoSlice

/-!
# Data of one Raft peer

The records of `raft/raft.go` and `raft/rpc.go`. The fields of `State` and `LeaderState` are
fields of `Raft` itself, and the two slices of length `len(peers)` are functions on the
peers. A Go `int` is an `Int`: indices and terms really take the values `-1` and `0`.

The election timer is left out, because an election may start at any time; so are the
channels and the condition variable, which only wake the apply loop.
-/

namespace DistributedCloud.RaftLab

/-- `NodeType`. -/
inductive NodeType where
  | leader
  | candidate
  | follower
  deriving DecidableEq, Repr

/-- `LogEntries`, an entry of a log. -/
structure LogEntries (Command : Type) where
  term : Int
  command : Command
  deriving DecidableEq, Repr

/-- What `persist` and `readPersist` rely on in `labgob`: values are written one after the
    other, and each decoder returns the value written together with the rest of the stream. -/
class Labgob (Byte Command : Type) where
  encodeInt : Int → List Byte
  encodeLog : List (LogEntries Command) → List Byte
  decodeInt : List Byte → Option (Int × List Byte)
  decodeLog : List Byte → Option (List (LogEntries Command) × List Byte)
  encodeInt_ne_nil : ∀ i, encodeInt i ≠ []
  decodeInt_encodeInt : ∀ i rest, decodeInt (encodeInt i ++ rest) = some (i, rest)
  decodeLog_encodeLog : ∀ log rest, decodeLog (encodeLog log ++ rest) = some (log, rest)

/-- A stream that keeps every encoded value as one token; it satisfies the laws above. -/
inductive Token (Command : Type) where
  | int (i : Int)
  | log (l : List (LogEntries Command))

instance (Command : Type) : Labgob (Token Command) Command where
  encodeInt := fun i => [.int i]
  encodeLog := fun l => [.log l]
  decodeInt
    | .int i :: rest => some (i, rest)
    | _ => none
  decodeLog
    | .log l :: rest => some (l, rest)
    | _ => none
  encodeInt_ne_nil := by simp
  decodeInt_encodeInt := by simp
  decodeLog_encodeLog := by simp

/-- `Persister`, of which Raft only uses the saved state. -/
structure Persister (Byte : Type) where
  raftstate : List Byte

/-- One Raft peer among `n`. -/
structure Raft (n : Nat) (Byte Command : Type) where
  me : Fin n
  persister : Persister Byte
  whoami : NodeType
  currentTerm : Int
  votedFor : Int
  log : List (LogEntries Command)
  committedIndex : Int
  lastApplied : Int
  nextIndex : Fin n → Int
  matchIndex : Fin n → Int

/-- `RequestVoteArgs`. -/
structure RequestVoteArgs where
  term : Int
  candidateId : Int
  lastLogIndex : Int
  lastLogTerm : Int
  deriving DecidableEq, Repr

/-- `RequestVoteReply`. -/
structure RequestVoteReply where
  term : Int
  voteGranted : Bool
  deriving DecidableEq, Repr

/-- `entries` is `none` for Go's `nil` slice, which `processAppendEntriesReply` tells apart
    from an empty one. -/
structure AppendEntriesArgs (Command : Type) where
  term : Int
  leaderId : Int
  prevLogIndex : Int
  prevLogTerm : Int
  entries : Option (List (LogEntries Command))
  leaderCommit : Int
  deriving DecidableEq, Repr

/-- `AppendEntriesReply`. -/
structure AppendEntriesReply where
  term : Int
  success : Bool
  conflictTerm : Int
  conflictIndex : Int
  deriving DecidableEq, Repr

/-- `ApplyMsg`, as far as it is about commands. -/
structure ApplyMsg (Command : Type) where
  commandValid : Bool
  command : Command
  commandIndex : Int
  deriving DecidableEq, Repr

/-- The goroutines a peer starts that have not taken the lock yet. `checkedIn` is the term in
    which `heartbeat` saw the peer as leader; it is a history variable, no step reads it. -/
inductive Task (n : Nat) where
  | heartbeat
  | replicateLogsToFollower (isHeartbeat : Bool) (checkedIn : Int)
  | processAppendEntriesReply (server : Fin n) (isHeartbeat : Bool) (checkedIn : Int)
  deriving DecidableEq, Repr

/-- The `range` of a possibly `nil` slice of entries. -/
def AppendEntriesArgs.items {Command : Type} (args : AppendEntriesArgs Command) :
    List (LogEntries Command) :=
  args.entries.getD []

end DistributedCloud.RaftLab
