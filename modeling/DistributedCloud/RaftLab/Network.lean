import DistributedCloud.Misc.Machine
import DistributedCloud.RaftLab.Peer

/-!
# A cluster of Raft peers

One event is one critical section of one peer, or one send on its `applyCh`. An RPC is a call
record: a call without a reply is a request in flight, a call with one is a reply in flight.
`labrpc` runs a request's handler at most once and delivers a reply at most once, at any time
later; a message that is lost is one whose event never comes. A crash loses everything but
the persister, and the peer is rebuilt from it by `make`; replies to calls of an earlier
incarnation find nobody waiting.
-/

namespace DistributedCloud.RaftLab

/-- One RPC from the goroutine of `caller`'s incarnation `epoch` to `server`. -/
structure Call (n : Nat) (Args Reply : Type) where
  caller : Fin n
  epoch : Nat
  server : Fin n
  args : Args
  reply : Option Reply
  deriving DecidableEq, Repr

/-- Where `applyCommittedLogs` stands: waiting for `committedIndex` to move, or sending the
    copied entries, the next of them under index `next`. -/
inductive ApplyLoop (Command : Type) where
  | waiting
  | sending (applyEnd next : Int) (rest : List (LogEntries Command))
  deriving DecidableEq, Repr

/-- A peer with its goroutines. The `voteCounts` of the elections it has started are kept by
    the term of the election. -/
structure Node (n : Nat) (Byte Command : Type) where
  rf : Raft n Byte Command
  epoch : Nat
  tasks : List (Task n)
  voteCounts : Int → Int
  applyLoop : ApplyLoop Command

/-- A message sent on the `applyCh` of one incarnation of a peer. -/
structure Applied (n : Nat) (Command : Type) where
  peer : Fin n
  epoch : Nat
  msg : ApplyMsg Command
  deriving DecidableEq, Repr

/-- The peers, the calls made so far and the messages sent to the services. -/
structure World (n : Nat) (Byte Command : Type) where
  nodes : Fin n → Node n Byte Command
  votes : List (Call n RequestVoteArgs RequestVoteReply)
  appends : List (Call n (AppendEntriesArgs Command) AppendEntriesReply)
  applied : List (Applied n Command)

/-- The critical sections. A goroutine is named by its position among the peer's tasks, an RPC
    by its position among the calls. `beyond` is what the log's backing array holds past the
    log's length, where Go lets a slice expression reach. -/
inductive Event (n : Nat) (Command : Type) where
  | election (peer : Fin n)
  | start (peer : Fin n) (command : Command)
  | heartbeat (peer : Fin n) (task : Nat)
  | replicate (peer : Fin n) (task : Nat)
  | send (peer : Fin n) (task : Nat)
  | requestVote (call : Nat)
  | requestVoteReply (call : Nat)
  | appendEntries (call : Nat)
  | appendEntriesReply (call : Nat)
  | applyTake (peer : Fin n) (beyond : List (LogEntries Command))
  | applySend (peer : Fin n)
  | applyDone (peer : Fin n)
  | crash (peer : Fin n)

variable {n : Nat} {Byte Command : Type}

/-- The peers other than `peer`, in the order of `rf.peers`. -/
def others (peer : Fin n) : List (Fin n) :=
  (List.finRange n).filter (fun server => server ≠ peer)

/-- The state of a peer. -/
def World.rf (w : World n Byte Command) (peer : Fin n) : Raft n Byte Command :=
  (w.nodes peer).rf

/-- A peer changes. -/
def World.setNode (w : World n Byte Command) (peer : Fin n) (nd : Node n Byte Command) :
    World n Byte Command :=
  { w with nodes := Function.update w.nodes peer nd }

section Steps

variable [Labgob Byte Command] [Zero Command]

/-- A peer started by `make`. -/
def Node.boot (me : Fin n) (persister : Persister Byte) (epoch : Nat) : Node n Byte Command where
  rf := make me persister
  epoch := epoch
  tasks := []
  voteCounts := fun _ => 0
  applyLoop := .waiting

/-- All peers have just been started. -/
def World.init : World n Byte Command where
  nodes := fun peer => Node.boot peer ⟨[]⟩ 0
  votes := []
  appends := []
  applied := []

omit [Zero Command] in
/-- `ticker` finding the election timer expired. -/
def World.election (w : World n Byte Command) (peer : Fin n) : Option (World n Byte Command) :=
  let nd := w.nodes peer
  if nd.rf.whoami = .leader then none
  else do
    let rf := nd.rf.startElection
    let args ← rf.candidateRequestVote
    return { w.setNode peer
        { nd with rf := rf, voteCounts := Function.update nd.voteCounts args.term 1 } with
      votes := w.votes ++
        (others peer).map (fun server => ⟨peer, nd.epoch, server, args, none⟩) }

omit [Zero Command] in
/-- `Start` is called on a peer. -/
def World.start (w : World n Byte Command) (peer : Fin n) (command : Command) :
    World n Byte Command :=
  w.setNode peer { w.nodes peer with rf := ((w.nodes peer).rf.start command).1 }

/-- One round of `heartbeat`: a peer that is not the leader ends the goroutine. -/
def World.heartbeat (w : World n Byte Command) (peer : Fin n) (task : Nat) :
    Option (World n Byte Command) :=
  let nd := w.nodes peer
  match nd.tasks[task]? with
  | some .heartbeat =>
    if nd.rf.whoami ≠ .leader then
      some (w.setNode peer { nd with tasks := nd.tasks.eraseIdx task })
    else
      some (w.setNode peer
        { nd with tasks := nd.tasks ++ [.replicateLogsToFollower true nd.rf.currentTerm] })
  | _ => none

/-- `replicateLogsToFollower` starts a goroutine for every other peer. -/
def World.replicate (w : World n Byte Command) (peer : Fin n) (task : Nat) :
    Option (World n Byte Command) :=
  let nd := w.nodes peer
  match nd.tasks[task]? with
  | some (.replicateLogsToFollower isHeartbeat checkedIn) =>
    some (w.setNode peer
      { nd with
        tasks := nd.tasks.eraseIdx task ++
          (others peer).map (fun server =>
            .processAppendEntriesReply server isHeartbeat checkedIn) })
  | _ => none

/-- A spawned `processAppendEntriesReply` takes the lock, builds its request and sends it. -/
def World.send (w : World n Byte Command) (peer : Fin n) (task : Nat) :
    Option (World n Byte Command) :=
  let nd := w.nodes peer
  match nd.tasks[task]? with
  | some (.processAppendEntriesReply server isHeartbeat _) => do
    let args ← nd.rf.processAppendEntriesArgs server isHeartbeat
    return { w.setNode peer { nd with tasks := nd.tasks.eraseIdx task } with
      appends := w.appends ++ [⟨peer, nd.epoch, server, args, none⟩] }
  | _ => none

omit [Zero Command] in
/-- The handler `RequestVote` runs at the callee. -/
def World.requestVote (w : World n Byte Command) (k : Nat) : Option (World n Byte Command) := do
  let call ← w.votes[k]?
  match call.reply with
  | some _ => none
  | none =>
    let nd := w.nodes call.server
    let (rf, reply) ← nd.rf.requestVote call.args
    return { w.setNode call.server { nd with rf := rf } with
      votes := w.votes.set k { call with reply := some reply } }

omit [Zero Command] in
/-- A vote reply reaches the goroutine that waits for it. -/
def World.requestVoteReply (w : World n Byte Command) (k : Nat) :
    Option (World n Byte Command) := do
  let call ← w.votes[k]?
  let reply ← call.reply
  let nd := w.nodes call.caller
  if call.epoch ≠ nd.epoch then none
  else
    let (rf, voteCounts, spawned) :=
      nd.rf.requestVoteReply (nd.voteCounts call.args.term) call.args reply
    return { w.setNode call.caller
        { nd with
          rf := rf
          tasks := nd.tasks ++ spawned
          voteCounts := Function.update nd.voteCounts call.args.term voteCounts } with
      votes := w.votes.eraseIdx k }

omit [Zero Command] in
/-- The handler `AppendEntries` runs at the callee. -/
def World.appendEntries (w : World n Byte Command) (k : Nat) :
    Option (World n Byte Command) := do
  let call ← w.appends[k]?
  match call.reply with
  | some _ => none
  | none =>
    let nd := w.nodes call.server
    let (rf, reply) ← nd.rf.appendEntries call.args
    return { w.setNode call.server { nd with rf := rf } with
      appends := w.appends.set k { call with reply := some reply } }

omit [Zero Command] in
/-- An `AppendEntries` reply reaches the goroutine that waits for it. -/
def World.appendEntriesReply (w : World n Byte Command) (k : Nat) :
    Option (World n Byte Command) := do
  let call ← w.appends[k]?
  let reply ← call.reply
  let nd := w.nodes call.caller
  if call.epoch ≠ nd.epoch then none
  else
    let rf ← nd.rf.processAppendEntriesReply call.server call.args reply
    return { w.setNode call.caller { nd with rf := rf } with
      appends := w.appends.eraseIdx k }

/-- `applyCommittedLogs` copies the entries to apply and releases the lock. -/
def World.applyTake (w : World n Byte Command) (peer : Fin n)
    (beyond : List (LogEntries Command)) : Option (World n Byte Command) :=
  let nd := w.nodes peer
  match nd.applyLoop with
  | .sending _ _ _ => none
  | .waiting =>
    if nd.rf.lastApplied ≥ nd.rf.committedIndex then none
    else do
      let applyStart := nd.rf.lastApplied + 1
      let applyEnd := nd.rf.committedIndex
      let upTo ← goSliceTo (nd.rf.log ++ beyond) (applyEnd + 1)
      let entries ← goSliceFrom upTo applyStart
      return w.setNode peer { nd with applyLoop := .sending applyEnd applyStart entries }

/-- `applyCommittedLogs` sends one message on `applyCh`. -/
def World.applySend (w : World n Byte Command) (peer : Fin n) : Option (World n Byte Command) :=
  let nd := w.nodes peer
  match nd.applyLoop with
  | .sending applyEnd next (entry :: rest) =>
    some { w.setNode peer { nd with applyLoop := .sending applyEnd (next + 1) rest } with
      applied := w.applied ++ [⟨peer, nd.epoch, ⟨true, entry.command, next⟩⟩] }
  | _ => none

/-- `applyCommittedLogs` takes the lock again to move `lastApplied`. -/
def World.applyDone (w : World n Byte Command) (peer : Fin n) : Option (World n Byte Command) :=
  let nd := w.nodes peer
  match nd.applyLoop with
  | .sending applyEnd _ [] =>
    let rf := if applyEnd > nd.rf.lastApplied then { nd.rf with lastApplied := applyEnd } else nd.rf
    some (w.setNode peer { nd with rf := rf, applyLoop := .waiting })
  | _ => none

/-- A peer crashes and is started again with what it has persisted. -/
def World.crash (w : World n Byte Command) (peer : Fin n) : World n Byte Command :=
  let nd := w.nodes peer
  w.setNode peer (Node.boot peer nd.rf.persister (nd.epoch + 1))

/-- One event. -/
def World.step (w : World n Byte Command) : Event n Command → Option (World n Byte Command)
  | .election peer => w.election peer
  | .start peer command => some (w.start peer command)
  | .heartbeat peer task => w.heartbeat peer task
  | .replicate peer task => w.replicate peer task
  | .send peer task => w.send peer task
  | .requestVote call => w.requestVote call
  | .requestVoteReply call => w.requestVoteReply call
  | .appendEntries call => w.appendEntries call
  | .appendEntriesReply call => w.appendEntriesReply call
  | .applyTake peer beyond => w.applyTake peer beyond
  | .applySend peer => w.applySend peer
  | .applyDone peer => w.applyDone peer
  | .crash peer => some (w.crash peer)

/-- The cluster of `n` peers, all started on empty persisters. -/
def cluster (n : Nat) (Byte Command : Type) [Labgob Byte Command] [Zero Command] :
    Machine (World n Byte Command) (Event n Command) where
  init := World.init
  step := World.step

end Steps

end DistributedCloud.RaftLab
