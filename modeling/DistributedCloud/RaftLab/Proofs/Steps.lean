import DistributedCloud.RaftLab.Network
import DistributedCloud.RaftLab.Proofs.Replication

/-!
# What one event can do to the cluster

`World.Step` lists every way an event can change a world, with the outcome of the handler it
runs. It is the only place where the step function is unfolded.
-/

namespace DistributedCloud.RaftLab

variable {n : Nat} {Byte Command : Type}

theorem mem_others {peer server : Fin n} : server ∈ others peer ↔ server ≠ peer := by
  simp [others]

theorem nodup_others (peer : Fin n) : (others peer).Nodup :=
  (List.nodup_finRange n).filter _

section SetNode

variable (w : World n Byte Command) (peer : Fin n) (nd : Node n Byte Command)

@[simp] theorem setNode_votes : (w.setNode peer nd).votes = w.votes := rfl
@[simp] theorem setNode_appends : (w.setNode peer nd).appends = w.appends := rfl
@[simp] theorem setNode_applied : (w.setNode peer nd).applied = w.applied := rfl

@[simp] theorem setNode_nodes_self : (w.setNode peer nd).nodes peer = nd := by
  simp [World.setNode]

theorem setNode_nodes_ne {q : Fin n} (other : q ≠ peer) :
    (w.setNode peer nd).nodes q = w.nodes q := by
  simp [World.setNode, other]

/-- A property of every node survives an update that establishes it for the new node. -/
theorem setNode_forall {P : Fin n → Node n Byte Command → Prop} (before : ∀ q, P q (w.nodes q))
    (now : P peer nd) (q : Fin n) : P q ((w.setNode peer nd).nodes q) := by
  by_cases same : q = peer
  · subst same
    rw [setNode_nodes_self]
    exact now
  · rw [setNode_nodes_ne w peer nd same]
    exact before q

end SetNode

/-- A condition on the call that an `AppendEntries` handler is about to run for; every other
    event passes. -/
def World.WhenAppend (w : World n Byte Command)
    (P : Call n (AppendEntriesArgs Command) AppendEntriesReply → Prop) : Event n Command → Prop
  | .appendEntries k => ∀ call ∈ w.appends[k]?, P call
  | _ => True

instance (w : World n Byte Command)
    (P : Call n (AppendEntriesArgs Command) AppendEntriesReply → Prop) [DecidablePred P]
    (e : Event n Command) : Decidable (w.WhenAppend P e) :=
  match e with
  | .appendEntries k => inferInstanceAs (Decidable (∀ call ∈ w.appends[k]?, P call))
  | .election _ | .start _ _ | .heartbeat _ _ | .replicate _ _ | .send _ _ | .requestVote _
  | .requestVoteReply _ | .appendEntriesReply _ | .applyTake _ _ | .applySend _ | .applyDone _
  | .crash _ => isTrue trivial

variable [Labgob Byte Command] [Zero Command]

/-- The vote request that `peer` sends to `server` when it starts an election. -/
def voteCall (w : World n Byte Command) (peer server : Fin n) :
    Call n RequestVoteArgs RequestVoteReply :=
  ⟨peer, (w.nodes peer).epoch, server,
    ⟨(w.rf peer).currentTerm + 1, (peer : Nat), lastLogIndex (w.rf peer).log,
      termAt (w.rf peer).log (lastLogIndex (w.rf peer).log)⟩, none⟩

/-- The ways an event can change a world. -/
inductive World.Step (w : World n Byte Command) : Event n Command → World n Byte Command → Prop
  | election {peer : Fin n} (role : (w.rf peer).whoami ≠ .leader) (me : (w.rf peer).me = peer) :
      w.Step (.election peer)
        { w.setNode peer
            { w.nodes peer with
              rf := (w.rf peer).startElection
              voteCounts := Function.update (w.nodes peer).voteCounts
                ((w.rf peer).currentTerm + 1) 1 } with
          votes := w.votes ++ (others peer).map (voteCall w peer) }
  | start {peer : Fin n} {command : Command} :
      w.Step (.start peer command)
        (w.setNode peer { w.nodes peer with rf := ((w.rf peer).start command).1 })
  | heartbeatEnds {peer : Fin n} {task : Nat} (role : (w.rf peer).whoami ≠ .leader) :
      w.Step (.heartbeat peer task)
        (w.setNode peer
          { w.nodes peer with tasks := (w.nodes peer).tasks.eraseIdx task })
  | heartbeat {peer : Fin n} {task : Nat} (role : (w.rf peer).whoami = .leader) :
      w.Step (.heartbeat peer task)
        (w.setNode peer
          { w.nodes peer with
            tasks := (w.nodes peer).tasks ++
              [.replicateLogsToFollower true (w.rf peer).currentTerm] })
  | replicate {peer : Fin n} {task : Nat} {isHeartbeat : Bool} {checkedIn : Int}
      (found : (w.nodes peer).tasks[task]? = some (.replicateLogsToFollower isHeartbeat checkedIn)) :
      w.Step (.replicate peer task)
        (w.setNode peer
          { w.nodes peer with
            tasks := (w.nodes peer).tasks.eraseIdx task ++
              (others peer).map (fun server =>
                .processAppendEntriesReply server isHeartbeat checkedIn) })
  | send {peer server : Fin n} {task : Nat} {isHeartbeat : Bool} {checkedIn : Int}
      {args : AppendEntriesArgs Command}
      (found : (w.nodes peer).tasks[task]? =
        some (.processAppendEntriesReply server isHeartbeat checkedIn))
      (built : BuiltArgs (w.rf peer) server args) :
      w.Step (.send peer task)
        { w.setNode peer { w.nodes peer with tasks := (w.nodes peer).tasks.eraseIdx task } with
          appends := w.appends ++ [⟨peer, (w.nodes peer).epoch, server, args, none⟩] }
  | requestVote {k : Nat} {call : Call n RequestVoteArgs RequestVoteReply}
      {rf : Raft n Byte Command} {reply : RequestVoteReply}
      (found : w.votes[k]? = some call) (pending : call.reply = none)
      (outcome : RequestVoteOutcome (w.rf call.server) call.args rf reply) :
      w.Step (.requestVote k)
        { w.setNode call.server { w.nodes call.server with rf := rf } with
          votes := w.votes.set k { call with reply := some reply } }
  | requestVoteReply {k : Nat} {call : Call n RequestVoteArgs RequestVoteReply}
      {reply : RequestVoteReply} {rf : Raft n Byte Command} {voteCounts : Int}
      {spawned : List (Task n)}
      (found : w.votes[k]? = some call) (replied : call.reply = some reply)
      (epoch : call.epoch = (w.nodes call.caller).epoch)
      (outcome : VoteReplyOutcome (w.rf call.caller)
        ((w.nodes call.caller).voteCounts call.args.term) call.args reply
        (rf, voteCounts, spawned)) :
      w.Step (.requestVoteReply k)
        { w.setNode call.caller
            { w.nodes call.caller with
              rf := rf
              tasks := (w.nodes call.caller).tasks ++ spawned
              voteCounts := Function.update (w.nodes call.caller).voteCounts call.args.term
                voteCounts } with
          votes := w.votes.eraseIdx k }
  | appendEntries {k : Nat} {call : Call n (AppendEntriesArgs Command) AppendEntriesReply}
      {rf : Raft n Byte Command} {reply : AppendEntriesReply}
      (found : w.appends[k]? = some call) (pending : call.reply = none)
      (outcome : AppendEntriesOutcome (w.rf call.server) call.args rf reply) :
      w.Step (.appendEntries k)
        { w.setNode call.server { w.nodes call.server with rf := rf } with
          appends := w.appends.set k { call with reply := some reply } }
  | appendEntriesReply {k : Nat} {call : Call n (AppendEntriesArgs Command) AppendEntriesReply}
      {rf : Raft n Byte Command} {reply : AppendEntriesReply}
      (found : w.appends[k]? = some call) (replied : call.reply = some reply)
      (epoch : call.epoch = (w.nodes call.caller).epoch)
      (outcome : AppendReplyOutcome (w.rf call.caller) call.server call.args reply rf) :
      w.Step (.appendEntriesReply k)
        { w.setNode call.caller { w.nodes call.caller with rf := rf } with
          appends := w.appends.eraseIdx k }
  | applyTake {peer : Fin n} {beyond entries : List (LogEntries Command)}
      (waiting : (w.nodes peer).applyLoop = .waiting)
      (behind : (w.rf peer).lastApplied < (w.rf peer).committedIndex)
      (inside : (w.rf peer).committedIndex < ((w.rf peer).log ++ beyond).length)
      (copied : entries = (((w.rf peer).log ++ beyond).take
        ((w.rf peer).committedIndex + 1).toNat).drop ((w.rf peer).lastApplied + 1).toNat) :
      w.Step (.applyTake peer beyond)
        (w.setNode peer
          { w.nodes peer with
            applyLoop := .sending (w.rf peer).committedIndex ((w.rf peer).lastApplied + 1) entries })
  | applySend {peer : Fin n} {applyEnd next : Int} {entry : LogEntries Command}
      {rest : List (LogEntries Command)}
      (sending : (w.nodes peer).applyLoop = .sending applyEnd next (entry :: rest)) :
      w.Step (.applySend peer)
        { w.setNode peer
            { w.nodes peer with applyLoop := .sending applyEnd (next + 1) rest } with
          applied := w.applied ++
            [⟨peer, (w.nodes peer).epoch, ⟨true, entry.command, next⟩⟩] }
  | applyDone {peer : Fin n} {applyEnd next : Int}
      (sending : (w.nodes peer).applyLoop = .sending applyEnd next []) :
      w.Step (.applyDone peer)
        (w.setNode peer
          { w.nodes peer with
            rf := { w.rf peer with lastApplied := max applyEnd (w.rf peer).lastApplied }
            applyLoop := .waiting })
  | crash {peer : Fin n} :
      w.Step (.crash peer)
        (w.setNode peer
          (Node.boot peer (w.rf peer).persister ((w.nodes peer).epoch + 1)))

/-- Every step of the machine is one of those listed. The peers know their own index. -/
theorem step_cases {w w' : World n Byte Command} {e : Event n Command}
    (me : ∀ peer, (w.rf peer).me = peer) (next : w.step e = some w') : w.Step e w' := by
  cases e with
  | election peer =>
    simp only [World.step, World.election, candidateRequestVote_eq, Option.bind_eq_bind,
      Option.bind_some] at next
    split at next
    · cases next
    · rename_i role
      cases next
      have known : ((w.nodes peer).rf.startElection).me = peer := me peer
      have shape : w.Step (.election peer) _ := World.Step.election role (me peer)
      simp only [known]
      exact shape
  | start peer command =>
    cases next
    exact .start
  | heartbeat peer task =>
    simp only [World.step, World.heartbeat] at next
    split at next
    · split at next
      · rename_i role
        cases next
        exact .heartbeatEnds role
      · rename_i role
        cases next
        exact .heartbeat (not_not.mp role)
    · cases next
  | replicate peer task =>
    simp only [World.step, World.replicate] at next
    split at next
    · rename_i found
      cases next
      exact .replicate found
    · cases next
  | send peer task =>
    simp only [World.step, World.send] at next
    split at next
    · rename_i found
      obtain ⟨args, built, returned⟩ := Option.bind_eq_some_iff.mp next
      cases returned
      exact .send found (processAppendEntriesArgs_cases built)
    · cases next
  | requestVote k =>
    obtain ⟨call, found, next⟩ := Option.bind_eq_some_iff.mp next
    split at next
    · cases next
    · rename_i pending
      obtain ⟨⟨rf, reply⟩, handled, returned⟩ := Option.bind_eq_some_iff.mp next
      cases returned
      exact .requestVote found pending (requestVote_cases handled)
  | requestVoteReply k =>
    obtain ⟨call, found, next⟩ := Option.bind_eq_some_iff.mp next
    obtain ⟨reply, replied, next⟩ := Option.bind_eq_some_iff.mp next
    dsimp only at next
    split at next
    · cases next
    · rename_i epoch
      have outcome := requestVoteReply_cases (w.rf call.caller)
        ((w.nodes call.caller).voteCounts call.args.term) call.args reply
      rw [World.rf] at outcome
      generalize (w.nodes call.caller).rf.requestVoteReply _ _ _ = result at next outcome
      obtain ⟨rf, voteCounts, spawned⟩ := result
      cases next
      exact .requestVoteReply found replied (not_not.mp epoch) outcome
  | appendEntries k =>
    obtain ⟨call, found, next⟩ := Option.bind_eq_some_iff.mp next
    split at next
    · cases next
    · rename_i pending
      obtain ⟨⟨rf, reply⟩, handled, returned⟩ := Option.bind_eq_some_iff.mp next
      cases returned
      exact .appendEntries found pending (appendEntries_cases handled)
  | appendEntriesReply k =>
    obtain ⟨call, found, next⟩ := Option.bind_eq_some_iff.mp next
    obtain ⟨reply, replied, next⟩ := Option.bind_eq_some_iff.mp next
    dsimp only at next
    split at next
    · cases next
    · rename_i epoch
      obtain ⟨rf, handled, returned⟩ := Option.bind_eq_some_iff.mp next
      cases returned
      exact .appendEntriesReply found replied (not_not.mp epoch)
        (processAppendEntriesReply_cases handled)
  | applyTake peer beyond =>
    simp only [World.step, World.applyTake] at next
    split at next
    · cases next
    · rename_i waiting
      split at next
      · cases next
      · rename_i behind
        obtain ⟨upTo, cut, next⟩ := Option.bind_eq_some_iff.mp next
        obtain ⟨entries, rest, returned⟩ := Option.bind_eq_some_iff.mp next
        obtain ⟨-, bound, rfl⟩ := goSliceTo_eq_some.mp cut
        obtain ⟨-, -, copied⟩ := goSliceFrom_eq_some.mp rest
        cases returned
        exact .applyTake waiting (by rw [World.rf]; omega) (by rw [World.rf]; omega) copied
  | applySend peer =>
    simp only [World.step, World.applySend] at next
    split at next
    · rename_i sending
      cases next
      exact .applySend sending
    · cases next
  | applyDone peer =>
    simp only [World.step, World.applyDone] at next
    split at next
    · rename_i applyEnd _ sending
      cases next
      have shape := World.Step.applyDone (w := w) sending
      by_cases later : applyEnd > (w.nodes peer).rf.lastApplied
      · rw [if_pos later]
        rw [max_eq_left (by rw [World.rf]; omega)] at shape
        exact shape
      · rw [if_neg later]
        rw [max_eq_right (by rw [World.rf]; omega)] at shape
        exact shape
    · cases next
  | crash peer =>
    cases next
    exact .crash

/-- The peers of a cluster of three are written `0`, `1` and `2`. -/
instance neZeroThree : NeZero 3 := ⟨by decide⟩

end DistributedCloud.RaftLab
