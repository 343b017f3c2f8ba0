import DistributedCloud.RaftLab.Applier
import DistributedCloud.RaftLab.Proofs.CommitBounds

/-!
# Messages on `applyCh` come in order

Between taking the entries and moving `lastApplied` the loop holds no lock, but nobody else moves
`lastApplied`. So the messages of a round start right behind those of the round before, whatever
the handlers do to the log and to `committedIndex` meanwhile. Each peer of the cluster is such an
instance between two crashes.
-/

namespace DistributedCloud.RaftLab

variable {n : Nat} {Byte Command : Type}

/-- The indices `1, …, k`. -/
def firstIndices (k : Nat) : List Int :=
  (List.range k).map fun i : Nat => (i : Int) + 1

theorem firstIndices_succ (k : Nat) : firstIndices (k + 1) = firstIndices k ++ [(k : Int) + 1] := by
  rw [firstIndices, List.range_succ, List.map_append]
  rfl

/-- The index that the next message gets. -/
def Applier.next (s : Applier Command) : Int :=
  match s.applyLoop with
  | .waiting => s.lastApplied + 1
  | .sending _ next _ => next

/-- What a loop on its round still has to send: the entries up to `applyEnd`, which was the
    commit index at some time. -/
def Applier.OnRound (s : Applier Command) : Prop :=
  match s.applyLoop with
  | .waiting => True
  | .sending applyEnd next rest =>
    s.lastApplied < next ∧ next + rest.length = applyEnd + 1 ∧ ∃ c ∈ s.held, applyEnd ≤ c

/-- What has been sent are the first commands one after another, none of them beyond what was the
    commit index at some time. -/
structure InOrder (s : Applier Command) : Prop where
  nonneg : 0 ≤ s.lastApplied
  indices : s.sent.map ApplyMsg.commandIndex = firstIndices (s.next - 1).toNat
  round : s.OnRound
  held : s.committedIndex ∈ s.held
  bounded : ∀ msg ∈ s.sent, ∃ c ∈ s.held, msg.commandIndex ≤ c

section Loop

variable {s s' : Applier Command}

/-! ## What a step can do -/

/-- The steps of the loop. -/
inductive ApplierStep (s : Applier Command) : Applier Command → Prop
  | handled {log : List (LogEntries Command)} {committedIndex : Int} :
      ApplierStep s (s.handle log committedIndex)
  | took {entries : List (LogEntries Command)} (waiting : s.applyLoop = .waiting)
      (behind : s.lastApplied < s.committedIndex)
      (length : s.lastApplied + 1 + entries.length = s.committedIndex + 1) :
      ApplierStep s
        { s with applyLoop := .sending s.committedIndex (s.lastApplied + 1) entries }
  | sent {applyEnd next : Int} {entry : LogEntries Command} {rest : List (LogEntries Command)}
      (sending : s.applyLoop = .sending applyEnd next (entry :: rest)) :
      ApplierStep s
        { s with
          applyLoop := .sending applyEnd (next + 1) rest
          sent := s.sent ++ [⟨true, entry.command, next⟩] }
  | done {applyEnd next : Int} (sending : s.applyLoop = .sending applyEnd next []) :
      ApplierStep s { s with lastApplied := max applyEnd s.lastApplied, applyLoop := .waiting }

theorem take_cases {beyond : List (LogEntries Command)} (taken : s.take beyond = some s') :
    ApplierStep s s' := by
  unfold Applier.take at taken
  split at taken
  · cases taken
  · rename_i waiting
    split at taken
    · cases taken
    · rename_i behind
      simp only [Option.bind_eq_bind, Option.bind_eq_some_iff] at taken
      obtain ⟨upTo, cut, entries, rest, returned⟩ := taken
      obtain ⟨low, high, rfl⟩ := goSliceTo_eq_some.mp cut
      obtain ⟨start, inside, rfl⟩ := goSliceFrom_eq_some.mp rest
      cases returned
      refine .took waiting (by omega) ?_
      rw [List.length_take] at inside
      rw [List.length_drop, List.length_take]
      omega

theorem send_cases (sent : s.send = some s') : ApplierStep s s' := by
  unfold Applier.send at sent
  split at sent
  · rename_i sending
    cases sent
    exact .sent sending
  · cases sent

theorem done_cases (finished : s.done = some s') : ApplierStep s s' := by
  unfold Applier.done at finished
  split at finished
  · rename_i applyEnd _ sending
    cases finished
    have moved : (if applyEnd > s.lastApplied then applyEnd else s.lastApplied) =
        max applyEnd s.lastApplied := by
      split <;> omega
    rw [moved]
    exact .done sending
  · cases finished

theorem applierStep_of_step {e : ApplierEvent Command} (next : s.step e = some s') :
    ApplierStep s s' := by
  cases e with
  | handle log committedIndex =>
    cases next
    exact .handled
  | take beyond => exact take_cases next
  | send => exact send_cases next
  | done => exact done_cases next

/-! ## The invariant -/

theorem inOrder_step (inOrder : InOrder s) (step : ApplierStep s s') : InOrder s' := by
  obtain ⟨nonneg, indices, round, held, bounded⟩ := inOrder
  cases step with
  | @handled log committedIndex =>
    have kept : ∀ {index : Int}, (∃ c ∈ s.held, index ≤ c) →
        ∃ c ∈ s.held ++ [committedIndex], index ≤ c := by
      rintro index ⟨c, old, below⟩
      exact ⟨c, List.mem_append_left _ old, below⟩
    refine ⟨nonneg, indices, ?_, List.mem_append_right _ (List.mem_singleton_self _), ?_⟩
    · cases loop : s.applyLoop with
      | waiting =>
        rw [Applier.OnRound, Applier.handle, loop]
        trivial
      | sending applyEnd next rest =>
        rw [Applier.OnRound, loop] at round
        rw [Applier.OnRound, Applier.handle, loop]
        exact ⟨round.1, round.2.1, kept round.2.2⟩
    · exact fun msg member => kept (bounded msg member)
  | took waiting behind length =>
    refine ⟨nonneg, ?_, ⟨lt_add_one _, length, s.committedIndex, held, le_refl _⟩, held, bounded⟩
    rw [indices, Applier.next, waiting]
    rfl
  | @sent applyEnd next entry rest sending =>
    rw [Applier.next, sending] at indices
    rw [Applier.OnRound, sending] at round
    obtain ⟨further, length, known⟩ := round
    rw [List.length_cons] at length
    push_cast at length
    refine ⟨nonneg, ?_, ⟨show s.lastApplied < next + 1 by omega, by omega, known⟩, held, ?_⟩
    · have position : (next + 1 - 1).toNat = (next - 1).toNat + 1 := by omega
      have index : (((next - 1).toNat : Nat) : Int) + 1 = next := by omega
      rw [List.map_append, indices]
      change firstIndices (next - 1).toNat ++ [next] = firstIndices (next + 1 - 1).toNat
      rw [position, firstIndices_succ, index]
    · intro msg member
      rcases List.mem_append.mp member with old | new
      · exact bounded msg old
      · obtain ⟨c, mem, below⟩ := known
        rw [List.mem_singleton.mp new]
        exact ⟨c, mem, show next ≤ c by omega⟩
  | @done applyEnd next sending =>
    rw [Applier.next, sending] at indices
    rw [Applier.OnRound, sending] at round
    obtain ⟨further, length, -⟩ := round
    rw [List.length_nil] at length
    refine ⟨le_max_of_le_right nonneg, ?_, trivial, held, bounded⟩
    rw [indices]
    change firstIndices (next - 1).toNat = firstIndices (max applyEnd s.lastApplied + 1 - 1).toNat
    congr 1
    omega

theorem inOrder_reachable {log : List (LogEntries Command)} (reached : (applier log).Reachable s) :
    InOrder s := by
  refine Machine.ReachableWhen.invariant (I := InOrder) ?_ ?_ reached
  · exact ⟨le_refl 0, rfl, trivial, List.mem_singleton_self _, by simp [applier]⟩
  · intro s e s' _ inOrder _ next
    exact inOrder_step inOrder (applierStep_of_step next)

/-- However the handlers move the log and `committedIndex`, the messages sent have the indices
    `1, …, k`, and none is above every commit index so far. -/
theorem delivery_inOrder {log : List (LogEntries Command)} (reached : (applier log).Reachable s) :
    (∃ k, s.sent.map ApplyMsg.commandIndex = firstIndices k) ∧
      ∀ msg ∈ s.sent, ∃ c ∈ s.held, msg.commandIndex ≤ c := by
  have inOrder := inOrder_reachable reached
  exact ⟨⟨_, inOrder.indices⟩, inOrder.bounded⟩

/-- Two entries are taken, and before the second is sent a handler moves `committedIndex` back
    and cuts the log. The next round starts behind the second all the same. -/
def movedBack : Applier Int :=
  (applier [⟨0, 0⟩]).after
    [.handle [⟨0, 0⟩, ⟨1, 7⟩, ⟨1, 8⟩] 2, .take [], .send, .handle [⟨0, 0⟩] 1, .send, .done,
      .handle [⟨0, 0⟩, ⟨2, 9⟩, ⟨2, 10⟩, ⟨2, 11⟩] 3, .take [], .send, .done]

theorem delivery_inOrder_movedBack :
    movedBack.sent.map ApplyMsg.command = [7, 8, 11] ∧
      (∃ k, movedBack.sent.map ApplyMsg.commandIndex = firstIndices k) ∧
      ∀ msg ∈ movedBack.sent, ∃ c ∈ movedBack.held, msg.commandIndex ≤ c :=
  ⟨by decide +kernel, delivery_inOrder (Machine.reachable_after _)⟩

end Loop

/-! ## The peers of the cluster -/

section Cluster

variable [Labgob Byte Command] [Zero Command]

/-- What a peer has sent, in all its incarnations. -/
def World.appliedBy (w : World n Byte Command) (peer : Fin n) : List (Applied n Command) :=
  w.applied.filter fun a => a.peer = peer

/-- What incarnation `epoch` of a peer has sent. -/
def World.messages (w : World n Byte Command) (peer : Fin n) (epoch : Nat) :
    List (ApplyMsg Command) :=
  ((w.appliedBy peer).filter fun a => a.epoch = epoch).map Applied.msg

/-- A peer is an instance whose loop has sent the messages of the current incarnation. -/
structure Incarnation (w : World n Byte Command) (peer : Fin n) : Prop where
  applier : ∃ log s, (applier log).Reachable s ∧ s.log = (w.rf peer).log ∧
    s.committedIndex = (w.rf peer).committedIndex ∧ s.lastApplied = (w.rf peer).lastApplied ∧
    s.applyLoop = (w.nodes peer).applyLoop ∧ s.sent = w.messages peer (w.nodes peer).epoch
  past : ∀ a ∈ w.appliedBy peer, a.epoch ≤ (w.nodes peer).epoch

/-- A step of a handler: the loop and its index stay. -/
structure Quiet (nd nd' : Node n Byte Command) : Prop where
  loop : nd'.applyLoop = nd.applyLoop
  epoch : nd'.epoch = nd.epoch
  lastApplied : nd'.rf.lastApplied = nd.rf.lastApplied

variable {w w' : World n Byte Command} {e : Event n Command} {peer : Fin n}

omit [Labgob Byte Command] [Zero Command] in
theorem quiet_setNode {nd : Node n Byte Command} (quiet : Quiet (w.nodes peer) nd) (q : Fin n) :
    Quiet (w.nodes q) ((w.setNode peer nd).nodes q) :=
  setNode_forall w peer nd (P := fun q nd' => Quiet (w.nodes q) nd')
    (fun _ => ⟨rfl, rfl, rfl⟩) quiet q

omit [Labgob Byte Command] [Zero Command] in
theorem Incarnation.handle (incarnation : Incarnation w peer)
    (quiet : Quiet (w.nodes peer) (w'.nodes peer))
    (applied : w'.appliedBy peer = w.appliedBy peer) : Incarnation w' peer := by
  obtain ⟨⟨log, s, reached, -, -, lastApplied, loop, sent⟩, past⟩ := incarnation
  refine ⟨⟨log, s.handle (w'.rf peer).log (w'.rf peer).committedIndex, ?_, rfl, rfl, ?_, ?_, ?_⟩, ?_⟩
  · exact reached.step (e := .handle _ _) trivial rfl
  · exact lastApplied.trans quiet.lastApplied.symm
  · exact loop.trans quiet.loop.symm
  · rw [World.messages, applied, quiet.epoch]
    exact sent
  · rw [applied, quiet.epoch]
    exact past

omit [Labgob Byte Command] [Zero Command] in
theorem Incarnation.same (incarnation : Incarnation w peer) (node : w'.nodes peer = w.nodes peer)
    (applied : w'.appliedBy peer = w.appliedBy peer) : Incarnation w' peer :=
  incarnation.handle (by rw [node]; exact ⟨rfl, rfl, rfl⟩) applied

omit [Labgob Byte Command] [Zero Command] in
theorem Incarnation.take (incarnation : Incarnation w peer)
    {beyond entries : List (LogEntries Command)} (waiting : (w.nodes peer).applyLoop = .waiting)
    (behind : (w.rf peer).lastApplied < (w.rf peer).committedIndex)
    (inside : (w.rf peer).committedIndex < ((w.rf peer).log ++ beyond).length)
    (copied : entries = (((w.rf peer).log ++ beyond).take
      ((w.rf peer).committedIndex + 1).toNat).drop ((w.rf peer).lastApplied + 1).toNat) :
    Incarnation (w.setNode peer
      { w.nodes peer with
        applyLoop := .sending (w.rf peer).committedIndex ((w.rf peer).lastApplied + 1) entries })
      peer := by
  obtain ⟨⟨log, s, reached, sameLog, committed, lastApplied, loop, sent⟩, past⟩ := incarnation
  have nonneg := (inOrder_reachable reached).nonneg
  have cut : goSliceTo (s.log ++ beyond) (s.committedIndex + 1) =
      some ((s.log ++ beyond).take (s.committedIndex + 1).toNat) := by
    refine goSliceTo_eq_some.mpr ⟨by omega, ?_, rfl⟩
    rw [sameLog]
    omega
  have rest : goSliceFrom ((s.log ++ beyond).take (s.committedIndex + 1).toNat)
      (s.lastApplied + 1) = some entries := by
    refine goSliceFrom_eq_some.mpr ⟨by omega, ?_, ?_⟩
    · rw [List.length_take, sameLog]
      omega
    · rw [copied, sameLog, committed, lastApplied]
  have taken : s.take beyond =
      some { s with applyLoop := .sending s.committedIndex (s.lastApplied + 1) entries } := by
    have due : ¬ s.lastApplied ≥ s.committedIndex := by omega
    rw [waiting] at loop
    simp [Applier.take, loop, due, cut, rest]
  refine ⟨⟨log, _, reached.step (e := .take beyond) trivial taken, ?_, ?_, ?_, ?_, ?_⟩, ?_⟩
  · simpa only [World.rf, setNode_nodes_self] using sameLog
  · simpa only [World.rf, setNode_nodes_self] using committed
  · simpa only [World.rf, setNode_nodes_self] using lastApplied
  · rw [setNode_nodes_self, committed, lastApplied]
  · rw [setNode_nodes_self]
    exact sent
  · rw [setNode_nodes_self]
    exact past

omit [Labgob Byte Command] [Zero Command] in
theorem Incarnation.send (incarnation : Incarnation w peer) {applyEnd next : Int}
    {entry : LogEntries Command} {rest : List (LogEntries Command)}
    (sending : (w.nodes peer).applyLoop = .sending applyEnd next (entry :: rest)) :
    Incarnation
      { w.setNode peer { w.nodes peer with applyLoop := .sending applyEnd (next + 1) rest } with
        applied := w.applied ++ [⟨peer, (w.nodes peer).epoch, ⟨true, entry.command, next⟩⟩] }
      peer := by
  obtain ⟨⟨log, s, reached, sameLog, committed, lastApplied, loop, sent⟩, past⟩ := incarnation
  have step : s.send = some { s with
      applyLoop := .sending applyEnd (next + 1) rest
      sent := s.sent ++ [⟨true, entry.command, next⟩] } := by
    rw [sending] at loop
    simp [Applier.send, loop]
  let message : Applied n Command := ⟨peer, (w.nodes peer).epoch, ⟨true, entry.command, next⟩⟩
  have more : (w.applied ++ [message]).filter (fun a => a.peer = peer) =
      w.appliedBy peer ++ [message] := by
    simp [World.appliedBy, List.filter_append, message]
  refine ⟨⟨log, _, reached.step (e := .send) trivial step, ?_, ?_, ?_, ?_, ?_⟩, ?_⟩
  · simpa only [World.rf, setNode_nodes_self] using sameLog
  · simpa only [World.rf, setNode_nodes_self] using committed
  · simpa only [World.rf, setNode_nodes_self] using lastApplied
  · rw [setNode_nodes_self]
  · rw [World.messages, World.appliedBy, more, setNode_nodes_self, sent]
    simp [World.messages, List.filter_append, message]
  · intro a member
    rw [World.appliedBy, more] at member
    rw [setNode_nodes_self]
    rcases List.mem_append.mp member with old | new
    · exact past a old
    · rw [List.mem_singleton.mp new]

omit [Labgob Byte Command] [Zero Command] in
theorem Incarnation.done (incarnation : Incarnation w peer) {applyEnd next : Int}
    (sending : (w.nodes peer).applyLoop = .sending applyEnd next []) :
    Incarnation (w.setNode peer
      { w.nodes peer with
        rf := { w.rf peer with lastApplied := max applyEnd (w.rf peer).lastApplied }
        applyLoop := .waiting }) peer := by
  obtain ⟨⟨log, s, reached, sameLog, committed, lastApplied, loop, sent⟩, past⟩ := incarnation
  have step : s.done = some { s with
      lastApplied := if applyEnd > s.lastApplied then applyEnd else s.lastApplied
      applyLoop := .waiting } := by
    rw [sending] at loop
    simp [Applier.done, loop]
  refine ⟨⟨log, _, reached.step (e := .done) trivial step, ?_, ?_, ?_, ?_, ?_⟩, ?_⟩
  · simpa only [World.rf, setNode_nodes_self] using sameLog
  · simpa only [World.rf, setNode_nodes_self] using committed
  · simp only [World.rf, setNode_nodes_self, lastApplied]
    split <;> omega
  · rw [setNode_nodes_self]
  · rw [setNode_nodes_self]
    exact sent
  · rw [setNode_nodes_self]
    exact past

/-- A restarted peer is a new instance that has sent nothing. -/
theorem Incarnation.crash (incarnation : Incarnation w peer) (persister : Persister Byte) :
    Incarnation (w.setNode peer (Node.boot peer persister ((w.nodes peer).epoch + 1))) peer := by
  refine ⟨⟨(make peer persister : Raft n Byte Command).log, _, Machine.ReachableWhen.init, ?_, ?_,
    ?_, ?_, ?_⟩, ?_⟩
  · simp only [World.rf, setNode_nodes_self, Node.boot, RaftLab.applier]
  · simp only [World.rf, setNode_nodes_self, Node.boot, RaftLab.applier, make_committedIndex]
  · simp only [World.rf, setNode_nodes_self, Node.boot, RaftLab.applier, make_lastApplied]
  · simp only [setNode_nodes_self, Node.boot, RaftLab.applier]
  · have nothing : (w.appliedBy peer).filter
        (fun a => decide (a.epoch = (w.nodes peer).epoch + 1)) = [] := by
      rw [List.filter_eq_nil_iff]
      intro a member same
      have := incarnation.past a member
      simp only [decide_eq_true_eq] at same
      omega
    rw [World.messages, setNode_nodes_self]
    change [] = (((w.appliedBy peer).filter _).map Applied.msg)
    rw [Node.boot, nothing]
    rfl
  · intro a member
    rw [setNode_nodes_self]
    exact le_trans (incarnation.past a member) (Nat.le_succ _)

theorem incarnation_step (step : w.Step e w') (all : ∀ q, Incarnation w q) (q : Fin n) :
    Incarnation w' q := by
  cases step with
  | @applyTake peer beyond entries waiting behind inside copied =>
    by_cases same : q = peer
    · subst same
      exact (all q).take waiting behind inside copied
    · exact (all q).same (setNode_nodes_ne _ _ _ same) rfl
  | @applySend peer applyEnd next entry rest sending =>
    by_cases same : q = peer
    · subst same
      exact (all q).send sending
    · refine (all q).same (setNode_nodes_ne _ _ _ same) ?_
      simp [World.appliedBy, List.filter_append, Ne.symm same]
  | @applyDone peer applyEnd next sending =>
    by_cases same : q = peer
    · subst same
      exact (all q).done sending
    · exact (all q).same (setNode_nodes_ne _ _ _ same) rfl
  | @crash peer =>
    by_cases same : q = peer
    · subst same
      exact (all q).crash _
    · exact (all q).same (setNode_nodes_ne _ _ _ same) rfl
  | election | heartbeatEnds | heartbeat | replicate | send =>
    refine (all q).handle (quiet_setNode ?_ q) rfl
    exact ⟨rfl, rfl, rfl⟩
  | @start peer command =>
    have kept := (start_advances (w.rf peer) command).lastApplied
    refine (all q).handle (quiet_setNode ?_ q) rfl
    exact ⟨rfl, rfl, kept⟩
  | requestVote _ _ outcome =>
    have kept := (requestVote_advances outcome).lastApplied
    refine (all q).handle (quiet_setNode ?_ q) rfl
    exact ⟨rfl, rfl, kept⟩
  | requestVoteReply _ _ _ outcome =>
    have kept := (requestVoteReply_advances outcome).lastApplied
    refine (all q).handle (quiet_setNode ?_ q) rfl
    exact ⟨rfl, rfl, kept⟩
  | appendEntries _ _ outcome =>
    have kept := appendEntries_lastApplied outcome
    refine (all q).handle (quiet_setNode ?_ q) rfl
    exact ⟨rfl, rfl, kept⟩
  | appendEntriesReply _ _ _ outcome =>
    have kept := (appendEntriesReply_advances outcome).lastApplied
    refine (all q).handle (quiet_setNode ?_ q) rfl
    exact ⟨rfl, rfl, kept⟩

/-- In every run of the cluster each peer is an instance of the apply loop, whose handlers are the
    handlers of `RequestVote` and `AppendEntries` and the rest of the peer. -/
theorem incarnation_reachable (reached : (cluster n Byte Command).Reachable w) (peer : Fin n) :
    Incarnation w peer := by
  refine Machine.ReachableWhen.invariant (I := fun w => ∀ peer, Incarnation w peer) ?_ ?_
    reached peer
  · intro peer
    refine ⟨⟨_, _, Machine.ReachableWhen.init (m := applier [sentinel]), rfl, rfl, rfl, rfl, rfl⟩, ?_⟩
    intro a member
    cases member
  · intro w e w' before all _ next
    exact incarnation_step (reachable_step before next) all

theorem cluster_delivers_inOrder (reached : (cluster n Byte Command).Reachable w) (peer : Fin n) :
    ∃ k, (w.messages peer (w.nodes peer).epoch).map ApplyMsg.commandIndex = firstIndices k := by
  obtain ⟨log, s, instanceReached, -, -, -, -, sent⟩ := (incarnation_reachable reached peer).applier
  exact ⟨_, by rw [← sent]; exact (inOrder_reachable instanceReached).indices⟩

end Cluster

end DistributedCloud.RaftLab
