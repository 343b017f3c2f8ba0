import DistributedCloud.RaftLab.Proofs.Replicating

/-!
# Log matching

In the runs whose requests are built by leaders, entries of the same term at the same index
stand in logs that are the same up to it: both come from the log of that term. A former leader
that sends a request in a term it does not lead makes the leader of that term drop an entry
that another peer already holds.
-/

namespace DistributedCloud.RaftLab

variable {n : Nat} {Byte Command : Type} [Labgob Byte Command] [Zero Command]

theorem logMatching {w : World n Byte Command}
    (reached : (cluster n Byte Command).ReachableWhen SentByLeader w) {p q : Fin n} {i : Nat}
    {a b : LogEntries Command} (left : (w.rf p).log[i]? = some a)
    (right : (w.rf q).log[i]? = some b) (same : a.term = b.term) :
    ∀ j, j ≤ i → (w.rf p).log[j]? = (w.rf q).log[j]? := by
  obtain ⟨h, recorded⟩ := reached.withHistory History.start History.record
  have coherent := (replicating_reachable recorded).formed.coherent
  have agree := coherent.matching left right same
  intro j le
  exact agree.getElem? le

/-- Peer 1 has taken over the entry of leader 0 after one rejected probe. -/
theorem logMatching_replicated :
    let w := ((cluster 3 (Token Int) Int).guarded SentByLeader).after
      [.election 0, .requestVote 0, .requestVoteReply 0, .start 0 7,
        .heartbeat 0 0, .replicate 0 1, .send 0 1, .appendEntries 0, .appendEntriesReply 0,
        .heartbeat 0 0, .replicate 0 2, .send 0 2, .appendEntries 0]
    (w.rf 1).log = [⟨0, 0⟩, ⟨1, 7⟩] ∧ ∀ j, j ≤ 1 → (w.rf 0).log[j]? = (w.rf 1).log[j]? := by
  intro w
  have here : (w.rf 0).log[1]? = some ⟨1, 7⟩ := by decide +kernel
  have there : (w.rf 1).log[1]? = some ⟨1, 7⟩ := by decide +kernel
  refine ⟨by decide +kernel, ?_⟩
  exact logMatching (Machine.reachableWhen_of_guarded (Machine.reachable_after _)) here there rfl

/-- Peer 0 leads term 1 and has a request to peer 1 still to build when peer 1 wins term 2 and
    replicates command 8 to peer 2. The request that peer 0 then builds carries term 2; peer 1
    accepts it and drops its entry, and goes on to append command 9 in its place. -/
def supersededSender : List (Event 3 Int) :=
  [.election 0, .requestVote 0, .requestVoteReply 0,
    .heartbeat 0 0, .replicate 0 1, .send 0 1, .appendEntries 0, .appendEntriesReply 0,
    .heartbeat 0 0, .replicate 0 2,
    .election 1, .requestVote 1, .requestVoteReply 1, .start 1 8,
    .heartbeat 1 0, .replicate 1 1, .send 1 2, .appendEntries 0, .appendEntriesReply 0,
    .heartbeat 1 0, .replicate 1 2, .send 1 3, .appendEntries 0,
    .send 0 2, .appendEntries 1, .start 1 9]

/-- Peers 1 and 2 hold different entries of term 2 at index 1. -/
theorem logMatching_superseded :
    ¬ ∀ w, (cluster 3 (Token Int) Int).Reachable w →
      ∀ (p q : Fin 3) (i : Nat) (a b : LogEntries Int),
        (w.rf p).log[i]? = some a → (w.rf q).log[i]? = some b → a.term = b.term →
        ∀ j, j ≤ i → (w.rf p).log[j]? = (w.rf q).log[j]? := by
  intro always
  have one : (((cluster 3 (Token Int) Int).after supersededSender).rf 1).log[1]? =
      some ⟨2, 9⟩ := by decide +kernel
  have two : (((cluster 3 (Token Int) Int).after supersededSender).rf 2).log[1]? =
      some ⟨2, 8⟩ := by decide +kernel
  have same := always _ (Machine.reachable_after supersededSender) 1 2 1 _ _ one two rfl 1 le_rfl
  rw [one, two] at same
  cases same

end DistributedCloud.RaftLab
