import DistributedCloud.RaftLab.Proofs.Peer
import Mathlib.Order.Bounds.Defs

/-!
# The commit rule

`checkAndCommitLogs` looks at the indices above `committedIndex` from the last one down and
stops at the first that the rule allows. The first hit is the greatest, so the loop computes a
maximum, and a larger `matchIndex` can only raise it.
-/

namespace DistributedCloud.RaftLab

variable {n : Nat} {Byte Command : Type}

/-- `checkAndCommitLogs` may move `committedIndex` up to `index`. -/
structure Commits (rf : Raft n Byte Command) (index : Int) : Prop where
  advances : rf.committedIndex < index
  inside : index ≤ lastLogIndex rf.log
  entry : ∃ e, goIndex rf.log index = some e ∧ e.term = rf.currentTerm
  majority : n / 2 + 1 ≤ rf.replicas index

/-- There is nothing to read below index 0 or in an empty log. -/
def Raft.Unreadable (rf : Raft n Byte Command) : Prop :=
  rf.committedIndex < -1 ∨ (rf.committedIndex < 0 ∧ rf.log = [])

instance (rf : Raft n Byte Command) : Decidable rf.Unreadable :=
  inferInstanceAs (Decidable (_ ∨ (_ ∧ _)))

section

variable {rf : Raft n Byte Command}

/-! ## The loop -/

theorem goIndex_of_le_last {log : List (LogEntries Command)} {index : Int} (nonempty : log ≠ [])
    (lower : 0 ≤ index) (upper : index ≤ lastLogIndex log) : ∃ e, goIndex log index = some e := by
  rw [lastLogIndex_of_ne_nil nonempty] at upper
  exact Option.isSome_iff_exists.mp (goIndex_isSome.mpr (by omega))

/-- An index the rule does not allow is passed over. -/
theorem commitScan_skip {index : Int} {e : LogEntries Command} (rounds : Nat)
    (found : goIndex rf.log index = some e) (above : rf.committedIndex < index)
    (upper : index ≤ lastLogIndex rf.log) (refused : ¬ Commits rf index) :
    rf.commitScan (rounds + 1) index = rf.commitScan rounds (index - 1) := by
  simp only [Raft.commitScan, found, Option.bind_eq_bind, Option.bind_some]
  split
  · rfl
  · rename_i sameTerm
    rw [if_neg]
    exact fun majority => refused ⟨above, upper, ⟨e, found, not_not.mp sameTerm⟩, majority⟩

/-- The loop stops at the greatest index that the rule allows. -/
theorem commitScan_hit {k : Int} (greatest : IsGreatest {index | Commits rf index} k) :
    ∀ (rounds : Nat) (index : Int), index - rounds = rf.committedIndex →
      index ≤ lastLogIndex rf.log → k ≤ index →
      rf.commitScan rounds index = some { rf with committedIndex := k } := by
  obtain ⟨allowed, largest⟩ := greatest
  obtain ⟨e, found, term⟩ := allowed.entry
  obtain ⟨lower, length⟩ := goIndex_isSome.mp (by rw [found]; rfl : (goIndex rf.log k).isSome)
  have nonempty : rf.log ≠ [] := List.length_pos_iff.mp (by omega)
  intro rounds
  induction rounds with
  | zero =>
    intro index start _ reached
    have := allowed.advances
    omega
  | succ rounds ih =>
    intro index start upper reached
    rcases eq_or_lt_of_le reached with rfl | above
    · simp [Raft.commitScan, found, term, allowed.majority]
    · have refused : ¬ Commits rf index := fun other => absurd (largest other) (by omega)
      obtain ⟨other, read⟩ := goIndex_of_le_last nonempty (by omega) upper
      rw [commitScan_skip rounds read (by omega) upper refused]
      exact ih (index - 1) (by omega) (by omega) (by omega)

/-- Where the rule allows nothing the loop runs to its end and changes nothing. -/
theorem commitScan_miss (refused : ∀ k, ¬ Commits rf k) (readable : ¬ rf.Unreadable) :
    ∀ (rounds : Nat) (index : Int), index - rounds = rf.committedIndex →
      index ≤ lastLogIndex rf.log → rf.commitScan rounds index = some rf := by
  intro rounds
  induction rounds with
  | zero => intro _ _ _; rfl
  | succ rounds ih =>
    intro index start upper
    have lower : -1 ≤ rf.committedIndex := not_lt.mp fun low => readable (Or.inl low)
    have nonempty : rf.log ≠ [] := by
      intro empty
      rw [empty] at upper
      have last : lastLogIndex ([] : List (LogEntries Command)) = 0 := rfl
      exact readable (Or.inr ⟨by omega, empty⟩)
    obtain ⟨e, found⟩ := goIndex_of_le_last nonempty (by omega) upper
    rw [commitScan_skip rounds found (by omega) upper (refused index)]
    exact ih (index - 1) (by omega) (by omega)

/-- From an index below 0 on the loop reads outside the log. -/
theorem commitScan_panics (refused : ∀ k, ¬ Commits rf k) (unreadable : rf.Unreadable) :
    ∀ (rounds : Nat) (index : Int), 0 < rounds → index - rounds = rf.committedIndex →
      index ≤ lastLogIndex rf.log → rf.commitScan rounds index = none := by
  intro rounds
  induction rounds with
  | zero => intro _ some; omega
  | succ rounds ih =>
    intro index _ start upper
    cases read : goIndex rf.log index with
    | none => simp [Raft.commitScan, read]
    | some e =>
      obtain ⟨lower, length⟩ := goIndex_isSome.mp (by rw [read]; rfl : (goIndex rf.log index).isSome)
      rw [commitScan_skip rounds read (by omega) upper (refused index)]
      refine ih (index - 1) ?_ (by omega) (by omega)
      rcases unreadable with low | ⟨-, empty⟩
      · omega
      · rw [empty] at length
        exact absurd length (by simp; omega)

/-! ## `checkAndCommitLogs` -/

/-- What the rule allows is bounded by the end of the log. -/
theorem exists_greatest_commits (some : ∃ k, Commits rf k) :
    ∃ k, IsGreatest {index | Commits rf index} k := by
  obtain ⟨k, allowed, largest⟩ :=
    Int.exists_greatest_of_bdd ⟨lastLogIndex rf.log, fun _ allowed => allowed.inside⟩ some
  exact ⟨k, allowed, fun _ other => largest _ other⟩

theorem checkAndCommitLogs_of_greatest {k : Int}
    (greatest : IsGreatest {index | Commits rf index} k) :
    rf.checkAndCommitLogs = some { rf with committedIndex := k } := by
  have advances := greatest.1.advances
  have inside := greatest.1.inside
  refine commitScan_hit greatest _ _ ?_ (le_refl _) inside
  rw [Raft.getLastLogIndex]
  omega

theorem checkAndCommitLogs_of_none (refused : ∀ k, ¬ Commits rf k) :
    rf.checkAndCommitLogs = if rf.Unreadable then none else some rf := by
  have last := lastLogIndex_nonneg rf.log
  unfold Raft.checkAndCommitLogs
  split
  · rename_i unreadable
    have low : rf.committedIndex < 0 := by
      rcases unreadable with low | ⟨low, -⟩
      · omega
      · exact low
    refine commitScan_panics refused unreadable _ _ ?_ ?_ (le_refl _)
    · rw [Raft.getLastLogIndex]
      omega
    · rw [Raft.getLastLogIndex]
      omega
  · rename_i readable
    rcases Int.le_total (lastLogIndex rf.log) rf.committedIndex with nothing | some
    · rw [Raft.getLastLogIndex, Int.toNat_of_nonpos (by omega)]
      rfl
    · refine commitScan_miss refused readable _ _ ?_ (le_refl _)
      rw [Raft.getLastLogIndex]
      omega

theorem checkAndCommitLogs_greatest {rf' : Raft n Byte Command}
    (checked : rf.checkAndCommitLogs = some rf') :
    (rf' = rf ∧ ∀ k, ¬ Commits rf k) ∨
      ∃ k, IsGreatest {index | Commits rf index} k ∧ rf' = { rf with committedIndex := k } := by
  by_cases some : ∃ k, Commits rf k
  · obtain ⟨k, greatest⟩ := exists_greatest_commits some
    rw [checkAndCommitLogs_of_greatest greatest, Option.some.injEq] at checked
    exact Or.inr ⟨k, greatest, checked.symm⟩
  · have refused : ∀ k, ¬ Commits rf k := fun k allowed => some ⟨k, allowed⟩
    rw [checkAndCommitLogs_of_none refused] at checked
    split at checked
    · cases checked
    · cases checked
      exact Or.inl ⟨rfl, refused⟩

theorem checkAndCommitLogs_cases {rf' : Raft n Byte Command}
    (checked : rf.checkAndCommitLogs = some rf') :
    rf' = rf ∨ ∃ k, Commits rf k ∧ rf' = { rf with committedIndex := k } := by
  rcases checkAndCommitLogs_greatest checked with ⟨same, -⟩ | ⟨k, greatest, moved⟩
  · exact Or.inl same
  · exact Or.inr ⟨k, greatest.1, moved⟩

/-- `checkAndCommitLogs` moves nothing but the commit index. -/
theorem checkAndCommitLogs_frame {rf' : Raft n Byte Command}
    (checked : rf.checkAndCommitLogs = some rf') : ∃ k, rf' = { rf with committedIndex := k } := by
  rcases checkAndCommitLogs_cases checked with same | ⟨k, -, moved⟩
  · exact ⟨rf.committedIndex, same⟩
  · exact ⟨k, moved⟩

theorem checkAndCommitLogs_returns (nonneg : 0 ≤ rf.committedIndex) :
    ∃ rf', rf.checkAndCommitLogs = some rf' := by
  by_cases some : ∃ k, Commits rf k
  · obtain ⟨k, greatest⟩ := exists_greatest_commits some
    exact ⟨_, checkAndCommitLogs_of_greatest greatest⟩
  · refine ⟨rf, ?_⟩
    rw [checkAndCommitLogs_of_none fun k allowed => some ⟨k, allowed⟩, if_neg]
    rintro (low | ⟨low, -⟩)
    · omega
    · omega

/-! ## Monotonicity -/

theorem replicas_mono {matchIndex : Fin n → Int} (more : ∀ peer, rf.matchIndex peer ≤ matchIndex peer)
    (index : Int) :
    rf.replicas index ≤ ({ rf with matchIndex := matchIndex } : Raft n Byte Command).replicas index := by
  refine Nat.add_le_add_left (List.countP_mono_left fun peer _ counted => ?_) 1
  obtain ⟨other, holds⟩ := of_decide_eq_true counted
  exact decide_eq_true ⟨other, le_trans holds (more peer)⟩

theorem Commits.mono {matchIndex : Fin n → Int}
    (more : ∀ peer, rf.matchIndex peer ≤ matchIndex peer) {k : Int} (allowed : Commits rf k) :
    Commits ({ rf with matchIndex := matchIndex } : Raft n Byte Command) k :=
  ⟨allowed.advances, allowed.inside, allowed.entry,
    le_trans allowed.majority (replicas_mono more k)⟩

theorem checkAndCommitLogs_mono {rf' : Raft n Byte Command} {matchIndex : Fin n → Int}
    (more : ∀ peer, rf.matchIndex peer ≤ matchIndex peer)
    (checked : rf.checkAndCommitLogs = some rf') :
    ∃ rf'', ({ rf with matchIndex := matchIndex } : Raft n Byte Command).checkAndCommitLogs =
      some rf'' ∧ rf'.committedIndex ≤ rf''.committedIndex := by
  by_cases some : ∃ k, Commits ({ rf with matchIndex := matchIndex } : Raft n Byte Command) k
  · obtain ⟨k, greatest⟩ := exists_greatest_commits some
    refine ⟨_, checkAndCommitLogs_of_greatest greatest, ?_⟩
    rcases checkAndCommitLogs_cases checked with rfl | ⟨k', allowed, rfl⟩
    · exact le_of_lt greatest.1.advances
    · exact greatest.2 (allowed.mono more)
  · have refused : ∀ k, ¬ Commits ({ rf with matchIndex := matchIndex } : Raft n Byte Command) k :=
      fun k allowed => some ⟨k, allowed⟩
    have refusedBefore : ∀ k, ¬ Commits rf k := fun k allowed => refused k (allowed.mono more)
    rw [checkAndCommitLogs_of_none refusedBefore] at checked
    rw [checkAndCommitLogs_of_none refused]
    split at checked
    · cases checked
    · rename_i readable
      cases checked
      exact ⟨_, if_neg readable, le_refl _⟩

end

/-- The commit rule. The index found is the greatest that the rule allows, and with none allowed
    nothing changes; only there, and only with a negative `committedIndex`, can the loop leave
    the log. A larger `matchIndex` never gives a smaller result, and the entry that is counted
    has the leader's own term. -/
theorem commitRule (rf : Raft n Byte Command) :
    (∀ k, IsGreatest {index | Commits rf index} k →
      rf.checkAndCommitLogs = some { rf with committedIndex := k }) ∧
    ((∃ k, Commits rf k) → ∃ k, IsGreatest {index | Commits rf index} k) ∧
    ((∀ k, ¬ Commits rf k) →
      rf.checkAndCommitLogs = if rf.Unreadable then none else some rf) ∧
    (∀ rf' matchIndex, rf.checkAndCommitLogs = some rf' →
      (∀ peer, rf.matchIndex peer ≤ matchIndex peer) →
      ∃ rf'', ({ rf with matchIndex := matchIndex } : Raft n Byte Command).checkAndCommitLogs =
        some rf'' ∧ rf'.committedIndex ≤ rf''.committedIndex) ∧
    ∀ rf', rf.checkAndCommitLogs = some rf' → rf'.committedIndex ≠ rf.committedIndex →
      ∃ e, goIndex rf.log rf'.committedIndex = some e ∧ e.term = rf.currentTerm := by
  refine ⟨fun k => checkAndCommitLogs_of_greatest, exists_greatest_commits,
    checkAndCommitLogs_of_none, ?_, ?_⟩
  · intro rf' matchIndex checked more
    exact checkAndCommitLogs_mono more checked
  · intro rf' checked moved
    rcases checkAndCommitLogs_cases checked with rfl | ⟨k, allowed, rfl⟩
    · exact absurd rfl moved
    · exact allowed.entry

/-- A leader of term 4 whose log also holds an entry of term 2. Peer 1 has both entries. -/
def twoTermLeader : Raft 3 Unit Nat where
  me := 0
  persister := ⟨[]⟩
  whoami := .leader
  currentTerm := 4
  votedFor := 0
  log := [⟨0, 0⟩, ⟨2, 7⟩, ⟨4, 8⟩]
  committedIndex := 0
  lastApplied := 0
  nextIndex := fun _ => 3
  matchIndex := fun peer => if peer = 1 then 2 else 0

theorem commitRule_twoTermLeader :
    IsGreatest {index | Commits twoTermLeader index} 2 ∧
      twoTermLeader.checkAndCommitLogs = some { twoTermLeader with committedIndex := 2 } ∧
      ∃ e, goIndex twoTermLeader.log 2 = some e ∧ e.term = 4 := by
  have greatest : IsGreatest {index | Commits twoTermLeader index} 2 :=
    ⟨⟨by decide, by decide, ⟨_, rfl, rfl⟩, by decide⟩, fun _ allowed => allowed.inside⟩
  obtain ⟨found, -, -, -, ownTerm⟩ := commitRule twoTermLeader
  exact ⟨greatest, found 2 greatest, ownTerm _ (found 2 greatest) (by decide)⟩

end DistributedCloud.RaftLab
