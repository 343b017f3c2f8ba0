import DistributedCloud.RaftLab.Proofs.CommitRule

/-!
# What log replication can do at one peer

The outcomes of `AppendEntries` and of the two parts of `processAppendEntriesReply`, with the
scans they are made of.
-/

namespace DistributedCloud.RaftLab

variable {n : Nat} {Byte Command : Type}

/-! ## The scans of `AppendEntries` -/

/-- The backward scan stops at the first index of the run of `conflictTerm` that ends just
    below `k`. -/
theorem conflictScan_spec (log : List (LogEntries Command)) (conflictTerm : Int) (k : Nat) :
    ∃ c : Nat, conflictScan log conflictTerm k = some (c : Int) ∧ c ≤ k ∧
      (∀ i : Nat, c ≤ i → i < k → termAt log i = conflictTerm) ∧
      (∀ i : Nat, i + 1 = c → termAt log i ≠ conflictTerm) := by
  induction k with
  | zero => exact ⟨0, rfl, le_refl 0, by omega, by omega⟩
  | succ k ih =>
    by_cases differs : conflictTerm ≠ termAt log k
    · refine ⟨k + 1, ?_, le_refl _, by omega, ?_⟩
      · simp [conflictScan, logTerm_eq, differs]
      · intro i hi
        obtain rfl : i = k := by omega
        exact fun same => differs same.symm
    · obtain ⟨c, scanned, below, run, stop⟩ := ih
      have same : conflictTerm = termAt log k := not_not.mp differs
      refine ⟨c, ?_, by omega, ?_, stop⟩
      · simp [conflictScan, logTerm_eq, same.symm, scanned]
      · intro i hc hi
        rcases Nat.lt_or_ge i k with inside | outside
        · exact run i hc inside
        · obtain rfl : i = k := by omega
          exact same.symm

theorem conflictIndexOf_returns (log : List (LogEntries Command)) (conflictTerm prev : Int) :
    ∃ c, conflictIndexOf log conflictTerm prev = some c := by
  unfold conflictIndexOf
  split
  · exact ⟨prev, rfl⟩
  · obtain ⟨c, scanned, -⟩ := conflictScan_spec log conflictTerm prev.toNat
    exact ⟨c, scanned⟩

/-- For a mismatch at `p` itself the scan returns the start of the run of the term at `p`. -/
theorem conflictIndexOf_spec {log : List (LogEntries Command)} {p : Nat} {c : Int}
    (scanned : conflictIndexOf log (termAt log p) p = some c) :
    ∃ start : Nat, c = start ∧ start ≤ p ∧
      (∀ i : Nat, start ≤ i → i ≤ p → termAt log i = termAt log p) ∧
      (∀ i : Nat, i + 1 = start → termAt log i ≠ termAt log p) := by
  unfold conflictIndexOf at scanned
  split at scanned
  · rename_i atZero
    obtain rfl : p = 0 := by omega
    refine ⟨0, by simpa using scanned.symm, le_refl 0, ?_, by omega⟩
    intro i _ hi
    obtain rfl : i = 0 := by omega
    rfl
  · obtain ⟨start, found, below, run, stop⟩ := conflictScan_spec log (termAt log p) p
    rw [Int.toNat_natCast, found] at scanned
    refine ⟨start, (Option.some.inj scanned).symm, below, ?_, stop⟩
    intro i hs hi
    rcases Nat.lt_or_ge i p with inside | outside
    · exact run i hs inside
    · obtain rfl : i = p := by omega
      rfl

/-- The forward scan either finds nothing, where the terms are those of the log as far as it looks,
    or the first entry whose term differs from the log's, strictly below the log's last index. -/
theorem findConflict_cases (log : List (LogEntries Command)) (start : Nat) :
    ∀ (entries : List (LogEntries Command)) (i : Nat),
      (findConflict log start i entries = some (-1) ∧
        ∀ k, k < entries.length → start + i + k + 1 < log.length →
          termAt log (start + i + k : Nat) = termAt entries k) ∨
      ∃ j : Nat, j < entries.length ∧ findConflict log start i entries = some ((i + j : Nat) : Int) ∧
        start + i + j + 1 < log.length ∧
        (∀ k, k < j → termAt log (start + i + k : Nat) = termAt entries k) ∧
        termAt log (start + i + j : Nat) ≠ termAt entries j := by
  intro entries
  induction entries with
  | nil =>
    intro i
    exact Or.inl ⟨rfl, fun k inside => absurd inside (Nat.not_lt_zero k)⟩
  | cons entry rest ih =>
    intro i
    by_cases reached : (start : Int) + i ≥ lastLogIndex log
    · refine Or.inl ⟨by simp [findConflict, reached], fun k _ inside => ?_⟩
      unfold lastLogIndex at reached
      split at reached <;> omega
    · have inside : start + i + 1 < log.length := by
        unfold lastLogIndex at reached
        split at reached <;> omega
      obtain ⟨old, found⟩ : ∃ old, log[start + i]? = some old :=
        ⟨_, List.getElem?_eq_getElem (by omega)⟩
      have oldTerm : termAt log (start + i : Nat) = old.term := termAt_of_getElem? found
      have read : goIndex log ((start : Int) + i) = some old := by
        rw [← Int.natCast_add, goIndex_natCast, found]
      by_cases differs : old.term ≠ entry.term
      · refine Or.inr ⟨0, by simp, ?_, by omega, by omega, ?_⟩
        · simp [findConflict, reached, read, differs]
        · rw [Nat.add_zero, oldTerm, show termAt (entry :: rest) (0 : Nat) = entry.term from rfl]
          exact differs
      · have same : old.term = entry.term := not_not.mp differs
        have next : findConflict log start i (entry :: rest) =
            findConflict log start (i + 1 : Nat) rest := by
          simp [findConflict, reached, read, same]
        have head : termAt log (start + i + 0 : Nat) = termAt (entry :: rest) (0 : Nat) :=
          oldTerm.trans same
        have shift : ∀ k : Nat, start + i + (k + 1) = start + (i + 1) + k := by omega
        rw [next]
        rcases ih (i + 1) with ⟨nothing, agree⟩ | ⟨j, bound, hit, below, before, differ⟩
        · refine Or.inl ⟨nothing, fun k sent scanned => ?_⟩
          cases k with
          | zero => exact head
          | succ k =>
            rw [shift, termAt_cons_succ]
            exact agree k (by simpa using sent) (by omega)
        · refine Or.inr ⟨j + 1, by simpa using bound, ?_, by omega, ?_, ?_⟩
          · rw [hit]
            congr 2
            omega
          · intro k hk
            cases k with
            | zero => exact head
            | succ k =>
              rw [shift, termAt_cons_succ]
              exact before k (by omega)
          · rw [shift, termAt_cons_succ]
            exact differ

/-- The log update of `AppendEntries` for a `prevLogIndex` inside the log. The second case is
    the one where entries in front of the conflict are appended a second time. -/
theorem installEntries_cases (log entries : List (LogEntries Command)) {p : Nat}
    (inside : p < log.length) :
    installEntries log p entries = some (log.take (p + 1) ++ entries) ∨
    ∃ j : Nat, 0 < j ∧ j < entries.length ∧ p + 1 + j + 1 < log.length ∧
      (∀ k, k < j → termAt log (p + 1 + k : Nat) = termAt entries k) ∧
      termAt log (p + 1 + j : Nat) ≠ termAt entries j ∧
      installEntries log p entries = some (log.take (p + 1 + j) ++ entries) := by
  have cut : goSliceTo log ((p : Int) + 1) = some (log.take (p + 1)) := by
    rw [show ((p : Int) + 1) = ((p + 1 : Nat) : Int) by omega]
    exact goSliceTo_natCast inside
  rcases findConflict_cases log (p + 1) entries 0 with
    ⟨nothing, -⟩ | ⟨j, bound, hit, below, before, differ⟩
  · left
    push_cast at nothing
    simp [installEntries, nothing, cut]
  · push_cast at hit
    rw [zero_add] at hit
    have cutAt : goSliceTo log ((p : Int) + 1 + j) = some (log.take (p + 1 + j)) := by
      rw [show ((p : Int) + 1 + j) = ((p + 1 + j : Nat) : Int) by omega]
      exact goSliceTo_natCast (by omega)
    have kept : 0 < (log.take (p + 1 + j)).length := by
      rw [List.length_take]
      omega
    have updated : installEntries log p entries = some (log.take (p + 1 + j) ++ entries) := by
      have found : ((j : Int) ≠ -1) := by omega
      simp only [installEntries, hit, Option.bind_eq_bind, Option.bind_some, if_pos found, cutAt]
      exact if_pos ⟨found, kept⟩
    rcases Nat.eq_zero_or_pos j with rfl | positive
    · exact Or.inl updated
    · exact Or.inr ⟨j, positive, bound, by omega, before, by simpa using differ, updated⟩

/-- However the update goes, the new log starts with the old one up to `prevLogIndex` and ends
    with the new entries. -/
theorem installEntries_returns (log entries : List (LogEntries Command)) {p : Nat}
    (inside : p < log.length) :
    ∃ q, p < q ∧ q ≤ log.length ∧ installEntries log p entries = some (log.take q ++ entries) := by
  rcases installEntries_cases log entries inside with updated | ⟨j, -, -, below, -, -, updated⟩
  · exact ⟨p + 1, by omega, inside, updated⟩
  · exact ⟨p + 1 + j, by omega, by omega, updated⟩

/-! ## `AppendEntries` -/

section Handlers

variable [Labgob Byte Command]

/-- The peer after it has accepted a request: the new log and the new commit index. -/
def Raft.accept (rf : Raft n Byte Command) (log : List (LogEntries Command))
    (leaderCommit : Int) : Raft n Byte Command :=
  let rf := ({ rf with log := log }).persist
  if leaderCommit > rf.committedIndex then
    { rf with committedIndex := min leaderCommit (rf.log.length - 1) }
  else rf

section Accept

variable (rf : Raft n Byte Command) (log : List (LogEntries Command)) (leaderCommit : Int)

@[simp] theorem accept_me : (rf.accept log leaderCommit).me = rf.me := by
  unfold Raft.accept
  dsimp only
  split <;> rfl

@[simp] theorem accept_whoami : (rf.accept log leaderCommit).whoami = rf.whoami := by
  unfold Raft.accept
  dsimp only
  split <;> rfl

@[simp] theorem accept_currentTerm :
    (rf.accept log leaderCommit).currentTerm = rf.currentTerm := by
  unfold Raft.accept
  dsimp only
  split <;> rfl

@[simp] theorem accept_votedFor : (rf.accept log leaderCommit).votedFor = rf.votedFor := by
  unfold Raft.accept
  dsimp only
  split <;> rfl

@[simp] theorem accept_log : (rf.accept log leaderCommit).log = log := by
  unfold Raft.accept
  dsimp only
  split <;> rfl

@[simp] theorem accept_lastApplied :
    (rf.accept log leaderCommit).lastApplied = rf.lastApplied := by
  unfold Raft.accept
  dsimp only
  split <;> rfl

@[simp] theorem accept_nextIndex : (rf.accept log leaderCommit).nextIndex = rf.nextIndex := by
  unfold Raft.accept
  dsimp only
  split <;> rfl

@[simp] theorem accept_matchIndex : (rf.accept log leaderCommit).matchIndex = rf.matchIndex := by
  unfold Raft.accept
  dsimp only
  split <;> rfl

theorem accept_committedIndex : (rf.accept log leaderCommit).committedIndex =
    if leaderCommit > rf.committedIndex then min leaderCommit (log.length - 1)
    else rf.committedIndex := by
  by_cases advance : leaderCommit > rf.committedIndex
  · simp [Raft.accept, advance]
  · simp [Raft.accept, advance]

end Accept

omit [Labgob Byte Command] in
theorem accepts_iff {rf : Raft n Byte Command} {args : AppendEntriesArgs Command} :
    Accepts rf args ↔ rf.currentTerm ≤ args.term ∧ args.prevLogIndex ≤ lastLogIndex rf.log ∧
      args.prevLogTerm = termAt rf.log args.prevLogIndex := by
  rw [Accepts, getLogTerm_eq, Option.some.injEq, eq_comm (b := args.prevLogTerm)]
  rfl

/-- The outcomes of `AppendEntries`. -/
inductive AppendEntriesOutcome (rf : Raft n Byte Command) (args : AppendEntriesArgs Command) :
    Raft n Byte Command → AppendEntriesReply → Prop
  | stale (older : args.term < rf.currentTerm) :
      AppendEntriesOutcome rf args rf ⟨rf.currentTerm, false, 0, 0⟩
  | short (current : rf.currentTerm ≤ args.term) (beyond : lastLogIndex rf.log < args.prevLogIndex) :
      AppendEntriesOutcome rf args (rf.observeTerm args.term)
        ⟨rf.currentTerm, false, -1, rf.log.length⟩
  | mismatch {conflictIndex : Int} (current : rf.currentTerm ≤ args.term)
      (within : args.prevLogIndex ≤ lastLogIndex rf.log)
      (differs : args.prevLogTerm ≠ termAt rf.log args.prevLogIndex)
      (scanned : conflictIndexOf rf.log (termAt rf.log args.prevLogIndex) args.prevLogIndex =
        some conflictIndex) :
      AppendEntriesOutcome rf args (rf.observeTerm args.term)
        ⟨rf.currentTerm, false, termAt rf.log args.prevLogIndex, conflictIndex⟩
  | accepted {log : List (LogEntries Command)} (accepts : Accepts rf args)
      (installed : installEntries rf.log args.prevLogIndex args.items = some log) :
      AppendEntriesOutcome rf args ((rf.observeTerm args.term).accept log args.leaderCommit)
        ⟨rf.currentTerm, true, 0, 0⟩

theorem appendEntries_cases {rf rf' : Raft n Byte Command} {args : AppendEntriesArgs Command}
    {reply : AppendEntriesReply} (handled : rf.appendEntries args = some (rf', reply)) :
    AppendEntriesOutcome rf args rf' reply := by
  unfold Raft.appendEntries at handled
  dsimp only at handled
  split at handled
  · rename_i older
    cases handled
    exact .stale older
  · rename_i current
    have current : rf.currentTerm ≤ args.term := by omega
    change (if args.prevLogIndex > (rf.observeTerm args.term).getLastLogIndex then _ else _) = _
      at handled
    rw [Raft.getLastLogIndex, observeTerm_log] at handled
    split at handled
    · rename_i beyond
      change some (rf.observeTerm args.term,
        (⟨_, _, _, ((rf.observeTerm args.term).log.length : Int)⟩ : AppendEntriesReply)) = _ at handled
      rw [observeTerm_log] at handled
      cases handled
      exact .short current beyond
    · rename_i within
      have within : args.prevLogIndex ≤ lastLogIndex rf.log := by omega
      change ((rf.observeTerm args.term).getLogTerm args.prevLogIndex).bind _ = _ at handled
      rw [getLogTerm_eq, observeTerm_log, Option.bind_some] at handled
      split at handled
      · rename_i differs
        rw [Option.bind_eq_bind, Option.bind_eq_some_iff] at handled
        obtain ⟨conflictIndex, scanned, returned⟩ := handled
        change conflictIndexOf (rf.observeTerm args.term).log _ _ = _ at scanned
        rw [observeTerm_log] at scanned
        cases returned
        exact .mismatch current within differs scanned
      · rename_i same
        rw [Option.bind_eq_bind, Option.bind_eq_some_iff] at handled
        obtain ⟨log, installed, returned⟩ := handled
        change installEntries (rf.observeTerm args.term).log _ _ = _ at installed
        rw [observeTerm_log] at installed
        cases returned
        exact .accepted (accepts_iff.mpr ⟨current, within, not_not.mp same⟩) installed

/-- No index expression of `AppendEntries` is out of range for a request with a non-negative
    `PrevLogIndex` and a non-empty log. -/
theorem appendEntries_returns {rf : Raft n Byte Command} {args : AppendEntriesArgs Command}
    (nonempty : rf.log ≠ []) (nonneg : 0 ≤ args.prevLogIndex) :
    ∃ rf' reply, rf.appendEntries args = some (rf', reply) := by
  unfold Raft.appendEntries
  dsimp only
  split
  · exact ⟨_, _, rfl⟩
  · change ∃ rf' reply, (if args.prevLogIndex > (rf.observeTerm args.term).getLastLogIndex then _
      else ((rf.observeTerm args.term).getLogTerm args.prevLogIndex).bind _) = some (rf', reply)
    rw [Raft.getLastLogIndex, observeTerm_log, getLogTerm_eq, observeTerm_log]
    split
    · exact ⟨_, _, rfl⟩
    · rename_i within
      rw [Option.bind_some]
      split
      · obtain ⟨c, scanned⟩ := conflictIndexOf_returns rf.log (termAt rf.log args.prevLogIndex)
          args.prevLogIndex
        change ∃ rf' reply, (conflictIndexOf (rf.observeTerm args.term).log _ _ >>= _) =
          some (rf', reply)
        rw [observeTerm_log, scanned]
        exact ⟨_, _, rfl⟩
      · change ∃ rf' reply, (installEntries (rf.observeTerm args.term).log _ _ >>= _) =
          some (rf', reply)
        rw [lastLogIndex_of_ne_nil nonempty] at within
        obtain ⟨p, hp⟩ := Int.eq_ofNat_of_zero_le nonneg
        obtain ⟨q, -, -, installed⟩ := installEntries_returns rf.log args.items (p := p) (by omega)
        rw [observeTerm_log, hp, installed]
        exact ⟨_, _, rfl⟩

end Handlers

/-! ## The leader's side -/

/-- The fields of the request built for `server`: the rest of the log from `nextIndex` on. -/
structure BuiltArgs (rf : Raft n Byte Command) (server : Fin n)
    (args : AppendEntriesArgs Command) : Prop where
  term : args.term = rf.currentTerm
  leaderId : args.leaderId = (rf.me : Nat)
  prevLogIndex : args.prevLogIndex = rf.nextIndex server - 1
  prevLogTerm : args.prevLogTerm = termAt rf.log args.prevLogIndex
  items : args.items = rf.log.drop (rf.nextIndex server).toNat
  leaderCommit : args.leaderCommit = rf.committedIndex

theorem processAppendEntriesArgs_cases {rf : Raft n Byte Command} {server : Fin n}
    {isHeartbeat : Bool} {args : AppendEntriesArgs Command}
    (built : rf.processAppendEntriesArgs server isHeartbeat = some args) :
    BuiltArgs rf server args := by
  simp only [Raft.processAppendEntriesArgs, getLogTerm_eq, Option.bind_eq_bind,
    Option.bind_some] at built
  split at built
  · obtain ⟨entries, sliced, returned⟩ := Option.bind_eq_some_iff.mp built
    obtain ⟨rest, cut, rfl⟩ := Option.map_eq_some_iff.mp sliced
    cases returned
    exact ⟨rfl, rfl, rfl, rfl, (goSliceFrom_eq_some.mp cut).2.2, rfl⟩
  · rename_i outside
    have nothing : rf.log.drop (rf.nextIndex server).toNat = [] := by
      rw [List.drop_eq_nil_iff]
      omega
    split at built
    · cases built
      exact ⟨rfl, rfl, rfl, rfl, nothing.symm, rfl⟩
    · cases built
      exact ⟨rfl, rfl, rfl, rfl, nothing.symm, rfl⟩

theorem processAppendEntriesArgs_returns {rf : Raft n Byte Command} {server : Fin n}
    (isHeartbeat : Bool) (positive : 1 ≤ rf.nextIndex server) :
    ∃ args, rf.processAppendEntriesArgs server isHeartbeat = some args := by
  simp only [Raft.processAppendEntriesArgs, getLogTerm_eq, Option.bind_eq_bind, Option.bind_some]
  split
  · rename_i inside
    have cut : goSliceFrom rf.log (rf.nextIndex server) =
        some (rf.log.drop (rf.nextIndex server).toNat) :=
      goSliceFrom_eq_some.mpr ⟨by omega, by omega, rfl⟩
    rw [cut]
    exact ⟨_, rfl⟩
  · split
    · exact ⟨_, rfl⟩
    · exact ⟨_, rfl⟩

/-- The leader's scan finds the last index below `k` with the given term. -/
theorem lastIndexOfTerm_spec (log : List (LogEntries Command)) (conflictTerm : Int) :
    ∀ k : Nat, k ≤ log.length →
      (lastIndexOfTerm log conflictTerm k = some (-1) ∧
        ∀ i : Nat, i < k → termAt log i ≠ conflictTerm) ∨
      ∃ j : Nat, j < k ∧ lastIndexOfTerm log conflictTerm k = some (j : Int) ∧
        termAt log j = conflictTerm ∧
        ∀ i : Nat, j < i → i < k → termAt log i ≠ conflictTerm := by
  intro k
  induction k with
  | zero => intro _; exact Or.inl ⟨rfl, by omega⟩
  | succ k ih =>
    intro bound
    obtain ⟨entry, found⟩ : ∃ entry, log[k]? = some entry :=
      ⟨_, List.getElem?_eq_getElem (by omega)⟩
    have here : termAt log k = entry.term := termAt_of_getElem? found
    by_cases same : conflictTerm = entry.term
    · refine Or.inr ⟨k, by omega, ?_, here.trans same.symm, by omega⟩
      simp [lastIndexOfTerm, found, same]
    · have skip : lastIndexOfTerm log conflictTerm (k + 1) = lastIndexOfTerm log conflictTerm k := by
        simp [lastIndexOfTerm, found, same]
      have differs : termAt log k ≠ conflictTerm := by
        rw [here]
        exact fun equal => same equal.symm
      rw [skip]
      rcases ih (by omega) with ⟨nothing, absent⟩ | ⟨j, below, hit, term, after⟩
      · refine Or.inl ⟨nothing, fun i hi => ?_⟩
        rcases Nat.lt_or_ge i k with inside | atEnd
        · exact absent i inside
        · obtain rfl : i = k := by omega
          exact differs
      · refine Or.inr ⟨j, by omega, hit, term, fun i hj hi => ?_⟩
        rcases Nat.lt_or_ge i k with inside | atEnd
        · exact after i hj inside
        · obtain rfl : i = k := by omega
          exact differs

/-- Where `nextIndex` is put after a rejection. -/
theorem backedUpIndex_cases (log : List (LogEntries Command)) (reply : AppendEntriesReply) :
    (backedUpIndex log reply = some reply.conflictIndex ∧
      (reply.conflictTerm = -1 ∨
        ∀ i : Nat, i < log.length → termAt log i ≠ reply.conflictTerm)) ∨
    ∃ j : Nat, j < log.length ∧ backedUpIndex log reply = some ((j : Int) + 1) ∧
      reply.conflictTerm ≠ -1 ∧ termAt log j = reply.conflictTerm ∧
      ∀ i : Nat, j < i → i < log.length → termAt log i ≠ reply.conflictTerm := by
  by_cases short : reply.conflictTerm = -1
  · exact Or.inl ⟨by simp [backedUpIndex, short], Or.inl short⟩
  · rcases lastIndexOfTerm_spec log reply.conflictTerm log.length (le_refl _) with
      ⟨nothing, absent⟩ | ⟨j, below, hit, term, after⟩
    · exact Or.inl ⟨by simp [backedUpIndex, short, nothing], Or.inr absent⟩
    · refine Or.inr ⟨j, below, ?_, short, term, after⟩
      have found : ((j : Int) ≠ -1) := by omega
      simp [backedUpIndex, short, hit, found]

theorem backedUpIndex_returns (log : List (LogEntries Command)) (reply : AppendEntriesReply) :
    ∃ next, backedUpIndex log reply = some next := by
  rcases backedUpIndex_cases log reply with ⟨returned, -⟩ | ⟨j, -, returned, -⟩
  · exact ⟨_, returned⟩
  · exact ⟨_, returned⟩

/-- The leader's bookkeeping after `server` has acknowledged everything up to `matched`. -/
def Raft.acknowledge (rf : Raft n Byte Command) (server : Fin n) (matched : Int) :
    Raft n Byte Command :=
  { rf with
    matchIndex := Function.update rf.matchIndex server matched
    nextIndex := Function.update rf.nextIndex server (matched + 1) }

/-- The outcomes of an `AppendEntries` reply. -/
inductive AppendReplyOutcome [Labgob Byte Command] (rf : Raft n Byte Command) (server : Fin n)
    (args : AppendEntriesArgs Command) (reply : AppendEntriesReply) : Raft n Byte Command → Prop
  | ignored (stale : args.term ≠ rf.currentTerm ∨ rf.whoami ≠ .leader)
      (notHigher : reply.term ≤ rf.currentTerm) : AppendReplyOutcome rf server args reply rf
  | steppedDown (stale : args.term ≠ rf.currentTerm ∨ rf.whoami ≠ .leader)
      (higher : rf.currentTerm < reply.term) :
      AppendReplyOutcome rf server args reply (rf.convertToFollower reply.term)
  | backedUp {next : Int} (term : args.term = rf.currentTerm) (role : rf.whoami = .leader)
      (failed : reply.success = false) (backed : backedUpIndex rf.log reply = some next) :
      AppendReplyOutcome rf server args reply
        { rf with nextIndex := Function.update rf.nextIndex server next }
  | heartbeat (term : args.term = rf.currentTerm) (role : rf.whoami = .leader)
      (success : reply.success = true) (empty : args.entries = none) :
      AppendReplyOutcome rf server args reply rf
  | acknowledged {rf' : Raft n Byte Command} (term : args.term = rf.currentTerm)
      (role : rf.whoami = .leader) (success : reply.success = true)
      (committed : (rf.acknowledge server
        (args.prevLogIndex + args.items.length)).checkAndCommitLogs = some rf') :
      AppendReplyOutcome rf server args reply rf'

section Reply

variable [Labgob Byte Command]

theorem processAppendEntriesReply_cases {rf rf' : Raft n Byte Command} {server : Fin n}
    {args : AppendEntriesArgs Command} {reply : AppendEntriesReply}
    (handled : rf.processAppendEntriesReply server args reply = some rf') :
    AppendReplyOutcome rf server args reply rf' := by
  unfold Raft.processAppendEntriesReply at handled
  split at handled
  · rename_i stale
    split at handled
    · rename_i higher
      cases handled
      exact .steppedDown stale higher
    · rename_i notHigher
      cases handled
      exact .ignored stale (by omega)
  · rename_i current
    have term : args.term = rf.currentTerm := not_not.mp fun h => current (Or.inl h)
    have role : rf.whoami = .leader := not_not.mp fun h => current (Or.inr h)
    split at handled
    · rename_i failed
      simp only [Option.bind_eq_bind, Option.bind_eq_some_iff] at handled
      obtain ⟨next, backed, returned⟩ := handled
      cases returned
      exact .backedUp term role (by simpa using failed) backed
    · rename_i success
      have success : reply.success = true := by simpa using success
      cases entries : args.entries with
      | none =>
        rw [entries] at handled
        cases handled
        exact .heartbeat term role success entries
      | some items =>
        rw [entries] at handled
        refine .acknowledged term role success ?_
        rw [AppendEntriesArgs.items, entries]
        exact handled

/-- No index expression of the reply handler is out of range. -/
theorem processAppendEntriesReply_returns {rf : Raft n Byte Command} (server : Fin n)
    (args : AppendEntriesArgs Command) (reply : AppendEntriesReply)
    (nonneg : 0 ≤ rf.committedIndex) :
    ∃ rf', rf.processAppendEntriesReply server args reply = some rf' := by
  unfold Raft.processAppendEntriesReply
  split
  · split
    · exact ⟨_, rfl⟩
    · exact ⟨_, rfl⟩
  · split
    · obtain ⟨next, backed⟩ := backedUpIndex_returns rf.log reply
      rw [backed]
      exact ⟨_, rfl⟩
    · split
      · exact ⟨_, rfl⟩
      · exact checkAndCommitLogs_returns nonneg

/-- `Start` appends an entry of the current term at a leader and does nothing elsewhere. -/
theorem start_cases (rf : Raft n Byte Command) (command : Command) :
    (rf.whoami ≠ .leader ∧ (rf.start command).1 = rf) ∨
    (rf.whoami = .leader ∧ (rf.start command).1 =
      ({ rf with log := rf.log ++ [⟨rf.currentTerm, command⟩] } : Raft n Byte Command).persist) := by
  by_cases role : rf.whoami = .leader
  · exact Or.inr ⟨role, by simp [Raft.start, role]⟩
  · exact Or.inl ⟨role, by simp [Raft.start, role]⟩

end Reply

end DistributedCloud.RaftLab
