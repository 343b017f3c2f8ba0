import DistributedCloud.RaftLab.Network
import DistributedCloud.RaftLab.Proofs.Replication
import DistributedCloud.RaftLab.Proofs.Steps

/-!
# What an accepted request leaves in the log

The follower is to hold the entries it was sent, right behind `PrevLogIndex`. It does when the
scan finds no conflict or finds it at the first entry. Behind a conflict further on the entries
in front of it are in the log already and are appended once more, so that everything from there
on stands too far back.
-/

namespace DistributedCloud.RaftLab

variable {n : Nat} {Byte Command : Type}

/-- An entry of the old log and one sent for its index that have the same term are the same. -/
def SameCommands (log : List (LogEntries Command)) (prevLogIndex : Int)
    (entries : List (LogEntries Command)) : Prop :=
  ∀ (k : Nat) (e old : LogEntries Command), entries[k]? = some e →
    goIndex log (prevLogIndex + 1 + k) = some old → old.term = e.term → old.command = e.command

/-- The new log is the old one up to `prevLogIndex` with the entries behind it. -/
structure Installed (log log' : List (LogEntries Command)) (prevLogIndex : Int)
    (entries : List (LogEntries Command)) : Prop where
  kept : ∀ i, i ≤ prevLogIndex → goIndex log' i = goIndex log i
  terms : ∀ (k : Nat) (e : LogEntries Command), entries[k]? = some e →
    ∃ new, goIndex log' (prevLogIndex + 1 + k) = some new ∧ new.term = e.term
  commands : SameCommands log prevLogIndex entries →
    ∀ (k : Nat) (e : LogEntries Command), entries[k]? = some e →
      ∃ new, goIndex log' (prevLogIndex + 1 + k) = some new ∧ new.command = e.command

/-- The first entry whose term differs from the log's, at an index that the scan looks at. -/
structure ConflictAt (log : List (LogEntries Command)) (prevLogIndex : Int)
    (entries : List (LogEntries Command)) (j : Nat) : Prop where
  sent : j < entries.length
  scanned : prevLogIndex + 1 + j < lastLogIndex log
  before : ∀ k, k < j → termAt log (prevLogIndex + 1 + k) = termAt entries k
  differ : termAt log (prevLogIndex + 1 + j) ≠ termAt entries j

/-- The entries from a conflict on are the first ones over again, as far as `Installed` looks
    at them. It is so when the conflict is at the first entry. -/
def Repeats (log : List (LogEntries Command)) (prevLogIndex : Int)
    (entries : List (LogEntries Command)) (j : Nat) : Prop :=
  ∀ (k : Nat) (e later : LogEntries Command), entries[k]? = some e →
    entries[j + k]? = some later → e.term = later.term ∧
      (SameCommands log prevLogIndex entries → e.command = later.command)

theorem repeats_zero (log : List (LogEntries Command)) (prevLogIndex : Int)
    (entries : List (LogEntries Command)) : Repeats log prevLogIndex entries 0 := by
  intro k e later here there
  rw [Nat.zero_add, here] at there
  cases there
  exact ⟨rfl, fun _ => rfl⟩

/-! ## The scan -/

/-- The scan returns the position of the first conflict. -/
theorem findConflict_eq {log entries : List (LogEntries Command)} {start i j : Nat}
    (sent : j < entries.length) (scanned : start + i + j + 1 < log.length)
    (before : ∀ k : Nat, k < j → termAt log (start + i + k : Nat) = termAt entries k)
    (differ : termAt log (start + i + j : Nat) ≠ termAt entries j) :
    findConflict log start i entries = some ((i + j : Nat) : Int) := by
  rcases findConflict_cases log start entries i with
    ⟨-, agree⟩ | ⟨first, bound, hit, below, before', differ'⟩
  · exact absurd (agree j sent scanned) differ
  · obtain rfl : first = j := by
      rcases Nat.lt_trichotomy first j with less | same | more
      · exact absurd (before first less) differ'
      · exact same
      · exact absurd (before' j more) differ
    exact hit

section Update

variable {log entries : List (LogEntries Command)} {p : Nat}

theorem ConflictAt.inside {j : Nat} (conflict : ConflictAt log p entries j) :
    p + 1 + j + 1 < log.length := by
  have scanned := conflict.scanned
  unfold lastLogIndex at scanned
  split at scanned <;> omega

theorem ConflictAt.found {j : Nat} (conflict : ConflictAt log p entries j) :
    findConflict log ((p : Int) + 1) 0 entries = some (j : Int) := by
  have cast : ∀ k : Nat, ((p + 1 + 0 + k : Nat) : Int) = (p : Int) + 1 + k := by
    intro k
    push_cast
    omega
  have found : findConflict log (p + 1 : Nat) (0 : Nat) entries = some ((0 + j : Nat) : Int) :=
    findConflict_eq conflict.sent (by have := conflict.inside; omega)
      (fun k below => by rw [cast]; exact conflict.before k below)
      (by rw [cast]; exact conflict.differ)
  simpa using found

theorem ConflictAt.unique {j k : Nat} (one : ConflictAt log p entries j)
    (other : ConflictAt log p entries k) : j = k := by
  have found := one.found
  rw [other.found] at found
  simpa using (Option.some.inj found).symm

/-- On a conflict the log is cut there and all the entries are appended. -/
theorem ConflictAt.installEntries_eq {j : Nat} (conflict : ConflictAt log p entries j) :
    installEntries log p entries = some (log.take (p + 1 + j) ++ entries) := by
  have inside := conflict.inside
  have cutAt : goSliceTo log ((p : Int) + 1 + j) = some (log.take (p + 1 + j)) := by
    rw [show ((p : Int) + 1 + j) = ((p + 1 + j : Nat) : Int) by omega]
    exact goSliceTo_natCast (by omega)
  have kept : 0 < (log.take (p + 1 + j)).length := by
    rw [List.length_take]
    omega
  have position : (j : Int) ≠ -1 := by omega
  simp only [installEntries, conflict.found, Option.bind_eq_bind, Option.bind_some,
    if_pos position, cutAt]
  exact if_pos ⟨position, kept⟩

/-- Without a conflict the log is cut right behind `prevLogIndex`. -/
theorem installEntries_eq_of_no_conflict (inside : p < log.length)
    (none : ∀ j, ¬ ConflictAt log p entries j) :
    installEntries log p entries = some (log.take (p + 1) ++ entries) := by
  rcases installEntries_cases log entries inside with
    updated | ⟨j, -, sent, below, before, differ, -⟩
  · exact updated
  · refine absurd ⟨sent, ?_, ?_, ?_⟩ (none j)
    · rw [lastLogIndex_of_ne_nil (List.length_pos_iff.mp (by omega))]
      omega
    · intro k early
      exact_mod_cast before k early
    · exact_mod_cast differ

theorem getElem?_cut_append {q i : Nat} (inside : q ≤ log.length) (below : i < q) :
    (log.take q ++ entries)[i]? = log[i]? := by
  rw [List.getElem?_append_left (by rw [List.length_take]; omega), List.getElem?_take_of_lt below]

theorem getElem?_cut_add {q : Nat} (k : Nat) (inside : q ≤ log.length) :
    (log.take q ++ entries)[q + k]? = entries[k]? := by
  rw [List.getElem?_append_right (by rw [List.length_take]; omega), List.length_take,
    Nat.min_eq_left inside, Nat.add_sub_cancel_left]

theorem goIndex_behind (l : List (LogEntries Command)) (k : Nat) :
    goIndex l ((p : Int) + 1 + k) = l[p + 1 + k]? := by
  rw [show ((p : Int) + 1 + k) = ((p + 1 + k : Nat) : Int) by omega, goIndex_natCast]

/-- Whatever the log is cut to behind `prevLogIndex`, what stands up to it is kept. -/
theorem goIndex_cut_append {q : Nat} (inside : q ≤ log.length) (behind : p < q) {i : Int}
    (upTo : i ≤ p) : goIndex (log.take q ++ entries) i = goIndex log i := by
  rcases Int.lt_or_le i 0 with negative | nonneg
  · rw [goIndex, goIndex, if_neg (by omega), if_neg (by omega)]
  · obtain ⟨i, rfl⟩ := Int.eq_ofNat_of_zero_le nonneg
    rw [goIndex_natCast, goIndex_natCast]
    exact getElem?_cut_append inside (by omega)

/-- The entries in front of the conflict are in the log already. -/
theorem ConflictAt.present {j k : Nat} (conflict : ConflictAt log p entries j) (early : k < j)
    {e : LogEntries Command} (sent : entries[k]? = some e) :
    ∃ old, log[p + 1 + k]? = some old ∧ old.term = e.term := by
  have inside : p + 1 + k < log.length := by
    have := conflict.inside
    omega
  refine ⟨_, List.getElem?_eq_getElem inside, ?_⟩
  have same := conflict.before k early
  rw [show ((p : Int) + 1 + k) = ((p + 1 + k : Nat) : Int) by omega,
    termAt_of_getElem? (List.getElem?_eq_getElem inside), termAt_of_getElem? sent] at same
  exact same

/-- Behind a conflict the entries are installed only if they repeat the first ones. -/
theorem ConflictAt.installed_iff {j : Nat} (conflict : ConflictAt log p entries j) :
    Installed log (log.take (p + 1 + j) ++ entries) p entries ↔ Repeats log p entries j := by
  have inside : p + 1 + j ≤ log.length := by
    have := conflict.inside
    omega
  have shifted : ∀ k, (log.take (p + 1 + j) ++ entries)[p + 1 + (j + k)]? = entries[k]? := by
    intro k
    rw [show p + 1 + (j + k) = p + 1 + j + k by omega]
    exact getElem?_cut_add k inside
  constructor
  · intro installed k e later here there
    obtain ⟨new, read, term⟩ := installed.terms (j + k) later there
    rw [goIndex_behind, shifted k, here] at read
    cases read
    refine ⟨term, fun coherent => ?_⟩
    obtain ⟨new, read, command⟩ := installed.commands coherent (j + k) later there
    rw [goIndex_behind, shifted k, here] at read
    cases read
    exact command
  · intro repeats
    -- in front of the conflict the old entry stays, from it on the entry `j` places earlier comes
    have placed : ∀ (k : Nat) (e : LogEntries Command), entries[k]? = some e →
        ∃ new, goIndex (log.take (p + 1 + j) ++ entries) (p + 1 + k) = some new ∧
          new.term = e.term ∧ (SameCommands log p entries → new.command = e.command) := by
      intro k e sent
      rw [goIndex_behind]
      rcases Nat.lt_or_ge k j with early | late
      · obtain ⟨old, present, term⟩ := conflict.present early sent
        refine ⟨old, by rw [getElem?_cut_append inside (by omega), present], term, ?_⟩
        intro coherent
        exact coherent k e old sent (by rw [goIndex_behind, present]) term
      · obtain ⟨k, rfl⟩ := Nat.exists_eq_add_of_le late
        have bound := (List.getElem?_eq_some_iff.mp sent).1
        have first := List.getElem?_eq_getElem (l := entries) (i := k) (by omega)
        obtain ⟨term, command⟩ := repeats k _ e first sent
        exact ⟨_, by rw [shifted k, first], term, command⟩
    refine ⟨fun i upTo => goIndex_cut_append inside (by omega) upTo, ?_, ?_⟩
    · intro k e sent
      obtain ⟨new, read, term, -⟩ := placed k e sent
      exact ⟨new, read, term⟩
    · intro coherent k e sent
      obtain ⟨new, read, -, command⟩ := placed k e sent
      exact ⟨new, read, command coherent⟩

theorem installed_of_cut (inside : p < log.length) :
    Installed log (log.take (p + 1) ++ entries) p entries := by
  have placed : ∀ k : Nat, goIndex (log.take (p + 1) ++ entries) (p + 1 + k) = entries[k]? := by
    intro k
    rw [goIndex_behind]
    exact getElem?_cut_add k inside
  refine ⟨fun i upTo => goIndex_cut_append inside (by omega) upTo, ?_, ?_⟩
  · intro k e sent
    exact ⟨e, by rw [placed, sent], rfl⟩
  · intro _ k e sent
    exact ⟨e, by rw [placed, sent], rfl⟩

theorem installed_iff_repeats (inside : p < log.length) {log' : List (LogEntries Command)}
    (updated : installEntries log p entries = some log') :
    Installed log log' p entries ↔ ∀ j, ConflictAt log p entries j → Repeats log p entries j := by
  by_cases found : ∃ j, ConflictAt log p entries j
  · obtain ⟨j, conflict⟩ := found
    rw [conflict.installEntries_eq] at updated
    cases updated
    rw [conflict.installed_iff]
    constructor
    · intro repeats k other
      rwa [other.unique conflict]
    · intro repeats
      exact repeats j conflict
  · have none : ∀ j, ¬ ConflictAt log p entries j := fun j conflict => found ⟨j, conflict⟩
    rw [installEntries_eq_of_no_conflict inside none] at updated
    cases updated
    exact iff_of_true (installed_of_cut inside) fun j conflict => absurd conflict (none j)

end Update

/-! ## `AppendEntries` -/

section Handler

variable [Labgob Byte Command]

/-- A request that is accepted has its entries in the follower's log exactly if the scan finds
    no conflict, or the entries from the first conflict on are the first entries again. The
    latter is so for a conflict at the first entry (`repeats_zero`). -/
theorem appendEntries_installs {rf rf' : Raft n Byte Command} {args : AppendEntriesArgs Command}
    {reply : AppendEntriesReply} (nonempty : rf.log ≠ []) (nonneg : 0 ≤ args.prevLogIndex)
    (handled : rf.appendEntries args = some (rf', reply)) (success : reply.success = true) :
    Installed rf.log rf'.log args.prevLogIndex args.items ↔
      ∀ j, ConflictAt rf.log args.prevLogIndex args.items j →
        Repeats rf.log args.prevLogIndex args.items j := by
  cases appendEntries_cases handled with
  | stale => cases success
  | short => cases success
  | mismatch => cases success
  | accepted accepts installed =>
    obtain ⟨-, within, -⟩ := accepts_iff.mp accepts
    rw [lastLogIndex_of_ne_nil nonempty] at within
    obtain ⟨p, prev⟩ := Int.eq_ofNat_of_zero_le nonneg
    rw [prev] at installed within ⊢
    rw [accept_log]
    exact installed_iff_repeats (by omega) installed

end Handler

/-- Peer 1 has the entry of term 1 and two of term 2 behind it. It is sent two entries of term 3
    that conflict with the first of them. -/
def overwrittenFollower : Raft 3 (Token Int) Int where
  me := 1
  persister := ⟨[]⟩
  whoami := .follower
  currentTerm := 3
  votedFor := -1
  log := [⟨0, 0⟩, ⟨1, 7⟩, ⟨2, 8⟩, ⟨2, 9⟩]
  committedIndex := 0
  lastApplied := 0
  nextIndex := fun _ => 0
  matchIndex := fun _ => 0

theorem appendEntries_installs_overwritten :
    let args : AppendEntriesArgs Int := ⟨3, 0, 1, 1, some [⟨3, 10⟩, ⟨3, 11⟩], 0⟩
    ∃ rf' reply, overwrittenFollower.appendEntries args = some (rf', reply) ∧
      reply.success = true ∧ ConflictAt overwrittenFollower.log 1 args.items 0 ∧
      Installed overwrittenFollower.log rf'.log 1 args.items := by
  intro args
  have conflict : ConflictAt overwrittenFollower.log 1 args.items 0 :=
    ⟨by decide, by decide, by omega, by decide⟩
  obtain ⟨rf', reply, handled⟩ : ∃ rf' reply, overwrittenFollower.appendEntries args =
    some (rf', reply) := ⟨_, _, rfl⟩
  have success : reply.success = true := by
    cases handled
    rfl
  refine ⟨rf', reply, handled, success, conflict, ?_⟩
  refine (appendEntries_installs (by decide) (by decide) handled success).mpr ?_
  intro j other
  obtain rfl : j = 0 := other.unique (p := 1) conflict
  exact repeats_zero _ _ _

/-- Peer 0 leads term 1, replicates command 7 to both followers and has one more request to
    peer 1 to build. Peer 1 wins term 2 and appends three commands that nobody else gets. Peer 2
    wins term 3 and replicates command 11 to peer 0, which only now builds its request: two
    entries, of which peer 1 holds the first. -/
def repeatedEntry : List (Event 3 Int) :=
  [.election 0, .requestVote 0, .requestVoteReply 0,
    .heartbeat 0 0, .replicate 0 1, .send 0 1, .appendEntries 0, .appendEntriesReply 0,
    .send 0 1, .appendEntries 0, .appendEntriesReply 0, .start 0 7,
    .heartbeat 0 0, .replicate 0 1, .send 0 1, .appendEntries 0, .send 0 1, .appendEntries 1,
    .heartbeat 0 0, .replicate 0 1,
    .election 1, .requestVote 2, .requestVoteReply 2, .start 1 8, .start 1 9, .start 1 10,
    .election 2, .requestVote 2, .requestVoteReply 2, .start 2 11,
    .heartbeat 2 0, .replicate 2 1, .send 2 1, .appendEntries 2, .appendEntriesReply 2,
    .heartbeat 2 0, .replicate 2 2, .send 2 2, .appendEntries 2, .send 0 1]

/-- The request is accepted, and the entry of term 1 then stands at index 2 too, where the
    entry of term 3 was sent for. -/
theorem repeatedEntry_shifted :
    let w := (cluster 3 (Token Int) Int).after repeatedEntry
    ∃ call rf' reply, w.appends[3]? = some call ∧
      (w.rf call.server).appendEntries call.args = some (rf', reply) ∧
      (w.rf call.server).log ≠ [] ∧ 0 ≤ call.args.prevLogIndex ∧ reply.success = true ∧
      ¬ Installed (w.rf call.server).log rf'.log call.args.prevLogIndex call.args.items := by
  intro w
  have sent : w.appends[3]? = some ⟨0, 0, 1, ⟨3, 0, 0, 0, some [⟨1, 7⟩, ⟨3, 11⟩], 0⟩, none⟩ := by
    decide +kernel
  have handled : ((w.rf 1).appendEntries ⟨3, 0, 0, 0, some [⟨1, 7⟩, ⟨3, 11⟩], 0⟩).map
      (fun result => (result.1.log, result.2.success)) =
      some ([⟨0, 0⟩, ⟨1, 7⟩, ⟨1, 7⟩, ⟨3, 11⟩], true) := by
    decide +kernel
  obtain ⟨⟨rf', reply⟩, handled, result⟩ := Option.map_eq_some_iff.mp handled
  obtain ⟨log, success⟩ := Prod.mk.inj result
  refine ⟨_, rf', reply, sent, handled, by decide +kernel, by decide, success, ?_⟩
  intro installed
  obtain ⟨new, read, term⟩ := installed.terms 1 ⟨3, 11⟩ rfl
  rw [show rf'.log = _ from log] at read
  cases read
  cases term

end DistributedCloud.RaftLab
