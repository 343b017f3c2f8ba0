import DistributedCloud.RaftLab.Proofs.Elections
import DistributedCloud.RaftLab.Proofs.Bounds
import DistributedCloud.ReplicatedLog.Coverage

/-!
# The cluster as replicas of a log

A recorded world is an abstract state of replicas: the persistent fields of the peers, and
what the history says about terms. Each critical section is a short sequence of abstract
actions, most of them of none.
-/

namespace DistributedCloud.RaftLab

open ReplicatedLog (Replicas Coherent Accepting Formed Act setAt setAt_self setAt_ne)

variable {n : Nat} {Byte Command : Type}

/-- The peer that a value of `votedFor` names. -/
def candidateOf (votedFor : Int) : Option (Fin n) :=
  if named : 0 ≤ votedFor ∧ votedFor < n then some ⟨votedFor.toNat, by omega⟩ else none

@[simp] theorem candidateOf_none : candidateOf (n := n) (-1) = none := rfl

@[simp] theorem candidateOf_peer (p : Fin n) : candidateOf ((p : Nat) : Int) = some p := by
  have named : (0 : Int) ≤ (p : Nat) ∧ ((p : Nat) : Int) < n := by omega
  simp [candidateOf, named]

theorem candidateOf_eq_some {v : Int} {p : Fin n} :
    candidateOf v = some p ↔ v = (p : Nat) := by
  constructor
  · intro named
    unfold candidateOf at named
    split at named
    · rename_i range
      obtain rfl := Option.some.inj named
      simp only
      omega
    · cases named
  · rintro rfl
    exact candidateOf_peer p

/-- The abstract state of a recorded world. -/
def replicas (w : World n Byte Command) (h : History n Command) :
    Replicas (Fin n) (LogEntries Command) where
  term := fun p => (w.rf p).currentTerm
  log := fun p => (w.rf p).log
  voted := fun p term => candidateOf (h.voted p term)
  bid := h.bid
  leader := h.leader
  termLog := h.termLog
  accepted := h.accepted

section Fields

variable (w : World n Byte Command) (h : History n Command)

@[simp] theorem replicas_term (p : Fin n) : (replicas w h).term p = (w.rf p).currentTerm := rfl
@[simp] theorem replicas_log (p : Fin n) : (replicas w h).log p = (w.rf p).log := rfl
@[simp] theorem replicas_bid : (replicas w h).bid = h.bid := rfl
@[simp] theorem replicas_leader : (replicas w h).leader = h.leader := rfl
@[simp] theorem replicas_termLog : (replicas w h).termLog = h.termLog := rfl
@[simp] theorem replicas_accepted : (replicas w h).accepted = h.accepted := rfl

end Fields

section Record

variable {w w' : World n Byte Command} {h : History n Command} {e : Event n Command} {peer : Fin n}

/-- The abstract state after a step, in terms of the peer that took it. -/
theorem replicas_record (actor : w.actor e = some peer)
    (frame : ∀ q, q ≠ peer → w'.nodes q = w.nodes q) :
    replicas w' (History.record w e w' h) =
      { term := Function.update (replicas w h).term peer (w'.rf peer).currentTerm
        log := Function.update (replicas w h).log peer (w'.rf peer).log
        voted := setAt (replicas w h).voted peer (w'.rf peer).currentTerm
          (candidateOf (w'.rf peer).votedFor)
        bid := (h.note w w' e).bid
        leader := if (w'.rf peer).whoami = .leader then
            Function.update h.leader (w'.rf peer).currentTerm (some peer)
          else h.leader
        termLog := if (w'.rf peer).whoami = .leader then
            Function.update h.termLog (w'.rf peer).currentTerm (w'.rf peer).log
          else h.termLog
        accepted := if (w'.rf peer).whoami = .leader then
            setAt (h.note w w' e).accepted peer (w'.rf peer).currentTerm
              (lastLogIndex (w'.rf peer).log)
          else (h.note w w' e).accepted } := by
  have other : ∀ q, q ≠ peer → w'.rf q = w.rf q :=
    fun q differs => congrArg Node.rf (frame q differs)
  rw [record_eq actor]
  refine Replicas.ext ?_ ?_ ?_ rfl ?_ ?_ rfl
  · funext q
    by_cases same : q = peer
    · subst same
      simp
    · simp [other q same, same]
  · funext q
    by_cases same : q = peer
    · subst same
      simp
    · simp [other q same, same]
  · funext q term
    simp only [replicas, History.observe, note_voted, setAt]
    split <;> rfl
  · simp [replicas, History.observe]
  · simp [replicas, History.observe]

theorem setAt_eq_self {P α : Type} [DecidableEq P] {f : P → Int → α} {p : P} {term : Int}
    {value : α} (same : f p term = value) : setAt f p term value = f := by
  funext q t
  by_cases here : q = p ∧ t = term
  · obtain ⟨rfl, rfl⟩ := here
    rw [setAt_self, same]
  · rw [setAt_ne _ _ here]

variable [Zero Command] (actor : w.actor e = some peer)
  (frame : ∀ q, q ≠ peer → w'.nodes q = w.nodes q) (ballots : Ballots w h)
  (formed : Formed LogEntries.term sentinel (replicas w h)) (nonempty : (w.rf peer).log ≠ [])

include actor frame ballots formed nonempty

omit [Zero Command] actor frame ballots formed nonempty in
/-- A change of term or vote makes no leader. -/
theorem TermChange.unled (change : TermChange (w.rf peer) (w'.rf peer))
    (log : (w'.rf peer).log = (w.rf peer).log)
    (accepted : (h.note w w' e).accepted = h.accepted)
    (leads : (w'.rf peer).whoami = .leader) : (w.rf peer).whoami = .leader ∧
      (w'.rf peer).currentTerm = (w.rf peer).currentTerm ∧ (w'.rf peer).log = (w.rf peer).log ∧
      (h.note w w' e).accepted = h.accepted := by
  obtain ⟨same, term⟩ := change.roleKept (by simp [leads])
  exact ⟨same ▸ leads, term, log, accepted⟩

/-- A step that makes no leader and changes none. -/
theorem replicas_unled
    (kept : (w'.rf peer).whoami = .leader → (w.rf peer).whoami = .leader ∧
      (w'.rf peer).currentTerm = (w.rf peer).currentTerm ∧ (w'.rf peer).log = (w.rf peer).log ∧
      (h.note w w' e).accepted = h.accepted) :
    replicas w' (History.record w e w' h) =
      { replicas w h with
        term := Function.update (replicas w h).term peer (w'.rf peer).currentTerm
        log := Function.update (replicas w h).log peer (w'.rf peer).log
        voted := setAt (replicas w h).voted peer (w'.rf peer).currentTerm
          (candidateOf (w'.rf peer).votedFor)
        bid := (h.note w w' e).bid
        accepted := (h.note w w' e).accepted } := by
  rw [replicas_record actor frame]
  by_cases leads : (w'.rf peer).whoami = .leader
  · obtain ⟨before, term, log, noted⟩ := kept leads
    have led : h.leader (w.rf peer).currentTerm = some peer := ballots.leaders peer before
    have own : (w.rf peer).log = h.termLog (w.rf peer).currentTerm := formed.coherent.own peer led
    have reach : h.accepted peer (w.rf peer).currentTerm = (w.rf peer).log.length - 1 :=
      formed.accepting.leads peer led
    refine Replicas.ext rfl rfl rfl rfl ?_ ?_ ?_
    · simp only [if_pos leads, term]
      exact Function.update_eq_self_iff.mpr led.symm
    · simp only [if_pos leads, term, log]
      exact Function.update_eq_self_iff.mpr own
    · simp only [if_pos leads, term, log, noted]
      refine setAt_eq_self ?_
      rw [reach, lastLogIndex_of_ne_nil nonempty]
  · simp only [if_neg leads]
    rfl

/-- A step that leaves the persistent fields as they are. -/
theorem replicas_quiet
    (role : (w'.rf peer).whoami = .leader → (w.rf peer).whoami = .leader)
    (term : (w'.rf peer).currentTerm = (w.rf peer).currentTerm)
    (vote : (w'.rf peer).votedFor = (w.rf peer).votedFor)
    (log : (w'.rf peer).log = (w.rf peer).log) (bid : (h.note w w' e).bid = h.bid)
    (accepted : (h.note w w' e).accepted = h.accepted) :
    replicas w' (History.record w e w' h) = replicas w h := by
  rw [replicas_unled actor frame ballots formed nonempty
    fun leads => ⟨role leads, term, log, accepted⟩, term, vote, log, bid, accepted]
  refine Replicas.ext ?_ ?_ ?_ rfl rfl rfl rfl
  · exact Function.update_eq_self peer _
  · exact Function.update_eq_self peer _
  · refine setAt_eq_self ?_
    change candidateOf (h.voted peer (w.rf peer).currentTerm) = _
    rw [ballots.current peer]

/-- A step in which the peer sees a term, and at most steps down. -/
theorem replicas_raised
    (change : TermChange (w.rf peer) (w'.rf peer))
    (vote : h.voted peer (w'.rf peer).currentTerm = (w'.rf peer).votedFor)
    (log : (w'.rf peer).log = (w.rf peer).log) (bid : (h.note w w' e).bid = h.bid)
    (accepted : (h.note w w' e).accepted = h.accepted) :
    replicas w' (History.record w e w' h) =
      (replicas w h).raise peer (w'.rf peer).currentTerm := by
  rw [replicas_unled actor frame ballots formed nonempty (change.unled log accepted), log, bid, accepted]
  refine Replicas.ext rfl ?_ ?_ rfl rfl rfl rfl
  · exact Function.update_eq_self peer _
  · refine setAt_eq_self ?_
    change candidateOf (h.voted peer (w'.rf peer).currentTerm) = _
    rw [vote]

/-- A step in which the peer sees a term and votes in it. -/
theorem replicas_granted {c : Fin n} (change : TermChange (w.rf peer) (w'.rf peer))
    (vote : (w'.rf peer).votedFor = (c : Nat)) (log : (w'.rf peer).log = (w.rf peer).log)
    (bid : (h.note w w' e).bid = h.bid) (accepted : (h.note w w' e).accepted = h.accepted) :
    replicas w' (History.record w e w' h) =
      ((replicas w h).raise peer (w'.rf peer).currentTerm).vote peer c := by
  rw [replicas_unled actor frame ballots formed nonempty (change.unled log accepted), log, bid, accepted, vote,
    candidateOf_peer]
  refine Replicas.ext rfl ?_ ?_ rfl rfl rfl rfl
  · exact Function.update_eq_self peer _
  · simp [Replicas.vote, Replicas.raise]

theorem replicas_stood [Labgob Byte Command] (after : w'.rf peer = (w.rf peer).startElection) (me : (w.rf peer).me = peer)
    (bid : (h.note w w' e).bid = setAt h.bid peer ((w.rf peer).currentTerm + 1) (w.rf peer).log)
    (accepted : (h.note w w' e).accepted = h.accepted) :
    replicas w' (History.record w e w' h) =
      (replicas w h).stand peer ((w.rf peer).currentTerm + 1) := by
  have kept : (w'.rf peer).whoami = .leader → (w.rf peer).whoami = .leader ∧
      (w'.rf peer).currentTerm = (w.rf peer).currentTerm ∧ (w'.rf peer).log = (w.rf peer).log ∧
      (h.note w w' e).accepted = h.accepted := by
    intro leads
    rw [after] at leads
    cases leads
  rw [replicas_unled actor frame ballots formed nonempty kept, bid, accepted, after]
  refine Replicas.ext rfl ?_ ?_ rfl rfl rfl rfl
  · exact Function.update_eq_self peer _
  · change setAt _ peer _ (candidateOf ((w.rf peer).me : Nat)) = _
    rw [me, candidateOf_peer]
    rfl

omit [Zero Command] formed in
theorem replicas_elected (after : w'.rf peer = (w.rf peer).convertToLeader.1)
    (bid : (h.note w w' e).bid = h.bid) (accepted : (h.note w w' e).accepted = h.accepted) :
    replicas w' (History.record w e w' h) = (replicas w h).lead peer := by
  rw [replicas_record actor frame, bid, accepted, after]
  refine Replicas.ext ?_ ?_ ?_ rfl rfl rfl ?_
  · exact Function.update_eq_self peer _
  · exact Function.update_eq_self peer _
  · refine setAt_eq_self ?_
    change candidateOf (h.voted peer (w.rf peer).currentTerm) = _
    rw [ballots.current peer]
    rfl
  · change setAt h.accepted peer (w.rf peer).currentTerm (lastLogIndex (w.rf peer).log) = _
    rw [lastLogIndex_of_ne_nil nonempty]
    rfl

omit [Zero Command] formed nonempty in
theorem replicas_extended {entry : LogEntries Command} (leads : (w.rf peer).whoami = .leader)
    (role : (w'.rf peer).whoami = .leader)
    (term : (w'.rf peer).currentTerm = (w.rf peer).currentTerm)
    (vote : (w'.rf peer).votedFor = (w.rf peer).votedFor)
    (log : (w'.rf peer).log = (w.rf peer).log ++ [entry]) (bid : (h.note w w' e).bid = h.bid)
    (accepted : (h.note w w' e).accepted = h.accepted) :
    replicas w' (History.record w e w' h) = (replicas w h).extend peer entry := by
  have led : h.leader (w.rf peer).currentTerm = some peer := ballots.leaders peer leads
  rw [replicas_record actor frame, bid, accepted, term, vote, log]
  simp only [if_pos role]
  refine Replicas.ext ?_ rfl ?_ rfl ?_ rfl ?_
  · exact Function.update_eq_self peer _
  · refine setAt_eq_self ?_
    change candidateOf (h.voted peer (w.rf peer).currentTerm) = _
    rw [ballots.current peer]
  · exact Function.update_eq_self_iff.mpr led.symm
  · rw [lastLogIndex_of_ne_nil (by simp), List.length_append, List.length_singleton]
    change setAt h.accepted peer (w.rf peer).currentTerm _ =
      setAt h.accepted peer (w.rf peer).currentTerm ((w.rf peer).log.length : Int)
    congr 1
    push_cast
    omega

theorem replicas_appended {j : Nat} (follows : (w'.rf peer).whoami ≠ .leader)
    (vote : h.voted peer (w'.rf peer).currentTerm = (w'.rf peer).votedFor)
    (log : (w'.rf peer).log = (h.termLog (w'.rf peer).currentTerm).take (j + 1))
    (bid : (h.note w w' e).bid = h.bid)
    (accepted : (h.note w w' e).accepted = setAt h.accepted peer (w'.rf peer).currentTerm
      (max (h.accepted peer (w'.rf peer).currentTerm) j)) :
    replicas w' (History.record w e w' h) =
      ((replicas w h).raise peer (w'.rf peer).currentTerm).accept peer j := by
  rw [replicas_unled actor frame ballots formed nonempty fun leads => absurd leads follows, log,
    bid, accepted]
  refine Replicas.ext rfl ?_ ?_ rfl rfl rfl ?_
  · simp [Replicas.accept, Replicas.raise]
  · refine setAt_eq_self ?_
    change candidateOf (h.voted peer (w'.rf peer).currentTerm) = _
    rw [vote]
  · simp [Replicas.accept, Replicas.raise]

end Record

end DistributedCloud.RaftLab
