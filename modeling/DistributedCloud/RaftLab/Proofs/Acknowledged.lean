import DistributedCloud.RaftLab.Proofs.CommitBounds
import DistributedCloud.RaftLab.Proofs.Replicating
import DistributedCloud.ReplicatedLog.Completeness

/-!
# Acknowledged entries

What `matchIndex` promises is that a follower has accepted the log of the term up to it at some
time. It still has it if no request is accepted after one of the same term that reaches
further: then no accepted request takes away anything that the follower shares with its
leader, and the cluster is one of the sound abstract runs. A delayed heartbeat breaks this.
-/

namespace DistributedCloud.RaftLab

open ReplicatedLog (Replicas Formed Act Extends Agree Keeps Sound)

variable {n : Nat} {Byte Command : Type}

/-- The step accepts no request that ends before another one of its term that the same peer
    has accepted. -/
def AcceptsInOrder (s : World n Byte Command × History n Command) : Event n Command → Prop :=
  s.1.WhenAppend fun call => Accepts (s.1.rf call.server) call.args →
    s.2.accepted call.server call.args.term ≤ call.args.prevLogIndex + call.args.items.length

instance (s : World n Byte Command × History n Command) (e : Event n Command) :
    Decidable (AcceptsInOrder s e) :=
  inferInstanceAs (Decidable (s.1.WhenAppend _ e))

/-- Requests are built by leaders, and those of one term are accepted in the order of their
    ends. -/
def Orderly (s : World n Byte Command × History n Command) (e : Event n Command) : Prop :=
  SentByLeader s.1 e ∧ AcceptsInOrder s e

instance (s : World n Byte Command × History n Command) (e : Event n Command) :
    Decidable (Orderly s e) :=
  inferInstanceAs (Decidable (_ ∧ _))

/-- The step accepts no request that ends before the receiver's log does. -/
def EndsPastLog (w : World n Byte Command) : Event n Command → Prop :=
  w.WhenAppend fun call => Accepts (w.rf call.server) call.args →
    (w.rf call.server).getLastLogIndex ≤ call.args.prevLogIndex + call.args.items.length

instance (w : World n Byte Command) (e : Event n Command) : Decidable (EndsPastLog w e) :=
  inferInstanceAs (Decidable (w.WhenAppend _ e))

/-- What the leaders and the replies know about the followers' logs. -/
structure Matched (w : World n Byte Command) (h : History n Command) : Prop where
  leaders : ∀ p f, (w.rf p).whoami = .leader →
    (w.rf p).matchIndex f ≤ max 0 (h.accepted f (w.rf p).currentTerm)
  replies : ∀ call ∈ w.appends, ∀ reply, call.reply = some reply → reply.success = true →
    call.args.prevLogIndex + call.args.items.length ≤ h.accepted call.server call.args.term

variable [Zero Command]

/-- An accepted request that is in order keeps all that its receiver shares with the leader. -/
theorem Replicating.keeps {w : World n Byte Command} {h : History n Command}
    (inv : Replicating w h) {call : Call n (AppendEntriesArgs Command) AppendEntriesReply}
    (member : call ∈ w.appends) (accepts : Accepts (w.rf call.server) call.args)
    (inOrder : h.accepted call.server call.args.term ≤
      call.args.prevLogIndex + call.args.items.length) {j : Nat}
    (index : (j : Int) = call.args.prevLogIndex + call.args.items.length) :
    Keeps ((replicas w h).raise call.server call.args.term) call.server j := by
  intro i agree
  simp only [Replicas.raise, Function.update_self, replicas_log, replicas_termLog] at agree
  have least : -1 ≤ h.accepted call.server call.args.term :=
    inv.formed.accepting.least call.server call.args.term
  rcases Int.lt_or_le (h.accepted call.server call.args.term) 0 with none | some
  · have bounded := inv.agree_le member accepts.1 (by omega) agree
    omega
  · have now : (w.rf call.server).currentTerm = call.args.term := by
      by_contra other
      have future : h.accepted call.server call.args.term = -1 :=
        inv.formed.accepting.future call.server _ (lt_of_le_of_ne accepts.1 other)
      omega
    have short := inv.formed.accepting.short call.server (by rw [replicas_term, now]; exact some)
    rw [replicas_term, now] at short
    have inside := agree.inside
    simp only [replicas_log, replicas_accepted] at short
    omega

variable [Labgob Byte Command]

section Step

variable {ok : Replicas (Fin n) (LogEntries Command) → Fin n → Nat → Prop}
  {w w' : World n Byte Command} {h : History n Command} {e : Event n Command}

theorem matched_step (inv : Replicating w h) (ballots : Ballots w h) (matched : Matched w h)
    (step : w.Step e w') (acts : Acts ok w h w' (History.record w e w' h)) :
    Matched w' (History.record w e w' h) := by
  have up : ∀ f term, h.accepted f term ≤ (History.record w e w' h).accepted f term :=
    (inv.extends acts).accepted
  have carried : ∀ {m : Int} {f : Fin n} {term : Int}, m ≤ max 0 (h.accepted f term) →
      m ≤ max 0 ((History.record w e w' h).accepted f term) := fun bound =>
    le_trans bound (max_le_max le_rfl (up _ _))
  refine ⟨?_, ?_⟩
  · intro p f leads
    obtain ⟨peer, actor, frame⟩ := step_actor step
    by_cases same : p = peer
    · subst same
      cases step_leads step actor leads with
      | kept role term _ kept =>
        rw [term, kept]
        exact carried (matched.leaders p f role)
      | elected _ after =>
        rw [after]
        exact le_max_left _ _
      | backedUp _ _ _ _ role _ after =>
        rw [after]
        exact carried (matched.leaders p f role)
      | @acknowledged call reply member caller replied term role success committed =>
        subst caller
        obtain ⟨_, after⟩ := checkAndCommitLogs_frame committed
        rw [after]
        refine carried ?_
        change Function.update (w.rf call.caller).matchIndex call.server _ f ≤
          max 0 (h.accepted f (w.rf call.caller).currentTerm)
        by_cases here : f = call.server
        · subst here
          rw [Function.update_self, ← term]
          exact le_trans (matched.replies call member reply replied success) (le_max_right _ _)
        · rw [Function.update_of_ne here]
          exact matched.leaders call.caller f role
    · have node : w'.rf p = w.rf p := congrArg Node.rf (frame p same)
      rw [node] at leads ⊢
      exact carried (matched.leaders p f leads)
  · intro call member reply replied success
    cases step_appends step call member with
    | kept old => exact le_trans (matched.replies call old reply replied success) (up _ _)
    | sent => cases replied
    | @answered k old reply' event found outcome =>
      subst event
      cases replied
      have accepts : Accepts (w.rf old.server) old.args := by
        generalize w'.rf old.server = rf at outcome
        cases outcome with
        | stale | short | mismatch => cases success
        | accepted accepts => exact accepts
      have recorded := inv.recorded ballots found outcome accepts
      exact recorded

end Step

/-! ## Whole runs -/

/-- What holds in every orderly run. -/
structure Faithful (w : World n Byte Command) (h : History n Command) : Prop where
  sound : Sound LogEntries.term sentinel (replicas w h)
  matched : Matched w h

/-- The steps of an orderly run are sound actions. -/
theorem orderly_acts {s s' : World n Byte Command × History n Command} {e : Event n Command}
    (reached : (recordedCluster n Byte Command).ReachableWhen Orderly s) (guard : Orderly s e)
    (next : (recordedCluster n Byte Command).step s e = some s') :
    Acts Keeps s.1 s.2 s'.1 s'.2 := by
  have inv := replicating_reachable (reached.mono fun _ _ both => both.1)
  obtain ⟨ballots, calls⟩ := ballots_reachable reached
  obtain ⟨step, recorded⟩ := recorded_step reached next
  rw [recorded]
  refine step_acts (nodeDurable_reachable reached.dropHistory)
    (worldBounds_reachable reached.dropHistory) ballots calls inv step ?_
  have inOrder := guard.2
  cases e with
  | appendEntries k =>
    intro call found accepts j index
    exact inv.keeps (List.mem_of_getElem? found) accepts (inOrder call found accepts) index
  | _ => trivial

theorem faithful_reachable {s : World n Byte Command × History n Command}
    (reached : (recordedCluster n Byte Command).ReachableWhen Orderly s) : Faithful s.1 s.2 := by
  refine Machine.ReachableWhen.invariant (I := fun s => Faithful s.1 s.2) ?_ ?_ reached
  · refine ⟨⟨replicating_init.formed, ?_⟩, ⟨?_, ?_⟩⟩
    · change ReplicatedLog.Lasting LogEntries.term (replicas World.init History.start)
      rw [replicas_init]
      exact ReplicatedLog.lasting_start sentinel
    · intro p f leads
      cases leads
    · intro call member
      cases member
  · intro s e s' before faithful guard next
    have acts := orderly_acts before guard next
    have inv := replicating_reachable (before.mono fun _ _ both => both.1)
    obtain ⟨step, recorded⟩ := recorded_step before next
    refine ⟨faithful.sound.acts acts, ?_⟩
    rw [recorded] at acts ⊢
    exact matched_step inv (ballots_reachable before).1 faithful.matched step acts

omit [Labgob Byte Command] in
/-- As long as everything accepted is still there, a request that does not shorten the log is in
    order. -/
theorem Faithful.inOrder {w : World n Byte Command} {h : History n Command}
    (faithful : Faithful w h) {e : Event n Command} (past : EndsPastLog w e) :
    AcceptsInOrder (w, h) e := by
  cases e with
  | appendEntries k =>
    intro call found accepts
    have reaches : lastLogIndex (w.rf call.server).log ≤ _ := past call found accepts
    have last := lastLogIndex_nonneg (w.rf call.server).log
    have least : -1 ≤ h.accepted call.server call.args.term :=
      faithful.sound.accepting.least call.server call.args.term
    rcases Int.lt_or_le (h.accepted call.server call.args.term) 0 with none | some
    · exact le_trans none.le (le_trans last reaches)
    · obtain ⟨a, index⟩ := Int.eq_ofNat_of_zero_le some
      have now : (w.rf call.server).currentTerm = call.args.term := by
        by_contra other
        have future : h.accepted call.server call.args.term = -1 :=
          faithful.sound.accepting.future call.server _ (lt_of_le_of_ne accepts.1 other)
        omega
      have agree := faithful.sound.lasting.now call.server a
        (by rw [replicas_term, replicas_accepted, now]; exact index.ge)
      have inside := le_lastLogIndex agree.inside_right
      change h.accepted call.server call.args.term ≤ _
      rw [index]
      exact le_trans inside reaches
  | _ => trivial

theorem orderly_of_endsPastLog {w : World n Byte Command}
    (reached : (cluster n Byte Command).ReachableWhen
      (fun w e => SentByLeader w e ∧ EndsPastLog w e) w) :
    ∃ h, (recordedCluster n Byte Command).ReachableWhen Orderly (w, h) := by
  induction reached with
  | refl => exact ⟨History.start, Machine.ReachableWhen.init⟩
  | @tail w w' e _ guard next ih =>
    obtain ⟨h, before⟩ := ih
    have inOrder := Faithful.inOrder (faithful_reachable before) guard.2
    exact ⟨History.record w e w' h,
      before.step ⟨guard.1, inOrder⟩ (Machine.withHistory_step.mpr ⟨next, rfl⟩)⟩

/-- In every orderly run a follower has everything it has acknowledged to the leader of its
    term. -/
theorem acknowledged_kept {w : World n Byte Command} {h : History n Command}
    (reached : (recordedCluster n Byte Command).ReachableWhen Orderly (w, h)) {leader f : Fin n}
    (leads : (w.rf leader).whoami = .leader)
    (term : (w.rf f).currentTerm = (w.rf leader).currentTerm) :
    (w.rf leader).matchIndex f + 1 ≤ (w.rf f).log.length ∧
      ∀ i : Nat, (i : Int) ≤ (w.rf leader).matchIndex f →
        (w.rf f).log[i]? = (w.rf leader).log[i]? := by
  have faithful : Faithful w h := faithful_reachable reached
  obtain ⟨sound, matched⟩ := faithful
  have bound := matched.leaders leader f leads
  have peers : ∀ p, PeerBounds (w.rf p) := (worldBounds_reachable reached.dropHistory).peers
  obtain ⟨rest, shape, -⟩ := (peers f).log
  obtain ⟨rest', shape', -⟩ := (peers leader).log
  have own : (w.rf leader).log = h.termLog (w.rf leader).currentTerm :=
    sound.coherent.own leader ((ballots_reachable reached).1.leaders leader leads)
  have agree : ∀ i : Nat, (i : Int) ≤ h.accepted f (w.rf leader).currentTerm →
      Agree (w.rf leader).log (w.rf f).log i := by
    intro i le
    rw [own, ← term]
    exact sound.lasting.now f i (by rw [replicas_term, replicas_accepted, term]; exact le)
  refine ⟨?_, ?_⟩
  · rcases Int.lt_or_le 0 ((w.rf leader).matchIndex f) with positive | nothing
    · obtain ⟨m, index⟩ := Int.eq_ofNat_of_zero_le positive.le
      have inside := (agree m (by omega)).inside_right
      omega
    · rw [shape, List.length_cons]
      push_cast
      omega
  · intro i le
    rcases Nat.eq_zero_or_pos i with rfl | positive
    · -- both logs start with the sentinel
      rw [shape, shape']
      rfl
    · exact ((agree i (by omega)).getElem? (le_refl i)).symm

/-- Peer 1 has acknowledged command 7, and the overtaken heartbeat is lost. -/
theorem acknowledged_kept_lost :
    let w := ((cluster 3 (Token Int) Int).guarded
      (fun w e => SentByLeader w e ∧ EndsPastLog w e)).after overtakenHeartbeat
    (w.rf 0).matchIndex 1 = 1 ∧ (w.rf 1).log[1]? = (w.rf 0).log[1]? := by
  intro w
  have leads : (w.rf 0).whoami = .leader := by decide +kernel
  have term : (w.rf 1).currentTerm = (w.rf 0).currentTerm := by decide +kernel
  have index : (w.rf 0).matchIndex 1 = 1 := by decide +kernel
  have reached : (cluster 3 (Token Int) Int).ReachableWhen
      (fun w e => SentByLeader w e ∧ EndsPastLog w e) w :=
    Machine.reachableWhen_of_guarded (Machine.reachable_after overtakenHeartbeat)
  obtain ⟨h, orderly⟩ := orderly_of_endsPastLog reached
  exact ⟨index, (acknowledged_kept orderly leads term).2 1 (by rw [index]; rfl)⟩

/-- The overtaken heartbeat takes the acknowledged entry from peer 1. -/
theorem acknowledged_overtaken :
    ¬ ∀ w, (cluster 3 (Token Int) Int).Reachable w → ∀ leader f : Fin 3,
      (w.rf leader).whoami = .leader → (w.rf f).currentTerm = (w.rf leader).currentTerm →
      (w.rf leader).matchIndex f + 1 ≤ (w.rf f).log.length ∧
        ∀ i : Nat, (i : Int) ≤ (w.rf leader).matchIndex f →
          (w.rf f).log[i]? = (w.rf leader).log[i]? := by
  intro always
  have kept := always _ (Machine.reachable_after (overtakenHeartbeat ++ [.appendEntries 0])) 0 1
    (by decide +kernel) (by decide +kernel)
  have broken : ¬ (((cluster 3 (Token Int) Int).after
      (overtakenHeartbeat ++ [.appendEntries 0])).rf 0).matchIndex 1 + 1 ≤
      ((((cluster 3 (Token Int) Int).after
        (overtakenHeartbeat ++ [.appendEntries 0])).rf 1).log.length : Int) := by
    decide +kernel
  exact broken kept.1

end DistributedCloud.RaftLab
