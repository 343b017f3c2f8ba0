import DistributedCloud.KvSrv.Proofs.ExactlyOnce

/-!
# The reply of a retried append

The server keeps the reply of the last update of each client, to answer retries with, until the
client has it deleted. The request to delete it names the client and not the update: one that
comes late may delete the reply of the next update, and a retry of that is answered with `""`.
As long as such requests are handled while the call that made them waits, the reply is there for
as long as it may be asked for.
-/

namespace DistributedCloud.KvSrv

variable {ops : Nat → Operation}

/-- The call of `Delete` of an operation has not returned. -/
def Stage.IsDeleting : Stage → Prop
  | .deleting _ => True
  | _ => False

instance (stage : Stage) : Decidable stage.IsDeleting := by
  unfold Stage.IsDeleting
  split
  · infer_instance
  · infer_instance

theorem Stage.IsDeleting.eq {stage : Stage} (deleting : stage.IsDeleting) :
    ∃ reply, stage = .deleting reply := by
  cases stage with
  | deleting reply => exact ⟨reply, rfl⟩
  | notInvoked => cases deleting
  | invoked => cases deleting
  | calling body attempt => cases deleting
  | returned reply result => cases deleting

/-- A request to delete is not handled after the call that made it has returned. -/
def DeletesInTime (w : World) : Event → Prop
  | .handle request _ =>
    match request.body with
    | .delete _ => (w.stages request.op).IsDeleting
    | _ => True
  | _ => True

instance (w : World) : DecidablePred (DeletesInTime w) := fun e => by
  unfold DeletesInTime
  split
  · split
    · infer_instance
    · infer_instance
  · infer_instance

/-! ## The calls of an operation -/

/-- Call number `attempt` has been made. -/
def Stage.Made (attempt : Nat) : Stage → Prop
  | .notInvoked => False
  | .invoked => False
  | .calling _ last => attempt ≤ last
  | _ => True

/-- What is on its way, to the server or back, belongs to a call that has been made. -/
structure Numbered (w : World) : Prop where
  requests : ∀ request ∈ w.sent, (w.stages request.op).Made request.attempt
  replies : ∀ reply ∈ w.replies, (w.stages reply.op).Made reply.attempt

/-- A stage in which at least as many calls have been made. -/
theorem Numbered.setStage {w : World} (numbered : Numbered w) {i : Nat} {stage : Stage}
    (more : ∀ attempt, (w.stages i).Made attempt → stage.Made attempt) :
    Numbered (w.setStage i stage) := by
  have kept : ∀ j attempt, (w.stages j).Made attempt →
      ((w.setStage i stage).stages j).Made attempt := by
    intro j attempt
    revert j
    apply forall_setStage (P := fun j stage => (w.stages j).Made attempt → stage.Made attempt)
    · exact more attempt
    · exact fun j _ => id
  exact ⟨fun request listed => kept _ _ (numbered.requests request listed),
    fun reply listed => kept _ _ (numbered.replies reply listed)⟩

/-- A call that has been made is sent. -/
theorem Numbered.send {w : World} (numbered : Numbered w) {request : Request}
    (made : (w.stages request.op).Made request.attempt) :
    Numbered { w with sent := w.sent ++ [request] } where
  requests := List.forall_mem_append.mpr ⟨numbered.requests, List.forall_mem_singleton.mpr made⟩
  replies := numbered.replies

theorem Numbered.setClerk {w : World} (numbered : Numbered w) {client : Nat} {clerk : Clerk} :
    Numbered (w.setClerk client clerk) :=
  ⟨numbered.requests, numbered.replies⟩

theorem numbered_step {w w' : World} {e : Event} (next : ServiceStep ops w e w')
    (numbered : Numbered w) : Numbered w' := by
  cases next with
  | invoke fresh =>
    apply numbered.setStage
    intro attempt made
    rw [fresh] at made
    exact absurd made id
  | startUpdate invoked update free =>
    refine (numbered.setClerk.setStage (fun attempt made => ?_)).send ?_
    · replace made := invoked ▸ made
      exact absurd made id
    · rw [setStage_self]
      exact Nat.le_refl 1
  | startGet invoked read =>
    refine (numbered.setStage (fun attempt made => ?_)).send ?_
    · rw [invoked] at made
      exact absurd made id
    · rw [setStage_self]
      exact Nat.le_refl 1
  | @handle request keep sent =>
    refine ⟨numbered.requests, fun reply listed => ?_⟩
    rcases mem_kept listed with before | rfl
    · exact numbered.replies reply before
    · exact numbered.requests request sent
  | retry calling =>
    refine (numbered.setStage (fun attempt made => ?_)).send ?_
    · rw [calling] at made
      exact Nat.le_succ_of_le made
    · rw [setStage_self]
      exact Nat.le_refl _
  | receiveUpdate calling update reply =>
    refine (numbered.setStage (fun attempt made => ?_)).send ?_
    · trivial
    · rw [setStage_self]
      trivial
  | receiveGet calling read reply =>
    refine numbered.setStage (fun attempt made => ?_)
    trivial
  | finish deleting =>
    refine numbered.setClerk.setStage (fun attempt made => ?_)
    trivial

theorem numbered_reachable {ok : World × History → Event → Prop} {w : World} {h : History}
    (reached : (recordedService ops).ReachableWhen ok (w, h)) : Numbered w := by
  apply reached.invariant (I := fun s => Numbered s.1)
  · exact ⟨by simp [recordedService, service, Machine.withHistory],
      by simp [recordedService, service, Machine.withHistory]⟩
  · rintro ⟨w, h⟩ e ⟨w', h'⟩ - numbered - next
    exact numbered_step (serviceStep_of_step (Machine.withHistory_step.mp next).1) numbered

/-! ## The reply that the server keeps -/

/-- The right reply to an update that has been executed. -/
def Answers (ops : Nat → Operation) (h : History) (i : Nat) (reply : String) : Prop :=
  (store ops).AnswersAt (updates ops h.log) i reply

/-- What an update has been told, or may still be told, is the right reply. -/
def Told (ops : Nat → Operation) (w : World) (h : History) (i : Nat) : Stage → Prop
  | .calling _ attempt =>
    (i ∈ updates ops h.log →
      ∃ reply, w.server.record (ops i).client = some reply ∧ Answers ops h i reply) ∧
    ∀ reply, ⟨i, attempt, reply⟩ ∈ w.replies → Answers ops h i reply
  | .deleting reply => Answers ops h i reply
  | .returned reply result => Answers ops h i reply ∧ result = reply
  | _ => True

/-- The replies to all updates are right. -/
def Stable (ops : Nat → Operation) (w : World) (h : History) : Prop :=
  ∀ i, (ops i).IsUpdate → Told ops w h i (w.stages i)

section Told

variable {w : World} {h : History} {i : Nat} {stage : Stage}

/-- What is told stays right when more updates are executed, as long as the server keeps the
    reply and nothing new is said. -/
theorem Told.mono {w' : World} {h' : History} (told : Told ops w h i stage)
    (longer : ∃ more, updates ops h'.log = updates ops h.log ++ more)
    (cached : ∀ body attempt, stage = .calling body attempt → i ∈ updates ops h'.log →
      i ∈ updates ops h.log ∧ w'.server.record (ops i).client = w.server.record (ops i).client)
    (said : ∀ body attempt, stage = .calling body attempt → ∀ reply,
      ⟨i, attempt, reply⟩ ∈ w'.replies → ⟨i, attempt, reply⟩ ∈ w.replies ∨ Answers ops h' i reply) :
    Told ops w' h' i stage := by
  obtain ⟨more, longer⟩ := longer
  have keeps : ∀ reply, Answers ops h i reply → Answers ops h' i reply := by
    intro reply answers
    rw [Answers, longer]
    exact SequentialObject.AnswersAt.append answers more
  cases stage with
  | notInvoked => trivial
  | invoked => trivial
  | calling body attempt =>
    refine ⟨fun done => ?_, fun reply listed => ?_⟩
    · obtain ⟨before, same⟩ := cached body attempt rfl done
      obtain ⟨reply, kept, answers⟩ := told.1 before
      exact ⟨reply, same.trans kept, keeps reply answers⟩
    · rcases said body attempt rfl reply listed with before | answers
      · exact keeps reply (told.2 reply before)
      · exact answers
  | deleting reply => exact keeps reply told
  | returned reply result => exact ⟨keeps reply told.1, told.2⟩

/-- The same server, replies and updates. -/
theorem Told.same {w' : World} {h' : History} (told : Told ops w h i stage)
    (server : w'.server = w.server) (replies : w'.replies = w.replies)
    (log : updates ops h'.log = updates ops h.log) : Told ops w' h' i stage := by
  apply told.mono
  · exact ⟨[], by rw [log, List.append_nil]⟩
  · intro body attempt _ done
    rw [server]
    exact ⟨log ▸ done, rfl⟩
  · intro body attempt _ reply listed
    exact Or.inl (replies ▸ listed)

end Told

section Stable

variable {w : World} {h : History}

/-- Two updates of one client are not on their way at the same time. -/
theorem Orderly.same_of_busy (orderly : Orderly ops w h) {i j : Nat} (update : (ops i).IsUpdate)
    (busy : (w.stages i).Busy) (update' : (ops j).IsUpdate) (busy' : (w.stages j).Busy)
    (client : (ops j).client = (ops i).client) : j = i := by
  have held := ((orderly.acts i).holds update busy).1
  have held' := ((orderly.acts j).holds update' busy').1
  rw [client, held] at held'
  exact (Option.some.inj held').symm

/-- A retry of an update that has been executed is answered from the record. -/
theorem Stable.answer (stable : Stable ops w h) {i attempt : Nat} (update : (ops i).IsUpdate)
    (done : i ∈ updates ops h.log) (keep : Bool) :
    Stable ops
      { w with
        replies :=
          if keep then ⟨i, attempt, (w.server.record (ops i).client).getD ""⟩ :: w.replies
          else w.replies } h := by
  intro j isUpdate
  refine (stable j isUpdate).mono ⟨[], by simp⟩ (fun _ _ _ before => ⟨before, rfl⟩) ?_
  intro body last calling reply listed
  replace calling : w.stages j = .calling body last := calling
  rcases mem_kept listed with before | new
  · exact Or.inl before
  · obtain ⟨rfl, rfl, rfl⟩ := Reply.mk.inj new
    have told := stable j isUpdate
    rw [calling] at told
    obtain ⟨kept, recorded, answers⟩ := told.1 done
    rw [recorded]
    exact Or.inr answers

/-- An update is executed, and the reply is kept for its retries. -/
theorem Stable.execute (stable : Stable ops w h) (orderly : Orderly ops w h)
    (executed : Executed ops w h) {i attempt : Nat} (update : (ops i).IsUpdate)
    (turn : (startedBy ops h.started (ops i).client)[w.server.lastSeq (ops i).client]? = some i)
    {lastSeq : Nat → Nat} (keep : Bool) :
    Stable ops
      { w with
        server :=
          { value := (store ops).apply w.server.value i
            lastSeq := lastSeq
            record := Function.update w.server.record (ops i).client
              (some ((store ops).answer w.server.value i)) }
        replies :=
          if keep then ⟨i, attempt, (store ops).answer w.server.value i⟩ :: w.replies
          else w.replies }
      { h with log := h.log ++ [.performed i] } := by
  have new : i ∉ updates ops h.log := fun done =>
    absurd ((executed.mem_updates_iff orderly turn).mp done) (Nat.lt_irrefl _)
  have grown : updates ops (h.log ++ [.performed i]) = updates ops h.log ++ [i] := by
    rw [updates_performed, if_pos update]
  have answers : Answers ops { h with log := h.log ++ [.performed i] } i
      ((store ops).answer w.server.value i) := by
    rw [Answers, grown, executed.value]
    exact SequentialObject.answersAt_last _ _
  intro j isUpdate
  by_cases same : j = i
  · subst same
    have done := executed.done j update
    show Told ops _ _ j (w.stages j)
    cases stage : w.stages j with
    | notInvoked => trivial
    | invoked => trivial
    | calling body last =>
      refine ⟨fun _ => ⟨_, Function.update_self _ _ _, answers⟩, fun reply listed => ?_⟩
      rcases mem_kept listed with before | isNew
      · exact absurd (executed.replied _ before update) new
      · cases isNew
        exact answers
    | deleting reply =>
      rw [stage] at done
      exact absurd (done trivial) new
    | returned reply result =>
      rw [stage] at done
      exact absurd (done trivial) new
  · refine (stable j isUpdate).mono ⟨[i], grown⟩ ?_ ?_
    · intro body last calling performed
      replace calling : w.stages j = .calling body last := calling
      have before : j ∈ updates ops h.log := by
        rw [grown] at performed
        rcases List.mem_append.mp performed with before | last
        · exact before
        · exact absurd (List.mem_singleton.mp last) same
      refine ⟨before, Function.update_of_ne ?_ _ _⟩
      -- the server has caught up with the clerk of `j`, but not with that of `i`
      intro client
      have caughtUp := executed.caught_up orderly isUpdate (by rw [calling]; trivial) before
      have inside := (List.getElem?_eq_some_iff.mp turn).1
      rw [client, orderly.counted] at caughtUp
      omega
    · intro body last calling reply listed
      rcases mem_kept listed with before | isNew
      · exact Or.inl before
      · cases isNew
        exact absurd rfl same

/-- The kept reply is deleted while the update that it was for has not returned. -/
theorem Stable.delete (stable : Stable ops w h) (orderly : Orderly ops w h) {i attempt : Nat}
    (update : (ops i).IsUpdate) (deleting : (w.stages i).IsDeleting) (keep : Bool) :
    Stable ops
      { w with
        server := w.server.delete (ops i).client
        replies := if keep then ⟨i, attempt, ""⟩ :: w.replies else w.replies } h := by
  obtain ⟨kept, stage⟩ := deleting.eq
  have notCalling : ∀ body last, w.stages i ≠ .calling body last := by
    intro body last calling
    rw [stage] at calling
    cases calling
  intro j isUpdate
  refine (stable j isUpdate).mono ⟨[], by simp⟩ ?_ ?_
  · intro body last calling done
    replace calling : w.stages j = .calling body last := calling
    refine ⟨done, Function.update_of_ne ?_ _ _⟩
    intro client
    have same := orderly.same_of_busy update (by rw [stage]; trivial) isUpdate
      (by rw [calling]; trivial) client
    exact notCalling body last (same ▸ calling)
  · intro body last calling reply listed
    rcases mem_kept listed with before | isNew
    · exact Or.inl before
    · obtain ⟨rfl, -, -⟩ := Reply.mk.inj isNew
      exact absurd calling (notCalling _ _)

theorem Stable.handle (stable : Stable ops w h) (orderly : Orderly ops w h)
    (executed : Executed ops w h) {request : Request} (sent : request ∈ w.sent) {keep : Bool}
    (guard : DeletesInTime w (.handle request keep)) (w' : World) :
    Stable ops
      { w with
        server := (w.server.dispatch request.body).1
        replies :=
          if keep then
            ⟨request.op, request.attempt, (w.server.dispatch request.body).2⟩ :: w.replies
          else w.replies }
      (History.record ops w (.handle request keep) w' h) := by
  cases orderly.sent request sent with
  | @update i attempt k update turn =>
    have dispatched := KVServer.dispatch_update w.server (k + 1) update
    have recorded : History.record ops w (.handle ⟨i, attempt, (ops i).body (k + 1)⟩ keep) w' h =
        if w.server.lastSeq (ops i).client + 1 = k + 1 then
          { h with log := h.log ++ [.performed i] }
        else h := record_handle_update w' update
    rcases Nat.lt_or_eq_of_le (executed.no_gap orderly turn) with before | next
    · have late : w.server.lastSeq (ops i).client ≥ k + 1 := before
      rw [if_pos late] at dispatched
      rw [if_neg (by omega)] at recorded
      simp only [dispatched, recorded]
      exact stable.answer update ((executed.mem_updates_iff orderly turn).mpr late) keep
    · subst next
      rw [if_neg (by omega), if_neg (by omega)] at dispatched
      rw [if_pos rfl] at recorded
      simp only [dispatched, recorded]
      exact stable.execute orderly executed update turn keep
  | @get i attempt read =>
    rw [record_handle_get w' read]
    simp only [KVServer.dispatch_get w.server 0 read]
    have same : updates ops
        (if keep then { h with log := h.log ++ [.performed i] } else h : History).log =
          updates ops h.log := by
      split
      · simp only [updates_performed, if_neg read, List.append_nil]
      · rfl
    intro j isUpdate
    refine (stable j isUpdate).mono ⟨[], by rw [same, List.append_nil]⟩ ?_ ?_
    · exact fun _ _ _ done => ⟨same ▸ done, rfl⟩
    · intro body last calling reply listed
      rcases mem_kept listed with before | isNew
      · exact Or.inl before
      · obtain ⟨rfl, -, -⟩ := Reply.mk.inj isNew
        exact absurd isUpdate read
  | @delete i attempt update => exact stable.delete orderly update guard keep

end Stable

theorem stable_init : Stable ops (service ops).init ⟨[], []⟩ := fun _ _ => trivial

/-- The stage of one operation changes. -/
theorem Stable.setStage {w w' : World} {h h' : History} (stable : Stable ops w h) {i : Nat}
    {stage : Stage} (server : w'.server = w.server) (replies : w'.replies = w.replies)
    (log : updates ops h'.log = updates ops h.log)
    (stages : w'.stages = (w.setStage i stage).stages)
    (here : (ops i).IsUpdate → Told ops w h i stage) : Stable ops w' h' := by
  rw [Stable, stages]
  apply forall_setStage (P := fun j stage => (ops j).IsUpdate → Told ops w' h' j stage)
  · exact fun update => (here update).same server replies log
  · exact fun j _ update => (stable j update).same server replies log

theorem stable_step {w w' : World} {e : Event} {h : History} (next : ServiceStep ops w e w')
    (guard : DeletesInTime w e) (orderly : Orderly ops w h) (executed : Executed ops w h)
    (numbered : Numbered w) (stable : Stable ops w h) :
    Stable ops w' (History.record ops w e w' h) := by
  cases next with
  | invoke fresh => exact stable.setStage rfl rfl (updates_invoked _ _) rfl (fun _ => trivial)
  | @startUpdate i invoked update free =>
    simp only [History.record, update, if_true]
    refine stable.setStage rfl rfl rfl rfl (fun _ => ⟨fun done => ?_, fun reply listed => ?_⟩)
    · have begun := executed.begun orderly done
      rw [invoked] at begun
      exact absurd begun id
    · have made := numbered.replies _ listed
      rw [invoked] at made
      exact absurd made id
  | @startGet i invoked read =>
    simp only [History.record, read, if_false]
    exact stable.setStage rfl rfl rfl rfl (fun update => absurd update read)
  | handle sent => exact stable.handle orderly executed sent guard _
  | @retry i attempt body calling =>
    refine stable.setStage rfl rfl rfl rfl (fun update => ?_)
    have told := stable i update
    rw [calling] at told
    refine ⟨told.1, fun reply listed => ?_⟩
    have made := numbered.replies _ listed
    rw [calling] at made
    exact absurd made (Nat.not_succ_le_self attempt)
  | @receiveUpdate i attempt body value calling update reply =>
    simp only [History.record, update, if_true]
    refine stable.setStage rfl rfl rfl rfl (fun _ => ?_)
    have told := stable i update
    rw [calling] at told
    exact told.2 value reply
  | @receiveGet i attempt body value calling read reply =>
    simp only [History.record, read, if_false]
    exact stable.setStage rfl rfl (updates_returned _ _) rfl (fun update => absurd update read)
  | @finish i reply deleting =>
    refine stable.setStage rfl rfl (updates_returned _ _) rfl (fun update => ?_)
    have told := stable i update
    rw [deleting] at told
    exact ⟨told, rfl⟩

theorem stable_reachable {ok : World × History → Event → Prop}
    (inTime : ∀ s e, ok s e → DeletesInTime s.1 e) {w : World} {h : History}
    (reached : (recordedService ops).ReachableWhen ok (w, h)) : Stable ops w h := by
  apply reached.invariant (I := fun s => Stable ops s.1 s.2)
  · exact stable_init
  · rintro ⟨w, h⟩ e ⟨w', h'⟩ before stable guard next
    obtain ⟨orderly, executed⟩ := orderly_executed before
    obtain ⟨stepped, recorded⟩ : w.step ops e = some w' ∧ h' = History.record ops w e w' h :=
      Machine.withHistory_step.mp next
    subst recorded
    exact stable_step (serviceStep_of_step stepped) (inTime _ _ guard) orderly executed
      (numbered_reachable before) stable

/-- As long as no request to delete is handled after its call has returned, what an append
    returns is the value of its key just before it was executed, once. -/
theorem stableAppendReply {w : World} {h : History}
    (reached : (recordedService ops).ReachableWhen (fun s e => DeletesInTime s.1 e) (w, h))
    {i : Nat} {key value reply result : String} (append : (ops i).command = .append key value)
    (returned : w.stages i = .returned reply result) :
    (updates ops h.log).Nodup ∧ ∃ before behind, updates ops h.log = before ++ i :: behind ∧
      result = ((store ops).after before key).getD "" := by
  obtain ⟨-, executed⟩ := orderly_executed reached
  have stable := stable_reachable (fun _ _ inTime => inTime) reached
  have told := stable i (by simp [Operation.IsUpdate, append])
  rw [returned] at told
  obtain ⟨⟨before, behind, split, answer⟩, rfl⟩ := told
  refine ⟨executed.timed.nodup, before, behind, split, ?_⟩
  rw [answer]
  simp [store, append]

/-- Client 7 appends `"a"` and then `"b"` to `"k"`. -/
def twoAppends (i : Nat) : Operation := ⟨7, .append "k" (if i = 0 then "a" else "b")⟩

/-- The reply to the second append is lost at first, and the request to delete the reply of the
    first was handled before. -/
def retriedAppend : World × History :=
  ((recordedService twoAppends).guarded (fun s e => DeletesInTime s.1 e)).after
    [.invoke 0, .start 0, .handle ⟨0, 1, .append ⟨"k", "a", 1, 7⟩⟩ true, .receive 0 "",
      .handle ⟨0, 2, .delete 7⟩ false, .finish 0,
      .invoke 1, .start 1, .handle ⟨1, 1, .append ⟨"k", "b", 2, 7⟩⟩ false, .retry 1,
      .handle ⟨1, 2, .append ⟨"k", "b", 2, 7⟩⟩ true, .receive 1 "a", .finish 1]

theorem stableAppendReply_retriedAppend :
    retriedAppend.1.stages 1 = .returned "a" "a" ∧
      ∃ before behind, updates twoAppends retriedAppend.2.log = before ++ 1 :: behind ∧
        "a" = ((store twoAppends).after before "k").getD "" := by
  have reached : (recordedService twoAppends).ReachableWhen (fun s e => DeletesInTime s.1 e)
      retriedAppend := Machine.reachableWhen_of_guarded (Machine.reachable_after _)
  have returned : retriedAppend.1.stages 1 = .returned "a" "a" := by decide +kernel
  exact ⟨returned, (stableAppendReply (w := retriedAppend.1) (h := retriedAppend.2) reached rfl
    returned).2⟩

/-- The request to delete the reply of the first append is handled only after the second one has
    been executed. -/
def lateDelete : World × History :=
  (recordedService twoAppends).after
    [.invoke 0, .start 0, .handle ⟨0, 1, .append ⟨"k", "a", 1, 7⟩⟩ true, .receive 0 "", .finish 0,
      .invoke 1, .start 1, .handle ⟨1, 1, .append ⟨"k", "b", 2, 7⟩⟩ false,
      .handle ⟨0, 2, .delete 7⟩ false, .retry 1,
      .handle ⟨1, 2, .append ⟨"k", "b", 2, 7⟩⟩ true, .receive 1 "", .finish 1]

/-- The second append returns `""`, where the value of the key before it is `"a"`. -/
theorem lateDelete_forgets :
    (recordedService twoAppends).Reachable lateDelete ∧
      lateDelete.1.stages 1 = .returned "" "" ∧ updates twoAppends lateDelete.2.log = [0] ++ [1] ∧
      (store twoAppends).after [0] "k" = some "a" :=
  ⟨Machine.reachable_after _, by decide +kernel, by decide +kernel, by decide +kernel⟩

end DistributedCloud.KvSrv
