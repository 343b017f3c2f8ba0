import DistributedCloud.KvSrv.Proofs.StableReply

/-!
# The service is linearizable

Over a network that loses requests and replies but does not let a handler run after its call has
returned. An update is performed when the server executes it, and a `Get` when the server makes
the reply that it will receive. Everything an operation returns is the answer of the sequential
store at this place.
-/

namespace DistributedCloud.KvSrv

variable {ops : Nat → Operation}

/-! ## The network -/

/-- Call number `attempt` of an operation has not returned. -/
def Stage.IsCalling (attempt : Nat) : Stage → Prop
  | .calling _ last => attempt = last
  | _ => False

instance (attempt : Nat) (stage : Stage) : Decidable (stage.IsCalling attempt) := by
  unfold Stage.IsCalling
  split
  · infer_instance
  · infer_instance

theorem Stage.IsCalling.eq {attempt : Nat} {stage : Stage} (calling : stage.IsCalling attempt) :
    ∃ body, stage = .calling body attempt := by
  cases stage with
  | calling body last =>
    cases calling
    exact ⟨body, rfl⟩
  | notInvoked => cases calling
  | invoked => cases calling
  | deleting reply => cases calling
  | returned reply result => cases calling

/-- The call that made the request has not returned. -/
def World.Awaits (w : World) (request : Request) : Prop :=
  match request.body with
  | .delete _ => (w.stages request.op).IsDeleting
  | _ => (w.stages request.op).IsCalling request.attempt

instance (w : World) : DecidablePred w.Awaits
  | ⟨op, attempt, .get _⟩ => inferInstanceAs (Decidable ((w.stages op).IsCalling attempt))
  | ⟨op, attempt, .put _⟩ => inferInstanceAs (Decidable ((w.stages op).IsCalling attempt))
  | ⟨op, attempt, .append _⟩ => inferInstanceAs (Decidable ((w.stages op).IsCalling attempt))
  | ⟨op, _, .delete _⟩ => inferInstanceAs (Decidable (w.stages op).IsDeleting)

/-- No reply is on its way to this call. -/
def World.NoReply (w : World) (i attempt : Nat) : Prop :=
  ∀ reply ∈ w.replies, reply.op = i → reply.attempt ≠ attempt

instance (w : World) (i attempt : Nat) : Decidable (w.NoReply i attempt) := by
  unfold World.NoReply
  infer_instance

/-- A handler runs before its call returns, and not again once its reply is on its way; a call to
    which a reply is on its way does not fail. -/
def Prompt (w : World) : Event → Prop
  | .handle request _ => w.Awaits request ∧ w.NoReply request.op request.attempt
  | .retry i =>
    match w.stages i with
    | .calling _ attempt => w.NoReply i attempt
    | _ => True
  | _ => True

instance (w : World) : DecidablePred (Prompt w)
  | .handle request _ =>
    inferInstanceAs (Decidable (w.Awaits request ∧ w.NoReply request.op request.attempt))
  | .retry i => by
    dsimp only [Prompt]
    split
    · infer_instance
    · infer_instance
  | .invoke _ => isTrue trivial
  | .start _ => isTrue trivial
  | .receive _ _ => isTrue trivial
  | .finish _ => isTrue trivial

theorem Prompt.deletesInTime {w : World} {e : Event} (prompt : Prompt w e) : DeletesInTime w e := by
  cases e with
  | handle request keep =>
    simp only [DeletesInTime]
    split
    · rename_i isDelete
      simpa [World.Awaits, isDelete] using prompt.1
    · trivial
  | invoke i => trivial
  | start i => trivial
  | retry i => trivial
  | receive i value => trivial
  | finish i => trivial

/-! ## Reads -/

/-- What a `Get` has been told, or is about to be told, and whether it is performed. -/
def ReadTold (ops : Nat → Operation) (w : World) (h : History) (i : Nat) : Stage → Prop
  | .calling _ attempt =>
    (Mark.performed i ∈ h.log → ∃ reply, ⟨i, attempt, reply⟩ ∈ w.replies) ∧
      ∀ reply, ⟨i, attempt, reply⟩ ∈ w.replies → (store ops).AnswersAt (Mark.order h.log) i reply
  | .returned reply _ => (store ops).AnswersAt (Mark.order h.log) i reply
  | .deleting _ => True
  | _ => Mark.performed i ∉ h.log

/-- The log is timed, and the replies to all reads are right. -/
structure Sequenced (ops : Nat → Operation) (w : World) (h : History) : Prop where
  timed : Mark.Timed h.log
  reads : ∀ i, ¬ (ops i).IsUpdate → ReadTold ops w h i (w.stages i)

/-- Nothing is said to the read and it is not performed. -/
theorem ReadTold.mono {w w' : World} {h h' : History} {i : Nat} {stage : Stage}
    (told : ReadTold ops w h i stage)
    (longer : ∃ more, Mark.order h'.log = Mark.order h.log ++ more ∧ i ∉ more)
    (said : ∀ attempt reply, ⟨i, attempt, reply⟩ ∈ w'.replies ↔ ⟨i, attempt, reply⟩ ∈ w.replies) :
    ReadTold ops w' h' i stage := by
  obtain ⟨more, longer, other⟩ := longer
  have keeps : ∀ reply, (store ops).AnswersAt (Mark.order h.log) i reply →
      (store ops).AnswersAt (Mark.order h'.log) i reply := by
    intro reply answers
    rw [longer]
    exact answers.append more
  have marks : Mark.performed i ∈ h'.log → Mark.performed i ∈ h.log := by
    intro performed
    have later := Mark.mem_order.mpr performed
    rw [longer] at later
    exact Mark.mem_order.mp ((List.mem_append.mp later).resolve_right other)
  cases stage with
  | notInvoked => exact fun performed => told (marks performed)
  | invoked => exact fun performed => told (marks performed)
  | calling body attempt =>
    refine ⟨fun performed => ?_, fun reply listed => ?_⟩
    · obtain ⟨reply, listed⟩ := told.1 (marks performed)
      exact ⟨reply, (said attempt reply).mpr listed⟩
    · exact keeps reply (told.2 reply ((said attempt reply).mp listed))
  | deleting reply => trivial
  | returned reply result => exact keeps reply told

section Sequenced

variable {w : World} {h : History}

theorem store_inert (i : Nat) (read : decide (ops i).IsUpdate = false)
    (value : String → Option String) : (store ops).apply value i = value :=
  store_apply_get (of_decide_eq_false read) value

theorem updates_eq_filter (log : List (Mark Nat)) :
    updates ops log = (Mark.order log).filter (fun i => (ops i).IsUpdate) :=
  Mark.order_filter (fun i => decide (ops i).IsUpdate) log

/-- The store as the outcome of all operations performed. -/
theorem Executed.value_order (executed : Executed ops w h) :
    w.server.value = (store ops).after (Mark.order h.log) := by
  rw [executed.value, updates_eq_filter]
  exact SequentialObject.after_filter store_inert _

/-- A reply to one operation is none to another. -/
theorem mem_kept_of_ne {keep : Bool} {new : Reply} {replies : List Reply} {i attempt : Nat}
    {reply : String} (other : i ≠ new.op) :
    (⟨i, attempt, reply⟩ ∈ if keep then new :: replies else replies) ↔
      ⟨i, attempt, reply⟩ ∈ replies := by
  constructor
  · intro listed
    rcases mem_kept listed with before | rfl
    · exact before
    · exact absurd rfl other
  · intro listed
    cases keep with
    | false => exact listed
    | true => exact List.mem_cons_of_mem _ listed

/-- An operation that has made a call was invoked. -/
theorem Orderly.invoked_of_begun (orderly : Orderly ops w h) {i : Nat}
    (begun : (w.stages i).Begun) : Mark.invoked i ∈ h.log := by
  apply (orderly.acts i).called.mpr
  intro fresh
  rw [fresh] at begun
  exact begun

/-- The server says something to an update only. -/
theorem Sequenced.answer (sequenced : Sequenced ops w h) {i attempt : Nat} {value : String}
    {server : KVServer} (update : (ops i).IsUpdate) (keep : Bool) :
    Sequenced ops
      { w with
        server := server
        replies := if keep then ⟨i, attempt, value⟩ :: w.replies else w.replies } h := by
  refine ⟨sequenced.timed, fun j read => ?_⟩
  have other : j ≠ i := fun same => read (same ▸ update)
  exact (sequenced.reads j read).mono ⟨[], by simp, by simp⟩ (fun _ _ => mem_kept_of_ne other)

/-- An update is executed. -/
theorem Sequenced.execute (sequenced : Sequenced ops w h) {i : Nat} (update : (ops i).IsUpdate)
    (invoked : Mark.invoked i ∈ h.log) (new : i ∉ updates ops h.log) :
    Sequenced ops w { h with log := h.log ++ [.performed i] } := by
  refine ⟨sequenced.timed.perform invoked (fun done => new (mem_updates.mpr ⟨update, done⟩)),
    fun j read => ?_⟩
  have other : j ≠ i := fun same => read (same ▸ update)
  exact (sequenced.reads j read).mono ⟨[i], by simp, by simpa using other⟩ (fun _ _ => Iff.rfl)

/-- The reply that a read will receive is made. -/
theorem Sequenced.read (sequenced : Sequenced ops w h) (orderly : Orderly ops w h)
    (executed : Executed ops w h) {i attempt : Nat} {body : Body}
    (calling : w.stages i = .calling body attempt) (noReply : w.NoReply i attempt)
    (read : ¬ (ops i).IsUpdate) :
    Sequenced ops
      { w with replies := ⟨i, attempt, (store ops).answer w.server.value i⟩ :: w.replies }
      { h with log := h.log ++ [.performed i] } := by
  have told := sequenced.reads i read
  rw [calling] at told
  have first : Mark.performed i ∉ h.log := by
    intro performed
    obtain ⟨reply, listed⟩ := told.1 performed
    exact noReply _ listed rfl rfl
  have invoked : Mark.invoked i ∈ h.log := orderly.invoked_of_begun (by rw [calling]; trivial)
  refine ⟨sequenced.timed.perform invoked first, fun j isRead => ?_⟩
  by_cases same : j = i
  · subst same
    show ReadTold ops _ _ j (w.stages j)
    rw [calling]
    refine ⟨fun _ => ⟨_, List.mem_cons_self⟩, fun reply listed => ?_⟩
    rcases List.mem_cons.mp listed with new | before
    · obtain ⟨-, -, rfl⟩ := Reply.mk.inj new
      rw [executed.value_order, Mark.order_append]
      exact SequentialObject.answersAt_last _ _
    · exact absurd rfl (noReply _ before rfl)
  · refine (sequenced.reads j isRead).mono ⟨[i], by simp, by simpa using same⟩
      (fun _ _ => ⟨fun listed => ?_, List.mem_cons_of_mem _⟩)
    rcases List.mem_cons.mp listed with new | before
    · exact absurd (Reply.mk.inj new).1 same
    · exact before

theorem Sequenced.handle (sequenced : Sequenced ops w h) (orderly : Orderly ops w h)
    (executed : Executed ops w h) {request : Request} (sent : request ∈ w.sent) {keep : Bool}
    (guard : Prompt w (.handle request keep)) (w' : World) :
    Sequenced ops
      { w with
        server := (w.server.dispatch request.body).1
        replies :=
          if keep then
            ⟨request.op, request.attempt, (w.server.dispatch request.body).2⟩ :: w.replies
          else w.replies }
      (History.record ops w (.handle request keep) w' h) := by
  cases orderly.sent request sent with
  | @update i attempt k update turn =>
    have answered : Sequenced ops
        { w with
          server := (w.server.dispatch ((ops i).body (k + 1))).1
          replies :=
            if keep then ⟨i, attempt, (w.server.dispatch ((ops i).body (k + 1))).2⟩ :: w.replies
            else w.replies } h := sequenced.answer update keep
    rw [record_handle_update w' update]
    by_cases next : w.server.lastSeq (ops i).client + 1 = k + 1
    · rw [if_pos next]
      refine answered.execute update ?_ ?_
      · have begun := (orderly.acts i).begun (List.mem_of_mem_filter (List.mem_of_getElem? turn))
        exact orderly.invoked_of_begun begun.2
      · intro done
        have below := (executed.mem_updates_iff orderly turn).mp done
        omega
    · rw [if_neg next]
      exact answered
  | @get i attempt read =>
    rw [record_handle_get w' read]
    simp only [KVServer.dispatch_get w.server 0 read]
    obtain ⟨awaits, noReply⟩ := guard
    cases keep with
    | false => exact ⟨sequenced.timed, sequenced.reads⟩
    | true =>
      have isCalling : (w.stages i).IsCalling attempt := by
        cases command : (ops i).command with
        | put key value => simp [Operation.IsUpdate, command] at read
        | append key value => simp [Operation.IsUpdate, command] at read
        | get key => simpa [World.Awaits, Operation.body, command] using awaits
      obtain ⟨body, calling⟩ := isCalling.eq
      exact sequenced.read orderly executed calling noReply read
  | @delete i attempt update => exact sequenced.answer update keep

/-- The stage of one operation changes. -/
theorem Sequenced.setStage {w' : World} {h' : History} (sequenced : Sequenced ops w h) {i : Nat}
    {stage : Stage} (replies : w'.replies = w.replies) (order : Mark.order h'.log = Mark.order h.log)
    (stages : w'.stages = (w.setStage i stage).stages) (timed : Mark.Timed h'.log)
    (here : ¬ (ops i).IsUpdate → ReadTold ops w h i stage) : Sequenced ops w' h' := by
  have same : ∀ j stage, ReadTold ops w h j stage → ReadTold ops w' h' j stage := by
    intro j stage told
    exact told.mono ⟨[], by simp [order], by simp⟩ (fun _ _ => by rw [replies])
  refine ⟨timed, ?_⟩
  rw [stages]
  apply forall_setStage (P := fun j stage => ¬ (ops j).IsUpdate → ReadTold ops w' h' j stage)
  · exact fun read => same i stage (here read)
  · exact fun j _ read => same j _ (sequenced.reads j read)

end Sequenced

theorem sequenced_init : Sequenced ops (service ops).init ⟨[], []⟩ :=
  ⟨.start, fun _ _ => List.not_mem_nil⟩

theorem sequenced_step {w w' : World} {e : Event} {h : History} (next : ServiceStep ops w e w')
    (guard : Prompt w e) (orderly : Orderly ops w h) (executed : Executed ops w h)
    (numbered : Numbered w) (sequenced : Sequenced ops w h) :
    Sequenced ops w' (History.record ops w e w' h) := by
  -- a call that has not been made has no reply
  have unanswered : ∀ {i attempt : Nat} {reply : String}, ¬ (w.stages i).Made attempt →
      ⟨i, attempt, reply⟩ ∉ w.replies := fun notMade listed => notMade (numbered.replies _ listed)
  cases next with
  | @invoke i fresh =>
    have told := sequenced.reads i
    rw [fresh] at told
    refine sequenced.setStage rfl (by simp [History.record]) rfl ?_ told
    exact sequenced.timed.invoke (fun invoked => (orderly.acts i).called.mp invoked fresh)
  | @startUpdate i invoked update free =>
    simp only [History.record, update, if_true]
    exact sequenced.setStage rfl rfl rfl sequenced.timed (fun read => absurd update read)
  | @startGet i invoked read =>
    simp only [History.record, read, if_false]
    have told := sequenced.reads i read
    rw [invoked] at told
    refine sequenced.setStage rfl rfl rfl sequenced.timed
      (fun _ => ⟨fun performed => absurd performed told, fun reply listed => ?_⟩)
    exact absurd listed (unanswered (by rw [invoked]; exact id))
  | handle sent => exact sequenced.handle orderly executed sent guard _
  | @retry i attempt body calling =>
    simp only [Prompt, calling] at guard
    refine sequenced.setStage rfl rfl rfl sequenced.timed (fun read => ?_)
    have told := sequenced.reads i read
    rw [calling] at told
    refine ⟨fun performed => ?_, fun reply listed => ?_⟩
    · obtain ⟨reply, listed⟩ := told.1 performed
      exact absurd rfl (guard _ listed rfl)
    · exact absurd listed (unanswered (by rw [calling]; exact Nat.not_succ_le_self attempt))
  | @receiveUpdate i attempt body value calling update reply =>
    simp only [History.record, update, if_true]
    exact sequenced.setStage rfl rfl rfl sequenced.timed (fun read => absurd update read)
  | @receiveGet i attempt body value calling read reply =>
    simp only [History.record, read, if_false]
    have told := sequenced.reads i read
    rw [calling] at told
    have answers := told.2 value reply
    refine sequenced.setStage rfl (by simp) rfl ?_ (fun _ => answers)
    exact sequenced.timed.finish (Mark.mem_order.mp answers.mem)
  | @finish i reply deleting =>
    have update := (orderly.acts i).deletes reply deleting
    have done : i ∈ updates ops h.log := executed.done i update (by rw [deleting]; trivial)
    refine sequenced.setStage rfl (by simp [History.record]) rfl ?_ (fun read => absurd update read)
    exact sequenced.timed.finish (mem_updates.mp done).2

theorem sequenced_reachable {w : World} {h : History}
    (reached : (recordedService ops).ReachableWhen (fun s e => Prompt s.1 e) (w, h)) :
    Sequenced ops w h := by
  apply reached.invariant (I := fun s => Sequenced ops s.1 s.2)
  · exact sequenced_init
  · rintro ⟨w, h⟩ e ⟨w', h'⟩ before sequenced guard next
    obtain ⟨orderly, executed⟩ := orderly_executed before
    have numbered := numbered_reachable before
    obtain ⟨stepped, recorded⟩ : w.step ops e = some w' ∧ h' = History.record ops w e w' h :=
      Machine.withHistory_step.mp next
    subst recorded
    exact sequenced_step (serviceStep_of_step stepped) guard orderly executed numbered sequenced

/-- Over a network on which handlers run before their calls return, the operations of all clerks
    have a linearization of which the server's store is the outcome. The replies it explains are
    those that the operations have got; what a `Put` or an `Append` returns is the reply. -/
theorem linearizable {w : World} {h : History}
    (reached : (recordedService ops).ReachableWhen (fun s e => Prompt s.1 e) (w, h)) :
    ∃ order,
      (store ops).Linearizes h.log (fun i reply => ∃ result, w.stages i = .returned reply result)
        order ∧
      w.server.value = (store ops).after order ∧
      ∀ i reply result, (ops i).IsUpdate → w.stages i = .returned reply result → result = reply := by
  obtain ⟨-, executed⟩ := orderly_executed reached
  have stable := stable_reachable (fun _ _ prompt => prompt.deletesInTime) reached
  have sequenced := sequenced_reachable reached
  refine ⟨Mark.order h.log, ?_, executed.value_order, ?_⟩
  · apply SequentialObject.linearizes_order sequenced.timed
    rintro i reply ⟨result, returned⟩
    by_cases update : (ops i).IsUpdate
    · have told := stable i update
      rw [returned] at told
      have answers : (store ops).AnswersAt (updates ops h.log) i reply := told.1
      rw [updates_eq_filter] at answers
      exact answers.of_filter store_inert sequenced.timed.nodup
    · have told := sequenced.reads i update
      rw [returned] at told
      exact told
  · intro i reply result update returned
    have told := stable i update
    rw [returned] at told
    exact told.2

/-- Three clients, one operation each. -/
def threeClients : Nat → Operation
  | 0 => ⟨1, .put "x" "1"⟩
  | 1 => ⟨2, .append "x" "2"⟩
  | _ => ⟨3, .get "x"⟩

/-- The append is executed before the put, but its reply is lost and it has to ask again. -/
def overlapping : World × History :=
  ((recordedService threeClients).guarded (fun s e => Prompt s.1 e)).after
    [.invoke 0, .invoke 1, .start 0, .start 1, .handle ⟨1, 1, .append ⟨"x", "2", 1, 2⟩⟩ false,
      .handle ⟨0, 1, .put ⟨"x", "1", 1, 1⟩⟩ true, .receive 0 "1", .retry 1,
      .handle ⟨1, 2, .append ⟨"x", "2", 1, 2⟩⟩ true, .receive 1 "", .handle ⟨0, 2, .delete 1⟩ true,
      .finish 0, .finish 1, .invoke 2, .start 2, .handle ⟨2, 1, .get "x"⟩ true, .receive 2 "1"]

theorem linearizable_overlapping :
    overlapping.1.stages 1 = .returned "" "" ∧ overlapping.1.stages 2 = .returned "1" "1" ∧
      ∃ order, (store threeClients).AnswersAt order 1 "" ∧
        (store threeClients).AnswersAt order 2 "1" ∧
        overlapping.1.server.value = (store threeClients).after order := by
  have reached : (recordedService threeClients).ReachableWhen (fun s e => Prompt s.1 e)
      overlapping := Machine.reachableWhen_of_guarded (Machine.reachable_after _)
  have appended : overlapping.1.stages 1 = .returned "" "" := by decide +kernel
  have got : overlapping.1.stages 2 = .returned "1" "1" := by decide +kernel
  obtain ⟨order, linearizes, value, -⟩ :=
    linearizable (w := overlapping.1) (h := overlapping.2) reached
  exact ⟨appended, got, order, linearizes.answers 1 "" ⟨"", appended⟩,
    linearizes.answers 2 "1" ⟨"1", got⟩, value⟩

end DistributedCloud.KvSrv
