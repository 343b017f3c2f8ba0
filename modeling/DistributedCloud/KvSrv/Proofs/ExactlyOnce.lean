import DistributedCloud.KvSrv.Proofs.Service

/-!
# Every update takes effect exactly once

The mutex of a clerk lets one update of a client go on at a time, so the server has executed all
the updates that the clerk has counted, except perhaps the last one. Whatever arrives late or
twice is about an operation that has been executed, or about that last one.
-/

namespace DistributedCloud.KvSrv

variable {ops : Nat → Operation}

/-! ## The history, client by client -/

/-- The updates of a client in the order in which they got the mutex of the clerk. -/
def startedBy (ops : Nat → Operation) (started : List Nat) (client : Nat) : List Nat :=
  started.filter (fun i => (ops i).client = client)

/-- The marks of the updates. -/
def updateLog (ops : Nat → Operation) (log : List (Mark Nat)) : List (Mark Nat) :=
  log.filter (fun mark => (ops mark.op).IsUpdate)

/-- The updates that the server has executed, in this order. -/
def updates (ops : Nat → Operation) (log : List (Mark Nat)) : List Nat :=
  Mark.order (updateLog ops log)

/-- Those of one client. -/
def updatesBy (ops : Nat → Operation) (log : List (Mark Nat)) (client : Nat) : List Nat :=
  (updates ops log).filter (fun i => (ops i).client = client)

theorem mem_updateLog {log : List (Mark Nat)} {mark : Mark Nat} :
    mark ∈ updateLog ops log ↔ (ops mark.op).IsUpdate ∧ mark ∈ log := by
  rw [updateLog, List.mem_filter, decide_eq_true_iff, and_comm]

theorem mem_updates {log : List (Mark Nat)} {i : Nat} :
    i ∈ updates ops log ↔ (ops i).IsUpdate ∧ Mark.performed i ∈ log := by
  rw [updates, Mark.mem_order, mem_updateLog, Mark.op_performed]

theorem startedBy_self (started : List Nat) (i : Nat) :
    startedBy ops (started ++ [i]) (ops i).client = startedBy ops started (ops i).client ++ [i] := by
  simp [startedBy]

theorem startedBy_ne (started : List Nat) {i client : Nat} (other : (ops i).client ≠ client) :
    startedBy ops (started ++ [i]) client = startedBy ops started client := by
  simp [startedBy, other]

theorem updateLog_concat (log : List (Mark Nat)) (mark : Mark Nat) :
    updateLog ops (log ++ [mark]) =
      updateLog ops log ++ if (ops mark.op).IsUpdate then [mark] else [] := by
  by_cases update : (ops mark.op).IsUpdate
  · simp [updateLog, update]
  · simp [updateLog, update]

@[simp] theorem updates_invoked (log : List (Mark Nat)) (i : Nat) :
    updates ops (log ++ [.invoked i]) = updates ops log := by
  by_cases update : (ops i).IsUpdate <;> simp [updates, updateLog_concat, update]

@[simp] theorem updates_returned (log : List (Mark Nat)) (i : Nat) :
    updates ops (log ++ [.returned i]) = updates ops log := by
  by_cases update : (ops i).IsUpdate <;> simp [updates, updateLog_concat, update]

theorem updates_performed (log : List (Mark Nat)) (i : Nat) :
    updates ops (log ++ [.performed i]) =
      updates ops log ++ if (ops i).IsUpdate then [i] else [] := by
  by_cases update : (ops i).IsUpdate <;> simp [updates, updateLog_concat, update]

/-! ## The invariant -/

/-- The operation has made a call. -/
def Stage.Begun : Stage → Prop
  | .notInvoked => False
  | .invoked => False
  | _ => True

/-- The operation is on its way, in `PutAppend` with the mutex. -/
def Stage.Busy : Stage → Prop
  | .calling _ _ => True
  | .deleting _ => True
  | _ => False

/-- The operation has got a reply. -/
def Stage.Replied : Stage → Prop
  | .deleting _ => True
  | .returned _ _ => True
  | _ => False

/-- What is on the wire: the calls of an update carry its number among the updates of its
    client. -/
inductive SentBy (ops : Nat → Operation) (started : List Nat) : Request → Prop
  | update {i attempt k : Nat} (update : (ops i).IsUpdate)
      (turn : (startedBy ops started (ops i).client)[k]? = some i) :
      SentBy ops started ⟨i, attempt, (ops i).body (k + 1)⟩
  | get {i attempt : Nat} (read : ¬ (ops i).IsUpdate) :
      SentBy ops started ⟨i, attempt, (ops i).body 0⟩
  | delete {i attempt : Nat} (update : (ops i).IsUpdate) :
      SentBy ops started ⟨i, attempt, .delete (ops i).client⟩

/-- What the stage of an operation says about the history and about its clerk. -/
structure Acts (ops : Nat → Operation) (clerks : Nat → Clerk) (h : History) (i : Nat)
    (stage : Stage) : Prop where
  called : Mark.invoked i ∈ h.log ↔ stage ≠ .notInvoked
  begun : i ∈ h.started → (ops i).IsUpdate ∧ stage.Begun
  holds : (ops i).IsUpdate → stage.Busy → (clerks (ops i).client).mtx = some i ∧
    (startedBy ops h.started (ops i).client).getLast? = some i
  asks : ∀ body attempt, stage = .calling body attempt →
    (ops i).IsUpdate ∧ body = (ops i).body (clerks (ops i).client).seq ∨
      ¬ (ops i).IsUpdate ∧ body = (ops i).body 0
  deletes : ∀ reply, stage = .deleting reply → (ops i).IsUpdate

/-- The operations, the clerks and what they have sent. -/
structure Orderly (ops : Nat → Operation) (w : World) (h : History) : Prop where
  acts : ∀ i, Acts ops w.clerks h i (w.stages i)
  startedOnce : h.started.Nodup
  counted : ∀ client, (w.clerks client).seq = (startedBy ops h.started client).length
  sent : ∀ request ∈ w.sent, SentBy ops h.started request

/-- The server has executed the updates of a client in the order of their numbers, all that the
    clerk has counted except perhaps the last. -/
structure Paced (started executed : List Nat) (lastSeq : Nat) (clerk : Clerk) : Prop where
  inOrder : executed = started.take lastSeq
  behind : lastSeq ≤ clerk.seq
  atMostOne : clerk.seq ≤ lastSeq + 1
  caughtUp : clerk.mtx = none → lastSeq = clerk.seq

/-- The store holds the outcome of the updates executed, and no operation has gone on without
    having been executed. -/
structure Executed (ops : Nat → Operation) (w : World) (h : History) : Prop where
  value : w.server.value = (store ops).after (updates ops h.log)
  clients : ∀ client, Paced (startedBy ops h.started client) (updatesBy ops h.log client)
    (w.server.lastSeq client) (w.clerks client)
  done : ∀ i, (ops i).IsUpdate → (w.stages i).Replied → i ∈ updates ops h.log
  replied : ∀ reply ∈ w.replies, (ops reply.op).IsUpdate → reply.op ∈ updates ops h.log
  deletes : ∀ request ∈ w.sent, ∀ client, request.body = .delete client →
    request.op ∈ updates ops h.log
  timed : Mark.Timed (updateLog ops h.log)

/-! ## Operations, clerks and requests -/

theorem SentBy.more {started : List Nat} {request : Request}
    (sent : SentBy ops started request) (i : Nat) : SentBy ops (started ++ [i]) request := by
  cases sent with
  | update update turn =>
    refine .update update ?_
    have inside := (List.getElem?_eq_some_iff.mp turn).1
    simp only [startedBy, List.filter_append] at turn inside ⊢
    rw [List.getElem?_append_left inside]
    exact turn
  | get read => exact .get read
  | delete update => exact .delete update

theorem forall_setStage {w : World} {P : Nat → Stage → Prop} {i : Nat} {stage : Stage}
    (here : P i stage) (elsewhere : ∀ j, j ≠ i → P j (w.stages j)) (j : Nat) :
    P j ((w.setStage i stage).stages j) := by
  by_cases same : j = i
  · subst same
    rw [setStage_self]
    exact here
  · rw [setStage_ne w i stage same]
    exact elsewhere j same

section Acts

variable {clerks : Nat → Clerk} {h : History} {i j : Nat} {stage : Stage}

/-- Marks other than that of its own invocation do not matter to an operation. -/
theorem Acts.marked (acts : Acts ops clerks h i stage) {mark : Mark Nat}
    (other : mark ≠ .invoked i) :
    Acts ops clerks { h with log := h.log ++ [mark] } i stage where
  called := by
    rw [← acts.called]
    simp [Ne.symm other]
  begun := acts.begun
  holds := acts.holds
  asks := acts.asks
  deletes := acts.deletes

/-- Another operation gets the mutex of its clerk, which was free. -/
theorem Acts.locked (acts : Acts ops clerks h i stage) (other : i ≠ j)
    (free : (clerks (ops j).client).mtx = none) (seq : Nat) :
    Acts ops (Function.update clerks (ops j).client ⟨seq, some j⟩)
      { h with started := h.started ++ [j] } i stage := by
  -- an update that is on its way has the mutex, and so another clerk
  have elsewhere : (ops i).IsUpdate → stage.Busy → (ops i).client ≠ (ops j).client := by
    intro update busy same
    have held := (acts.holds update busy).1
    rw [same, free] at held
    cases held
  refine ⟨acts.called, fun started => ?_, fun update busy => ?_, fun body attempt calling => ?_,
    acts.deletes⟩
  · rcases List.mem_append.mp started with before | last
    · exact acts.begun before
    · exact absurd (List.mem_singleton.mp last) other
  · have away := elsewhere update busy
    rw [Function.update_of_ne away, startedBy_ne _ (Ne.symm away)]
    exact acts.holds update busy
  · rcases acts.asks body attempt calling with ⟨update, asked⟩ | read
    · left
      rw [Function.update_of_ne (elsewhere update (by rw [calling]; trivial))]
      exact ⟨update, asked⟩
    · exact Or.inr read

/-- Another operation gives back the mutex of its clerk. -/
theorem Acts.unlocked (acts : Acts ops clerks h i stage) (other : i ≠ j)
    (held : (clerks (ops j).client).mtx = some j) :
    Acts ops (Function.update clerks (ops j).client ⟨(clerks (ops j).client).seq, none⟩) h i
      stage := by
  refine ⟨acts.called, acts.begun, fun update busy => ?_, fun body attempt calling => ?_,
    acts.deletes⟩
  · have holds := acts.holds update busy
    have away : (ops i).client ≠ (ops j).client := by
      intro same
      rw [same, held] at holds
      exact other (Option.some.inj holds.1).symm
    rw [Function.update_of_ne away]
    exact holds
  · rcases acts.asks body attempt calling with ⟨update, asked⟩ | read
    · left
      refine ⟨update, ?_⟩
      by_cases same : (ops i).client = (ops j).client
      · rw [same, Function.update_self, ← same]
        exact asked
      · rw [Function.update_of_ne same]
        exact asked
    · exact Or.inr read

end Acts

/-- Handling a request adds at most the mark that its operation is performed. -/
theorem record_handle (w w' : World) (request : Request) (keep : Bool) (h : History) :
    History.record ops w (.handle request keep) w' h = h ∨
      History.record ops w (.handle request keep) w' h =
        { h with log := h.log ++ [.performed request.op] } := by
  simp only [History.record]
  split
  · split
    · exact Or.inr rfl
    · exact Or.inl rfl
  · split
    · exact Or.inr rfl
    · exact Or.inl rfl

theorem orderly_init : Orderly ops (service ops).init ⟨[], []⟩ where
  acts := fun i =>
    ⟨by simp [service], by simp, fun _ busy => absurd busy id, by simp [service], by simp [service]⟩
  startedOnce := List.nodup_nil
  counted := fun client => rfl
  sent := by simp [service]

/-- The calls of an operation that calls again are like the first one. -/
theorem Orderly.sent_again {w : World} {h : History} (orderly : Orderly ops w h) {i attempt : Nat}
    {body : Body} (calling : w.stages i = .calling body attempt) :
    SentBy ops h.started ⟨i, attempt + 1, body⟩ := by
  have acts := orderly.acts i
  rw [calling] at acts
  rcases acts.asks body attempt rfl with ⟨update, rfl⟩ | ⟨read, rfl⟩
  · have last := (acts.holds update trivial).2
    have counted := orderly.counted (ops i).client
    rw [List.getLast?_eq_getElem?, ← counted] at last
    have positive : 1 ≤ (w.clerks (ops i).client).seq := by
      have inside := (List.getElem?_eq_some_iff.mp last).1
      omega
    obtain ⟨k, numbered⟩ : ∃ k, (w.clerks (ops i).client).seq = k + 1 :=
      ⟨(w.clerks (ops i).client).seq - 1, by omega⟩
    rw [numbered] at last ⊢
    exact .update update last
  · exact .get read

theorem Orderly.sent_append {w : World} {h : History} (orderly : Orderly ops w h)
    {request : Request} (made : SentBy ops h.started request) :
    ∀ listed ∈ w.sent ++ [request], SentBy ops h.started listed :=
  List.forall_mem_append.mpr ⟨orderly.sent, List.forall_mem_singleton.mpr made⟩

theorem orderly_step {w w' : World} {e : Event} {h : History} (next : ServiceStep ops w e w')
    (orderly : Orderly ops w h) : Orderly ops w' (History.record ops w e w' h) := by
  cases next with
  | @invoke i fresh =>
    have acts := orderly.acts i
    rw [fresh] at acts
    refine ⟨?_, orderly.startedOnce, orderly.counted, orderly.sent⟩
    apply forall_setStage (P := Acts ops w.clerks { h with log := h.log ++ [.invoked i] })
    · refine ⟨by simp, fun started => ?_, fun _ busy => absurd busy id, by simp, by simp⟩
      exact absurd (acts.begun started).2 id
    · exact fun j other => (orderly.acts j).marked (by simpa using Ne.symm other)
  | @startUpdate i invoked update free =>
    have acts := orderly.acts i
    rw [invoked] at acts
    have fresh : i ∉ h.started := fun started => absurd (acts.begun started).2 id
    simp only [History.record, update, if_true]
    refine ⟨?_, ?_, ?_, ?_⟩
    · apply forall_setStage (P := Acts ops _ _)
      · refine ⟨by simpa using acts.called, fun _ => ⟨update, trivial⟩, fun _ _ => ?_, ?_, by simp⟩
        · simp [startedBy_self]
        · intro body attempt calling
          cases calling
          exact Or.inl ⟨update, by simp⟩
      · exact fun j other => (orderly.acts j).locked other free _
    · exact List.nodup_append.mpr ⟨orderly.startedOnce, List.nodup_singleton i,
        fun j started k last => by
          rw [List.mem_singleton.mp last]
          rintro rfl
          exact fresh started⟩
    · intro client
      by_cases same : (ops i).client = client
      · subst same
        simp [startedBy_self, orderly.counted]
      · rw [startedBy_ne _ same, ← orderly.counted client]
        simp [Function.update_of_ne (Ne.symm same)]
    · intro request sent
      rcases List.mem_append.mp sent with before | last
      · exact (orderly.sent request before).more i
      · rw [List.mem_singleton.mp last]
        refine .update update ?_
        rw [startedBy_self, orderly.counted]
        simp
  | @startGet i invoked read =>
    have acts := orderly.acts i
    rw [invoked] at acts
    simp only [History.record, read, if_false]
    refine ⟨?_, orderly.startedOnce, orderly.counted, orderly.sent_append (.get read)⟩
    apply forall_setStage (P := Acts ops w.clerks h)
    · refine ⟨by simpa using acts.called, fun started => ?_, fun update => absurd update read, ?_,
        by simp⟩
      · exact absurd (acts.begun started).1 read
      · intro body attempt calling
        cases calling
        exact Or.inr ⟨read, rfl⟩
    · exact fun j _ => orderly.acts j
  | @handle request keep sent =>
    rcases record_handle w _ request keep h with same | marked
    · rw [same]
      exact ⟨orderly.acts, orderly.startedOnce, orderly.counted, orderly.sent⟩
    · rw [marked]
      refine ⟨fun i => (orderly.acts i).marked (by simp), orderly.startedOnce, orderly.counted,
        orderly.sent⟩
  | @retry i attempt body calling =>
    have acts := orderly.acts i
    rw [calling] at acts
    refine ⟨?_, orderly.startedOnce, orderly.counted,
      orderly.sent_append (orderly.sent_again calling)⟩
    apply forall_setStage (P := Acts ops w.clerks h)
    · refine ⟨by simpa using acts.called, acts.begun, acts.holds, ?_, by simp⟩
      intro body' attempt' called
      cases called
      exact acts.asks body attempt rfl
    · exact fun j _ => orderly.acts j
  | @receiveUpdate i attempt body value calling update reply =>
    have acts := orderly.acts i
    rw [calling] at acts
    simp only [History.record, update, if_true]
    refine ⟨?_, orderly.startedOnce, orderly.counted, orderly.sent_append (.delete update)⟩
    apply forall_setStage (P := Acts ops w.clerks h)
    · exact ⟨by simpa using acts.called, acts.begun, acts.holds, by simp, fun _ _ => update⟩
    · exact fun j _ => orderly.acts j
  | @receiveGet i attempt body value calling read reply =>
    have acts := orderly.acts i
    rw [calling] at acts
    simp only [History.record, read, if_false]
    refine ⟨?_, orderly.startedOnce, orderly.counted, orderly.sent⟩
    apply forall_setStage (P := Acts ops w.clerks { h with log := h.log ++ [.returned i] })
    · exact ⟨by simpa using acts.called, acts.begun, fun _ busy => absurd busy id, by simp,
        by simp⟩
    · exact fun j _ => (orderly.acts j).marked (by simp)
  | @finish i reply deleting =>
    have acts := orderly.acts i
    rw [deleting] at acts
    refine ⟨?_, orderly.startedOnce, fun client => ?_, orderly.sent⟩
    · apply forall_setStage (P := Acts ops _ { h with log := h.log ++ [.returned i] })
      · exact ⟨by simpa using acts.called, acts.begun, fun _ busy => absurd busy id, by simp,
          by simp⟩
      · intro j other
        have held := (acts.holds (acts.deletes reply rfl) trivial).1
        exact ((orderly.acts j).unlocked other held).marked (by simp)
    · refine Eq.trans ?_ (orderly.counted client)
      by_cases same : client = (ops i).client
      · subst same
        simp
      · simp [Function.update_of_ne same]

/-! ## The server -/

/-- An element of a list without repetitions is in the beginnings that reach its place. -/
theorem mem_take_iff {l : List Nat} (once : l.Nodup) {k x : Nat} (place : l[k]? = some x) (n : Nat) :
    x ∈ l.take n ↔ k < n := by
  have inside := (List.getElem?_eq_some_iff.mp place).1
  constructor
  · intro early
    obtain ⟨j, found⟩ := List.mem_iff_getElem?.mp early
    rw [List.getElem?_take] at found
    split at found
    · rename_i below
      have same : k = j := (List.getElem?_inj inside once).mp (place.trans found.symm)
      omega
    · cases found
  · intro below
    apply List.mem_of_getElem?
    rw [List.getElem?_take, if_pos below]
    exact place

section Paced

variable {started executed : List Nat} {lastSeq : Nat} {clerk : Clerk}

theorem Paced.execute (paced : Paced started executed lastSeq clerk)
    (counted : clerk.seq = started.length) {i : Nat} (turn : started[lastSeq]? = some i) :
    Paced started (executed ++ [i]) (lastSeq + 1) clerk := by
  have inside := (List.getElem?_eq_some_iff.mp turn).1
  have atMostOne := paced.atMostOne
  refine ⟨?_, by omega, by omega, fun free => ?_⟩
  · rw [paced.inOrder, List.take_add_one, turn]
    rfl
  · have caughtUp := paced.caughtUp free
    omega

theorem Paced.start (paced : Paced started executed lastSeq clerk)
    (counted : clerk.seq = started.length) (free : clerk.mtx = none) (i : Nat) :
    Paced (started ++ [i]) executed lastSeq ⟨clerk.seq + 1, some i⟩ := by
  have caughtUp := paced.caughtUp free
  refine ⟨?_, by simp only; omega, by simp only; omega, by simp⟩
  rw [paced.inOrder, List.take_append_of_le_length (by omega)]

theorem Paced.finish (paced : Paced started executed lastSeq clerk)
    (caughtUp : lastSeq = clerk.seq) : Paced started executed lastSeq ⟨clerk.seq, none⟩ :=
  ⟨paced.inOrder, paced.behind, paced.atMostOne, fun _ => caughtUp⟩

end Paced

section Executed

variable {w : World} {h : History}

theorem mem_updatesBy {log : List (Mark Nat)} {i : Nat} :
    i ∈ updatesBy ops log (ops i).client ↔ i ∈ updates ops log := by
  simp [updatesBy]

/-- An update is executed exactly when the server has counted it. -/
theorem Executed.mem_updates_iff (executed : Executed ops w h) (orderly : Orderly ops w h) {i k : Nat}
    (turn : (startedBy ops h.started (ops i).client)[k]? = some i) :
    i ∈ updates ops h.log ↔ k < w.server.lastSeq (ops i).client := by
  have once : (startedBy ops h.started (ops i).client).Nodup := orderly.startedOnce.filter _
  rw [← mem_updatesBy, (executed.clients _).inOrder]
  exact mem_take_iff once turn _

theorem Executed.begun (executed : Executed ops w h) (orderly : Orderly ops w h) {i : Nat}
    (done : i ∈ updates ops h.log) : (w.stages i).Begun := by
  have counted := mem_updatesBy.mpr done
  rw [(executed.clients _).inOrder] at counted
  exact ((orderly.acts i).begun (List.mem_of_mem_filter (List.mem_of_mem_take counted))).2

/-- The update that has the mutex is executed exactly when the server has caught up with the
    clerk. -/
theorem Executed.caught_up (executed : Executed ops w h) (orderly : Orderly ops w h) {i : Nat}
    (update : (ops i).IsUpdate) (busy : (w.stages i).Busy) (done : i ∈ updates ops h.log) :
    w.server.lastSeq (ops i).client = (w.clerks (ops i).client).seq := by
  have last := ((orderly.acts i).holds update busy).2
  rw [List.getLast?_eq_getElem?] at last
  have below := (executed.mem_updates_iff orderly last).mp done
  have behind := (executed.clients (ops i).client).behind
  have counted := orderly.counted (ops i).client
  omega

/-- A request never names a number beyond the next one. -/
theorem Executed.no_gap (executed : Executed ops w h) (orderly : Orderly ops w h) {client k i : Nat}
    (turn : (startedBy ops h.started client)[k]? = some i) : k ≤ w.server.lastSeq client := by
  have inside := (List.getElem?_eq_some_iff.mp turn).1
  have counted := orderly.counted client
  have atMostOne := (executed.clients client).atMostOne
  omega

theorem executed_init : Executed ops (service ops).init ⟨[], []⟩ where
  value := rfl
  clients := fun _ => ⟨rfl, Nat.le_refl _, Nat.zero_le _, fun _ => rfl⟩
  done := fun _ _ replied => absurd replied id
  replied := by simp [service]
  deletes := by simp [service]
  timed := .start

/-- The server executes the next update of a client. -/
theorem Executed.execute (executed : Executed ops w h) (orderly : Orderly ops w h) {i : Nat}
    (update : (ops i).IsUpdate)
    (turn : (startedBy ops h.started (ops i).client)[w.server.lastSeq (ops i).client]? = some i)
    {record : Nat → Option String} {replies : List Reply}
    (replied : ∀ reply ∈ replies, reply ∈ w.replies ∨ reply.op = i) :
    Executed ops
      { w with
        server :=
          { value := (store ops).apply w.server.value i
            lastSeq := Function.update w.server.lastSeq (ops i).client
              (w.server.lastSeq (ops i).client + 1)
            record := record }
        replies := replies }
      { h with log := h.log ++ [.performed i] } := by
  have grown : updates ops (h.log ++ [.performed i]) = updates ops h.log ++ [i] := by
    rw [updates_performed, if_pos update]
  have kept : ∀ {j : Nat}, j ∈ updates ops h.log → j ∈ updates ops (h.log ++ [.performed i]) := by
    intro j done
    rw [grown]
    exact List.mem_append_left _ done
  refine ⟨?_, fun client => ?_, ?_, ?_, ?_, ?_⟩
  · simp only [grown, SequentialObject.after_concat, ← executed.value]
  · by_cases same : client = (ops i).client
    · subst same
      have paced := (executed.clients (ops i).client).execute (orderly.counted _) turn
      simpa [updatesBy, grown] using paced
    · simpa [updatesBy, grown, Function.update_of_ne same, Ne.symm same] using
        executed.clients client
  · exact fun j isUpdate replied => kept (executed.done j isUpdate replied)
  · intro reply listed isUpdate
    rcases replied reply listed with before | rfl
    · exact kept (executed.replied reply before isUpdate)
    · rw [grown]
      exact List.mem_append_right _ (List.mem_singleton_self _)
  · exact fun request sent client delete => kept (executed.deletes request sent client delete)
  · rw [updateLog_concat, if_pos (show (ops (Mark.performed i).op).IsUpdate from update)]
    refine executed.timed.perform (mem_updateLog.mpr ⟨update, ?_⟩) (fun listed => ?_)
    · -- its call has been made, so it was invoked
      have begun := (orderly.acts i).begun (List.mem_of_mem_filter (List.mem_of_getElem? turn))
      apply (orderly.acts i).called.mpr
      intro fresh
      rw [fresh] at begun
      exact begun.2
    · have done : i ∈ updates ops h.log := mem_updates.mpr (mem_updateLog.mp listed)
      exact absurd ((executed.mem_updates_iff orderly turn).mp done) (Nat.lt_irrefl _)

/-- The server answers without executing anything. -/
theorem Executed.answer (executed : Executed ops w h) {server : KVServer} {replies : List Reply}
    (value : server.value = w.server.value) (lastSeq : server.lastSeq = w.server.lastSeq)
    (replied : ∀ reply ∈ replies, reply ∈ w.replies ∨
      ((ops reply.op).IsUpdate → reply.op ∈ updates ops h.log)) :
    Executed ops { w with server := server, replies := replies } h where
  value := value.trans executed.value
  clients := fun client => by
    simp only [lastSeq]
    exact executed.clients client
  done := executed.done
  replied := fun reply listed update => by
    rcases replied reply listed with before | done
    · exact executed.replied reply before update
    · exact done update
  deletes := executed.deletes
  timed := executed.timed

/-- A mark that is not an execution. -/
theorem Executed.note (executed : Executed ops w h) {mark : Mark Nat}
    (same : updates ops (h.log ++ [mark]) = updates ops h.log)
    (timed : (ops mark.op).IsUpdate → Mark.Timed (updateLog ops h.log ++ [mark])) :
    Executed ops w { h with log := h.log ++ [mark] } := by
  refine ⟨?_, ?_, ?_, ?_, ?_, ?_⟩
  · simpa only [same] using executed.value
  · simpa only [updatesBy, same] using executed.clients
  · simpa only [same] using executed.done
  · simpa only [same] using executed.replied
  · simpa only [same] using executed.deletes
  · rw [updateLog_concat]
    split
    · rename_i update
      exact timed update
    · rw [List.append_nil]
      exact executed.timed

/-- A `Get` is performed. -/
theorem Executed.read (executed : Executed ops w h) {i : Nat} (read : ¬ (ops i).IsUpdate) :
    Executed ops w { h with log := h.log ++ [.performed i] } := by
  apply executed.note
  · rw [updates_performed, if_neg read, List.append_nil]
  · exact fun update => absurd update read

theorem record_handle_update {i attempt seq : Nat} {keep : Bool} (w' : World)
    (update : (ops i).IsUpdate) :
    History.record ops w (.handle ⟨i, attempt, (ops i).body seq⟩ keep) w' h =
      if w.server.lastSeq (ops i).client + 1 = seq then { h with log := h.log ++ [.performed i] }
      else h := by
  have executes := KVServer.executes_update w.server seq update
  cases command : (ops i).command with
  | put key value =>
    simp only [Operation.body, command] at executes
    simp only [History.record, Operation.body, command]
    exact if_congr executes rfl rfl
  | append key value =>
    simp only [Operation.body, command] at executes
    simp only [History.record, Operation.body, command]
    exact if_congr executes rfl rfl
  | get key => simp [Operation.IsUpdate, command] at update

theorem record_handle_get {i attempt seq : Nat} {keep : Bool} (w' : World)
    (read : ¬ (ops i).IsUpdate) :
    History.record ops w (.handle ⟨i, attempt, (ops i).body seq⟩ keep) w' h =
      if keep then { h with log := h.log ++ [.performed i] } else h := by
  cases command : (ops i).command with
  | put key value => simp [Operation.IsUpdate, command] at read
  | append key value => simp [Operation.IsUpdate, command] at read
  | get key => simp [History.record, Operation.body, command]

/-- The replies after a request was handled. -/
theorem mem_kept {keep : Bool} {new reply : Reply} {replies : List Reply}
    (listed : reply ∈ if keep then new :: replies else replies) : reply ∈ replies ∨ reply = new := by
  cases keep with
  | false => exact Or.inl listed
  | true => exact (List.mem_cons.mp listed).symm

theorem Executed.handle (executed : Executed ops w h) (orderly : Orderly ops w h)
    {request : Request} (sent : request ∈ w.sent) (keep : Bool) (w' : World) :
    Executed ops
      { w with
        server := (w.server.dispatch request.body).1
        replies :=
          if keep then
            ⟨request.op, request.attempt, (w.server.dispatch request.body).2⟩ :: w.replies
          else w.replies }
      (History.record ops w (.handle request keep) w' h) := by
  cases orderly.sent request sent with
  | @update i attempt k update turn =>
    have dispatched := KVServer.dispatch_update w.server (k + 1) update
    have recorded : History.record ops w (.handle ⟨i, attempt, (ops i).body (k + 1)⟩ keep) w' h =
        if w.server.lastSeq (ops i).client + 1 = k + 1 then
          { h with log := h.log ++ [.performed i] }
        else h := record_handle_update w' update
    rcases Nat.lt_or_eq_of_le (executed.no_gap orderly turn) with before | next
    · -- executed before, whatever the reply is
      have late : w.server.lastSeq (ops i).client ≥ k + 1 := before
      rw [if_pos late] at dispatched
      rw [if_neg (by omega)] at recorded
      simp only [dispatched, recorded]
      refine executed.answer rfl rfl (fun reply listed => ?_)
      rcases mem_kept listed with before | rfl
      · exact Or.inl before
      · exact Or.inr (fun _ => (executed.mem_updates_iff orderly turn).mpr late)
    · subst next
      rw [if_neg (by omega), if_neg (by omega)] at dispatched
      rw [if_pos rfl] at recorded
      simp only [dispatched, recorded]
      refine executed.execute orderly update turn (fun reply listed => ?_)
      rcases mem_kept listed with before | rfl
      · exact Or.inl before
      · exact Or.inr rfl
  | @get i attempt read =>
    rw [record_handle_get w' read]
    simp only [KVServer.dispatch_get w.server 0 read]
    have answered : Executed ops
        { w with
          replies :=
            if keep then ⟨i, attempt, (store ops).answer w.server.value i⟩ :: w.replies
            else w.replies } h := by
      refine executed.answer rfl rfl (fun reply listed => ?_)
      rcases mem_kept listed with before | rfl
      · exact Or.inl before
      · exact Or.inr (fun update => absurd update read)
    cases keep with
    | false => exact answered
    | true => exact answered.read read
  | @delete i attempt update =>
    refine executed.answer rfl rfl (fun reply listed => ?_)
    rcases mem_kept listed with before | rfl
    · exact Or.inl before
    · exact Or.inr (fun _ => executed.deletes _ sent _ rfl)

/-- The stage of one operation changes and it makes no calls of `Delete`. -/
theorem Executed.setStage (executed : Executed ops w h) {i : Nat} {stage : Stage}
    (done : (ops i).IsUpdate → stage.Replied → i ∈ updates ops h.log) {sent : List Request}
    (deletes : ∀ request ∈ sent, ∀ client, request.body = .delete client →
      request.op ∈ updates ops h.log) :
    Executed ops { w.setStage i stage with sent := sent } h where
  value := executed.value
  clients := executed.clients
  done := by
    apply forall_setStage (P := fun j stage =>
      (ops j).IsUpdate → stage.Replied → j ∈ updates ops h.log)
    · exact done
    · exact fun j _ => executed.done j
  replied := executed.replied
  deletes := deletes
  timed := executed.timed

/-- A clerk changes. -/
theorem Executed.setClerk (executed : Executed ops w h) {client : Nat} {clerk : Clerk}
    {started : List Nat}
    (here : Paced (startedBy ops started client) (updatesBy ops h.log client)
      (w.server.lastSeq client) clerk)
    (elsewhere : ∀ other, other ≠ client → startedBy ops started other = startedBy ops h.started other) :
    Executed ops (w.setClerk client clerk) { h with started := started } where
  value := executed.value
  clients := fun other => by
    by_cases same : other = client
    · subst same
      simpa using here
    · simpa [elsewhere other same, Function.update_of_ne same] using executed.clients other
  done := executed.done
  replied := executed.replied
  deletes := executed.deletes
  timed := executed.timed

/-- A call is made, and one of `Delete` only for an update that has been performed. -/
theorem Executed.deletes_concat (executed : Executed ops w h) {i attempt : Nat} {body : Body}
    (performed : ∀ client, body = .delete client → i ∈ updates ops h.log) :
    ∀ request ∈ w.sent ++ [⟨i, attempt, body⟩], ∀ client, request.body = .delete client →
      request.op ∈ updates ops h.log :=
  List.forall_mem_append.mpr ⟨executed.deletes, List.forall_mem_singleton.mpr performed⟩

/-- The calls of `Put`, `Append` and `Get`. -/
theorem Executed.deletes_concat_body (executed : Executed ops w h) {i attempt seq : Nat} :
    ∀ request ∈ w.sent ++ [⟨i, attempt, (ops i).body seq⟩], ∀ client,
      request.body = .delete client → request.op ∈ updates ops h.log :=
  executed.deletes_concat fun client isDelete => absurd isDelete (body_ne_delete _ _ client)

end Executed

theorem executed_step {w w' : World} {e : Event} {h : History} (next : ServiceStep ops w e w')
    (orderly : Orderly ops w h) (executed : Executed ops w h) :
    Executed ops w' (History.record ops w e w' h) := by
  cases next with
  | @invoke i fresh =>
    have staged : Executed ops (w.setStage i .invoked) h :=
      executed.setStage (fun _ replied => absurd replied id) executed.deletes
    refine staged.note (updates_invoked _ i) (fun _ => executed.timed.invoke (fun listed => ?_))
    exact (orderly.acts i).called.mp (mem_updateLog.mp listed).2 fresh
  | @startUpdate i invoked update free =>
    simp only [History.record, update, if_true]
    have paced := (executed.clients (ops i).client).start (orderly.counted _) free i
    rw [← startedBy_self] at paced
    have locked := executed.setClerk paced (fun other away => startedBy_ne _ (Ne.symm away))
    exact locked.setStage (fun _ replied => absurd replied id)
      locked.deletes_concat_body
  | @startGet i invoked read =>
    simp only [History.record, read, if_false]
    exact executed.setStage (fun _ replied => absurd replied id)
      executed.deletes_concat_body
  | @handle request keep sent => exact executed.handle orderly sent keep _
  | @retry i attempt body calling =>
    refine executed.setStage (fun _ replied => absurd replied id) ?_
    rcases (orderly.acts i).asks body attempt calling with ⟨-, rfl⟩ | ⟨-, rfl⟩
    · exact executed.deletes_concat_body
    · exact executed.deletes_concat_body
  | @receiveUpdate i attempt body value calling update reply =>
    simp only [History.record, update, if_true]
    have done : i ∈ updates ops h.log := executed.replied _ reply update
    exact executed.setStage (fun _ _ => done) (executed.deletes_concat fun _ _ => done)
  | @receiveGet i attempt body value calling read reply =>
    simp only [History.record, read, if_false]
    have staged : Executed ops (w.setStage i (.returned value (getResult value))) h :=
      executed.setStage (fun update => absurd update read) executed.deletes
    exact staged.note (updates_returned _ i) (fun update => absurd update read)
  | @finish i reply deleting =>
    have update := (orderly.acts i).deletes reply deleting
    have done : i ∈ updates ops h.log := executed.done i update (by rw [deleting]; trivial)
    have caughtUp := executed.caught_up orderly update (by rw [deleting]; trivial) done
    have unlocked := executed.setClerk ((executed.clients (ops i).client).finish caughtUp)
      (fun _ _ => rfl)
    have staged : Executed ops
        ((w.setClerk (ops i).client ⟨(w.clerks (ops i).client).seq, none⟩).setStage i
          (.returned reply reply)) h :=
      unlocked.setStage (fun _ _ => done) unlocked.deletes
    refine staged.note (updates_returned _ i) (fun _ => executed.timed.finish ?_)
    exact mem_updateLog.mpr ⟨update, (mem_updates.mp done).2⟩

theorem orderly_executed {w : World} {h : History}
    {ok : World × History → Event → Prop}
    (reached : (recordedService ops).ReachableWhen ok (w, h)) : Orderly ops w h ∧ Executed ops w h := by
  apply reached.invariant (I := fun s => Orderly ops s.1 s.2 ∧ Executed ops s.1 s.2)
  · exact ⟨orderly_init, executed_init⟩
  · rintro ⟨w, h⟩ e ⟨w', h'⟩ - ⟨orderly, executed⟩ - next
    obtain ⟨stepped, recorded⟩ : w.step ops e = some w' ∧ h' = History.record ops w e w' h :=
      Machine.withHistory_step.mp next
    subst recorded
    have next := serviceStep_of_step stepped
    exact ⟨orderly_step next orderly, executed_step next orderly executed⟩

/-- Whatever the network does, the store is the outcome of executing updates each at most once,
    an update that has returned is among them, the updates of a client are executed in the order
    in which its clerk let them go, which respects real time, and no request names a number that
    is too far ahead. -/
theorem exactlyOnce {w : World} {h : History} (reached : (recordedService ops).Reachable (w, h)) :
    w.server.value = (store ops).after (updates ops h.log) ∧
      (updates ops h.log).Nodup ∧
      (∀ i reply result, (ops i).IsUpdate → w.stages i = .returned reply result →
        i ∈ updates ops h.log) ∧
      (∀ client, updatesBy ops h.log client <+: startedBy ops h.started client) ∧
      (∀ earlier later, [.returned earlier, .invoked later].Sublist (updateLog ops h.log) →
        later ∈ updates ops h.log → [earlier, later].Sublist (updates ops h.log)) ∧
      ∀ request ∈ w.sent, ∀ args, request.body = .put args ∨ request.body = .append args →
        args.seq ≤ w.server.lastSeq args.clientID ∨ w.server.lastSeq args.clientID + 1 = args.seq := by
  obtain ⟨orderly, executed⟩ := orderly_executed reached
  refine ⟨executed.value, executed.timed.nodup, ?_, ?_, ?_, ?_⟩
  · intro i reply result update returned
    exact executed.done i update (by rw [returned]; trivial)
  · intro client
    rw [(executed.clients client).inOrder]
    exact List.take_prefix _ _
  · exact fun earlier later before performed => executed.timed.realTime before performed
  · intro request sent args putAppend
    cases orderly.sent request sent with
    | @update i attempt k update turn =>
      have noGap := executed.no_gap orderly turn
      obtain ⟨-, seq, client⟩ := body_eq_putAppend putAppend
      rw [seq, client]
      omega
    | get read => exact absurd (body_eq_putAppend putAppend).1 read
    | delete update => simp at putAppend

/-- Client 7 appends to `"k"`. Its first request arrives three times, the last time when the
    operation has returned. -/
def appendedOnce : World × History :=
  let request : Request := ⟨0, 1, .append ⟨"k", "v", 1, 7⟩⟩
  (recordedService (fun _ => ⟨7, .append "k" "v"⟩)).after
    [.invoke 0, .start 0, .handle request false, .handle request false, .retry 0,
      .handle ⟨0, 2, .append ⟨"k", "v", 1, 7⟩⟩ true, .receive 0 "", .finish 0, .handle request true]

theorem exactlyOnce_appendedOnce :
    appendedOnce.1.stages 0 = .returned "" "" ∧
      updates (fun _ => ⟨7, .append "k" "v"⟩) appendedOnce.2.log = [0] ∧
      appendedOnce.1.server.value "k" = some "v" := by
  have reached : (recordedService (fun _ => ⟨7, .append "k" "v"⟩)).Reachable appendedOnce :=
    Machine.reachable_after _
  have executed : updates (fun _ => ⟨7, .append "k" "v"⟩) appendedOnce.2.log = [0] := by
    decide +kernel
  refine ⟨by decide +kernel, executed, ?_⟩
  rw [(exactlyOnce (w := appendedOnce.1) (h := appendedOnce.2) reached).1, executed]
  decide +kernel

end DistributedCloud.KvSrv
