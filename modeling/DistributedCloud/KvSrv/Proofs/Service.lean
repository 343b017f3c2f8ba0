import DistributedCloud.KvSrv.Service
import Mathlib.Tactic

/-!
# The steps of the service

What each event does, and what the server does with the requests that operations make.
-/

namespace DistributedCloud.KvSrv

/-! ## The server -/

namespace KVServer

/-- `Put` and `Append` in one: they differ in what they do to the store and what they answer. -/
theorem dispatch_update (kv : KVServer) {ops : Nat → Operation} {i : Nat} (seq : Nat)
    (update : (ops i).IsUpdate) :
    kv.dispatch ((ops i).body seq) =
      if kv.lastSeq (ops i).client ≥ seq then (kv, (kv.record (ops i).client).getD "")
      else if kv.lastSeq (ops i).client + 1 ≠ seq then (kv, "")
      else
        ({ value := (store ops).apply kv.value i
           lastSeq := Function.update kv.lastSeq (ops i).client seq
           record := Function.update kv.record (ops i).client
             (some ((store ops).answer kv.value i)) },
          (store ops).answer kv.value i) := by
  cases command : (ops i).command with
  | put key value => simp [Operation.body, command, dispatch, put, checked, store]
  | append key value =>
    cases found : kv.value key with
    | none => simp [Operation.body, command, dispatch, append, checked, store, found]
    | some old => simp [Operation.body, command, dispatch, append, checked, store, found]
  | get key => simp [Operation.IsUpdate, command] at update

theorem dispatch_get (kv : KVServer) {ops : Nat → Operation} {i : Nat} (seq : Nat)
    (read : ¬ (ops i).IsUpdate) :
    kv.dispatch ((ops i).body seq) = (kv, (store ops).answer kv.value i) := by
  cases command : (ops i).command with
  | put key value => simp [Operation.IsUpdate, command] at read
  | append key value => simp [Operation.IsUpdate, command] at read
  | get key => simp [Operation.body, command, dispatch, get, store]

theorem executes_update (kv : KVServer) {op : Operation} (seq : Nat) (update : op.IsUpdate) :
    kv.Executes (op.body seq) ↔ kv.lastSeq op.client + 1 = seq := by
  cases command : op.command with
  | put key value => simp [Operation.body, command, Executes]
  | append key value => simp [Operation.body, command, Executes]
  | get key => simp [Operation.IsUpdate, command] at update

end KVServer

theorem body_ne_delete (op : Operation) (seq client : Nat) : op.body seq ≠ .delete client := by
  unfold Operation.body
  split
  · simp
  · simp
  · simp

/-- The calls of `Put` and `Append` are those of updates, with the number and the client. -/
theorem body_eq_putAppend {op : Operation} {seq : Nat} {args : PutAppendArgs}
    (putAppend : op.body seq = .put args ∨ op.body seq = .append args) :
    op.IsUpdate ∧ args.seq = seq ∧ args.clientID = op.client := by
  cases command : op.command with
  | put key value =>
    simp only [Operation.body, command, Body.put.injEq, reduceCtorEq, or_false] at putAppend
    subst putAppend
    exact ⟨by simp [Operation.IsUpdate, command], rfl, rfl⟩
  | append key value =>
    simp only [Operation.body, command, Body.append.injEq, reduceCtorEq, false_or] at putAppend
    subst putAppend
    exact ⟨by simp [Operation.IsUpdate, command], rfl, rfl⟩
  | get key => simp [Operation.body, command] at putAppend

/-- A `Get` leaves the store as it is. -/
theorem store_apply_get {ops : Nat → Operation} {i : Nat} (read : ¬ (ops i).IsUpdate)
    (value : String → Option String) : (store ops).apply value i = value := by
  cases command : (ops i).command with
  | put key value => simp [Operation.IsUpdate, command] at read
  | append key value => simp [Operation.IsUpdate, command] at read
  | get key => simp [store, command]

/-! ## The world -/

section Frames

variable (w : World) (i : Nat) (stage : Stage)

@[simp] theorem setStage_self : (w.setStage i stage).stages i = stage := by
  simp [World.setStage]

theorem setStage_ne {j : Nat} (other : j ≠ i) : (w.setStage i stage).stages j = w.stages j := by
  simp [World.setStage, other]

@[simp] theorem setStage_clerks : (w.setStage i stage).clerks = w.clerks := rfl

@[simp] theorem call_clerks (attempt : Nat) (body : Body) :
    (w.call i attempt body).clerks = w.clerks := rfl

@[simp] theorem setClerk_clerks (client : Nat) (clerk : Clerk) :
    (w.setClerk client clerk).clerks = Function.update w.clerks client clerk := rfl

@[simp] theorem setClerk_server (client : Nat) (clerk : Clerk) :
    (w.setClerk client clerk).server = w.server := rfl

end Frames

/-- The steps of the service. -/
inductive ServiceStep (ops : Nat → Operation) (w : World) : Event → World → Prop
  | invoke {i : Nat} (fresh : w.stages i = .notInvoked) :
      ServiceStep ops w (.invoke i) (w.setStage i .invoked)
  | startUpdate {i : Nat} (invoked : w.stages i = .invoked) (update : (ops i).IsUpdate)
      (free : (w.clerks (ops i).client).mtx = none) :
      ServiceStep ops w (.start i)
        ((w.setClerk (ops i).client ⟨(w.clerks (ops i).client).seq + 1, some i⟩).call i 1
          ((ops i).body ((w.clerks (ops i).client).seq + 1)))
  | startGet {i : Nat} (invoked : w.stages i = .invoked) (read : ¬ (ops i).IsUpdate) :
      ServiceStep ops w (.start i) (w.call i 1 ((ops i).body 0))
  | handle {request : Request} {keep : Bool} (sent : request ∈ w.sent) :
      ServiceStep ops w (.handle request keep)
        { w with
          server := (w.server.dispatch request.body).1
          replies :=
            if keep then
              ⟨request.op, request.attempt, (w.server.dispatch request.body).2⟩ :: w.replies
            else w.replies }
  | retry {i attempt : Nat} {body : Body} (calling : w.stages i = .calling body attempt) :
      ServiceStep ops w (.retry i) (w.call i (attempt + 1) body)
  | receiveUpdate {i attempt : Nat} {body : Body} {value : String}
      (calling : w.stages i = .calling body attempt) (update : (ops i).IsUpdate)
      (reply : ⟨i, attempt, value⟩ ∈ w.replies) :
      ServiceStep ops w (.receive i value)
        { w.setStage i (.deleting value) with
          sent := w.sent ++ [⟨i, attempt + 1, .delete (ops i).client⟩] }
  | receiveGet {i attempt : Nat} {body : Body} {value : String}
      (calling : w.stages i = .calling body attempt) (read : ¬ (ops i).IsUpdate)
      (reply : ⟨i, attempt, value⟩ ∈ w.replies) :
      ServiceStep ops w (.receive i value) (w.setStage i (.returned value (getResult value)))
  | finish {i : Nat} {reply : String} (deleting : w.stages i = .deleting reply) :
      ServiceStep ops w (.finish i)
        ((w.setClerk (ops i).client ⟨(w.clerks (ops i).client).seq, none⟩).setStage i
          (.returned reply reply))

theorem serviceStep_of_step {ops : Nat → Operation} {w w' : World} {e : Event}
    (next : w.step ops e = some w') : ServiceStep ops w e w' := by
  cases e with
  | invoke i =>
    simp only [World.step] at next
    split at next
    · rename_i fresh
      cases next
      exact .invoke fresh
    · cases next
  | start i =>
    simp only [World.step] at next
    split at next
    · rename_i invoked
      simp only [World.start] at next
      split at next
      · rename_i update
        split at next
        · rename_i free
          cases next
          exact .startUpdate invoked update free
        · cases next
      · rename_i read
        cases next
        exact .startGet invoked read
    · cases next
  | handle request keep =>
    simp only [World.step] at next
    split at next
    · rename_i sent
      cases next
      exact .handle sent
    · cases next
  | retry i =>
    simp only [World.step] at next
    split at next
    · rename_i calling
      cases next
      exact .retry calling
    · cases next
  | receive i value =>
    simp only [World.step] at next
    split at next
    · rename_i calling
      split at next
      · rename_i reply
        simp only [World.received] at next
        split at next
        · rename_i update
          cases next
          exact .receiveUpdate calling update reply
        · rename_i read
          cases next
          exact .receiveGet calling read reply
      · cases next
    · cases next
  | finish i =>
    simp only [World.step] at next
    split at next
    · rename_i deleting
      cases next
      exact .finish deleting
    · cases next

end DistributedCloud.KvSrv
