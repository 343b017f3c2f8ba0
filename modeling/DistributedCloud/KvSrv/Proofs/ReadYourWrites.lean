import DistributedCloud.KvSrv.Proofs.StableReply

/-!
# Reading one's own writes

The calls of `Put` and `Append` on a key, made one after another, are executed in this order, and
all of them before a `Get` that is called next. Whichever of its calls the server answers, it finds
the same value there. `Clerk.Get` then compares the value with the texts of two errors, and returns
the empty string for a value that reads like one of them.
-/

namespace DistributedCloud.KvSrv

variable {ops : Nat → Operation}

/-! ## The value of a key -/

/-- The operation is a `Put` or an `Append` on the key. -/
def Operation.Writes (key : String) (op : Operation) : Prop :=
  match op.command with
  | .put other _ => other = key
  | .append other _ => other = key
  | .get _ => False

instance (key : String) : DecidablePred (Operation.Writes key)
  | ⟨_, .put other _⟩ => inferInstanceAs (Decidable (other = key))
  | ⟨_, .append other _⟩ => inferInstanceAs (Decidable (other = key))
  | ⟨_, .get _⟩ => isFalse id

theorem Operation.Writes.isUpdate {key : String} {op : Operation} (writes : op.Writes key) :
    op.IsUpdate := by
  obtain ⟨client, command⟩ := op
  cases command with
  | put other value => trivial
  | append other value => trivial
  | get other => exact writes

/-- The value of a key after calls of `Put` and `Append` on it: that of the last `Put`, or nothing,
    with what was appended since. -/
def written (ops : Nat → Operation) (calls : List Nat) : String :=
  calls.foldl
    (fun value i =>
      match (ops i).command with
      | .put _ new => new
      | .append _ new => value ++ new
      | .get _ => value) ""

theorem written_concat (calls : List Nat) (i : Nat) :
    written ops (calls ++ [i]) =
      match (ops i).command with
      | .put _ new => new
      | .append _ new => written ops calls ++ new
      | .get _ => written ops calls := by
  rw [written, List.foldl_append]
  rfl

/-- What the server has for a key depends on the operations that write it. -/
theorem store_after_key (key : String) (order : List Nat) :
    ((store ops).after order key).getD "" =
      written ops (order.filter fun i => (ops i).Writes key) := by
  induction order using List.reverseRecOn with
  | nil => rfl
  | append_singleton order i ih =>
    rw [SequentialObject.after_concat, List.filter_append]
    by_cases writes : (ops i).Writes key
    · rw [List.filter_cons_of_pos (by simpa using writes), List.filter_nil, written_concat, ← ih]
      cases command : (ops i).command with
      | put other value =>
        obtain rfl : other = key := by simpa [Operation.Writes, command] using writes
        simp [store, command]
      | append other value =>
        obtain rfl : other = key := by simpa [Operation.Writes, command] using writes
        simp [store, command]
      | get other => simp [Operation.Writes, command] at writes
    · rw [List.filter_cons_of_neg (by simpa using writes), List.filter_nil, List.append_nil, ← ih]
      cases command : (ops i).command with
      | put other value =>
        have differs : key ≠ other := by
          rintro rfl
          simp [Operation.Writes, command] at writes
        simp [store, command, differs]
      | append other value =>
        have differs : key ≠ other := by
          rintro rfl
          simp [Operation.Writes, command] at writes
        simp [store, command, differs]
      | get other => simp [store, command]

/-! ## What a `Get` is answered -/

/-- The value of the key at some time since `g` was called. -/
def SeenSince (ops : Nat → Operation) (key : String) (g : Nat) (log : List (Mark Nat))
    (value : String) : Prop :=
  ∃ earlier, earlier <+: log ∧ .invoked g ∈ earlier ∧ Mark.Timed (updateLog ops earlier) ∧
    value = written ops ((updates ops earlier).filter fun i => (ops i).Writes key)

theorem SeenSince.mono {key value : String} {g : Nat} {log log' : List (Mark Nat)}
    (seen : SeenSince ops key g log value) (more : log <+: log') :
    SeenSince ops key g log' value := by
  obtain ⟨earlier, before, rest⟩ := seen
  exact ⟨earlier, before.trans more, rest⟩

theorem Executed.seen {w : World} {h : History} (executed : Executed ops w h) {g : Nat}
    (called : .invoked g ∈ h.log) (key : String) :
    SeenSince ops key g h.log (w.server.get key) := by
  refine ⟨h.log, List.prefix_rfl, called, executed.timed, ?_⟩
  rw [KVServer.get, executed.value]
  exact store_after_key key _

/-- The replies to `g` and what it has returned. -/
structure Reads (ops : Nat → Operation) (key : String) (g : Nat) (w : World) (h : History) :
    Prop where
  replies : ∀ reply ∈ w.replies, reply.op = g → SeenSince ops key g h.log reply.value
  returned : ∀ reply result, w.stages g = .returned reply result →
    result = getResult reply ∧ SeenSince ops key g h.log reply
  sent : ∀ body attempt, w.stages g = .calling body attempt → ⟨g, attempt, body⟩ ∈ w.sent

theorem log_prefix_record (w : World) (e : Event) (w' : World) (h : History) :
    h.log <+: (History.record ops w e w' h).log := by
  cases e with
  | invoke i => exact List.prefix_append _ _
  | start i =>
    simp only [History.record]
    split
    · exact List.prefix_rfl
    · exact List.prefix_rfl
  | handle request keep =>
    rcases @record_handle ops w w' request keep h with same | marked
    · rw [same]
    · rw [marked]
      exact List.prefix_append _ _
  | retry i => exact List.prefix_rfl
  | receive i value =>
    simp only [History.record]
    split
    · exact List.prefix_rfl
    · exact List.prefix_append _ _
  | finish i => exact List.prefix_append _ _

namespace Reads

variable {key : String} {g : Nat} {w w' : World} {h h' : History}

/-- The stage of `g` changes. -/
theorem own (reads : Reads ops key g w h) (replies : w'.replies = w.replies)
    (more : h.log <+: h'.log)
    (returned : ∀ reply result, w'.stages g = .returned reply result →
      result = getResult reply ∧ SeenSince ops key g h'.log reply)
    (sent : ∀ body attempt, w'.stages g = .calling body attempt → ⟨g, attempt, body⟩ ∈ w'.sent) :
    Reads ops key g w' h' where
  replies := by
    intro reply listed mine
    rw [replies] at listed
    exact (reads.replies reply listed mine).mono more
  returned := returned
  sent := sent

/-- Nothing happens to `g`. -/
theorem other (reads : Reads ops key g w h) (stage : w'.stages g = w.stages g)
    (replies : w'.replies = w.replies) (sent : w.sent ⊆ w'.sent) (more : h.log <+: h'.log) :
    Reads ops key g w' h' := by
  refine reads.own replies more ?_ fun body attempt calling =>
    sent (reads.sent body attempt (stage ▸ calling))
  intro reply result returned
  obtain ⟨same, seen⟩ := reads.returned reply result (stage ▸ returned)
  exact ⟨same, seen.mono more⟩

/-- The server answers a request. -/
theorem handle (reads : Reads ops key g w h) (get : (ops g).command = .get key)
    (orderly : Orderly ops w h) (executed : Executed ops w h) (numbered : Numbered w)
    {request : Request} (sent : request ∈ w.sent) {server : KVServer} {keep : Bool}
    (more : h.log <+: h'.log) :
    Reads ops key g
      { w with
        server := server
        replies :=
          if keep then
            ⟨request.op, request.attempt, (w.server.dispatch request.body).2⟩ :: w.replies
          else w.replies } h' := by
  have read : ¬ (ops g).IsUpdate := by simp [Operation.IsUpdate, get]
  refine ⟨?_, ?_, reads.sent⟩
  · intro reply listed mine
    rcases mem_kept listed with before | rfl
    · exact (reads.replies reply before mine).mono more
    · have called : .invoked g ∈ h.log := by
        apply (orderly.acts g).called.mpr
        intro fresh
        have made := numbered.requests request sent
        rw [show request.op = g from mine, fresh] at made
        exact made
      cases orderly.sent request sent with
      | @update i attempt k update turn =>
        obtain rfl : i = g := mine
        exact absurd update read
      | @delete i attempt update =>
        obtain rfl : i = g := mine
        exact absurd update read
      | @get i attempt isGet =>
        obtain rfl : i = g := mine
        have answer : (w.server.dispatch ((ops i).body 0)).2 = w.server.get key := by
          simp [Operation.body, get, KVServer.dispatch]
        rw [answer]
        exact (executed.seen called key).mono more
  · intro reply result returned
    obtain ⟨same, seen⟩ := reads.returned reply result returned
    exact ⟨same, seen.mono more⟩

theorem step (reads : Reads ops key g w h) (get : (ops g).command = .get key)
    (orderly : Orderly ops w h) (executed : Executed ops w h) (numbered : Numbered w) {e : Event}
    (next : ServiceStep ops w e w') : Reads ops key g w' (History.record ops w e w' h) := by
  have read : ¬ (ops g).IsUpdate := by simp [Operation.IsUpdate, get]
  have away : ∀ {i : Nat}, (ops i).IsUpdate → g ≠ i := by
    rintro i update rfl
    exact read update
  have more := @log_prefix_record ops w e w' h
  cases next with
  | @invoke i fresh =>
    by_cases same : g = i
    · subst same
      exact reads.own rfl more (by simp) (by simp)
    · exact reads.other (setStage_ne w i _ same) rfl (List.Subset.refl _) more
  | @startUpdate i invoked update free =>
    exact reads.other (setStage_ne _ i _ (away update)) rfl (List.subset_append_left _ _) more
  | @startGet i invoked isGet =>
    by_cases same : g = i
    · subst same
      exact reads.own rfl more (by simp [World.call]) (by simp [World.call])
    · exact reads.other (setStage_ne _ i _ same) rfl (List.subset_append_left _ _) more
  | handle sent => exact reads.handle get orderly executed numbered sent more
  | @retry i attempt body calling =>
    by_cases same : g = i
    · subst same
      exact reads.own rfl more (by simp [World.call]) (by simp [World.call])
    · exact reads.other (setStage_ne _ i _ same) rfl (List.subset_append_left _ _) more
  | @receiveUpdate i attempt body value calling update reply =>
    exact reads.other (setStage_ne _ i _ (away update)) rfl (List.subset_append_left _ _) more
  | @receiveGet i attempt body value calling isGet reply =>
    by_cases same : g = i
    · subst same
      refine reads.own rfl more ?_ (by simp)
      intro kept result returned
      obtain ⟨rfl, rfl⟩ : value = kept ∧ getResult value = result := by simpa using returned
      exact ⟨rfl, (reads.replies _ reply rfl).mono more⟩
    · exact reads.other (setStage_ne _ i _ same) rfl (List.Subset.refl _) more
  | @finish i reply deleting =>
    have update := (orderly.acts i).deletes reply deleting
    exact reads.other (setStage_ne _ i _ (away update)) rfl (List.Subset.refl _) more

theorem reachable (get : (ops g).command = .get key)
    (reached : (recordedService ops).Reachable (w, h)) : Reads ops key g w h := by
  apply reached.invariant (I := fun s => Reads ops key g s.1 s.2)
  · refine ⟨?_, ?_, ?_⟩
    · simp [recordedService, service, Machine.withHistory]
    · simp [recordedService, service, Machine.withHistory]
    · simp [recordedService, service, Machine.withHistory]
  · rintro ⟨w, h⟩ e ⟨w', h'⟩ before reads - next
    obtain ⟨orderly, executed⟩ := orderly_executed before
    obtain ⟨stepped, recorded⟩ : w.step ops e = some w' ∧ h' = History.record ops w e w' h :=
      Machine.withHistory_step.mp next
    subst recorded
    exact reads.step get orderly executed (numbered_reachable before) (serviceStep_of_step stepped)

end Reads

/-! ## Calls one after another -/

/-- The calls that write the key and those of `g`, with their returns. -/
def callsOn (ops : Nat → Operation) (key : String) (g : Nat) (log : List (Mark Nat)) :
    List (Mark Nat) :=
  Mark.calls (log.filter fun mark => mark.op = g ∨ (ops mark.op).Writes key)

/-- The calls made so far are `calls` and then `g`, each after the return of the one before. -/
structure CalledInTurn (ops : Nat → Operation) (key : String) (calls : List Nat) (g : Nat)
    (log : List (Mark Nat)) : Prop where
  write : ∀ i ∈ calls, (ops i).Writes key
  turns : callsOn ops key g log <+: Mark.sequential (calls ++ [g])

section CalledInTurn

variable {key : String} {calls : List Nat} {g : Nat} {log : List (Mark Nat)}

/-- Once `g` is called, the calls that write the key have been made. -/
theorem CalledInTurn.eq (turn : CalledInTurn ops key calls g log)
    (get : (ops g).command = .get key) (called : .invoked g ∈ log) :
    (callsOn ops key g log).filter (fun mark => (ops mark.op).Writes key) =
      Mark.sequential calls := by
  have absent : ¬ (ops g).Writes key := by simp [Operation.Writes, get]
  have whole : (Mark.sequential calls).filter (fun mark => (ops mark.op).Writes key) =
      Mark.sequential calls := by
    apply List.filter_eq_self.mpr
    intro mark listed
    obtain ⟨i, mine, either⟩ := List.mem_flatMap.mp listed
    have writes := turn.write i mine
    rcases List.mem_pair.mp either with rfl | rfl
    · exact decide_eq_true writes
    · exact decide_eq_true writes
  have listed : .invoked g ∈ callsOn ops key g log :=
    Mark.invoked_mem_calls.mpr (List.mem_filter.mpr ⟨called, by simp⟩)
  obtain ⟨rest, split⟩ := turn.turns
  rw [Mark.sequential_concat] at split
  rcases List.append_eq_append_iff.mp split with ⟨left, before, -⟩ | ⟨more, after, ended⟩
  · -- the call of `g` is the last of the calls
    rcases List.eq_nil_or_concat left with rfl | ⟨left, last, rfl⟩
    · rw [List.append_nil] at before
      rw [← before, List.filter_append, whole]
      simp [absent]
    · rw [List.concat_eq_append, ← List.append_assoc] at before
      obtain ⟨before, -⟩ := List.append_inj' before rfl
      have early : .invoked g ∈ Mark.sequential calls := by
        rw [before]
        exact List.mem_append_left _ listed
      exact absurd (turn.write g (Mark.invoked_mem_sequential.mp early)) absent
  · have own : ∀ mark ∈ more, mark = Mark.returned g := by
      intro mark mine
      have inside : mark ∈ [Mark.returned g] := ended ▸ List.mem_append_left _ mine
      exact List.mem_singleton.mp inside
    have none : more.filter (fun mark => (ops mark.op).Writes key) = [] := by
      apply List.filter_eq_nil_iff.mpr
      intro mark mine
      rw [own mark mine, decide_eq_true_iff]
      exact absent
    rw [after, List.filter_append, List.filter_append, whole, none]
    simp [absent]

/-- Then they have been executed, in their order. -/
theorem CalledInTurn.updates_eq (turn : CalledInTurn ops key calls g log)
    (get : (ops g).command = .get key) (called : .invoked g ∈ log)
    (timed : Mark.Timed (updateLog ops log)) :
    (updates ops log).filter (fun i => (ops i).Writes key) = calls := by
  have same : Mark.calls ((updateLog ops log).filter fun mark => (ops mark.op).Writes key) =
      (callsOn ops key g log).filter fun mark => (ops mark.op).Writes key := by
    simp only [callsOn, updateLog, Mark.calls, List.filter_filter]
    apply List.filter_congr
    intro mark _
    by_cases writes : (ops mark.op).Writes key
    · simp [writes, writes.isUpdate]
    · simp [writes]
  rw [turn.eq get called] at same
  have ordered := (timed.filter fun i => (ops i).Writes key).order_of_sequential.1 calls same
  exact (Mark.order_filter (fun i => decide ((ops i).Writes key)) _).symm.trans ordered

theorem CalledInTurn.earlier (turn : CalledInTurn ops key calls g log) {earlier : List (Mark Nat)}
    (before : earlier <+: log) : CalledInTurn ops key calls g earlier :=
  ⟨turn.write, ((before.filter _).filter _).trans turn.turns⟩

/-- Since then the key has had one value. -/
theorem CalledInTurn.seen (turn : CalledInTurn ops key calls g log)
    (get : (ops g).command = .get key) {value : String} (seen : SeenSince ops key g log value) :
    value = written ops calls := by
  obtain ⟨earlier, before, called, timed, rfl⟩ := seen
  rw [(turn.earlier before).updates_eq get called timed]

end CalledInTurn

theorem getResult_eq_iff (value : String) :
    getResult value = value ↔ value ≠ errNoKey ∧ value ≠ errVersion := by
  unfold getResult
  split
  · rename_i error
    constructor
    · rintro rfl
      simp [errNoKey, errVersion] at error
    · rintro ⟨noKey, version⟩
      exact (error.elim noKey version).elim
  · rename_i plain
    exact iff_of_true rfl (not_or.mp plain)

/-- Whatever the network loses, repeats and delays: when `Put` and `Append` calls on a key and then
    a `Get` of it have been made, each after the return of the one before, and nobody else writes
    the key, the `Get` returns the outcome of the writes exactly if this does not read like an
    error. It returns as soon as its call and the reply to it get through. -/
theorem readYourWrites {w : World} {h : History} {key : String} {calls : List Nat} {g : Nat}
    (reached : (recordedService ops).Reachable (w, h)) (get : (ops g).command = .get key)
    (turn : CalledInTurn ops key calls g h.log) (called : .invoked g ∈ h.log) :
    (∀ reply result, w.stages g = .returned reply result →
        (result = written ops calls ↔
          written ops calls ≠ errNoKey ∧ written ops calls ≠ errVersion)) ∧
      ∀ body attempt, w.stages g = .calling body attempt →
        ∃ w', (service ops).run w
            [.handle ⟨g, attempt, body⟩ true, .receive g (written ops calls)] = some w' ∧
          w'.stages g = .returned (written ops calls) (getResult (written ops calls)) := by
  obtain ⟨orderly, executed⟩ := orderly_executed reached
  have reads := Reads.reachable get reached
  refine ⟨fun reply result returned => ?_, fun body attempt calling => ?_⟩
  · obtain ⟨rfl, seen⟩ := reads.returned reply result returned
    rw [turn.seen get seen]
    exact getResult_eq_iff _
  · have read : ¬ (ops g).IsUpdate := by simp [Operation.IsUpdate, get]
    obtain rfl : body = .get key := by
      rcases (orderly.acts g).asks body attempt calling with ⟨update, -⟩ | ⟨-, rfl⟩
      · exact absurd update read
      · simp [Operation.body, get]
    have value := turn.seen get (executed.seen called key)
    rw [← value]
    refine ⟨({ w with replies := ⟨g, attempt, w.server.get key⟩ :: w.replies } : World).setStage g
      (.returned (w.server.get key) (getResult (w.server.get key))), ?_, setStage_self _ _ _⟩
    simp [Machine.run, service, World.step, reads.sent _ _ calling, KVServer.dispatch, calling,
      World.received, read]

/-- Client 7 puts `value`, appends `"b"` to it and reads the key. -/
def putAppendGet (value : String) : Nat → Operation
  | 0 => ⟨7, .put "k" value⟩
  | 1 => ⟨7, .append "k" "b"⟩
  | _ => ⟨7, .get "k"⟩

/-- The first reply to the put and the first to the get are lost. -/
def readBack : World × History :=
  (recordedService (putAppendGet "a")).after
    [.invoke 0, .start 0, .handle ⟨0, 1, .put ⟨"k", "a", 1, 7⟩⟩ false, .retry 0,
      .handle ⟨0, 2, .put ⟨"k", "a", 1, 7⟩⟩ true, .receive 0 "a", .finish 0,
      .invoke 1, .start 1, .handle ⟨1, 1, .append ⟨"k", "b", 2, 7⟩⟩ true, .receive 1 "a", .finish 1,
      .invoke 2, .start 2, .handle ⟨2, 1, .get "k"⟩ false, .retry 2, .handle ⟨2, 2, .get "k"⟩ true,
      .receive 2 "ab"]

theorem readYourWrites_readBack :
    ∃ result, readBack.1.stages 2 = .returned "ab" result ∧
      result = written (putAppendGet "a") [0, 1] := by
  have reached : (recordedService (putAppendGet "a")).Reachable readBack := Machine.reachable_after _
  have returned : readBack.1.stages 2 = .returned "ab" "ab" := by decide +kernel
  have turn : CalledInTurn (putAppendGet "a") "k" [0, 1] 2 readBack.2.log :=
    ⟨by decide, by decide +kernel⟩
  refine ⟨"ab", returned, ?_⟩
  exact ((readYourWrites (w := readBack.1) (h := readBack.2) reached rfl turn
    (by decide +kernel)).1 _ _ returned).mpr (by decide +kernel)

/-- The value of the put reads like an error. -/
def readError : World × History :=
  (recordedService (putAppendGet "Error NoKey")).after
    [.invoke 0, .start 0, .handle ⟨0, 1, .put ⟨"k", "Error NoKey", 1, 7⟩⟩ true,
      .receive 0 "Error NoKey", .finish 0, .invoke 2, .start 2, .handle ⟨2, 1, .get "k"⟩ true,
      .receive 2 "Error NoKey"]

/-- The get returns the empty string. -/
theorem readError_empty :
    (recordedService (putAppendGet "Error NoKey")).Reachable readError ∧
      CalledInTurn (putAppendGet "Error NoKey") "k" [0] 2 readError.2.log ∧
      readError.1.stages 2 = .returned "Error NoKey" "" ∧
      written (putAppendGet "Error NoKey") [0] = "Error NoKey" := by
  refine ⟨Machine.reachable_after _, ⟨by decide, ?_⟩, ?_, ?_⟩
  · decide +kernel
  · decide +kernel
  · decide +kernel

end DistributedCloud.KvSrv
