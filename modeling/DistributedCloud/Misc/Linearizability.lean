import Mathlib.Data.List.Basic
import Mathlib.Data.List.Induction
import Mathlib.Data.List.Nodup
import Mathlib.Tactic.Common

/-!
# Linearizability

Concurrent operations on a sequential object. A run leaves a log of marks: an operation is
invoked, performed at one point in time, and returned. If every operation is performed at most
once, after its invocation and before its return, then the order in which operations are
performed respects real time, and it only remains to be shown that it explains the answers.
-/

namespace DistributedCloud

/-- An object with operations `ι` and answers `ρ`, used by one caller at a time. -/
structure SequentialObject (σ ι ρ : Type) where
  start : σ
  apply : σ → ι → σ
  answer : σ → ι → ρ

/-- What is noted about an operation, in the order of time. -/
inductive Mark (ι : Type) where
  | invoked (op : ι)
  | performed (op : ι)
  | returned (op : ι)
  deriving DecidableEq, Repr

variable {σ ι ρ : Type}

/-! ## Real time -/

namespace Mark

/-- The operation that is performed, if the mark is of that kind. -/
def performed? : Mark ι → Option ι
  | .performed op => some op
  | _ => none

/-- The operations in the order in which they were performed. -/
def order (log : List (Mark ι)) : List ι := log.filterMap performed?

@[simp] theorem order_nil : order ([] : List (Mark ι)) = [] := rfl

@[simp] theorem order_append (log more : List (Mark ι)) :
    order (log ++ more) = order log ++ order more := List.filterMap_append

@[simp] theorem order_invoked (op : ι) (log : List (Mark ι)) :
    order (invoked op :: log) = order log := rfl

@[simp] theorem order_performed (op : ι) (log : List (Mark ι)) :
    order (performed op :: log) = op :: order log := rfl

@[simp] theorem order_returned (op : ι) (log : List (Mark ι)) :
    order (returned op :: log) = order log := rfl

theorem mem_order {log : List (Mark ι)} {op : ι} : op ∈ order log ↔ performed op ∈ log := by
  simp only [order, List.mem_filterMap]
  constructor
  · rintro ⟨mark, listed, isOp⟩
    cases mark with
    | performed other =>
      cases isOp
      exact listed
    | invoked other => cases isOp
    | returned other => cases isOp
  · intro listed
    exact ⟨performed op, listed, rfl⟩

/-- The operation that a mark is about. -/
def op : Mark ι → ι
  | .invoked op => op
  | .performed op => op
  | .returned op => op

@[simp] theorem op_invoked (op : ι) : (invoked op).op = op := rfl

@[simp] theorem op_performed (op : ι) : (performed op).op = op := rfl

@[simp] theorem op_returned (op : ι) : (returned op).op = op := rfl

/-- The operations of a kind, in the order in which they were performed. -/
theorem order_filter (p : ι → Bool) (log : List (Mark ι)) :
    order (log.filter (fun mark => p mark.op)) = (order log).filter p := by
  induction log with
  | nil => rfl
  | cons mark log ih =>
    cases mark with
    | invoked op => cases kind : p op <;> simpa [kind] using ih
    | performed op => cases kind : p op <;> simpa [kind] using ih
    | returned op => cases kind : p op <;> simpa [kind] using ih

/-- Each operation is invoked once, performed at most once after that and returned only
    afterwards. -/
inductive Timed : List (Mark ι) → Prop
  | start : Timed []
  | invoke {log : List (Mark ι)} {op : ι} (timed : Timed log) (fresh : invoked op ∉ log) :
      Timed (log ++ [invoked op])
  | perform {log : List (Mark ι)} {op : ι} (timed : Timed log) (called : invoked op ∈ log)
      (first : performed op ∉ log) : Timed (log ++ [performed op])
  | finish {log : List (Mark ι)} {op : ι} (timed : Timed log) (done : performed op ∈ log) :
      Timed (log ++ [returned op])

theorem Timed.nodup {log : List (Mark ι)} (timed : Timed log) : (order log).Nodup := by
  induction timed with
  | start => simp
  | invoke _ _ ih => simpa using ih
  | perform _ _ first ih =>
    rw [order_append, order_performed, order_nil]
    refine List.nodup_append.mpr ⟨ih, List.nodup_singleton _, ?_⟩
    intro op performed other same equal
    rw [List.mem_singleton.mp same] at equal
    exact first (mem_order.mp (equal ▸ performed))
  | finish _ _ ih => simpa using ih

theorem Timed.invoked_of_performed {log : List (Mark ι)} (timed : Timed log) {op : ι}
    (performed : op ∈ order log) : invoked op ∈ log := by
  induction timed with
  | start => simp at performed
  | invoke _ _ ih => exact List.mem_append_left _ (ih (by simpa using performed))
  | perform _ called _ ih =>
    apply List.mem_append_left
    simp only [order_append, order_performed, order_nil, List.mem_append, List.mem_singleton] at performed
    rcases performed with before | rfl
    · exact ih before
    · exact called
  | finish _ _ ih => exact List.mem_append_left _ (ih (by simpa using performed))

theorem Timed.performed_of_returned {log : List (Mark ι)} (timed : Timed log) {op : ι}
    (done : returned op ∈ log) : op ∈ order log := by
  induction timed with
  | start => simp at done
  | invoke _ _ ih => simpa using ih (by simpa using done)
  | perform _ _ _ ih =>
    rw [order_append]
    exact List.mem_append_left _ (ih (by simpa using done))
  | finish _ performed ih =>
    simp only [order_append, order_returned, order_nil, List.append_nil]
    rcases List.mem_append.mp done with before | last
    · exact ih before
    · cases List.mem_singleton.mp last
      exact mem_order.mpr performed

/-- What comes before the last element of a list with one more element. -/
theorem pair_sublist_concat {α : Type} {first second last : α} {l : List α}
    (pair : [first, second].Sublist (l ++ [last])) :
    [first, second].Sublist l ∨ first ∈ l ∧ second = last := by
  rw [List.sublist_append_iff] at pair
  obtain ⟨left, right, split, inside, outside⟩ := pair
  rcases left with _ | ⟨a, _ | ⟨b, left⟩⟩
  · have length := outside.length_le
    rw [← show [first, second] = right from split] at length
    simp at length
  · obtain ⟨rfl, rfl⟩ : first = a ∧ [second] = right := by simpa using split
    exact Or.inr ⟨List.singleton_sublist.mp inside,
      List.mem_singleton.mp (List.singleton_sublist.mp outside)⟩
  · obtain ⟨rfl, rfl, rfl, -⟩ : first = a ∧ second = b ∧ left = [] ∧ right = [] := by
      simpa using split
    exact Or.inl inside

/-- An operation that has returned before another is invoked is performed before it. -/
theorem Timed.realTime {log : List (Mark ι)} (timed : Timed log) {earlier later : ι}
    (before : [returned earlier, invoked later].Sublist log) (performed : later ∈ order log) :
    [earlier, later].Sublist (order log) := by
  induction timed with
  | start => simp at before
  | @invoke log op timed fresh ih =>
    simp only [order_append, order_invoked, order_nil, List.append_nil] at performed ⊢
    rcases pair_sublist_concat before with inside | ⟨-, same⟩
    · exact ih inside performed
    · -- the operation invoked last has not been performed yet
      cases same
      exact absurd (timed.invoked_of_performed performed) fresh
  | @perform log op timed called first ih =>
    rcases pair_sublist_concat before with inside | ⟨-, same⟩
    · have done : earlier ∈ order log :=
        timed.performed_of_returned (inside.subset List.mem_cons_self)
      simp only [order_append, order_performed, order_nil, List.mem_append, List.mem_singleton] at performed ⊢
      rcases performed with performed | rfl
      · exact (ih inside performed).trans (List.sublist_append_left _ _)
      · exact (List.singleton_sublist.mpr done).append (List.Sublist.refl [later])
    · cases same
  | finish timed done ih =>
    simp only [order_append, order_returned, order_nil, List.append_nil] at performed ⊢
    rcases pair_sublist_concat before with inside | ⟨-, same⟩
    · exact ih inside performed
    · cases same

/-! ## Calls one after another -/

/-- The marks that a caller sees. -/
def calls (log : List (Mark ι)) : List (Mark ι) := log.filter fun mark => mark.performed?.isNone

@[simp] theorem calls_append (log more : List (Mark ι)) :
    calls (log ++ more) = calls log ++ calls more := List.filter_append log more

@[simp] theorem calls_invoked (op : ι) : calls [invoked op] = [invoked op] := rfl

@[simp] theorem calls_performed (op : ι) : calls [performed op] = [] := rfl

@[simp] theorem calls_returned (op : ι) : calls [returned op] = [returned op] := rfl

theorem invoked_mem_calls {log : List (Mark ι)} {op : ι} :
    invoked op ∈ calls log ↔ invoked op ∈ log := by
  simp [calls, performed?]

/-- Each operation has returned before the next one is invoked. -/
def sequential (ops : List ι) : List (Mark ι) := ops.flatMap fun op => [invoked op, returned op]

theorem sequential_concat (ops : List ι) (op : ι) :
    sequential (ops ++ [op]) = sequential ops ++ [invoked op] ++ [returned op] := by
  simp [sequential]

theorem invoked_mem_sequential {ops : List ι} {op : ι} :
    invoked op ∈ sequential ops ↔ op ∈ ops := by
  simp [sequential]

/-- Such a log can only end with the return of its last operation. -/
theorem eq_sequential_concat {ops : List ι} {log : List (Mark ι)} {last : Mark ι}
    (whole : log ++ [last] = sequential ops) :
    ∃ before op, ops = before ++ [op] ∧ last = returned op ∧
      log = sequential before ++ [invoked op] := by
  rcases List.eq_nil_or_concat ops with rfl | ⟨before, op, rfl⟩
  · simp [sequential] at whole
  · rw [List.concat_eq_append, sequential_concat] at whole
    obtain ⟨same, ended⟩ := List.append_inj' whole rfl
    exact ⟨before, op, List.concat_eq_append, List.singleton_inj.mp ended, same⟩

theorem Timed.filter {log : List (Mark ι)} (timed : Timed log) (p : ι → Bool) :
    Timed (log.filter fun mark => p mark.op) := by
  have kept : ∀ {mark : Mark ι} {log : List (Mark ι)}, p mark.op = true → mark ∈ log →
      mark ∈ log.filter fun mark => p mark.op :=
    fun kind listed => List.mem_filter.mpr ⟨listed, kind⟩
  induction timed with
  | start => exact .start
  | @invoke log op _ fresh ih =>
    cases kind : p op with
    | false => simpa [kind] using ih
    | true =>
      have fresh : invoked op ∉ log.filter fun mark => p mark.op :=
        fun listed => fresh (List.mem_of_mem_filter listed)
      simpa [kind] using ih.invoke fresh
  | @perform log op _ called first ih =>
    cases kind : p op with
    | false => simpa [kind] using ih
    | true =>
      have first : performed op ∉ log.filter fun mark => p mark.op :=
        fun listed => first (List.mem_of_mem_filter listed)
      simpa [kind] using ih.perform (kept kind called) first
  | @finish log op _ done ih =>
    cases kind : p op with
    | false => simpa [kind] using ih
    | true => simpa [kind] using ih.finish (kept kind done)

/-- Operations that are called one after another are performed in the order of the calls, and the
    last one is perhaps still to be performed. -/
theorem Timed.order_of_sequential {log : List (Mark ι)} (timed : Timed log) :
    (∀ ops, calls log = sequential ops → order log = ops) ∧
      ∀ ops op, calls log = sequential ops ++ [invoked op] →
        op ∉ ops ∧ (order log = ops ∨ order log = ops ++ [op]) := by
  induction timed with
  | start =>
    refine ⟨fun ops whole => ?_, fun ops op whole => by simp [calls] at whole⟩
    rcases ops with _ | ⟨op, ops⟩
    · rfl
    · simp [sequential, calls] at whole
  | @invoke log new timed fresh ih =>
    simp only [calls_append, calls_invoked, order_append, order_invoked, order_nil, List.append_nil]
    refine ⟨fun ops whole => ?_, fun ops op whole => ?_⟩
    · obtain ⟨before, op, -, other, -⟩ := eq_sequential_concat whole
      cases other
    · obtain ⟨same, ended⟩ := List.append_inj' whole rfl
      cases ended
      refine ⟨fun listed => fresh ?_, .inl (ih.1 ops same)⟩
      rw [← invoked_mem_calls, same]
      exact invoked_mem_sequential.mpr listed
  | @perform log new timed called first ih =>
    simp only [calls_append, calls_performed, List.append_nil, order_append, order_performed,
      order_nil]
    have notYet : new ∉ order log := fun done => first (mem_order.mp done)
    rw [← invoked_mem_calls] at called
    refine ⟨fun ops whole => ?_, fun ops op whole => ?_⟩
    · rw [whole] at called
      exact absurd (ih.1 ops whole ▸ invoked_mem_sequential.mp called) notYet
    · obtain ⟨new', ordered⟩ := ih.2 ops op whole
      rw [whole] at called
      rcases List.mem_append.mp called with before | last
      · -- all operations before the last one have been performed
        have listed := invoked_mem_sequential.mp before
        rcases ordered with ordered | ordered
        · exact absurd (ordered ▸ listed) notYet
        · exact absurd (ordered ▸ List.mem_append_left _ listed) notYet
      · cases List.mem_singleton.mp last
        rcases ordered with ordered | ordered
        · exact ⟨new', .inr (by rw [ordered])⟩
        · exact absurd (ordered ▸ List.mem_append_right _ (List.mem_singleton_self _)) notYet
  | @finish log new timed done ih =>
    simp only [calls_append, calls_returned, order_append, order_returned, order_nil, List.append_nil]
    refine ⟨fun ops whole => ?_, fun ops op whole => ?_⟩
    · obtain ⟨before, op, rfl, last, same⟩ := eq_sequential_concat whole
      cases last
      obtain ⟨absent, ordered | ordered⟩ := ih.2 before new same
      · exact absurd (ordered ▸ mem_order.mpr done) absent
      · exact ordered
    · cases (List.append_inj' whole rfl).2

end Mark

/-! ## Answers -/

namespace SequentialObject

variable (object : SequentialObject σ ι ρ)

/-- The state of the object after a sequence of operations. -/
def after (order : List ι) : σ := order.foldl object.apply object.start

@[simp] theorem after_nil : object.after [] = object.start := rfl

@[simp] theorem after_concat (order : List ι) (op : ι) :
    object.after (order ++ [op]) = object.apply (object.after order) op := by
  simp [after]

/-- `reply` is what the object answers to `op` at its place in the order. -/
def AnswersAt (order : List ι) (op : ι) (reply : ρ) : Prop :=
  ∃ before behind, order = before ++ op :: behind ∧ reply = object.answer (object.after before) op

variable {object}

theorem AnswersAt.append {order : List ι} {op : ι} {reply : ρ}
    (answers : object.AnswersAt order op reply) (more : List ι) :
    object.AnswersAt (order ++ more) op reply := by
  obtain ⟨before, behind, rfl, answer⟩ := answers
  exact ⟨before, behind ++ more, by simp, answer⟩

theorem answersAt_last (order : List ι) (op : ι) :
    object.AnswersAt (order ++ [op]) op (object.answer (object.after order) op) :=
  ⟨order, [], by simp, rfl⟩

theorem AnswersAt.mem {order : List ι} {op : ι} {reply : ρ}
    (answers : object.AnswersAt order op reply) : op ∈ order := by
  obtain ⟨before, behind, rfl, -⟩ := answers
  simp

/-- An operation that is performed once has one answer. -/
theorem AnswersAt.eq_answer {before behind : List ι} {op : ι} {reply : ρ}
    (once : (before ++ op :: behind).Nodup)
    (answers : object.AnswersAt (before ++ op :: behind) op reply) :
    reply = object.answer (object.after before) op := by
  obtain ⟨before', behind', split, answer⟩ := answers
  obtain ⟨outside, -⟩ := List.nodup_cons.mp (List.nodup_middle.mp once)
  rw [List.mem_append, not_or] at outside
  obtain ⟨rfl, -⟩ := (List.append_cons_inj_of_notMem outside.1 outside.2).mp split
  exact answer

/-! ### Operations that leave the object as it is -/

theorem after_filter {p : ι → Bool} (inert : ∀ op, p op = false → ∀ s, object.apply s op = s)
    (order : List ι) : object.after (order.filter p) = object.after order := by
  induction order using List.reverseRecOn with
  | nil => rfl
  | append_singleton order op ih =>
    rw [List.filter_append, after_concat]
    cases kind : p op with
    | false => simpa [kind, inert op kind] using ih
    | true => simp [kind, ih]

/-- An answer that is explained by the order of the other operations is explained by the order
    of all. -/
theorem AnswersAt.of_filter {p : ι → Bool} (inert : ∀ op, p op = false → ∀ s, object.apply s op = s)
    {order : List ι} (once : order.Nodup) {op : ι} {reply : ρ}
    (answers : object.AnswersAt (order.filter p) op reply) : object.AnswersAt order op reply := by
  have kind : p op = true := List.of_mem_filter answers.mem
  obtain ⟨before, behind, rfl⟩ := List.append_of_mem (List.mem_of_mem_filter answers.mem)
  obtain ⟨before', behind', split, answer⟩ := answers
  obtain ⟨outside, -⟩ := List.nodup_cons.mp (List.nodup_middle.mp once)
  rw [List.filter_append, List.filter_cons_of_pos kind] at split
  have same : before.filter p = before' := by
    refine ((List.append_cons_inj_of_notMem ?_ ?_).mp split).1
    · exact fun early => outside (List.mem_append_left _ (List.mem_of_mem_filter early))
    · exact fun late => outside (List.mem_append_right _ (List.mem_of_mem_filter late))
  refine ⟨before, behind, rfl, ?_⟩
  rw [answer, ← same, after_filter inert]

/-- `order` is a linearization of the operations of the log, of which those with `replies` have
    returned: it takes in each operation at most once and each returned one exactly once, it
    respects real time, and it explains every reply. -/
structure Linearizes (object : SequentialObject σ ι ρ) (log : List (Mark ι))
    (replies : ι → ρ → Prop) (order : List ι) : Prop where
  once : order.Nodup
  invoked : ∀ op ∈ order, Mark.invoked op ∈ log
  complete : ∀ op, Mark.returned op ∈ log → op ∈ order
  realTime : ∀ earlier later, [Mark.returned earlier, Mark.invoked later].Sublist log →
    later ∈ order → [earlier, later].Sublist order
  answers : ∀ op reply, replies op reply → object.AnswersAt order op reply

/-- The order in which the operations are performed linearizes a timed log, if it explains the
    replies. -/
theorem linearizes_order {log : List (Mark ι)} (timed : Mark.Timed log) {replies : ι → ρ → Prop}
    (answers : ∀ op reply, replies op reply → object.AnswersAt (Mark.order log) op reply) :
    object.Linearizes log replies (Mark.order log) where
  once := timed.nodup
  invoked := fun _ => timed.invoked_of_performed
  complete := fun _ => timed.performed_of_returned
  realTime := fun _ _ => timed.realTime
  answers := answers

end SequentialObject

end DistributedCloud
