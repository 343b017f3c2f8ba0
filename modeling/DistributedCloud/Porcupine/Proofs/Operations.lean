import DistributedCloud.Porcupine.Proofs.Verdict

/-!
# Histories of operations

`makeEntries` lists the calls and returns of the operations in the order of time, a call first
where the times are the same. An operation has returned before another is called exactly if its
return stands before the other's call.
-/

namespace DistributedCloud.Porcupine

open Edge

variable {I O σ : Type}

/-! ## Entries in the order of time -/

theorem pair_sublist_or {α : Type} {a b : α} {l : List α} (left : a ∈ l) (right : b ∈ l)
    (apart : a ≠ b) : [a, b].Sublist l ∨ [b, a].Sublist l := by
  induction l with
  | nil => cases left
  | cons c l ih =>
    rcases List.mem_cons.mp left with rfl | inside
    · have later := (List.mem_cons.mp right).resolve_left apart.symm
      exact .inl (List.Sublist.cons_cons _ (List.singleton_sublist.mpr later))
    · rcases List.mem_cons.mp right with rfl | inside'
      · exact .inr (List.Sublist.cons_cons _ (List.singleton_sublist.mpr inside))
      · exact (ih inside inside').imp (List.Sublist.cons _) (List.Sublist.cons _)

variable {sort : List (Entry I O) → List (Entry I O)} {entries : List (Entry I O)}
  {a b c : Entry I O}

theorem less_iff : a.less b = true ↔
    a.time < b.time ∨ a.time = b.time ∧ a.kind = .callEntry ∧ b.kind = .returnEntry := by
  unfold Entry.less
  split
  · rename_i apart
    simp [apart]
  · rename_i same
    rw [ne_eq, not_not] at same
    simp [same]

/-- A call is less than a return that is not earlier. -/
theorem less_call_return (call : a.kind = .callEntry) (ret : b.kind = .returnEntry) :
    a.less b = true ↔ a.time ≤ b.time := by
  rw [less_iff]
  simp only [call, ret, and_self, and_true]
  omega

/-- A return is less than a call that is later. -/
theorem less_return_call (ret : a.kind = .returnEntry) :
    a.less b = true ↔ a.time < b.time := by
  rw [less_iff]
  simp [ret]

/-- An entry that is less than another stands before it. -/
theorem SortsByTime.sublist_of_less (sorts : SortsByTime sort) (left : a ∈ entries)
    (right : b ∈ entries) (less : a.less b = true) : [a, b].Sublist (sort entries) := by
  obtain ⟨perm, ordered⟩ := sorts entries
  have apart : a ≠ b := by
    rintro rfl
    rcases less_iff.mp less with less | ⟨-, call, ret⟩
    · exact Int.lt_irrefl _ less
    · cases call.symm.trans ret
  refine (pair_sublist_or (perm.mem_iff.mpr left) (perm.mem_iff.mpr right) apart).resolve_right ?_
  intro reverse
  have notLess := (List.pairwise_cons.mp (ordered.sublist reverse)).1 a (by simp)
  rw [less] at notLess
  cases notLess

theorem SortsByTime.not_less_of_sublist (sorts : SortsByTime sort)
    (pair : [a, b].Sublist (sort entries)) : b.less a = false :=
  (List.pairwise_cons.mp ((sorts entries).2.sublist pair)).1 b (by simp)

/-- A merge sort, for one. -/
def mergeByTime (entries : List (Entry I O)) : List (Entry I O) :=
  entries.mergeSort fun a b => !b.less a

theorem not_less_trans (first : b.less a = false) (second : c.less b = false) :
    c.less a = false := by
  rw [Bool.eq_false_iff, ne_eq, less_iff] at first second ⊢
  intro less
  cases kind : b.kind with
  | callEntry =>
    simp only [kind, true_and, not_or, not_and] at first
    rcases less with less | ⟨same, -, ret⟩
    · omega
    · exact first.2 (by omega) ret
  | returnEntry =>
    simp only [kind, and_true, not_or, not_and] at second
    rcases less with less | ⟨same, call, -⟩
    · omega
    · exact second.2 (by omega) call

theorem sortsByTime_mergeByTime : SortsByTime (mergeByTime : List (Entry I O) → _) := by
  intro entries
  refine ⟨List.mergeSort_perm _ _, ?_⟩
  have ordered : (mergeByTime entries).Pairwise fun a b => (!b.less a) = true := by
    apply List.pairwise_mergeSort
    · intro a b c first second
      rw [Bool.not_eq_true'] at first second ⊢
      exact not_less_trans first second
    · intro a b
      -- at most one of the two is less than the other
      cases less : b.less a with
      | false => rfl
      | true =>
        have notLess : a.less b = false := by
          rw [Bool.eq_false_iff, ne_eq, less_iff]
          rcases less_iff.mp less with less | ⟨same, call, ret⟩
          · omega
          · simp [same, call]
        rw [notLess]
        rfl
  exact ordered.imp fun notLess => Bool.not_eq_true' _ |>.mp notLess

/-! ## The entries of the operations -/

/-- The call of operation `i`. -/
def callOf (i : Nat) (op : Operation I O) : Entry I O :=
  ⟨.callEntry, .inl op.input, i, op.call, op.clientId⟩

/-- The return of operation `i`. -/
def returnOf (i : Nat) (op : Operation I O) : Entry I O :=
  ⟨.returnEntry, .inr op.output, i, op.ret, op.clientId⟩

theorem mem_appendEntries {k : Nat} {history : List (Operation I O)} {entry : Entry I O} :
    entry ∈ appendEntries k history ↔
      ∃ i op, history[i]? = some op ∧ (entry = callOf (k + i) op ∨ entry = returnOf (k + i) op) := by
  induction history generalizing k with
  | nil => simp [appendEntries]
  | cons first history ih =>
    rw [appendEntries, List.mem_cons, List.mem_cons, ih]
    constructor
    · intro either
      rcases either with own | own | ⟨i, op, listed, own⟩
      · exact ⟨0, first, rfl, .inl own⟩
      · exact ⟨0, first, rfl, .inr own⟩
      · refine ⟨i + 1, op, listed, ?_⟩
        rwa [Nat.add_right_comm] at own
    · intro found
      obtain ⟨i, op, listed, own⟩ := found
      cases i with
      | zero =>
        cases listed
        exact own.imp_right .inl
      | succ i =>
        refine .inr (.inr ⟨i, op, listed, ?_⟩)
        rwa [Nat.add_right_comm]

theorem length_appendEntries (k : Nat) (history : List (Operation I O)) :
    (appendEntries k history).length = 2 * history.length := by
  induction history generalizing k with
  | nil => rfl
  | cons first history ih =>
    rw [appendEntries, List.length_cons, List.length_cons, ih, List.length_cons]
    omega

theorem nodup_appendEntries (k : Nat) (history : List (Operation I O)) :
    ((appendEntries k history).map Entry.edge).Nodup := by
  induction history generalizing k with
  | nil => simp [appendEntries]
  | cons first history ih =>
    have later : ∀ edge ∈ (appendEntries (k + 1) history).map Entry.edge, k < edge.op := by
      intro edge listed
      obtain ⟨entry, inside, rfl⟩ := List.mem_map.mp listed
      obtain ⟨i, op, -, rfl | rfl⟩ := mem_appendEntries.mp inside
      · show k < k + 1 + i
        omega
      · show k < k + 1 + i
        omega
    show (Edge.call k :: Edge.ret k :: _).Nodup
    refine List.nodup_cons.mpr ⟨?_, List.nodup_cons.mpr ⟨?_, ih (k + 1)⟩⟩
    · intro listed
      rcases List.mem_cons.mp listed with same | listed
      · cases same
      · exact Nat.lt_irrefl _ (later _ listed)
    · intro listed
      exact Nat.lt_irrefl _ (later _ listed)

variable {history : List (Operation I O)} {i j : Nat} {op : Operation I O}

theorem mem_makeEntries (sorts : SortsByTime sort) {entry : Entry I O} :
    entry ∈ makeEntries sort history ↔
      ∃ i op, history[i]? = some op ∧ (entry = callOf i op ∨ entry = returnOf i op) := by
  rw [makeEntries, (sorts _).1.mem_iff, mem_appendEntries]
  simp only [Nat.zero_add]

theorem length_makeEntries (sorts : SortsByTime sort) (history : List (Operation I O)) :
    (makeEntries sort history).length = 2 * history.length := by
  rw [makeEntries, (sorts _).1.length_eq, length_appendEntries]

theorem call_mem_makeEntries (sorts : SortsByTime sort) :
    Edge.call i ∈ (makeEntries sort history).map Entry.edge ↔ i < history.length := by
  constructor
  · intro listed
    obtain ⟨entry, listed, edge⟩ := List.mem_map.mp listed
    obtain ⟨j, op, inside, rfl | rfl⟩ := (mem_makeEntries sorts).mp listed
    · have same : j = i := Edge.call.inj edge
      exact same ▸ (List.getElem?_eq_some_iff.mp inside).1
    · cases edge
  · intro inside
    refine List.mem_map.mpr ⟨callOf i history[i], ?_, rfl⟩
    exact (mem_makeEntries sorts).mpr ⟨i, history[i], List.getElem?_eq_getElem inside, .inl rfl⟩

/-- The entry with the call of an operation. -/
theorem eq_callOf (sorts : SortsByTime sort) {entry : Entry I O}
    (listed : entry ∈ makeEntries sort history) (edge : entry.edge = .call i)
    (own : history[i]? = some op) : entry = callOf i op := by
  obtain ⟨k, op', inside, rfl | rfl⟩ := (mem_makeEntries sorts).mp listed
  · have same : k = i := Edge.call.inj edge
    subst same
    rw [own] at inside
    cases inside
    rfl
  · cases edge

/-- The entry with the return of an operation. -/
theorem eq_returnOf (sorts : SortsByTime sort) {entry : Entry I O}
    (listed : entry ∈ makeEntries sort history) (edge : entry.edge = .ret i)
    (own : history[i]? = some op) : entry = returnOf i op := by
  obtain ⟨k, op', inside, rfl | rfl⟩ := (mem_makeEntries sorts).mp listed
  · cases edge
  · have same : k = i := Edge.ret.inj edge
    subst same
    rw [own] at inside
    cases inside
    rfl

/-- An operation has returned before another is called. -/
theorem returned_before_call (sorts : SortsByTime sort) {first second : Operation I O}
    (left : history[i]? = some first) (right : history[j]? = some second) :
    [Edge.ret i, Edge.call j].Sublist ((makeEntries sort history).map Entry.edge) ↔
      first.ret < second.call := by
  have inside : returnOf i first ∈ appendEntries 0 history :=
    mem_appendEntries.mpr ⟨i, first, left, .inr (by rw [Nat.zero_add])⟩
  have inside' : callOf j second ∈ appendEntries 0 history :=
    mem_appendEntries.mpr ⟨j, second, right, .inl (by rw [Nat.zero_add])⟩
  constructor
  · intro pair
    obtain ⟨cells, sublist, split⟩ := List.sublist_map_iff.mp pair
    obtain ⟨ret, rest, rfl, isReturn, tail⟩ := List.map_eq_cons_iff.mp split.symm
    obtain ⟨call, rest, rfl, isCall, tail⟩ := List.map_eq_cons_iff.mp tail
    obtain rfl := List.map_eq_nil_iff.mp tail
    obtain rfl := eq_returnOf sorts (sublist.subset (List.mem_cons_self ..)) isReturn left
    obtain rfl := eq_callOf sorts (sublist.subset (by simp)) isCall right
    have notLess := sorts.not_less_of_sublist sublist
    by_contra late
    have less := (less_call_return (a := callOf j second) (b := returnOf i first) rfl rfl).mpr
      (Int.le_of_not_gt late)
    rw [less] at notLess
    cases notLess
  · intro earlier
    have less := (less_return_call (a := returnOf i first) (b := callOf j second) rfl).mpr
      earlier
    exact (sorts.sublist_of_less inside inside' less).map Entry.edge

theorem paired_makeEntries (sorts : SortsByTime sort) (timely : Timely history) :
    Paired ((makeEntries sort history).map Entry.edge) := by
  refine ⟨?_, ?_, ?_⟩
  · exact ((sorts _).1.map Entry.edge).nodup_iff.mpr (nodup_appendEntries 0 history)
  · intro i called
    have inside := (call_mem_makeEntries sorts).mp called
    have listed := List.getElem?_eq_getElem inside
    have less := (less_call_return (a := callOf i history[i]) (b := returnOf i history[i])
      rfl rfl).mpr (timely _ (List.getElem_mem inside))
    refine (sorts.sublist_of_less ?_ ?_ less).map Entry.edge
    · exact mem_appendEntries.mpr ⟨i, _, listed, .inl (by rw [Nat.zero_add])⟩
    · exact mem_appendEntries.mpr ⟨i, _, listed, .inr (by rw [Nat.zero_add])⟩
  · intro i returned
    obtain ⟨entry, listed, edge⟩ := List.mem_map.mp returned
    obtain ⟨j, op, inside, rfl | rfl⟩ := (mem_makeEntries sorts).mp listed
    · cases edge
    · have same : j = i := Edge.ret.inj edge
      exact (call_mem_makeEntries sorts).mpr (same ▸ (List.getElem?_eq_some_iff.mp inside).1)

theorem proper_makeEntries (sorts : SortsByTime sort) (model : FilledModel I O σ)
    (timely : Timely history) :
    Proper model (makeEntries sort history) (accepts model.step history) := by
  refine ⟨paired_makeEntries sorts timely, ?_, ?_⟩
  · intro i
    rw [length_makeEntries sorts, Nat.mul_div_cancel_left _ (by decide)]
    exact call_mem_makeEntries sorts
  · intro call called ret returned callKind retKind same
    obtain ⟨i, op, inside, rfl | rfl⟩ := (mem_makeEntries sorts).mp called
    · obtain ⟨j, op', inside', rfl | rfl⟩ := (mem_makeEntries sorts).mp returned
      · cases retKind
      · have sameIndex : i = j := same
        subst sameIndex
        rw [inside] at inside'
        cases inside'
        refine ⟨op.input, op.output, rfl, rfl, ?_⟩
        intro state
        show accepts model.step history state i = _
        rw [accepts, inside]
        rfl
    · cases callKind

variable {init : σ} {step : σ → I → O → Bool × σ}

/-- The orders that explain the entries are the linearizations of the operations. -/
theorem explains_iff (sorts : SortsByTime sort) {order : List Nat} :
    Explains (accepts step history) ((makeEntries sort history).map Entry.edge) init order ↔
      Linearization init step history order := by
  constructor
  · intro explains
    refine ⟨explains.nodup, ?_, ?_, explains.legal⟩
    · intro i listed
      exact (call_mem_makeEntries sorts).mp (explains.called i listed)
    · intro i j a b left right earlier listed
      exact explains.realTime ((returned_before_call sorts left right).mpr earlier) listed
  · intro linearization
    refine ⟨linearization.nodup, ?_, ?_, linearization.legal⟩
    · intro i listed
      exact (call_mem_makeEntries sorts).mpr (linearization.inside i listed)
    · intro i j pair listed
      have right := List.getElem?_eq_getElem (linearization.inside j listed)
      have returned : Edge.ret i ∈ (makeEntries sort history).map Entry.edge :=
        pair.subset (by simp)
      obtain ⟨entry, inside, edge⟩ := List.mem_map.mp returned
      obtain ⟨k, op, left, rfl | rfl⟩ := (mem_makeEntries sorts).mp inside
      · cases edge
      · have same : k = i := Edge.ret.inj edge
        subst same
        exact linearization.realTime left right ((returned_before_call sorts left right).mp pair)
          listed

theorem linearizable_iff (sorts : SortsByTime sort) :
    Linearizable (accepts step history) ((makeEntries sort history).map Entry.edge) init ↔
      IsLinearizable init step history := by
  unfold Linearizable IsLinearizable
  simp only [explains_iff sorts, call_mem_makeEntries sorts]

/-- Steps of the model, each for an operation or for none, respect equal states. -/
theorem simulates_of_steps {ι : Type} {model : FilledModel I O σ} (respects : RespectsEqual model)
    {steps : σ → ι → Option σ}
    (each : ∀ i, (∀ state, steps state i = none) ∨
      ∃ input output, ∀ state, steps state i = accepted (model.step state input output)) :
    Search.Simulates steps model.equal := by
  intro state other i next equal taken
  rcases each i with never | ⟨input, output, always⟩
  · cases (never state).symm.trans taken
  · rw [always] at taken
    rw [always]
    cases result : model.step state input output with
    | mk ok next' =>
      rw [result] at taken
      cases ok with
      | false => cases taken
      | true =>
        cases taken
        have both := respects state other input output equal (by rw [result])
        rw [result] at both
        cases result' : model.step other input output with
        | mk ok' next' =>
          rw [result'] at both
          exact ⟨next', if_pos both.1, both.2⟩

theorem simulates_accepts {model : FilledModel I O σ} (respects : RespectsEqual model)
    (history : List (Operation I O)) :
    Search.Simulates (accepts model.step history) model.equal := by
  refine simulates_of_steps respects ?_
  intro i
  cases listed : history[i]? with
  | none => exact .inl fun state => by rw [accepts, listed]; rfl
  | some op => exact .inr ⟨op.input, op.output, fun state => by rw [accepts, listed]; rfl⟩

/-- Equal states are the same state. -/
theorem respectsEqual_fillDefault [DecidableEq σ] {model : Model I O σ}
    (shallow : model.equal = none) : RespectsEqual (fillDefault model) := by
  have equal : (fillDefault model).equal = shallowEqual := by rw [fillDefault, shallow]; rfl
  intro state other input output same accepted
  rw [equal, shallowEqual, beq_iff_eq] at same
  subst same
  exact ⟨accepted, by simp [equal, shallowEqual]⟩

end DistributedCloud.Porcupine
