import DistributedCloud.Misc.Locality
import DistributedCloud.Porcupine.KvModel
import DistributedCloud.Porcupine.Proofs.Operations
import DistributedCloud.Porcupine.Proofs.Parallel

/-!
# Partitions by key

Each partition of the history is linearizable for a store with one key exactly if the whole history
is for the store with all keys. With the search for each partition this says what `CheckOperations`
answers for a key/value history.
-/

namespace DistributedCloud.Porcupine

open Edge

variable {I O σ κ : Type}

/-! ## The operations of one key -/

theorem Timely.filter {history : List (Operation I O)} (timely : Timely history)
    (p : Operation I O → Bool) : Timely (history.filter p) :=
  fun op listed => timely op (List.mem_of_mem_filter listed)

section Partition

variable [DecidableEq κ] (key : I → κ) (history : List (Operation I O)) (k : κ)

/-- The operations of the key with their positions in the history. -/
def positioned : List (Operation I O × Nat) :=
  history.zipIdx.filter fun pair => decide (key pair.1.input = k)

/-- The position in the history of operation `i` of the key. -/
def position (i : Nat) : Nat := ((positioned key history k)[i]?.map Prod.snd).getD 0

variable {key history k} {i j : Nat} {op : Operation I O}

theorem positioned_fst : (positioned key history k).map Prod.fst =
    history.filter fun op => decide (key op.input = k) := by
  rw [positioned]
  have whole := List.zipIdx_map_fst 0 history
  conv_rhs => rw [← whole, List.filter_map]
  rfl

theorem mem_positioned : (op, i) ∈ positioned key history k ↔
    history[i]? = some op ∧ key op.input = k := by
  simp [positioned, List.mem_zipIdx_iff_getElem?]

theorem positioned_snd_nodup : ((positioned key history k).map Prod.snd).Nodup := by
  have whole : (history.zipIdx.map Prod.snd).Nodup := by
    rw [List.zipIdx_map_snd]
    exact List.nodup_range'
  exact List.Nodup.sublist (List.filter_sublist.map _) whole

theorem getElem?_filter :
    (history.filter fun op => decide (key op.input = k))[i]? =
      (positioned key history k)[i]?.map Prod.fst := by
  rw [← positioned_fst, List.getElem?_map]

/-- The operation of the key stands at its position in the history. -/
theorem position_eq (own : (history.filter fun op => decide (key op.input = k))[i]? = some op) :
    (positioned key history k)[i]? = some (op, position key history k i) ∧
      history[position key history k i]? = some op ∧ key op.input = k := by
  rw [getElem?_filter, Option.map_eq_some_iff] at own
  obtain ⟨⟨op, j⟩, found, rfl⟩ := own
  have at' : position key history k i = j := by
    rw [position, found]
    rfl
  rw [at']
  exact ⟨found, mem_positioned.mp (List.mem_of_getElem? found)⟩

theorem exists_position (listed : history[j]? = some op) (own : key op.input = k) :
    ∃ i, (history.filter fun op => decide (key op.input = k))[i]? = some op ∧
      position key history k i = j := by
  obtain ⟨i, found⟩ := List.mem_iff_getElem?.mp (mem_positioned.mpr ⟨listed, own⟩)
  refine ⟨i, ?_, ?_⟩
  · rw [getElem?_filter, found]
    rfl
  · rw [position, found]
    rfl

variable [Inhabited κ]

variable (key history) in
/-- The key of an operation of the history. -/
def keyOf (i : Nat) : κ := (history[i]?.map fun op => key op.input).getD default

omit [DecidableEq κ] in
theorem keyOf_eq (listed : history[i]? = some op) : keyOf key history i = key op.input := by
  rw [keyOf, listed]
  rfl

variable {sort : List (Entry I O) → List (Entry I O)}

theorem renames_position (sorts : SortsByTime sort) (k : κ) :
    Renames (position key history k)
      ((makeEntries sort (history.filter fun op => decide (key op.input = k))).map Entry.edge)
      (restrict (keyOf key history) k ((makeEntries sort history).map Entry.edge)) := by
  -- an operation of the key, and the same one in the history
  have own : ∀ {i}, Edge.call i ∈ (makeEntries sort
      (history.filter fun op => decide (key op.input = k))).map Entry.edge →
      ∃ op, (history.filter fun op => decide (key op.input = k))[i]? = some op := by
    intro i called
    exact ⟨_, List.getElem?_eq_getElem ((call_mem_makeEntries sorts).mp called)⟩
  refine ⟨?_, ?_, ?_, ?_⟩
  · intro i called
    obtain ⟨op, listed⟩ := own called
    obtain ⟨-, inHistory, sameKey⟩ := position_eq listed
    refine mem_restrict.mpr ⟨(call_mem_makeEntries sorts).mpr ?_, ?_⟩
    · exact (List.getElem?_eq_some_iff.mp inHistory).1
    · exact (keyOf_eq inHistory).trans sameKey
  · intro j called
    obtain ⟨called, sameKey⟩ := mem_restrict.mp called
    have listed := List.getElem?_eq_getElem ((call_mem_makeEntries sorts).mp called)
    have sameKey := (keyOf_eq listed).symm.trans sameKey
    obtain ⟨i, inside, at'⟩ := exists_position listed sameKey
    exact ⟨i, (call_mem_makeEntries sorts).mpr (List.getElem?_eq_some_iff.mp inside).1, at'⟩
  · intro i i' called called' same
    obtain ⟨op, listed⟩ := own called
    obtain ⟨op', listed'⟩ := own called'
    obtain ⟨found, -⟩ := position_eq listed
    obtain ⟨found', -⟩ := position_eq listed'
    have left : ((positioned key history k).map Prod.snd)[i]? =
        some (position key history k i) := by
      rw [List.getElem?_map, found]
      rfl
    have right : ((positioned key history k).map Prod.snd)[i']? =
        some (position key history k i) := by
      rw [List.getElem?_map, found', same]
      rfl
    obtain ⟨inside, first⟩ := List.getElem?_eq_some_iff.mp left
    obtain ⟨inside', second⟩ := List.getElem?_eq_some_iff.mp right
    exact (List.Nodup.getElem_inj_iff positioned_snd_nodup).mp (first.trans second.symm)
  · intro i i' called called'
    obtain ⟨op, listed⟩ := own called
    obtain ⟨op', listed'⟩ := own called'
    obtain ⟨-, inHistory, sameKey⟩ := position_eq listed
    obtain ⟨-, inHistory', sameKey'⟩ := position_eq listed'
    rw [returned_before_call sorts listed listed',
      ← returned_before_call sorts inHistory inHistory']
    constructor
    · intro pair
      have kept := pair.filter fun edge => decide (keyOf key history edge.op = k)
      simpa [keyOf_eq inHistory, keyOf_eq inHistory', sameKey, sameKey', restrict] using kept
    · intro pair
      exact pair.trans List.filter_sublist

/-- The operations of one key are linearizable by themselves exactly if they are in the history. -/
theorem isLinearizable_filter (sorts : SortsByTime sort) (timely : Timely history) {init : σ}
    {step : σ → I → O → Bool × σ} (k : κ) :
    IsLinearizable init step (history.filter fun op => decide (key op.input = k)) ↔
      Linearizable (accepts step history)
        (restrict (keyOf key history) k ((makeEntries sort history).map Entry.edge))
        init := by
  rw [← linearizable_iff sorts]
  refine ((renames_position sorts k).linearizable_iff ?_
    (paired_makeEntries sorts (timely.filter _))
    ((paired_makeEntries sorts timely).restrict k)).symm
  intro i called state
  have listed := List.getElem?_eq_getElem ((call_mem_makeEntries sorts).mp called)
  obtain ⟨-, inHistory, -⟩ := position_eq listed
  rw [accepts, accepts, inHistory, listed]

variable (key) in
/-- The step of an object with a state for each key. -/
def keyedStep (step : σ → I → O → Bool × σ) (states : κ → σ) (input : I) (output : O) :
    Bool × (κ → σ) :=
  ((step (states (key input)) input output).1,
    Function.update states (key input) (step (states (key input)) input output).2)

theorem accepts_keyedStep (step : σ → I → O → Bool × σ) :
    accepts (keyedStep key step) history =
      stepAt (keyOf key history) (accepts step history) := by
  funext states i
  rw [stepAt, accepts, accepts]
  cases listed : history[i]? with
  | none => rfl
  | some op =>
    rw [keyOf_eq listed]
    simp only [Option.bind_some, keyedStep]
    cases step (states (key op.input)) op.input op.output with
    | mk ok next => cases ok <;> rfl

/-- A history is linearizable if the operations of every key are. -/
theorem isLinearizable_keyedStep (timely : Timely history) {init : σ}
    {step : σ → I → O → Bool × σ} :
    IsLinearizable (fun _ => init) (keyedStep key step) history ↔
      ∀ k, IsLinearizable init step (history.filter fun op => decide (key op.input = k)) := by
  have sorts := @sortsByTime_mergeByTime I O
  rw [← linearizable_iff sorts, accepts_keyedStep,
    linearizable_iff_restrict (paired_makeEntries sorts timely)]
  exact forall_congr' fun k => (isLinearizable_filter sorts timely k).symm

end Partition

/-! ## The partitions of the key/value model -/

theorem mem_kvPartition {history subhistory : List KvOperation} :
    subhistory ∈ kvPartition history ↔ ∃ v ∈ history,
      subhistory = history.filter fun op => decide (op.input.key = v.input.key) := by
  have values : ∀ key, (Groups.addAll (∅ : Groups String KvOperation)
      (history.map fun v => (v.input.key, [v]))).values key =
        history.filter fun op => decide (op.input.key = key) := by
    intro key
    rw [Groups.values_addAll, Groups.values_empty, List.nil_append, valuesOf, ungroup]
    induction history with
    | nil => rfl
    | cons v history ih =>
      simp only [List.map_cons, List.flatMap_cons, List.map_nil, List.singleton_append]
      by_cases own : v.input.key = key
      · simp [own, ih]
      · simp [own, ih]
  simp only [kvPartition, Groups.sorted, List.map_map, List.mem_map, List.mem_insertionSort,
    ← AList.mem_keys, Groups.mem_addAll, Function.comp_apply, values]
  constructor
  · intro found
    obtain ⟨key, listed, rfl⟩ := found
    obtain ⟨v, inside, rfl⟩ := listed.resolve_left (AList.notMem_empty key)
    exact ⟨v, inside, rfl⟩
  · intro found
    obtain ⟨v, listed, rfl⟩ := found
    exact ⟨v.input.key, .inr ⟨v, listed, rfl⟩, rfl⟩

theorem respectsEqual_kvModel : RespectsEqual (fillDefault kvModel) := respectsEqual_fillDefault rfl

theorem kvPartition_eq_nil {history : List KvOperation} :
    kvPartition history = [] ↔ history = [] := by
  constructor
  · intro none
    refine List.eq_nil_iff_forall_not_mem.mpr ?_
    intro v listed
    have own := mem_kvPartition.mpr ⟨v, listed, rfl⟩
    rw [none] at own
    cases own
  · rintro rfl
    rfl

theorem timely_kvPartition {history : List KvOperation} (timely : Timely history) :
    ∀ subhistory ∈ kvPartition history, Timely subhistory := by
  intro subhistory listed
  obtain ⟨v, -, rfl⟩ := mem_kvPartition.mp listed
  exact timely.filter _

/-- All partitions are linearizable if the store with all keys explains the whole history. -/
theorem kvLinearizable_iff {history : List KvOperation} (timely : Timely history) :
    (∀ subhistory ∈ kvPartition history, IsLinearizable "" kvStep subhistory) ↔
      KvLinearizable history := by
  have whole := @isLinearizable_keyedStep _ _ _ _ _ KvInput.key _ _ timely "" kvStep
  refine Iff.trans ?_ whole.symm
  constructor
  · intro each k
    by_cases used : ∃ v ∈ history, v.input.key = k
    · obtain ⟨v, listed, rfl⟩ := used
      exact each _ (mem_kvPartition.mpr ⟨v, listed, rfl⟩)
    · have none : (history.filter fun op => decide (op.input.key = k)) = [] := by
        refine List.filter_eq_nil_iff.mpr ?_
        intro v listed own
        exact used ⟨v, listed, of_decide_eq_true own⟩
      rw [none]
      exact ⟨[], ⟨List.nodup_nil, by simp, by simp, rfl⟩, by simp⟩
  · intro each subhistory listed
    obtain ⟨v, -, rfl⟩ := mem_kvPartition.mp listed
    exact each v.input.key

end DistributedCloud.Porcupine
