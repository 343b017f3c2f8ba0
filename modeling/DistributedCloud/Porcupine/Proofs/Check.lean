import DistributedCloud.Porcupine.Proofs.KvModel

/-!
# What the checker answers

The search decides whether a history of operations is linearizable and finds longest partial
linearizations. Under every schedule `checkParallel` answers in the end, and its answer is right.
-/

namespace DistributedCloud.Porcupine

open Edge

variable {I O σ : Type} {sort : List (Entry I O) → List (Entry I O)} {model : FilledModel I O σ}
  {history : List (Operation I O)}

/-! ## One partition -/

/-- If no operation returns before it is called, and the model's `Equal` identifies only states that
    behave alike, the search comes to an end and tells whether the history is linearizable. -/
theorem checkSingle_decides (sorts : SortsByTime sort) (respects : RespectsEqual model)
    (timely : Timely history) (computePartial : Bool) :
    ∃ bound, ∀ fuel, bound ≤ fuel → ∃ ok longest,
      checkSingle model (makeEntries sort history) computePartial (fun _ => false) fuel =
        some (ok, longest) ∧
      (ok = true ↔ IsLinearizable model.init model.step history) := by
  have proper := proper_makeEntries sorts model timely
  refine ⟨enoughTurns model (makeEntries sort history), ?_⟩
  intro fuel enough
  obtain ⟨⟨ok, longest⟩, -, returned, verdict⟩ := checkSingle_verdict proper
    (simulates_accepts respects history) computePartial (fun _ => false) enough
  exact ⟨ok, longest, returned, (verdict.ok_iff proper).trans (linearizable_iff sorts)⟩

/-- A put that a get overlaps, and one that comes later. -/
def overlappingPut : List KvOperation :=
  [⟨0, ⟨1, "x", "1"⟩, 0, ⟨""⟩, 10⟩, ⟨1, ⟨0, "x", ""⟩, 1, ⟨"1"⟩, 5⟩, ⟨1, ⟨3, "x", "2"⟩, 6, ⟨""⟩, 9⟩]

theorem timely_overlappingPut : Timely overlappingPut := by
  intro op listed
  simp only [overlappingPut, List.mem_cons, List.not_mem_nil, or_false] at listed
  rcases listed with rfl | rfl | rfl <;> decide

theorem checkSingle_decides_overlappingPut :
    ∃ bound, ∀ fuel, bound ≤ fuel → ∃ ok longest,
      checkSingle (fillDefault kvModel) (makeEntries mergeByTime overlappingPut) false
        (fun _ => false) fuel = some (ok, longest) ∧
      (ok = true ↔ IsLinearizable "" kvStep overlappingPut) :=
  checkSingle_decides sortsByTime_mergeByTime respectsEqual_kvModel
    timely_overlappingPut false

/-- No order of other operations is longer. -/
theorem Linearization.length_le {init : σ} {step : σ → I → O → Bool × σ} {order other : List Nat}
    (complete : ∀ i < history.length, i ∈ order) (linearization : Linearization init step history other) :
    other.length ≤ order.length := by
  refine (List.subperm_of_subset linearization.nodup ?_).length_le
  intro i listed
  exact complete i (linearization.inside i listed)

/-- With `computePartial`, and under the same assumptions, a longest partial linearization is found
    for every operation that has one. -/
theorem checkSingle_longest (sorts : SortsByTime sort) (respects : RespectsEqual model)
    (timely : Timely history) :
    ∃ bound, ∀ fuel, bound ≤ fuel → ∃ ok longest,
      checkSingle model (makeEntries sort history) true (fun _ => false) fuel =
        some (ok, longest) ∧
      longest.length = history.length ∧
      ∀ i < history.length,
        (∀ order, longest[i]? = some (some order) →
          i ∈ order ∧ Linearization model.init model.step history order ∧
          ∀ other, Linearization model.init model.step history other → i ∈ other →
            other.length ≤ order.length) ∧
        (longest[i]? = some none →
          ∀ other, Linearization model.init model.step history other → i ∉ other) := by
  have proper := proper_makeEntries sorts model timely
  have half : (makeEntries sort history).length / 2 = history.length := by
    rw [length_makeEntries sorts, Nat.mul_div_cancel_left _ (by decide)]
  refine ⟨enoughTurns model (makeEntries sort history), ?_⟩
  intro fuel enough
  obtain ⟨⟨ok, longest⟩, -, returned, verdict⟩ := checkSingle_verdict proper
    (simulates_accepts respects history) true (fun _ => false) enough
  refine ⟨ok, longest, returned, ?_⟩
  cases verdict with
  | killed killed _ => cases killed
  | @found order explains complete =>
    rw [half] at complete ⊢
    refine ⟨List.length_replicate, ?_⟩
    intro i inside
    rw [List.getElem?_replicate_of_lt inside]
    refine ⟨?_, ?_⟩
    · intro order' same
      cases same
      refine ⟨complete i inside, (explains_iff sorts).mp explains, ?_⟩
      intro other linearization _
      exact linearization.length_le complete
    · intro none
      cases none
  | failed illegal legal maximal =>
    refine ⟨legal.size.trans half, ?_⟩
    intro i inside
    refine ⟨?_, ?_⟩
    · intro order noted
      obtain ⟨listed, explains⟩ := legal.explains i order noted
      refine ⟨listed, (explains_iff sorts).mp explains, ?_⟩
      intro other linearization listed'
      obtain ⟨best, noted', longer⟩ :=
        maximal rfl other ((explains_iff sorts).mpr linearization) i listed'
      cases noted.symm.trans noted'
      exact longer
    · intro none other linearization listed
      obtain ⟨best, noted, -⟩ := maximal rfl other ((explains_iff sorts).mpr linearization) i listed
      cases none.symm.trans noted

/-- The get does not see the put that it comes after. -/
def staleGet : List KvOperation :=
  [⟨0, ⟨1, "x", "1"⟩, 0, ⟨""⟩, 4⟩, ⟨1, ⟨0, "x", ""⟩, 5, ⟨""⟩, 9⟩]

theorem timely_staleGet : Timely staleGet := by
  intro op listed
  simp only [staleGet, List.mem_cons, List.not_mem_nil, or_false] at listed
  rcases listed with rfl | rfl <;> decide

theorem checkSingle_longest_staleGet :
    Timely staleGet ∧ ∃ bound, ∀ fuel, bound ≤ fuel → ∃ ok longest,
      checkSingle (fillDefault kvModel) (makeEntries mergeByTime staleGet) true (fun _ => false)
        fuel = some (ok, longest) ∧
      longest.length = 2 ∧
      (longest[1]? = some none → ∀ other, Linearization "" kvStep staleGet other → 1 ∉ other) := by
  obtain ⟨bound, returns⟩ := checkSingle_longest sortsByTime_mergeByTime
    respectsEqual_kvModel timely_staleGet
  refine ⟨timely_staleGet, bound, ?_⟩
  intro fuel enough
  obtain ⟨ok, longest, returned, length, each⟩ := returns fuel enough
  exact ⟨ok, longest, returned, length, (each 1 (by decide)).2⟩

/-! ## All partitions -/

section Partitions

variable [DecidableEq σ] {model : Model I O σ} {verbose timeout : Bool}

/-- The step of the operations of partition `i`. -/
def partitionStep (model : Model I O σ) (history : List (Operation I O)) (i : Nat) :
    σ → Nat → Option σ :=
  accepts model.step ((((fillDefault model).partition history)[i]?).getD [])

theorem checkable_operations (verbose timeout : Bool) (sorts : SortsByTime sort)
    (respects : RespectsEqual (fillDefault model))
    (timely : ∀ subhistory ∈ (fillDefault model).partition history, Timely subhistory) :
    Checkable (checkOperations sort model history verbose timeout)
      (partitionStep model history) := by
  refine ⟨?_, fun i => simulates_accepts respects _⟩
  intro i entries listed
  simp only [checkOperations, List.getElem?_map, Option.map_eq_some_iff] at listed
  obtain ⟨subhistory, listed, rfl⟩ := listed
  rw [partitionStep, listed]
  exact proper_makeEntries sorts (fillDefault model) (timely _ (List.mem_of_getElem? listed))

theorem explains_partition (sorts : SortsByTime sort) {subhistory : List (Operation I O)} {i : Nat}
    (listed : ((fillDefault model).partition history)[i]? = some subhistory) {order : List Nat} :
    Explains (partitionStep model history i) ((makeEntries sort subhistory).map Entry.edge)
      model.init order ↔ Linearization model.init model.step subhistory order := by
  rw [partitionStep, listed]
  exact explains_iff sorts

theorem linearizable_partition (sorts : SortsByTime sort) {subhistory : List (Operation I O)}
    {i : Nat} (listed : ((fillDefault model).partition history)[i]? = some subhistory) :
    Linearizable (partitionStep model history i) ((makeEntries sort subhistory).map Entry.edge)
      model.init ↔ IsLinearizable model.init model.step subhistory := by
  rw [partitionStep, listed]
  exact linearizable_iff sorts

section Returned

variable (sorts : SortsByTime sort) (respects : RespectsEqual (fillDefault model))
  (timely : ∀ subhistory ∈ (fillDefault model).partition history, Timely subhistory)
  {p : Parallel σ} {result : CheckResult} {partials : List (List (List Nat))}
  (reached : (checkOperations sort model history verbose timeout).checkParallel.Reachable p)
  (returned : p.main = .returned result partials)

include sorts respects timely reached returned

theorem isLinearizable_of_ok (passed : result = .ok) :
    ∀ subhistory ∈ (fillDefault model).partition history,
      IsLinearizable model.init model.step subhistory := by
  have checkable := checkable_operations verbose timeout sorts respects timely
  obtain ⟨work, sound⟩ := sound_of_reachable checkable reached
  intro subhistory listed
  obtain ⟨i, found⟩ := List.mem_iff_getElem?.mp listed
  refine (linearizable_partition sorts found).mp
    (sound.linearizable_of_ok returned checkable passed ?_)
  simp [checkOperations, found]

theorem not_isLinearizable_of_illegal (failed : result = .illegal) :
    ∃ subhistory ∈ (fillDefault model).partition history,
      ¬ IsLinearizable model.init model.step subhistory := by
  obtain ⟨work, sound⟩ :=
    sound_of_reachable (checkable_operations verbose timeout sorts respects timely) reached
  obtain ⟨i, subentries, listed, illegal⟩ := sound.refuted_of_illegal returned failed
  simp only [checkOperations, List.getElem?_map, Option.map_eq_some_iff] at listed
  obtain ⟨subhistory, found, rfl⟩ := listed
  refine ⟨subhistory, List.mem_of_getElem? found, ?_⟩
  intro linearizable
  exact illegal ((linearizable_partition sorts found).mpr linearizable)

theorem timeout_of_unknown (unknown : result = .unknown) : timeout = true := by
  obtain ⟨work, sound⟩ :=
    sound_of_reachable (checkable_operations verbose timeout sorts respects timely) reached
  exact sound.timeout_of_unknown returned unknown

/-- What `CheckOperationsTimeout` and `CheckOperationsVerbose` return for timely partitions and a model
    that respects its `Equal`, under every schedule and whenever the time is up: `Ok` and `Illegal`
    are right, `Unknown` is only returned if there is a timeout, and the partial linearizations are
    ones. -/
theorem checkOperations_sound :
    (result = .ok → ∀ subhistory ∈ (fillDefault model).partition history,
      IsLinearizable model.init model.step subhistory) ∧
    (result = .illegal → ∃ subhistory ∈ (fillDefault model).partition history,
      ¬ IsLinearizable model.init model.step subhistory) ∧
    (result = .unknown → timeout = true) ∧
    ∀ (i : Nat) (subhistory : List (Operation I O)) (orders : List (List Nat)),
      ((fillDefault model).partition history)[i]? = some subhistory →
      partials[i]? = some orders → ∀ order ∈ orders,
        Linearization model.init model.step subhistory order := by
  refine ⟨isLinearizable_of_ok sorts respects timely reached returned,
    not_isLinearizable_of_illegal sorts respects timely reached returned,
    timeout_of_unknown sorts respects timely reached returned, ?_⟩
  intro i subhistory orders found listed order inside
  obtain ⟨work, sound⟩ :=
    sound_of_reachable (checkable_operations verbose timeout sorts respects timely) reached
  refine (explains_partition sorts found).mp
    (sound.explains_of_partials returned ?_ listed order inside)
  simp [checkOperations, found]

end Returned

/-- With at least one partition, all of them timely, and a model that respects its `Equal`, every
    schedule ends, and not before the main goroutine has returned. -/
theorem checkOperations_returns (sorts : SortsByTime sort)
    (respects : RespectsEqual (fillDefault model))
    (timely : ∀ subhistory ∈ (fillDefault model).partition history, Timely subhistory)
    (some : (fillDefault model).partition history ≠ []) :
    ∃ bound, ∀ events p,
      (checkOperations sort model history verbose timeout).checkParallel.run
        (checkOperations sort model history verbose timeout).checkParallel.init events =
          Option.some p →
      events.length ≤ bound ∧
      ((∀ result partials, p.main ≠ .returned result partials) →
        ∃ event, ((checkOperations sort model history verbose timeout).checkParallel.step p
          event).isSome) := by
  have checkable := checkable_operations verbose timeout sorts respects timely
  obtain ⟨work, sound⟩ := sound_init (checkOperations sort model history verbose timeout)
    (partitionStep model history)
  refine ⟨work, ?_⟩
  intro events p ran
  refine ⟨sound.length_le checkable ran, ?_⟩
  intro unfinished
  obtain ⟨work', sound'⟩ := sound_of_reachable checkable (Machine.path_of_run ran)
  refine sound'.exists_step checkable ?_ unfinished
  intro empty
  exact some (List.map_eq_nil_iff.mp empty)

end Partitions

theorem exists_returned_staleGet (verbose timeout : Bool) :
    ∃ p, (checkOperations mergeByTime kvModel staleGet verbose timeout).checkParallel.Reachable p ∧
      ∃ result partials, p.main = .returned result partials := by
  have checkable := checkable_operations verbose timeout sortsByTime_mergeByTime
    respectsEqual_kvModel (timely_kvPartition timely_staleGet)
  obtain ⟨work, sound⟩ := sound_init
    (checkOperations mergeByTime kvModel staleGet verbose timeout) (partitionStep kvModel staleGet)
  refine sound.exists_return checkable ?_
  intro empty
  exact List.cons_ne_nil _ _ (kvPartition_eq_nil.mp (List.map_eq_nil_iff.mp empty))

theorem checkOperations_sound_staleGet :
    ∃ p result partials,
      (checkOperations mergeByTime kvModel staleGet true true).checkParallel.Reachable p ∧
      p.main = .returned result partials ∧
      (result = .ok → ∀ subhistory ∈ kvPartition staleGet, IsLinearizable "" kvStep subhistory) := by
  obtain ⟨p, reached, result, partials, returned⟩ := exists_returned_staleGet true true
  exact ⟨p, result, partials, reached, returned,
    (checkOperations_sound sortsByTime_mergeByTime respectsEqual_kvModel
      (timely_kvPartition timely_staleGet) reached returned).1⟩

theorem checkOperations_returns_staleGet :
    kvPartition staleGet ≠ [] ∧ ∃ bound, ∀ events p,
      (checkOperations mergeByTime kvModel staleGet true true).checkParallel.run
        (checkOperations mergeByTime kvModel staleGet true true).checkParallel.init events =
          some p →
      events.length ≤ bound ∧
      ((∀ result partials, p.main ≠ .returned result partials) →
        ∃ event, ((checkOperations mergeByTime kvModel staleGet true true).checkParallel.step p
          event).isSome) := by
  have parts : kvPartition staleGet ≠ [] := by
    intro empty
    exact List.cons_ne_nil _ _ (kvPartition_eq_nil.mp empty)
  exact ⟨parts, checkOperations_returns sortsByTime_mergeByTime respectsEqual_kvModel
    (timely_kvPartition timely_staleGet) parts⟩

/-! ## Key/value histories -/

/-- For a timely history `CheckOperations(KvModel, history)` returns in the end exactly if there is an
    operation, and then it tells whether the history is linearizable for the store with all keys. -/
theorem checkOperations_kvModel
    {sort : List (Entry KvInput KvOutput) → List (Entry KvInput KvOutput)}
    (sorts : SortsByTime sort) {history : List KvOperation} (timely : Timely history) :
    (∀ p result partials,
      (checkOperations sort kvModel history false false).checkParallel.Reachable p →
      p.main = .returned result partials →
      (result = .ok ↔ KvLinearizable history)) ∧
    ((∃ p result partials,
      (checkOperations sort kvModel history false false).checkParallel.Reachable p ∧
      p.main = .returned result partials) ↔ history ≠ []) := by
  have respects := respectsEqual_kvModel
  have timely' : ∀ subhistory ∈ (fillDefault kvModel).partition history, Timely subhistory :=
    timely_kvPartition timely
  have whole : (∀ subhistory ∈ (fillDefault kvModel).partition history,
      IsLinearizable "" kvStep subhistory) ↔ KvLinearizable history := kvLinearizable_iff timely
  refine ⟨?_, ?_⟩
  · intro p result partials reached returned
    rw [← whole]
    cases result with
    | ok => exact iff_of_true rfl (isLinearizable_of_ok sorts respects timely' reached returned rfl)
    | illegal =>
      obtain ⟨subhistory, listed, illegal⟩ :=
        not_isLinearizable_of_illegal sorts respects timely' reached returned rfl
      refine iff_of_false CheckResult.noConfusion ?_
      intro each
      exact illegal (each subhistory listed)
    | unknown => cases timeout_of_unknown sorts respects timely' reached returned rfl
  · constructor
    · intro found empty
      obtain ⟨p, result, partials, reached, returned⟩ := found
      have none : (checkOperations sort kvModel history false false).history = [] := by
        rw [empty]
        rfl
      rw [looping_of_empty none rfl reached] at returned
      cases returned
    · intro some
      have checkable := checkable_operations false false sorts respects timely'
      obtain ⟨work, sound⟩ := sound_init (checkOperations sort kvModel history false false)
        (partitionStep kvModel history)
      have parts : (checkOperations sort kvModel history false false).history ≠ [] := by
        intro empty
        exact some (kvPartition_eq_nil.mp (List.map_eq_nil_iff.mp empty))
      obtain ⟨p, path, result, partials, returned⟩ := sound.exists_return checkable parts
      exact ⟨p, result, partials, path, returned⟩

theorem checkOperations_kvModel_overlappingPut :
    ∃ p result partials,
      (checkOperations mergeByTime kvModel overlappingPut false false).checkParallel.Reachable p ∧
      p.main = .returned result partials ∧ (result = .ok ↔ KvLinearizable overlappingPut) := by
  obtain ⟨right, returns⟩ := checkOperations_kvModel sortsByTime_mergeByTime timely_overlappingPut
  obtain ⟨p, result, partials, reached, returned⟩ := returns.mpr (List.cons_ne_nil _ _)
  exact ⟨p, result, partials, reached, returned, right p result partials reached returned⟩

end DistributedCloud.Porcupine
