import DistributedCloud.Porcupine.Parallel
import DistributedCloud.Porcupine.Proofs.Verdict
import Mathlib.Algebra.Order.BigOperators.Group.Finset

/-!
# Every schedule of the parallel check

Results that come before the main goroutine leaves its loop are not influenced by `kill`, so that
they can be trusted whatever the schedule. Every step uses up a part of the work, and as long as
the main goroutine has not returned there is a step to take.
-/

namespace DistributedCloud.Porcupine

open Edge

variable {I O σ : Type}

/-- All partitions are proper histories for the model. -/
structure Checkable (job : Job I O σ) (steps : Nat → σ → Nat → Option σ) : Prop where
  proper : ∀ {i subhistory}, job.history[i]? = some subhistory →
    Proper job.model subhistory (steps i)
  simulates : ∀ i, Search.Simulates (steps i) job.model.equal

section Verdicts

variable {step : σ → Nat → Option σ} {entries : List (Entry I O)} {init : σ} {note kill : Bool}
  {longest : Longest}

theorem Verdict.mono {result : Bool × Longest} {kill' : Bool} (later : kill = true → kill' = true)
    (verdict : Verdict step entries init note kill result) :
    Verdict step entries init note kill' result := by
  cases verdict with
  | found explains complete => exact .found explains complete
  | killed killed legal => exact .killed (later killed) legal
  | failed illegal legal maximal => exact .failed illegal legal maximal

theorem Verdict.explains {ok : Bool} {op : Nat} {order : List Nat}
    (verdict : Verdict step entries init note kill (ok, longest))
    (noted : longest[op]? = some (some order)) :
    Explains step (entries.map Entry.edge) init order := by
  cases verdict with
  | found explains complete =>
    obtain ⟨inside, same⟩ := List.getElem?_eq_some_iff.mp noted
    rw [List.getElem_replicate] at same
    cases same
    exact explains
  | killed killed legal => exact (legal.explains op order noted).2
  | failed illegal legal maximal => exact (legal.explains op order noted).2

theorem Verdict.explains_unique {ok : Bool} {order : List Nat}
    (verdict : Verdict step entries init note kill (ok, longest))
    (listed : order ∈ uniqueLinearizations longest) :
    Explains step (entries.map Entry.edge) init order := by
  rw [uniqueLinearizations, List.mem_dedup, List.mem_filterMap] at listed
  obtain ⟨noted, listed, rfl⟩ := listed
  obtain ⟨op, found⟩ := List.mem_iff_getElem?.mp listed
  exact verdict.explains found

end Verdicts

section Workers

variable (job : Job I O σ) (steps : Nat → σ → Nat → Option σ)

/-- What holds for the goroutine of a partition, with the work that it has left. -/
def Sane (kill : Bool) (i : Nat) (subhistory : List (Entry I O)) : Worker σ → Nat → Prop
  | .running s, weight => ∃ work, weight = work + 3 ∧
      Running (steps i) subhistory job.model.init job.computeInfo s work
  | .returned ok l, weight => weight = 2 ∧
      Verdict (steps i) subhistory job.model.init job.computeInfo kill (ok, l)
  | .sent ok l, weight => weight = 0 ∧
      Verdict (steps i) subhistory job.model.init job.computeInfo kill (ok, l)

/-- Every goroutine is sane. -/
structure Healthy (p : Parallel σ) (weight : Nat → Nat) : Prop where
  size : p.workers.length = job.history.length
  sane : ∀ {i subhistory worker}, job.history[i]? = some subhistory →
    p.workers[i]? = some worker → Sane job steps p.kill i subhistory worker (weight i)

/-- What the goroutine has sent. -/
def Worker.result? : Worker σ → Option Bool
  | .sent ok _ => some ok
  | _ => none

/-- The results sent so far. -/
def sentResults (p : Parallel σ) : List Bool := p.workers.filterMap Worker.result?

/-- Some partition is not linearizable. -/
def Refuted : Prop := ∃ i subhistory, job.history[i]? = some subhistory ∧
  ¬ Linearizable (steps i) (subhistory.map Entry.edge) job.model.init

/-- What has become of the results: those `received` in the loop, those `drained` behind it, and
    those in the channel. -/
structure Ledger (p : Parallel σ) (received drained : List Bool) : Prop where
  perm : (sentResults p).Perm (received ++ drained ++ p.results)
  count : p.count = received.length + drained.length
  ok : p.ok = received.all id
  refuted : false ∈ received → Refuted job steps
  looping : p.main = .looping → p.kill = false ∧ p.timedOut = false ∧
    (p.count < job.history.length ∨ job.history = [])
  behind : p.main ≠ .looping → p.timedOut = false → p.ok = true ∨ job.computeInfo = true →
    job.history.length ≤ p.count
  drained : p.timedOut = false → drained = []
  timeout : p.timedOut = true → job.timeout = true
  returned : ∀ {result partials}, p.main = .returned result partials → result = Job.result p
  partials : ∀ {result partials i subhistory orders}, p.main = .returned result partials →
    job.history[i]? = some subhistory → partials[i]? = some orders → ∀ order ∈ orders,
    Explains (steps i) (subhistory.map Entry.edge) job.model.init order

/-- How many steps the main goroutine is away from its return. -/
def rank : Main → Nat
  | .looping => 2
  | .waiting => 1
  | .returned _ _ => 0

/-- The work left in all. -/
def total (p : Parallel σ) (weight : Nat → Nat) : Nat :=
  ∑ i ∈ Finset.range job.history.length, weight i + p.results.length + rank p.main

end Workers

variable {job : Job I O σ} {steps : Nat → σ → Nat → Option σ} {p p' : Parallel σ}
  {weight : Nat → Nat} {received drained : List Bool} {i : Nat}

/-! ## The start -/

theorem setUp_fst (model : FilledModel I O σ) (entries : List (Entry I O)) (note : Bool) :
    (setUp model entries note).1 = setupOf model entries note := by
  rw [setUp_eq]

theorem healthy_init (job : Job I O σ) (steps : Nat → σ → Nat → Option σ) :
    ∃ weight, Healthy job steps job.checkParallel.init weight := by
  refine ⟨fun i => Search.work (((job.history[i]?).getD []).map Entry.edge)
    (Search.start (((job.history[i]?).getD []).map Entry.edge) job.model.init) + 3, ?_, ?_⟩
  · simp [Job.checkParallel]
  · intro i subhistory worker listed found
    simp only [Job.checkParallel, List.getElem?_map, listed, Option.map_some, Option.some.injEq]
      at found
    subst found
    refine ⟨_, by rw [listed], ?_⟩
    rw [setUp_eq]
    exact running_first _ _ _ _

theorem ledger_init (job : Job I O σ) (steps : Nat → σ → Nat → Option σ) :
    Ledger job steps job.checkParallel.init [] [] where
  perm := by
    have none : sentResults job.checkParallel.init = [] := by
      refine List.filterMap_eq_nil_iff.mpr ?_
      intro worker listed
      obtain ⟨subhistory, -, rfl⟩ := List.mem_map.mp listed
      rfl
    rw [none]
    rfl
  count := rfl
  ok := rfl
  refuted := by simp
  looping := by
    intro _
    refine ⟨rfl, rfl, ?_⟩
    cases job.history with
    | nil => exact .inr rfl
    | cons subhistory rest => exact .inl (Nat.succ_pos _)
  behind := by
    intro left
    exact absurd rfl left
  drained := fun _ => rfl
  timeout := by
    intro timedOut
    cases timedOut
  returned := by
    intro result partials main
    cases main
  partials := by
    intro result partials i subhistory orders main
    cases main

/-! ## Workers -/

theorem filterMap_set_of_none {α β : Type} {f : α → Option β} {l : List α} {old new : α}
    (listed : l[i]? = some old) (before : f old = none) (after : f new = none) :
    (l.set i new).filterMap f = l.filterMap f := by
  obtain ⟨inside, same⟩ := List.getElem?_eq_some_iff.mp listed
  obtain ⟨front, back, split, -, changed⟩ := @List.exists_of_set _ i new l inside
  rw [changed, split, same]
  simp [before, after]

theorem filterMap_set_perm {α β : Type} {f : α → Option β} {l : List α} {old new : α} {b : β}
    (listed : l[i]? = some old) (before : f old = none) (after : f new = some b) :
    ((l.set i new).filterMap f).Perm (l.filterMap f ++ [b]) := by
  obtain ⟨inside, same⟩ := List.getElem?_eq_some_iff.mp listed
  obtain ⟨front, back, split, -, changed⟩ := @List.exists_of_set _ i new l inside
  rw [changed, split, same]
  simp only [List.filterMap_append, List.filterMap_cons, before, after, List.append_assoc]
  exact List.Perm.append_left _ (@List.perm_append_comm _ [b] _)

/-- One goroutine changes. -/
theorem Healthy.set (healthy : Healthy job steps p weight) {worker : Worker σ} {w : Nat}
    {subhistory : List (Entry I O)} (listed : job.history[i]? = some subhistory)
    (sane : Sane job steps p.kill i subhistory worker w) (results : List Bool) :
    Healthy job steps { p with workers := p.workers.set i worker, results }
      (Function.update weight i w) := by
  refine ⟨List.length_set.trans healthy.size, ?_⟩
  intro j subhistory' worker' listed' found
  by_cases own : j = i
  · subst own
    cases listed.symm.trans listed'
    obtain ⟨inside, -⟩ := List.getElem?_eq_some_iff.mp listed
    rw [List.getElem?_set_self (healthy.size ▸ inside)] at found
    cases found
    rw [Function.update_self]
    exact sane
  · rw [List.getElem?_set_ne (Ne.symm own)] at found
    rw [Function.update_of_ne own]
    exact healthy.sane listed' found

/-- The work left in all, when that of one goroutine changes. -/
theorem sum_update {n : Nat} (inside : i < n) (weight : Nat → Nat) (w : Nat) :
    ∑ j ∈ Finset.range n, Function.update weight i w j + weight i =
      ∑ j ∈ Finset.range n, weight j + w := by
  have member := Finset.mem_range.mpr inside
  rw [← Finset.add_sum_erase _ _ member, ← Finset.add_sum_erase _ weight member,
    Function.update_self]
  have others : ∑ j ∈ (Finset.range n).erase i, Function.update weight i w j =
      ∑ j ∈ (Finset.range n).erase i, weight j := by
    refine Finset.sum_congr rfl ?_
    intro j listed
    exact Function.update_of_ne (Finset.ne_of_mem_erase listed) _ _
  omega

/-- The ledger does not change when a goroutine goes on without sending. -/
theorem Ledger.set_worker (ledger : Ledger job steps p received drained) {old new : Worker σ}
    (found : p.workers[i]? = some old) (before : old.result? = none) (after : new.result? = none) :
    Ledger job steps { p with workers := p.workers.set i new } received drained where
  perm := by
    have same : sentResults { p with workers := p.workers.set i new } = sentResults p :=
      filterMap_set_of_none found before after
    rw [same]
    exact ledger.perm
  count := ledger.count
  ok := ledger.ok
  refuted := ledger.refuted
  looping := ledger.looping
  behind := ledger.behind
  drained := ledger.drained
  timeout := ledger.timeout
  returned := ledger.returned
  partials := ledger.partials

/-- A result is sent. -/
theorem Ledger.send (ledger : Ledger job steps p received drained) {ok : Bool} {l : Longest}
    (found : p.workers[i]? = some (.returned ok l)) :
    Ledger job steps
      { p with workers := p.workers.set i (.sent ok l), results := p.results ++ [ok] }
      received drained where
  perm := by
    have more : (sentResults { p with
        workers := p.workers.set i (.sent ok l), results := p.results ++ [ok] }).Perm
          (sentResults p ++ [ok]) := filterMap_set_perm found rfl rfl
    refine more.trans ?_
    rw [← List.append_assoc]
    exact ledger.perm.append_right [ok]
  count := ledger.count
  ok := ledger.ok
  refuted := ledger.refuted
  looping := ledger.looping
  behind := ledger.behind
  drained := ledger.drained
  timeout := ledger.timeout
  returned := ledger.returned
  partials := ledger.partials

/-! ## The main goroutine -/

/-- A result in the channel comes from a goroutine that has ended. -/
theorem Ledger.exists_sent (ledger : Ledger job steps p received drained)
    (healthy : Healthy job steps p weight) {result : Bool} (listed : result ∈ p.results) :
    ∃ (i : Nat) (subhistory : List (Entry I O)) (l : Longest),
      job.history[i]? = some subhistory ∧ p.workers[i]? = some (.sent result l) := by
  have sent : result ∈ sentResults p := ledger.perm.mem_iff.mpr (List.mem_append_right _ listed)
  obtain ⟨worker, listed, own⟩ := List.mem_filterMap.mp sent
  obtain ⟨i, found⟩ := List.mem_iff_getElem?.mp listed
  obtain ⟨inside, -⟩ := List.getElem?_eq_some_iff.mp found
  have inside : i < job.history.length := healthy.size ▸ inside
  refine ⟨i, job.history[i], ?_⟩
  cases worker with
  | running s => cases own
  | returned ok l => cases own
  | sent ok l =>
    cases own
    exact ⟨l, List.getElem?_eq_getElem _, found⟩

/-- As long as nothing is told to stop, a result `false` refutes its partition. -/
theorem Ledger.refuted_of_results (ledger : Ledger job steps p received drained)
    (healthy : Healthy job steps p weight) (alive : p.kill = false)
    (listed : false ∈ p.results) : Refuted job steps := by
  obtain ⟨i, subhistory, l, inHistory, found⟩ := ledger.exists_sent healthy listed
  refine ⟨i, subhistory, inHistory, ?_⟩
  obtain ⟨-, verdict⟩ := healthy.sane inHistory found
  rw [alive] at verdict
  cases verdict with
  | killed killed _ => cases killed
  | failed illegal _ _ => exact illegal

theorem Healthy.of_workers (healthy : Healthy job steps p weight) (workers : p'.workers = p.workers)
    (kill : p.kill = true → p'.kill = true) : Healthy job steps p' weight := by
  refine ⟨workers ▸ healthy.size, ?_⟩
  intro i subhistory worker listed found
  rw [workers] at found
  have sane := healthy.sane listed found
  cases worker with
  | running s => exact sane
  | returned ok l => exact ⟨sane.1, sane.2.mono kill⟩
  | sent ok l => exact ⟨sane.1, sane.2.mono kill⟩

/-- A result is received in the loop. -/
theorem Ledger.receive_loop (ledger : Ledger job steps p received drained)
    (healthy : Healthy job steps p weight) (main : p.main = .looping) {result : Bool}
    {results : List Bool} (channel : p.results = result :: results) :
    Ledger job steps (job.receiveInLoop p result results) (received ++ [result]) [] := by
  obtain ⟨alive, inTime, -⟩ := ledger.looping main
  have none := ledger.drained inTime
  subst none
  have perm : (sentResults p).Perm (received ++ [result] ++ [] ++ results) := by
    refine ledger.perm.trans (List.Perm.of_eq ?_)
    rw [channel]
    simp
  have count : p.count + 1 = (received ++ [result]).length + ([] : List Bool).length := by
    rw [ledger.count]
    simp
  have ok : (p.ok && result) = (received ++ [result]).all id := by
    rw [ledger.ok]
    simp
  have refuted : false ∈ received ++ [result] → Refuted job steps := by
    intro listed
    rcases List.mem_append.mp listed with listed | own
    · exact ledger.refuted listed
    · refine ledger.refuted_of_results healthy alive ?_
      rw [channel, List.mem_singleton.mp own]
      exact List.mem_cons_self ..
  simp only [Job.receiveInLoop]
  split
  · rename_i stop
    obtain ⟨failed, plain⟩ := Bool.and_eq_true_iff.mp stop
    rw [Bool.not_eq_true'] at failed plain
    refine ⟨perm, count, ok, refuted, ?_, ?_, fun _ => rfl, ?_, ?_, ?_⟩
    · intro main
      cases main
    · intro _ _ either
      rcases either with passed | info
      · cases failed.symm.trans passed
      · cases plain.symm.trans info
    · exact ledger.timeout
    · intro result partials main
      cases main
    · intro result partials i subhistory orders main
      cases main
  · split
    · rename_i all
      refine ⟨perm, count, ok, refuted, ?_, fun _ _ _ => all, fun _ => rfl, ledger.timeout,
        ?_, ?_⟩
      · intro main
        cases main
      · intro result partials main
        cases main
      · intro result partials i subhistory orders main
        cases main
    · rename_i more
      refine ⟨perm, count, ok, refuted, ?_, ?_, fun _ => rfl, ledger.timeout, ?_, ?_⟩
      · intro _
        exact ⟨alive, inTime, .inl (Nat.lt_of_not_le more)⟩
      · intro left
        exact absurd main left
      · intro result partials returned
        cases main.symm.trans returned
      · intro result partials i subhistory orders returned
        cases main.symm.trans returned

/-- A result is received behind the loop. -/
theorem Ledger.receive_wait (ledger : Ledger job steps p received drained)
    (main : p.main = .waiting) {result : Bool} {results : List Bool}
    (channel : p.results = result :: results) (wait : job.mustWait p = true) :
    Ledger job steps { p with results, count := p.count + 1 } received (drained ++ [result]) := by
  obtain ⟨info, short⟩ := Bool.and_eq_true_iff.mp wait
  have short : p.count < job.history.length := of_decide_eq_true short
  have left : p.main ≠ .looping := by
    rw [main]
    exact Main.noConfusion
  refine ⟨?_, ?_, ledger.ok, ledger.refuted, ?_, ?_, ?_, ledger.timeout, ?_, ?_⟩
  · refine ledger.perm.trans (List.Perm.of_eq ?_)
    rw [channel]
    simp
  · show p.count + 1 = _
    rw [ledger.count, List.length_append, List.length_singleton]
    omega
  · intro looping
    cases main.symm.trans looping
  · intro _ inTime either
    exact Nat.le_succ_of_le (ledger.behind left inTime either)
  · intro inTime
    -- without a timeout all results were received in the loop
    have all := ledger.behind left inTime (.inr info)
    omega
  · intro result partials returned
    cases main.symm.trans returned
  · intro result partials i subhistory orders returned
    cases main.symm.trans returned

/-- The time is up. -/
theorem Ledger.timeout_loop (ledger : Ledger job steps p received drained)
    (allowed : job.timeout = true) :
    Ledger job steps { p with timedOut := true, kill := true, main := .waiting } received
      drained := by
  refine ⟨ledger.perm, ledger.count, ledger.ok, ledger.refuted, ?_, ?_, ?_, fun _ => allowed, ?_,
    ?_⟩
  · intro main
    cases main
  · intro _ inTime
    cases inTime
  · intro inTime
    cases inTime
  · intro result partials main
    cases main
  · intro result partials i subhistory orders main
    cases main

theorem Healthy.explains_partials (healthy : Healthy job steps p weight)
    {subhistory : List (Entry I O)} {orders : List (List Nat)}
    (listed : job.history[i]? = some subhistory)
    (found : (p.workers.map Worker.partials)[i]? = some orders) :
    ∀ order ∈ orders, Explains (steps i) (subhistory.map Entry.edge) job.model.init order := by
  rw [List.getElem?_map, Option.map_eq_some_iff] at found
  obtain ⟨worker, found, rfl⟩ := found
  intro order inside
  have sane := healthy.sane listed found
  cases worker with
  | running s => cases inside
  | returned ok l => cases inside
  | sent ok l => exact sane.2.explains_unique inside

/-- The main goroutine returns. -/
theorem Ledger.finish (ledger : Ledger job steps p received drained)
    (healthy : Healthy job steps p weight) (main : p.main = .waiting) :
    Ledger job steps
      { p with
        main := .returned (Job.result p)
          (if job.computeInfo then p.workers.map Worker.partials else []) }
      received drained := by
  have left : p.main ≠ .looping := by
    rw [main]
    exact Main.noConfusion
  refine ⟨ledger.perm, ledger.count, ledger.ok, ledger.refuted, ?_, fun _ => ledger.behind left,
    ledger.drained, ledger.timeout, ?_, ?_⟩
  · intro looping
    cases looping
  · intro result partials returned
    cases returned
    rfl
  · intro result partials i subhistory orders returned listed found
    cases returned
    split at found
    · exact healthy.explains_partials listed found
    · cases found

/-! ## One step -/

/-- The schedule so far, with the work that is left. -/
def Sound (job : Job I O σ) (steps : Nat → σ → Nat → Option σ) (p : Parallel σ) (work : Nat) :
    Prop :=
  ∃ weight received drained, Healthy job steps p weight ∧ Ledger job steps p received drained ∧
    total job p weight = work

variable {work : Nat}

/-- The turn of a goroutine is never stuck. -/
theorem Healthy.takeTurn (checkable : Checkable job steps) (healthy : Healthy job steps p weight)
    {subhistory : List (Entry I O)} {s : Loop σ} (listed : job.history[i]? = some subhistory)
    (found : p.workers[i]? = some (.running s)) :
    ∃ worker w, job.takeTurn p i = some { p with workers := p.workers.set i worker } ∧
      w < weight i ∧ worker.result? = none ∧ Sane job steps p.kill i subhistory worker w := by
  obtain ⟨work, heavy, running⟩ := healthy.sane listed found
  rcases running.turn (checkable.proper listed) (checkable.simulates i) p.kill with
    ⟨s', work', turned, less, running'⟩ | ⟨result, turned, verdict⟩
  · refine ⟨.running s', work' + 3, ?_, by omega, rfl, work', rfl, running'⟩
    simp [Job.takeTurn, listed, found, setUp_fst, turned]
  · refine ⟨.returned result.1 result.2, 2, ?_, by omega, rfl, rfl, verdict⟩
    simp [Job.takeTurn, listed, found, setUp_fst, turned]

theorem takeTurn_eq_some (turned : job.takeTurn p i = some p') :
    ∃ subhistory s, job.history[i]? = some subhistory ∧ p.workers[i]? = some (.running s) := by
  simp only [Job.takeTurn, Option.bind_eq_bind, Option.bind_eq_some_iff] at turned
  obtain ⟨subhistory, listed, turned⟩ := turned
  split at turned
  · rename_i s found
    exact ⟨subhistory, s, listed, found⟩
  · cases turned

theorem Sound.turn (checkable : Checkable job steps) (sound : Sound job steps p work)
    (turned : job.takeTurn p i = some p') : ∃ work' < work, Sound job steps p' work' := by
  obtain ⟨weight, received, drained, healthy, ledger, rfl⟩ := sound
  obtain ⟨subhistory, s, listed, found⟩ := takeTurn_eq_some turned
  obtain ⟨worker, w, result, less, silent, sane⟩ := healthy.takeTurn checkable listed found
  cases turned.symm.trans result
  refine ⟨_, ?_, _, _, _, healthy.set listed sane p.results, ledger.set_worker found rfl silent,
    rfl⟩
  have changed := sum_update (List.getElem?_eq_some_iff.mp listed).1 weight w
  simp only [total]
  omega

theorem Sound.send (sound : Sound job steps p work) (turned : Job.sendResult p i = some p') :
    ∃ work' < work, Sound job steps p' work' := by
  obtain ⟨weight, received, drained, healthy, ledger, rfl⟩ := sound
  unfold Job.sendResult at turned
  split at turned
  · rename_i ok l found
    cases turned
    have inside : i < job.history.length :=
      healthy.size ▸ (List.getElem?_eq_some_iff.mp found).1
    have listed := List.getElem?_eq_getElem inside
    obtain ⟨heavy, verdict⟩ := healthy.sane listed found
    have sent : Sane job steps p.kill i job.history[i] (.sent ok l) 0 := ⟨rfl, verdict⟩
    refine ⟨_, ?_, _, _, _, healthy.set listed sent _, ledger.send found, rfl⟩
    have changed := sum_update inside weight 0
    simp only [total, List.length_append, List.length_singleton]
    omega
  · cases turned

theorem Job.receiveInLoop_workers (job : Job I O σ) (p : Parallel σ) (result : Bool) (results : List Bool) :
    (job.receiveInLoop p result results).workers = p.workers ∧
      (job.receiveInLoop p result results).results = results ∧
      (p.kill = true → (job.receiveInLoop p result results).kill = true) ∧
      rank (job.receiveInLoop p result results).main ≤ max 1 (rank p.main) := by
  simp only [Job.receiveInLoop]
  split
  · exact ⟨rfl, rfl, fun _ => rfl, Nat.le_max_left ..⟩
  · split
    · exact ⟨rfl, rfl, id, Nat.le_max_left ..⟩
    · exact ⟨rfl, rfl, id, Nat.le_max_right ..⟩

theorem Sound.receive (sound : Sound job steps p work) (turned : job.receive p = some p') :
    ∃ work' < work, Sound job steps p' work' := by
  obtain ⟨weight, received, drained, healthy, ledger, rfl⟩ := sound
  unfold Job.receive at turned
  split at turned
  · cases turned
  · rename_i result results channel
    split at turned
    · rename_i main
      cases turned
      obtain ⟨workers, left, kill, lower⟩ := job.receiveInLoop_workers p result results
      refine ⟨_, ?_, _, _, _, healthy.of_workers workers kill,
        ledger.receive_loop healthy main channel, rfl⟩
      rw [main] at lower
      simp only [total, left, channel, main, rank, List.length_cons] at lower ⊢
      omega
    · rename_i main
      split at turned
      · rename_i wait
        cases turned
        refine ⟨_, ?_, _, _, _, healthy.of_workers rfl id, ledger.receive_wait main channel wait,
          rfl⟩
        simp only [total, channel, List.length_cons]
        omega
      · cases turned
    · cases turned

theorem Sound.timeout (sound : Sound job steps p work) (turned : job.onTimeout p = some p') :
    ∃ work' < work, Sound job steps p' work' := by
  obtain ⟨weight, received, drained, healthy, ledger, rfl⟩ := sound
  unfold Job.onTimeout at turned
  split at turned
  · rename_i main
    split at turned
    · rename_i allowed
      cases turned
      refine ⟨_, ?_, _, _, _, healthy.of_workers rfl (fun _ => rfl), ledger.timeout_loop allowed,
        rfl⟩
      simp only [total, main, rank]
      omega
    · cases turned
  · cases turned

theorem Sound.finish (sound : Sound job steps p work) (turned : job.finish p = some p') :
    ∃ work' < work, Sound job steps p' work' := by
  obtain ⟨weight, received, drained, healthy, ledger, rfl⟩ := sound
  unfold Job.finish at turned
  split at turned
  · rename_i main
    split at turned
    · cases turned
    · cases turned
      refine ⟨_, ?_, _, _, _, healthy.of_workers rfl id, ledger.finish healthy main, rfl⟩
      simp only [total, main, rank]
      omega
  · cases turned

theorem sound_init (job : Job I O σ) (steps : Nat → σ → Nat → Option σ) :
    ∃ work, Sound job steps job.checkParallel.init work := by
  obtain ⟨weight, healthy⟩ := healthy_init job steps
  exact ⟨_, weight, [], [], healthy, ledger_init job steps, rfl⟩

/-- Every step uses up work. -/
theorem Sound.step (checkable : Checkable job steps) (sound : Sound job steps p work)
    {event : ParallelEvent} (stepped : job.checkParallel.step p event = some p') :
    ∃ work' < work, Sound job steps p' work' := by
  cases event with
  | turn i => exact sound.turn checkable stepped
  | send i => exact sound.send stepped
  | receive => exact sound.receive stepped
  | timeout => exact sound.timeout stepped
  | finish => exact sound.finish stepped

/-! ## Whole schedules -/

theorem sound_of_reachable (checkable : Checkable job steps)
    (reached : job.checkParallel.Reachable p) : ∃ work, Sound job steps p work := by
  refine reached.invariant (I := fun p => ∃ work, Sound job steps p work) (sound_init job steps) ?_
  intro p event p' _ sound _ stepped
  obtain ⟨work, sound⟩ := sound
  obtain ⟨work', -, sound'⟩ := sound.step checkable stepped
  exact ⟨work', sound'⟩

/-- A goroutine that has not sent its result can go on. -/
theorem Sound.exists_step_of_unsent (checkable : Checkable job steps)
    (sound : Sound job steps p work) (missing : (sentResults p).length < job.history.length) :
    ∃ event, (job.checkParallel.step p event).isSome := by
  obtain ⟨weight, received, drained, healthy, ledger, rfl⟩ := sound
  have some : ∃ worker ∈ p.workers, worker.result? = none := by
    by_contra all
    push Not at all
    have every : (sentResults p).length = p.workers.length := by
      rw [sentResults, List.length_filterMap_eq_countP, List.countP_eq_length]
      intro worker listed
      exact Option.isSome_iff_ne_none.mpr (all worker listed)
    rw [every, healthy.size] at missing
    exact Nat.lt_irrefl _ missing
  obtain ⟨worker, listed, unsent⟩ := some
  obtain ⟨i, found⟩ := List.mem_iff_getElem?.mp listed
  have inside : i < job.history.length := healthy.size ▸ (List.getElem?_eq_some_iff.mp found).1
  cases worker with
  | running s =>
    obtain ⟨worker, w, turned, -⟩ :=
      healthy.takeTurn checkable (List.getElem?_eq_getElem inside) found
    exact ⟨.turn i, Option.isSome_of_eq_some turned⟩
  | returned ok l =>
    refine ⟨.send i, ?_⟩
    show (Job.sendResult p i).isSome
    rw [Job.sendResult, found]
    rfl
  | sent ok l => cases unsent

/-- Until the main goroutine has returned, some step is possible. -/
theorem Sound.exists_step (checkable : Checkable job steps) (sound : Sound job steps p work)
    (some : job.history ≠ []) (unfinished : ∀ result partials, p.main ≠ .returned result partials) :
    ∃ event, (job.checkParallel.step p event).isSome := by
  have whole := sound
  obtain ⟨weight, received, drained, healthy, ledger, rfl⟩ := sound
  -- with an empty channel, what is missing has not been sent
  have unsent : p.results = [] → p.count < job.history.length →
      (sentResults p).length < job.history.length := by
    intro empty short
    rw [ledger.perm.length_eq, empty, List.append_nil, List.length_append, ← ledger.count]
    exact short
  cases main : p.main with
  | looping =>
    have short := (ledger.looping main).2.2.resolve_right some
    cases channel : p.results with
    | nil => exact whole.exists_step_of_unsent checkable (unsent channel short)
    | cons result results =>
      refine ⟨.receive, ?_⟩
      show (job.receive p).isSome
      rw [Job.receive, channel, main]
      rfl
  | waiting =>
    cases wait : job.mustWait p with
    | false =>
      refine ⟨.finish, ?_⟩
      show (job.finish p).isSome
      rw [Job.finish, main, wait]
      rfl
    | true =>
      obtain ⟨-, short⟩ := Bool.and_eq_true_iff.mp wait
      cases channel : p.results with
      | nil => exact whole.exists_step_of_unsent checkable (unsent channel (of_decide_eq_true short))
      | cons result results =>
        refine ⟨.receive, ?_⟩
        show (job.receive p).isSome
        rw [Job.receive, channel, main, wait]
        rfl
  | returned result partials => exact absurd main (unfinished result partials)

/-- No schedule is longer than the work there is. -/
theorem Sound.length_le (checkable : Checkable job steps) (sound : Sound job steps p work)
    {events : List ParallelEvent} (ran : job.checkParallel.run p events = some p') :
    events.length ≤ work := by
  induction events generalizing p work with
  | nil => exact Nat.zero_le _
  | cons event events ih =>
    simp only [Machine.run, Option.bind_eq_some_iff] at ran
    obtain ⟨middle, stepped, rest⟩ := ran
    obtain ⟨work', less, sound'⟩ := sound.step checkable stepped
    have shorter := ih sound' rest
    rw [List.length_cons]
    omega

/-- From every state on the way the main goroutine can come to its end. -/
theorem Sound.exists_return (checkable : Checkable job steps) (some : job.history ≠ [])
    (sound : Sound job steps p work) :
    ∃ p', job.checkParallel.Path Machine.anyStep p p' ∧
      ∃ result partials, p'.main = .returned result partials := by
  induction work using Nat.strongRecOn generalizing p with
  | ind work ih =>
    by_cases finished : ∃ result partials, p.main = .returned result partials
    · exact ⟨p, .refl, finished⟩
    · have unfinished : ∀ result partials, p.main ≠ .returned result partials :=
        fun result partials main => finished ⟨result, partials, main⟩
      obtain ⟨event, possible⟩ := sound.exists_step checkable some unfinished
      obtain ⟨next, stepped⟩ := Option.isSome_iff_exists.mp possible
      obtain ⟨work', less, sound'⟩ := sound.step checkable stepped
      obtain ⟨p', path, returned⟩ := ih work' less sound'
      exact ⟨p', .trans (.tail event .refl trivial stepped) path, returned⟩

/-! ## What is returned -/

section Returned

variable {result : CheckResult} {partials : List (List (List Nat))}
  (main : p.main = .returned result partials)

include main

/-- `Ok` is returned when every goroutine has sent `true`. -/
theorem Sound.linearizable_of_ok (checkable : Checkable job steps) (sound : Sound job steps p work)
    (passed : result = .ok) {subhistory : List (Entry I O)}
    (listed : job.history[i]? = some subhistory) :
    Linearizable (steps i) (subhistory.map Entry.edge) job.model.init := by
  obtain ⟨weight, received, drained, healthy, ledger, rfl⟩ := sound
  obtain ⟨ok, inTime⟩ : p.ok = true ∧ p.timedOut = false := by
    have same := (ledger.returned main).symm.trans passed
    unfold Job.result at same
    cases ok : p.ok <;> cases late : p.timedOut <;> simp [ok, late] at same ⊢
  have all := ledger.behind (by rw [main]; exact Main.noConfusion) inTime (.inl ok)
  have none := ledger.drained inTime
  subst none
  have most : (sentResults p).length ≤ p.workers.length := List.length_filterMap_le ..
  have lengths := ledger.perm.length_eq
  have count := ledger.count
  simp only [List.length_append, List.length_nil, Nat.add_zero] at lengths count
  have empty : p.results = [] := by
    refine List.length_eq_zero_iff.mp ?_
    rw [healthy.size] at most
    omega
  -- every goroutine has sent its result
  have every : ∀ worker ∈ p.workers, (Worker.result? worker).isSome := by
    refine List.countP_eq_length.mp ?_
    rw [← List.length_filterMap_eq_countP]
    refine Nat.le_antisymm most ?_
    rw [healthy.size]
    show _ ≤ (sentResults p).length
    omega
  have inside : i < p.workers.length :=
    healthy.size.symm ▸ (List.getElem?_eq_some_iff.mp listed).1
  have found := List.getElem?_eq_getElem inside
  have isSent := every _ (List.getElem_mem inside)
  have sane := healthy.sane listed found
  cases worker : p.workers[i] with
  | running s =>
    rw [worker] at isSent
    cases isSent
  | returned ok l =>
    rw [worker] at isSent
    cases isSent
  | sent own l =>
    rw [worker] at sane found
    have sent : own ∈ sentResults p :=
      List.mem_filterMap.mpr ⟨.sent own l, List.mem_of_getElem? found, rfl⟩
    have inLoop : own ∈ received := by
      have member := ledger.perm.mem_iff.mp sent
      rw [empty] at member
      simpa using member
    have isTrue : own = true := by
      have good := ledger.ok.symm.trans ok
      rw [List.all_eq_true] at good
      exact good own inLoop
    subst isTrue
    cases sane.2 with
    | found explains complete =>
      refine ⟨_, explains, ?_⟩
      intro op called
      exact complete op (((checkable.proper listed).ids op).mp called)

/-- `Illegal` is returned when a goroutine has sent `false` before it was told to stop. -/
theorem Sound.refuted_of_illegal (sound : Sound job steps p work) (failed : result = .illegal) :
    Refuted job steps := by
  obtain ⟨weight, received, drained, healthy, ledger, rfl⟩ := sound
  have bad : p.ok = false := by
    have same := (ledger.returned main).symm.trans failed
    unfold Job.result at same
    cases ok : p.ok <;> cases late : p.timedOut <;> simp [ok, late] at same ⊢
  refine ledger.refuted ?_
  have some := ledger.ok.symm.trans bad
  rw [List.all_eq_false] at some
  obtain ⟨own, listed, isFalse⟩ := some
  have isFalse : own = false := Bool.not_eq_true own |>.mp isFalse
  exact isFalse ▸ listed

theorem Sound.timeout_of_unknown (sound : Sound job steps p work) (unknown : result = .unknown) :
    job.timeout = true := by
  obtain ⟨weight, received, drained, healthy, ledger, rfl⟩ := sound
  refine ledger.timeout ?_
  have same := (ledger.returned main).symm.trans unknown
  unfold Job.result at same
  cases ok : p.ok <;> cases late : p.timedOut <;> simp [ok, late] at same ⊢

theorem Sound.explains_of_partials (sound : Sound job steps p work)
    {subhistory : List (Entry I O)} {orders : List (List Nat)}
    (listed : job.history[i]? = some subhistory) (found : partials[i]? = some orders) :
    ∀ order ∈ orders, Explains (steps i) (subhistory.map Entry.edge) job.model.init order := by
  obtain ⟨weight, received, drained, healthy, ledger, rfl⟩ := sound
  exact ledger.partials main listed found

end Returned

/-- Without partitions and without a timeout there is nothing to receive, ever. -/
theorem looping_of_empty (empty : job.history = []) (noTimeout : job.timeout = false)
    (reached : job.checkParallel.Reachable p) : p = job.checkParallel.init := by
  refine reached.invariant (I := fun p => p = job.checkParallel.init) rfl ?_
  intro p event p' _ atStart _ stepped
  subst atStart
  exfalso
  cases event with
  | turn i => simp [Job.checkParallel, Job.step, Job.takeTurn, empty] at stepped
  | send i => simp [Job.checkParallel, Job.step, Job.sendResult, empty] at stepped
  | receive => simp [Job.checkParallel, Job.step, Job.receive] at stepped
  | timeout => simp [Job.checkParallel, Job.step, Job.onTimeout, noTimeout] at stepped
  | finish => simp [Job.checkParallel, Job.step, Job.finish] at stepped

end DistributedCloud.Porcupine
