import DistributedCloud.KvSrv.Harness
import DistributedCloud.KvSrv.Proofs.Mirror
import DistributedCloud.Porcupine.Proofs.Check

/-!
# Recorded histories are linearizable

The times in the log are read outside of the methods, so that an operation which by the log comes
before another has returned before the other is called. The linearization of the operations of the
clerks is therefore one of the log, for the model that the checker is given, and the checker does not
find the history illegal.
-/

namespace DistributedCloud.KvSrv

open Porcupine (KvOperation KvLinearizable Timely storeStep kvStep kvModel accepts accepted
  Linearization checkOperations SortsByTime)

variable {ops : Nat → Operation} {cli : Nat → Int} {unreliable : Bool}

/-! ## Calls and returns -/

section Marked

variable {d d' : Deployment} {e : DeploymentEvent} {log : List (Mark Nat)}

theorem returned_progress (next : d.step ops e = some d') {i : Nat} {reply result : String}
    (returned : d.progress i = .returned reply result) : d'.progress i = .returned reply result := by
  obtain ⟨-, step⟩ := deploymentStep_of_step next
  have kept : ∀ {j : Nat} {progress before : Progress}, d.progress j = before →
      before ≠ .returned reply result →
      Function.update d.progress j progress i = .returned reply result := by
    intro j progress before now other
    refine (Function.update_of_ne ?_ _ _).trans returned
    intro same
    rw [same, now] at returned
    exact other returned
  cases step with
  | makeClient new => exact returned
  | deleteClient present idle => exact returned
  | network inside stepped => exact returned
  | invoke fresh present => exact kept fresh nofun
  | startUpdate invoked update free unused => exact kept invoked nofun
  | startGet invoked read unused => exact kept invoked nofun
  | retry calling failed unused => exact kept calling nofun
  | receiveUpdate calling update succeeded unused => exact kept calling nofun
  | receiveGet calling read succeeded => exact kept calling nofun
  | finish deleting done => exact kept deleting nofun

/-- Only the call of an operation is noted as such, and it is its first. -/
theorem record_invoked (next : d.step ops e = some d') :
    (∃ i, d.progress i = .notInvoked ∧ e = .invoke i ∧
      Deployment.record ops d e d' log = log ++ [.invoked i]) ∨
    ∃ more, Deployment.record ops d e d' log = log ++ more ∧ ∀ i, Mark.invoked i ∉ more := by
  obtain ⟨-, step⟩ := deploymentStep_of_step next
  cases step with
  | invoke fresh present => exact .inl ⟨_, fresh, rfl, rfl⟩
  | receiveUpdate calling update succeeded unused =>
    exact .inr ⟨[], by simp [Deployment.record, update], by simp⟩
  | @receiveGet i attempt body reply calling read succeeded =>
    exact .inr ⟨[.returned i], by simp [Deployment.record, read], by simp⟩
  | @finish i => exact .inr ⟨[.returned i], rfl, by simp⟩
  | makeClient | deleteClient | network | startUpdate | startGet | retry =>
    exact .inr ⟨[], by simp [Deployment.record], by simp⟩

/-- The log has the calls and returns that the operations have made. -/
structure Marked (d : Deployment) (log : List (Mark Nat)) : Prop where
  invoked : ∀ i, Mark.invoked i ∈ log ↔ d.progress i ≠ .notInvoked
  returned : ∀ i reply result, d.progress i = .returned reply result → Mark.returned i ∈ log

/-- One operation gets on, with a mark or without. -/
theorem Marked.update (marked : Marked d log) {i : Nat} {progress : Progress}
    {more : List (Mark Nat)} (now : d'.progress = Function.update d.progress i progress)
    (later : progress ≠ .notInvoked) (invoked : Mark.invoked i ∈ log ++ more)
    (others : ∀ j, Mark.invoked j ∈ more → j = i)
    (returned : ∀ reply result, progress = .returned reply result → Mark.returned i ∈ more) :
    Marked d' (log ++ more) := by
  refine ⟨fun j => ?_, fun j => ?_⟩
  · by_cases same : j = i
    · subst same
      simp only [now, Function.update_self]
      exact iff_of_true invoked later
    · rw [now, Function.update_of_ne same, ← marked.invoked j, List.mem_append]
      exact or_iff_left (fun listed => same (others j listed))
  · intro reply result returns
    by_cases same : j = i
    · subst same
      rw [now, Function.update_self] at returns
      exact List.mem_append_right _ (returned reply result returns)
    · rw [now, Function.update_of_ne same] at returns
      exact List.mem_append_left _ (marked.returned j reply result returns)

theorem marked_step (marked : Marked d log) (next : d.step ops e = some d') :
    Marked d' (Deployment.record ops d e d' log) := by
  obtain ⟨-, step⟩ := deploymentStep_of_step next
  have called : ∀ {i : Nat} {progress : Progress}, d.progress i = progress →
      progress ≠ .notInvoked → Mark.invoked i ∈ log := by
    intro i progress now other
    exact (marked.invoked i).mpr (now ▸ other)
  -- an operation gets on without a mark
  have silent : ∀ {d' : Deployment} {i : Nat} {before progress : Progress},
      d'.progress = Function.update d.progress i progress → d.progress i = before →
      before ≠ .notInvoked → progress ≠ .notInvoked →
      (∀ reply result, progress ≠ .returned reply result) → Marked d' log := by
    intro d' i before progress now was started later pending
    rw [← List.append_nil log]
    exact marked.update now later (by simpa using called was started) (by simp)
      (fun reply result returned => absurd returned (pending reply result))
  cases step with
  | makeClient new => exact ⟨marked.invoked, marked.returned⟩
  | deleteClient present idle => exact ⟨marked.invoked, marked.returned⟩
  | network inside stepped => exact ⟨marked.invoked, marked.returned⟩
  | invoke fresh present => exact marked.update rfl (by simp) (by simp) (by simp) (by simp)
  | startUpdate invoked update free unused => exact silent rfl invoked (by simp) (by simp) (by simp)
  | startGet invoked read unused => exact silent rfl invoked (by simp) (by simp) (by simp)
  | retry calling failed unused => exact silent rfl calling (by simp) (by simp) (by simp)
  | receiveUpdate calling update succeeded unused =>
    simp only [Deployment.record, update, if_true]
    exact silent rfl calling (by simp) (by simp) (by simp)
  | receiveGet calling read succeeded =>
    simp only [Deployment.record, read, if_false]
    exact marked.update rfl (by simp) (List.mem_append_left _ (called calling (by simp))) (by simp)
      (by simp)
  | finish deleting done =>
    exact marked.update rfl (by simp) (List.mem_append_left _ (called deleting (by simp))) (by simp)
      (by simp)

theorem marked_reachable (reached : (recordedDeployment ops unreliable).Reachable (d, log)) :
    Marked d log := by
  apply reached.invariant (I := fun s => Marked s.1 s.2)
  · exact ⟨fun _ => iff_of_false nofun (fun called => called rfl), nofun⟩
  · rintro ⟨d, log⟩ e ⟨d', log'⟩ _ marked _ next
    obtain ⟨stepped, recorded⟩ :
        d.step ops e = some d' ∧ log' = Deployment.record ops d e d' log :=
      Machine.withHistory_step.mp next
    rw [recorded]
    exact marked_step marked stepped

end Marked

/-! ## The functions around the methods -/

/-- The steps of a test. -/
inductive HarnessStep (ops : Nat → Operation) (cli : Nat → Int) (t : Harness) :
    HarnessEvent → Harness → Prop
  | tick {elapsed : Nat} :
      HarnessStep ops cli t (.tick elapsed) { t with clock := t.clock + elapsed }
  | begin {i : Nat} (idle : t.wrappers i = .idle) :
      HarnessStep ops cli t (.begin i) (t.setWrapper i (.started t.clock))
  | deployed {e : DeploymentEvent} {d : Deployment} (allowed : t.allows e = true)
      (stepped : t.deployed.step ops e = some d) :
      HarnessStep ops cli t (.deployed e) { t with deployed := d }
  | stop {i : Nat} {start : Int} {reply result : String} (started : t.wrappers i = .started start)
      (returned : t.deployed.progress i = .returned reply result) :
      HarnessStep ops cli t (.stop i) (t.setWrapper i (.stopped start t.clock))
  | append {i : Nat} {start finish : Int} {reply result : String}
      (stopped : t.wrappers i = .stopped start finish)
      (returned : t.deployed.progress i = .returned reply result) :
      HarnessStep ops cli t (.append i)
        { t.setWrapper i (.logged start finish) with
          operations := t.operations ++ [(ops i).entry (cli i) start result finish] }

theorem harnessStep_of_step {t t' : Harness} {e : HarnessEvent}
    (next : t.step ops cli e = some t') : HarnessStep ops cli t e t' := by
  cases e with
  | tick elapsed =>
    cases next
    exact .tick
  | begin i =>
    simp only [Harness.step] at next
    split at next
    · rename_i idle
      cases next
      exact .begin idle
    · cases next
  | deployed e =>
    simp only [Harness.step, Option.ite_none_right_eq_some, Option.map_eq_some_iff] at next
    obtain ⟨allowed, d, stepped, rfl⟩ := next
    exact .deployed allowed stepped
  | stop i =>
    simp only [Harness.step] at next
    split at next
    · rename_i started returned
      cases next
      exact .stop started returned
    · cases next
  | append i =>
    simp only [Harness.step] at next
    split at next
    · rename_i stopped returned
      cases next
      exact .append stopped returned
    · cases next

/-- What happens in the harness happens in the deployment. -/
theorem deployment_reachable {t : Harness} {h : HarnessHistory}
    (reached : (recordedHarness ops cli unreliable).Reachable (t, h)) :
    (recordedDeployment ops unreliable).Reachable (t.deployed, h.log) := by
  refine reached.project (n := recordedDeployment ops unreliable)
    (f := fun s => (s.1.deployed, s.2.log)) rfl ?_
  rintro ⟨t, h⟩ e ⟨t', h'⟩ - next
  obtain ⟨stepped, recorded⟩ :
      t.step ops cli e = some t' ∧ h' = HarnessHistory.record ops t e t' h :=
    Machine.withHistory_step.mp next
  rw [recorded]
  cases harnessStep_of_step stepped with
  | tick => exact .inl rfl
  | begin idle => exact .inl rfl
  | deployed allowed ran => exact .inr ⟨_, Machine.withHistory_step.mpr ⟨ran, rfl⟩⟩
  | stop started returned => exact .inl rfl
  | append stopped returned => exact .inl rfl

namespace Wrapper

/-- The first reading of the clock. -/
def start? : Wrapper → Option Int
  | .idle => none
  | .started start => some start
  | .stopped start _ => some start
  | .logged start _ => some start

/-- The second reading of the clock. -/
def finish? : Wrapper → Option Int
  | .stopped _ finish => some finish
  | .logged _ finish => some finish
  | _ => none

end Wrapper

/-! ## Times -/

/-- The clock is read before the call and after the return. -/
structure Clocked (wrappers : Nat → Wrapper) (clock : Int) (log : List (Mark Nat)) : Prop where
  starts : ∀ i start, (wrappers i).start? = some start → start ≤ clock
  finishes : ∀ i finish, (wrappers i).finish? = some finish →
    finish ≤ clock ∧ Mark.returned i ∈ log
  lasts : ∀ i start finish, (wrappers i).start? = some start →
    (wrappers i).finish? = some finish → start ≤ finish
  begun : ∀ i, Mark.invoked i ∈ log → (wrappers i).start? ≠ none
  realTime : ∀ i j finish start, (wrappers i).finish? = some finish →
    (wrappers j).start? = some start → finish < start → Mark.invoked j ∈ log →
    [Mark.returned i, Mark.invoked j].Sublist log

section Clocked

variable {wrappers : Nat → Wrapper} {clock : Int} {log : List (Mark Nat)}

theorem Clocked.tick (clocked : Clocked wrappers clock log) (elapsed : Nat) :
    Clocked wrappers (clock + elapsed) log where
  starts := fun i start started => (clocked.starts i start started).trans (by omega)
  finishes := fun i finish finished =>
    ⟨(clocked.finishes i finish finished).1.trans (by omega), (clocked.finishes i finish finished).2⟩
  lasts := clocked.lasts
  begun := clocked.begun
  realTime := clocked.realTime

/-- What is read off a wrapper that has got on is new, or it is another wrapper. -/
theorem reading_update {β : Type} (reading : Wrapper → β) {i j : Nat} {new : Wrapper} {value : β}
    (read : reading (Function.update wrappers i new j) = value) :
    (j = i ∧ reading new = value) ∨ (j ≠ i ∧ reading (wrappers j) = value) := by
  by_cases same : j = i
  · subst same
    rw [Function.update_self] at read
    exact .inl ⟨rfl, read⟩
  · rw [Function.update_of_ne same] at read
    exact .inr ⟨same, read⟩

/-- What the wrapper keeps is kept of all of them. -/
theorem reading_update_eq {β : Type} (reading : Wrapper → β) {i : Nat} {old : Wrapper}
    (new : Wrapper) (here : wrappers i = old) (kept : reading new = reading old) (j : Nat) :
    reading (Function.update wrappers i new j) = reading (wrappers j) := by
  rcases reading_update reading (Eq.refl (reading (Function.update wrappers i new j))) with
    ⟨rfl, now⟩ | ⟨-, before⟩
  · rw [← now, here, kept]
  · exact before.symm

/-- The first reading. Everything that has been timed before is not later. -/
theorem Clocked.begin (clocked : Clocked wrappers clock log) {i : Nat}
    (idle : wrappers i = .idle) : Clocked (Function.update wrappers i (.started clock)) clock log := by
  have absent : Mark.invoked i ∉ log := by
    intro invoked
    exact clocked.begun i invoked (by rw [idle]; rfl)
  have ends := reading_update_eq Wrapper.finish? (.started clock) idle rfl
  refine ⟨?_, ?_, ?_, ?_, ?_⟩
  · intro j start started
    rcases reading_update Wrapper.start? started with ⟨-, now⟩ | ⟨-, before⟩
    · cases now
      exact le_rfl
    · exact clocked.starts j start before
  · simpa only [ends] using clocked.finishes
  · intro j start finish started finished
    rw [ends] at finished
    rcases reading_update Wrapper.start? started with ⟨rfl, -⟩ | ⟨-, before⟩
    · rw [idle] at finished
      cases finished
    · exact clocked.lasts j start finish before finished
  · intro j invoked unread
    rcases reading_update Wrapper.start? unread with ⟨-, now⟩ | ⟨-, before⟩
    · cases now
    · exact clocked.begun j invoked before
  · intro j k finish start finished started before invoked
    rw [ends] at finished
    rcases reading_update Wrapper.start? started with ⟨rfl, -⟩ | ⟨-, started⟩
    · exact absurd invoked absent
    · exact clocked.realTime j k finish start finished started before invoked

/-- The second reading. Nothing that has been timed before is later. -/
theorem Clocked.stop (clocked : Clocked wrappers clock log) {i : Nat} {start : Int}
    (started : wrappers i = .started start) (returned : Mark.returned i ∈ log) :
    Clocked (Function.update wrappers i (.stopped start clock)) clock log := by
  have begins := reading_update_eq Wrapper.start? (.stopped start clock) started rfl
  refine ⟨?_, ?_, ?_, ?_, ?_⟩
  · simpa only [begins] using clocked.starts
  · intro j finish finished
    rcases reading_update Wrapper.finish? finished with ⟨rfl, now⟩ | ⟨-, before⟩
    · cases now
      exact ⟨le_rfl, returned⟩
    · exact clocked.finishes j finish before
  · intro j first finish begun finished
    rw [begins] at begun
    rcases reading_update Wrapper.finish? finished with ⟨-, now⟩ | ⟨-, before⟩
    · cases now
      exact clocked.starts j first begun
    · exact clocked.lasts j first finish begun before
  · simpa only [begins] using clocked.begun
  · intro j k finish first finished begun before invoked
    rw [begins] at begun
    rcases reading_update Wrapper.finish? finished with ⟨-, now⟩ | ⟨-, finished⟩
    · cases now
      exact absurd (clocked.starts k first begun) (by omega)
    · exact clocked.realTime j k finish first finished begun before invoked

/-- The times are only copied. -/
theorem Clocked.append (clocked : Clocked wrappers clock log) {i : Nat} {start finish : Int}
    (stopped : wrappers i = .stopped start finish) :
    Clocked (Function.update wrappers i (.logged start finish)) clock log := by
  have begins := reading_update_eq Wrapper.start? (.logged start finish) stopped rfl
  have ends := reading_update_eq Wrapper.finish? (.logged start finish) stopped rfl
  refine ⟨?_, ?_, ?_, ?_, ?_⟩
  · simpa only [begins] using clocked.starts
  · simpa only [ends] using clocked.finishes
  · simpa only [begins, ends] using clocked.lasts
  · simpa only [begins] using clocked.begun
  · simpa only [begins, ends] using clocked.realTime

/-- Something happens in the deployment. -/
theorem Clocked.deployed (clocked : Clocked wrappers clock log) {more : List (Mark Nat)}
    (new : ∀ i, Mark.invoked i ∈ more → more = [.invoked i] ∧ (wrappers i).start? ≠ none) :
    Clocked wrappers clock (log ++ more) := by
  refine ⟨clocked.starts, ?_, clocked.lasts, ?_, ?_⟩
  · intro i finish finished
    obtain ⟨before, returned⟩ := clocked.finishes i finish finished
    exact ⟨before, List.mem_append_left _ returned⟩
  · intro i invoked
    rcases List.mem_append.mp invoked with before | now
    · exact clocked.begun i before
    · exact (new i now).2
  · intro i j finish start finished started before invoked
    rcases List.mem_append.mp invoked with old | now
    · exact (clocked.realTime i j finish start finished started before old).trans
        (List.sublist_append_left _ _)
    · rw [(new j now).1]
      exact (List.singleton_sublist.mpr (clocked.finishes i finish finished).2).append
        (List.Sublist.refl [Mark.invoked j])

end Clocked

/-! ## The log -/

/-- The entry of an operation that has been logged. -/
def Logged (ops : Nat → Operation) (cli : Nat → Int) (t : Harness) (i : Nat) (op : KvOperation) :
    Prop :=
  ∃ start finish reply result, t.wrappers i = .logged start finish ∧
    t.deployed.progress i = .returned reply result ∧
    op = (ops i).entry (cli i) start result finish

/-- The log has the entries of the operations in `logged`, each of them once. -/
structure Filed (ops : Nat → Operation) (cli : Nat → Int) (t : Harness) (logged : List Nat) :
    Prop where
  entries : List.Forall₂ (Logged ops cli t) logged t.operations
  nodup : logged.Nodup
  mem : ∀ i start finish, t.wrappers i = .logged start finish → i ∈ logged

section Filed

variable {t t' : Harness} {logged : List Nat}

/-- What has been logged stays as it is. -/
theorem Logged.mono {i : Nat} {op : KvOperation} (entry : Logged ops cli t i op)
    (wrappers : ∀ start finish, t.wrappers i = .logged start finish →
      t'.wrappers i = .logged start finish)
    (progress : ∀ reply result, t.deployed.progress i = .returned reply result →
      t'.deployed.progress i = .returned reply result) : Logged ops cli t' i op := by
  obtain ⟨start, finish, reply, result, stopped, returned, rfl⟩ := entry
  exact ⟨start, finish, reply, result, wrappers start finish stopped,
    progress reply result returned, rfl⟩

theorem Filed.setWrapper (filed : Filed ops cli t logged) {i : Nat} {wrapper : Wrapper}
    (before : ∀ start finish, t.wrappers i ≠ .logged start finish)
    (after : ∀ start finish, wrapper ≠ .logged start finish) :
    Filed ops cli (t.setWrapper i wrapper) logged where
  entries := by
    refine filed.entries.imp ?_
    intro j op entry
    refine entry.mono (fun start finish stopped => ?_) (fun _ _ returned => returned)
    refine (Function.update_of_ne ?_ _ _).trans stopped
    intro same
    exact before start finish (same ▸ stopped)
  nodup := filed.nodup
  mem := by
    intro j start finish stopped
    by_cases same : j = i
    · subst same
      exact absurd ((Function.update_self _ _ _).symm.trans stopped) (after start finish)
    · exact filed.mem j start finish ((Function.update_of_ne same _ _).symm.trans stopped)

/-- An entry is only made for an operation that has none. -/
theorem Filed.not_mem (filed : Filed ops cli t logged) {i : Nat}
    (before : ∀ start finish, t.wrappers i ≠ .logged start finish) : i ∉ logged := by
  intro listed
  obtain ⟨k, inside, same⟩ := List.getElem_of_mem listed
  have entry := filed.entries.get inside (filed.entries.length_eq ▸ inside)
  obtain ⟨start, finish, -, -, stopped, -⟩ := entry
  rw [List.get_eq_getElem, same] at stopped
  exact before start finish stopped

theorem Filed.append (filed : Filed ops cli t logged) {i : Nat} {start finish : Int}
    {reply result : String} (stopped : t.wrappers i = .stopped start finish)
    (returned : t.deployed.progress i = .returned reply result) :
    Filed ops cli
      { t.setWrapper i (.logged start finish) with
        operations := t.operations ++ [(ops i).entry (cli i) start result finish] }
      (logged ++ [i]) where
  entries := by
    refine List.rel_append (filed.entries.imp ?_) (.cons ?_ .nil)
    · intro j op entry
      refine entry.mono (fun start' finish' logged' => ?_) (fun _ _ returned => returned)
      refine (Function.update_of_ne ?_ _ _).trans logged'
      intro same
      rw [same, stopped] at logged'
      cases logged'
    · exact ⟨start, finish, reply, result, Function.update_self _ _ _, returned, rfl⟩
  nodup := by
    refine List.nodup_append.mpr ⟨filed.nodup, List.nodup_singleton _, ?_⟩
    intro j listed k last same
    rw [List.mem_singleton.mp last] at same
    exact filed.not_mem (by simp [stopped]) (same ▸ listed)
  mem := by
    intro j start' finish' logged'
    by_cases same : j = i
    · rw [same]
      exact List.mem_append_right _ (List.mem_singleton_self _)
    · exact List.mem_append_left _
        (filed.mem j start' finish' ((Function.update_of_ne same _ _).symm.trans logged'))

end Filed

/-- The times fit the calls and returns, and the log has the operations. -/
theorem clocked_filed {t : Harness} {h : HarnessHistory}
    (reached : (recordedHarness ops cli unreliable).Reachable (t, h)) :
    Clocked t.wrappers t.clock h.log ∧ Filed ops cli t h.logged := by
  apply reached.invariant
    (I := fun s => Clocked s.1.wrappers s.1.clock s.2.log ∧ Filed ops cli s.1 s.2.logged)
  · exact ⟨⟨nofun, nofun, nofun, nofun, nofun⟩, .nil, List.nodup_nil, nofun⟩
  · rintro ⟨t, h⟩ e ⟨t', h'⟩ before ⟨clocked, filed⟩ _ next
    obtain ⟨stepped, recorded⟩ :
        t.step ops cli e = some t' ∧ h' = HarnessHistory.record ops t e t' h :=
      Machine.withHistory_step.mp next
    have marked := marked_reachable (deployment_reachable before)
    rw [recorded]
    cases harnessStep_of_step stepped with
    | @tick elapsed =>
      exact ⟨clocked.tick elapsed, filed.entries, filed.nodup, filed.mem⟩
    | begin idle =>
      exact ⟨clocked.begin idle, filed.setWrapper (by simp [idle]) nofun⟩
    | @deployed e d allowed ran =>
      refine ⟨?_, filed.entries.imp ?_, filed.nodup, filed.mem⟩
      · show Clocked t.wrappers t.clock (Deployment.record ops t.deployed e d h.log)
        rcases record_invoked ran with ⟨i, fresh, rfl, log⟩ | ⟨more, log, silent⟩
        · rw [log]
          refine clocked.deployed ?_
          intro j listed
          cases List.mem_singleton.mp listed
          refine ⟨rfl, ?_⟩
          simp only [Harness.allows] at allowed
          split at allowed
          · rename_i started
            rw [started]
            exact nofun
          · cases allowed
        · rw [log]
          exact clocked.deployed (fun i listed => absurd listed (silent i))
      · intro i op entry
        exact entry.mono (fun _ _ logged => logged)
          (fun _ _ returned => returned_progress ran returned)
    | stop started returned =>
      exact ⟨clocked.stop started (marked.returned _ _ _ returned),
        filed.setWrapper (by simp [started]) nofun⟩
    | append stopped returned =>
      exact ⟨clocked.append stopped, filed.append stopped returned⟩

/-! ## Values that are not taken for errors -/

/-- No value that is written has an `E`. -/
def PlainValues (ops : Nat → Operation) : Prop :=
  ∀ i, match (ops i).command with
    | .put _ value => 'E' ∉ value.toList
    | .append _ value => 'E' ∉ value.toList
    | .get _ => True

/-- What is stored is put together from what was written. -/
theorem after_plain (plain : PlainValues ops) (order : List Nat) :
    ∀ key, 'E' ∉ (((store ops).after order key).getD "").toList := by
  induction order using List.reverseRecOn with
  | nil => simp [store]
  | append_singleton order i ih =>
    intro key
    have written := plain i
    rw [SequentialObject.after_concat]
    cases command : (ops i).command with
    | get key' => simpa [store, command] using ih key
    | put key' value =>
      rw [command] at written
      by_cases same : key = key'
      · simpa [store, command, same] using written
      · simpa [store, command, same] using ih key
    | append key' value =>
      rw [command] at written
      by_cases same : key = key'
      · subst same
        simp only [store, command, Function.update_self, Option.getD_some, String.toList_append,
          List.mem_append, not_or]
        exact ⟨ih key, written⟩
      · simpa [store, command, same] using ih key

theorem getResult_plain {reply : String} (plain : 'E' ∉ reply.toList) : getResult reply = reply := by
  have named : ¬ (reply = errNoKey ∨ reply = errVersion) := by
    rintro (rfl | rfl)
    · exact plain (by decide)
    · exact plain (by decide)
  rw [getResult, if_neg named]

/-! ## The linearization of the log -/

section Linearization

variable {t : Harness} {h : HarnessHistory} {order : List Nat}

/-- The entry of an operation stands at the place of the operation. -/
theorem Filed.entry (filed : Filed ops cli t h.logged) {k : Nat} {op : KvOperation}
    (found : t.operations[k]? = some op) :
    ∃ i, h.logged[k]? = some i ∧ Logged ops cli t i op := by
  obtain ⟨inside, same⟩ := List.getElem?_eq_some_iff.mp found
  have inside' : k < h.logged.length := filed.entries.length_eq ▸ inside
  have entry := filed.entries.get inside' inside
  simp only [List.get_eq_getElem, same] at entry
  exact ⟨h.logged[k], List.getElem?_eq_getElem inside', entry⟩

theorem Filed.idxOf (filed : Filed ops cli t h.logged) {k i : Nat} (found : h.logged[k]? = some i) :
    h.logged.idxOf i = k := by
  obtain ⟨inside, rfl⟩ := List.getElem?_eq_some_iff.mp found
  exact filed.nodup.idxOf_getElem k inside

theorem Filed.getElem?_idxOf (filed : Filed ops cli t h.logged) {i : Nat} (listed : i ∈ h.logged) :
    ∃ op, t.operations[h.logged.idxOf i]? = some op ∧ Logged ops cli t i op := by
  have inside := List.idxOf_lt_length_of_mem listed
  have inside' : h.logged.idxOf i < t.operations.length := filed.entries.length_eq ▸ inside
  obtain ⟨j, found, entry⟩ := filed.entry (List.getElem?_eq_getElem inside')
  have same : h.logged[h.logged.idxOf i]? = some i := List.getElem?_idxOf listed
  cases found.symm.trans same
  exact ⟨_, List.getElem?_eq_getElem inside', entry⟩

theorem getD_update (value : String → Option String) (key new : String) :
    (Function.update (fun key => (value key).getD "") key new) =
      fun other => (Function.update value key (some new) other).getD "" := by
  funext other
  by_cases same : other = key
  · simp [same]
  · simp [same]

/-- The model accepts what the store answers. -/
theorem accepted_entry {i : Nat} {cli start finish : Int} {result : String}
    {value : String → Option String} (answer : result = (store ops).answer value i)
    {op : KvOperation} (entry : op = (ops i).entry cli start result finish) :
    accepted (storeStep (fun key => (value key).getD "") op.input op.output) =
      some (fun key => ((store ops).apply value i key).getD "") := by
  subst entry
  cases command : (ops i).command with
  | get key =>
    have answer : result = (value key).getD "" := by simpa [store, command] using answer
    simp [Operation.entry, command, storeStep, kvStep, accepted, store, answer]
  | put key new =>
    have stepped : storeStep (fun key => (value key).getD "") ⟨1, key, new⟩ ⟨""⟩ =
        (true, Function.update (fun key => (value key).getD "") key new) := rfl
    simp only [Operation.entry, command, stepped, accepted, if_true, getD_update, store]
  | append key new =>
    have answer : result = (value key).getD "" := by simpa [store, command] using answer
    have stepped : storeStep (fun key => (value key).getD "") ⟨3, key, new⟩ ⟨result⟩ =
        (true, Function.update (fun key => (value key).getD "") key ((value key).getD "" ++ new)) := by
      simp [storeStep, kvStep, answer]
    simp only [Operation.entry, command, stepped, accepted, if_true, getD_update, store]

variable (plain : PlainValues ops) (filed : Filed ops cli t h.logged)
  (returns : ∀ i, (t.deployed.progress i).Returns (ops i))
  (linearizes : (store ops).Linearizes h.log
    (fun i reply => ∃ result, t.deployed.progress i = .returned reply result) order)
  (complete : ∀ i ∈ order, i ∈ h.logged)

include plain filed returns linearizes complete

/-- The model follows the store. -/
theorem foldlM_order (before : List Nat) : ∀ behind, order = before ++ behind →
    (before.map h.logged.idxOf).foldlM (accepts storeStep t.operations) (fun _ => "") =
      some (fun key => ((store ops).after before key).getD "") := by
  induction before using List.reverseRecOn with
  | nil =>
    intro behind _
    simp [store]
  | append_singleton before i ih =>
    intro behind whole
    have whole' : order = before ++ i :: behind := by simpa using whole
    rw [List.map_append, List.foldlM_append, ih (i :: behind) whole']
    have listed : i ∈ order := by simp [whole']
    obtain ⟨op, found, start, finish, reply, result, -, returned, rfl⟩ :=
      filed.getElem?_idxOf (complete i listed)
    have once := linearizes.once
    have answers := linearizes.answers i reply ⟨result, returned⟩
    rw [whole'] at once answers
    have answer := answers.eq_answer once
    have result_eq : result = reply := by
      have returns := returns i
      rw [returned] at returns
      have returns : result = (ops i).result reply := returns
      rw [returns, Operation.result]
      split
      · rfl
      · rename_i read
        apply getResult_plain
        rw [answer]
        cases command : (ops i).command with
        | get key => simpa [store, command] using after_plain plain before key
        | put key value => simp [Operation.IsUpdate, command] at read
        | append key value => simp [Operation.IsUpdate, command] at read
    rw [Option.bind_eq_bind, Option.bind_some, List.map_singleton, List.foldlM_cons, accepts, found,
      Option.bind_some, accepted_entry (result_eq.trans answer) rfl, SequentialObject.after_concat]
    rfl

theorem linearization_log (clocked : Clocked t.wrappers t.clock h.log) :
    Linearization (fun _ => "") storeStep t.operations (order.map h.logged.idxOf) where
  nodup := by
    refine (List.nodup_map_iff_inj_on linearizes.once).mpr ?_
    intro i listed j listed' same
    exact (List.idxOf_inj (complete i listed)).mp same
  inside := by
    intro k listed
    obtain ⟨i, inside, rfl⟩ := List.mem_map.mp listed
    rw [← filed.entries.length_eq]
    exact List.idxOf_lt_length_of_mem (complete i inside)
  realTime := by
    intro k l a b found found' before listed
    obtain ⟨i, here, start, finish, reply, result, wrapped, -, rfl⟩ := filed.entry found
    obtain ⟨j, here', start', finish', reply', result', wrapped', -, rfl⟩ := filed.entry found'
    obtain ⟨j', inside, same⟩ := List.mem_map.mp listed
    have same : j' = j := by
      have back := List.getElem?_idxOf (complete j' inside)
      rw [same, here'] at back
      exact (Option.some.inj back).symm
    subst same
    have earlier : finish < start' := by
      cases command : (ops i).command <;> cases command' : (ops j').command <;>
        simpa [Operation.entry, command, command'] using before
    have apart := clocked.realTime i j' finish start' (by rw [wrapped]; rfl) (by rw [wrapped']; rfl)
      earlier (linearizes.invoked j' inside)
    have ordered := (linearizes.realTime i j' apart inside).map h.logged.idxOf
    rwa [List.map_cons, List.map_cons, List.map_nil, filed.idxOf here, filed.idxOf here'] at ordered
  legal := by
    rw [foldlM_order plain filed returns linearizes complete order [] (by simp)]
    rfl

end Linearization

theorem timely_log {t : Harness} {h : HarnessHistory} (clocked : Clocked t.wrappers t.clock h.log)
    (filed : Filed ops cli t h.logged) : Timely t.operations := by
  intro op listed
  obtain ⟨k, found⟩ := List.mem_iff_getElem?.mp listed
  obtain ⟨i, -, start, finish, reply, result, wrapped, -, rfl⟩ := filed.entry found
  have ordered := clocked.lasts i start finish (by rw [wrapped]; rfl) (by rw [wrapped]; rfl)
  cases command : (ops i).command <;> simpa [Operation.entry, command] using ordered

section Complete

variable (plain : PlainValues ops) {t : Harness} {h : HarnessHistory}
  (reached : (recordedHarness ops cli unreliable).Reachable (t, h))
  (complete : ∀ i, t.deployed.progress i ≠ .notInvoked →
    ∃ start finish, t.wrappers i = .logged start finish)

include plain reached complete

theorem kvLinearizable_log : KvLinearizable t.operations := by
  have deployed := deployment_reachable reached
  obtain ⟨clocked, filed⟩ := clocked_filed reached
  have marked := marked_reachable deployed
  obtain ⟨order, linearizes, -⟩ := linearizes_deployment deployed
  have logged : ∀ i ∈ order, i ∈ h.logged := by
    intro i listed
    obtain ⟨start, finish, wrapped⟩ :=
      complete i ((marked.invoked i).mp (linearizes.invoked i listed))
    exact filed.mem i start finish wrapped
  refine ⟨_, linearization_log plain filed (returns_reachable deployed.dropHistory) linearizes
    logged clocked, ?_⟩
  intro k inside
  obtain ⟨i, here, start, finish, reply, result, -, returned, -⟩ :=
    filed.entry (List.getElem?_eq_getElem inside)
  refine List.mem_map.mpr ⟨i, ?_, filed.idxOf here⟩
  exact linearizes.complete i (marked.returned i reply result returned)

theorem not_illegal_log {sort : List (Porcupine.Entry Porcupine.KvInput Porcupine.KvOutput) →
      List (Porcupine.Entry Porcupine.KvInput Porcupine.KvOutput)} (sorts : SortsByTime sort)
    {p : Porcupine.Parallel String} {result : Porcupine.CheckResult}
    {partials : List (List (List Nat))}
    (checked : (checkOperations sort kvModel t.operations true true).checkParallel.Reachable p)
    (returned : p.main = .returned result partials) : result ≠ .illegal := by
  intro illegal
  obtain ⟨clocked, filed⟩ := clocked_filed reached
  have timely := timely_log clocked filed
  obtain ⟨subhistory, listed, refuted⟩ := Porcupine.not_isLinearizable_of_illegal sorts
    Porcupine.respectsEqual_kvModel (Porcupine.timely_kvPartition timely) checked returned illegal
  have each := (Porcupine.kvLinearizable_iff timely).mpr (kvLinearizable_log plain reached complete)
  exact refuted (each subhistory listed)

end Complete

/-- In every test, over a network that is reliable or not, in which every operation that was called
    has been logged in the end: the log is linearizable for the store with all keys, and
    `CheckOperationsVerbose`, whenever its time is up, does not return `Illegal`. -/
theorem harness_linearizable (cli : Nat → Int) (unreliable : Bool) (plain : PlainValues ops)
    {t : Harness} (reached : (harness ops cli unreliable).Reachable t)
    (complete : ∀ i, t.deployed.progress i ≠ .notInvoked →
      ∃ start finish, t.wrappers i = .logged start finish) :
    KvLinearizable t.operations ∧
    ∀ sort, SortsByTime sort → ∀ p result partials,
      (checkOperations sort kvModel t.operations true true).checkParallel.Reachable p →
      p.main = .returned result partials → result ≠ .illegal := by
  obtain ⟨h, recorded⟩ :=
    Machine.ReachableWhen.withHistory ⟨[], []⟩ (HarnessHistory.record ops) reached
  exact ⟨kvLinearizable_log plain recorded complete,
    fun _ sorts _ _ _ => not_illegal_log plain recorded complete sorts⟩

/-- The marks of the operations in a run of the harness. -/
theorem marked_harness {ops : Nat → Operation} {cli : Nat → Int} {unreliable : Bool}
    {s : Harness × HarnessHistory} (reached : (recordedHarness ops cli unreliable).Reachable s) :
    Marked s.1.deployed s.2.log := by
  obtain ⟨t, h⟩ := s
  exact marked_reachable (deployment_reachable reached)

/-- The append whose first reply is dropped, and the get that comes in between. -/
def loggedTest : List HarnessEvent :=
  ([.deployed (.makeClient 2), .deployed (.makeClient 3), .begin 1, .tick 1, .deployed (.invoke 1),
      .deployed (.start 1)] : List HarnessEvent) ++
    (callEvents (1, 1) .drop).map HarnessEvent.deployed ++
    ([.begin 2, .deployed (.invoke 2), .deployed (.start 2)] : List HarnessEvent) ++
    (callEvents (2, 1) .deliver).map HarnessEvent.deployed ++
    ([.deployed (.receive 2), .tick 5, .stop 2, .deployed (.retry 1)] : List HarnessEvent) ++
    (callEvents (1, 2) .deliver).map HarnessEvent.deployed ++
    ([.deployed (.receive 1)] : List HarnessEvent) ++
    (callEvents (1, 3) .drop).map HarnessEvent.deployed ++
    ([.deployed (.finish 1), .tick 2, .stop 1, .append 1, .append 2] : List HarnessEvent)

/-- The test after it. -/
def loggedState : Harness × HarnessHistory :=
  (recordedHarness threeClients (fun _ => 0) true).after loggedTest

theorem plainValues_threeClients : PlainValues threeClients := by
  intro i
  match i with
  | 0 => simp [threeClients]
  | 1 => simp [threeClients]
  | _ + 2 => trivial

theorem harness_linearizable_loggedTest :
    loggedState.1.operations =
      [⟨0, ⟨3, "x", "2"⟩, 0, ⟨""⟩, 8⟩, ⟨0, ⟨0, "x", ""⟩, 1, ⟨"2"⟩, 6⟩] ∧
      KvLinearizable loggedState.1.operations := by
  have reached : (recordedHarness threeClients (fun _ => 0) true).Reachable loggedState :=
    Machine.reachable_after loggedTest
  have log : loggedState.2.log = [.invoked 1, .invoked 2, .returned 2, .returned 1] := by
    decide +kernel
  have complete : ∀ i, loggedState.1.deployed.progress i ≠ .notInvoked →
      ∃ start finish, loggedState.1.wrappers i = .logged start finish := by
    intro i called
    have marked := marked_harness reached
    have listed := (marked.invoked i).mpr called
    rw [log] at listed
    simp only [List.mem_cons, Mark.invoked.injEq, reduceCtorEq, List.not_mem_nil, or_false] at listed
    rcases listed with rfl | rfl
    · exact ⟨0, 8, by decide +kernel⟩
    · exact ⟨1, 6, by decide +kernel⟩
  exact ⟨by decide +kernel,
    (harness_linearizable (fun _ => 0) true plainValues_threeClients reached.dropHistory
      complete).1⟩

end DistributedCloud.KvSrv
