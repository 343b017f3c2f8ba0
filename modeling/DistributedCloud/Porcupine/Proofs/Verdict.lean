import DistributedCloud.Porcupine.Proofs.CheckSingle

/-!
# What `checkSingle` returns

Whatever the loop does, it comes to a result: a linearization, the statement that there is none, or
what was noted until it was told to stop.
-/

namespace DistributedCloud.Porcupine

open Edge

variable {I O σ : Type}

section Result

variable (step : σ → Nat → Option σ) (entries : List (Entry I O)) (init : σ)

/-- Each sequence noted explains the start of the history and has the operation it is noted for. -/
structure Legal (longest : Longest) : Prop where
  size : longest.length = entries.length / 2
  explains : ∀ op order, longest[op]? = some (some order) →
    op ∈ order ∧ Explains step (entries.map Entry.edge) init order

/-- No sequence with an operation is longer than the one noted for it. -/
def Maximal (longest : Longest) : Prop :=
  ∀ order, Explains step (entries.map Entry.edge) init order → ∀ op ∈ order,
    ∃ best, longest[op]? = some (some best) ∧ order.length ≤ best.length

/-- What may be returned after a turn that has read `kill`. -/
inductive Verdict (note kill : Bool) : Bool × Longest → Prop
  | found {order : List Nat} (explains : Explains step (entries.map Entry.edge) init order)
      (complete : ∀ op < entries.length / 2, op ∈ order) :
      Verdict note kill (true, List.replicate (entries.length / 2) (some order))
  | killed {longest : Longest} (killed : kill = true) (legal : Legal step entries init longest) :
      Verdict note kill (false, longest)
  | failed {longest : Longest}
      (illegal : ¬ Linearizable step (entries.map Entry.edge) init)
      (legal : Legal step entries init longest)
      (maximal : note = true → Maximal step entries init longest) :
      Verdict note kill (false, longest)

/-- The variables belong to a search from the start with this much work left. -/
def Running (note : Bool) (s : Loop σ) (work : Nat) : Prop :=
  ∃ search before rest, Refines entries s search before rest ∧
    Search.Sound step note (entries.map Entry.edge) init search ∧
    Search.work (entries.map Entry.edge) search = work

end Result

variable {model : FilledModel I O σ} {entries : List (Entry I O)} {step : σ → Nat → Option σ}
  {note : Bool} {s : Loop σ} {search : Search σ Nat} {before rest : List Nat} {work : Nat}

theorem running_first (note : Bool) (step : σ → Nat → Option σ) (model : FilledModel I O σ)
    (entries : List (Entry I O)) :
    Running step entries model.init note (firstLoop model entries)
      (Search.work (entries.map Entry.edge)
        (Search.start (entries.map Entry.edge) model.init)) :=
  ⟨_, _, _, refines_first model entries, Search.sound_start _ _, rfl⟩

theorem Refines.legal (refines : Refines entries s search before rest)
    (sound : Search.Sound step note (entries.map Entry.edge) model.init search) :
    Legal step entries model.init s.longest := by
  refine ⟨refines.size, ?_⟩
  intro op order found
  obtain ⟨inside, -⟩ := List.getElem?_eq_some_iff.mp found
  rw [refines.longest op (refines.size ▸ inside)] at found
  exact sound.notes op order (Option.some.inj found)

/-- A search that has tried everything. -/
theorem Refines.maximal (proper : Proper model entries step)
    (simulates : Search.Simulates step model.equal)
    (refines : Refines entries s search before rest)
    (sound : Search.Sound step true (entries.map Entry.edge) model.init search) {op : Nat}
    {after : List (Edge Nat)} (entry : search.rest = Edge.ret op :: after)
    (bottom : search.frames = []) : Maximal step entries model.init s.longest := by
  intro order explains other listed
  have enough := (sound.covered rfl).longest simulates proper.paired sound.valid entry bottom
    explains listed
  have small := (proper.ids other).mp (explains.called other listed)
  have positive : 0 < order.length := List.length_pos_of_mem listed
  rw [refines.longest other small]
  cases best : search.best other with
  | none =>
    rw [Search.size, best, Option.getD_none, List.length_nil] at enough
    omega
  | some order' =>
    rw [Search.size, best, Option.getD_some] at enough
    exact ⟨order', rfl, enough⟩

/-- Each turn goes on with less work left, or returns a verdict. -/
theorem Running.turn (proper : Proper model entries step)
    (simulates : Search.Simulates step model.equal)
    (running : Running step entries model.init note s work) (kill : Bool) :
    (∃ s' work', (setupOf model entries note).turn kill s = some (.inl s') ∧ work' < work ∧
        Running step entries model.init note s' work') ∨
      ∃ result, (setupOf model entries note).turn kill s = some (.inr result) ∧
        Verdict step entries model.init note kill result := by
  obtain ⟨search, before, rest, refines, sound, rfl⟩ := running
  have paired := proper.paired
  have continues : ∀ {s' search' before' rest'},
      (setupOf model entries note).turn false s = some (.inl s') →
      Search.Move step model.equal note search search' →
      Refines entries s' search' before' rest' →
      ∃ s' work', (setupOf model entries note).turn false s = some (.inl s') ∧
        work' < Search.work (entries.map Entry.edge) search ∧
        Running step entries model.init note s' work' := by
    intro s' search' before' rest' turned move refines'
    exact ⟨s', _, turned, Search.work_move_lt paired sound.valid move, search', before', rest',
      refines', sound.move simulates paired move, rfl⟩
  by_cases done : search.entries = []
  · refine .inr ⟨_, refines.turn_done proper done kill, ?_⟩
    have leads := sound.valid.leads
    refine .found (leads.explains paired) ?_
    intro op small
    by_contra missing
    have kept := leads.mem_left.mpr ⟨(proper.ids op).mpr small, missing⟩
    rw [done] at kept
    cases kept
  · cases kill with
    | true => exact .inr ⟨_, refines.turn_killed done, .killed rfl (refines.legal sound)⟩
    | false =>
      obtain ⟨e, after, cells⟩ : ∃ e after, rest = e :: after := by
        refine List.exists_cons_of_ne_nil ?_
        rintro rfl
        exact sound.valid.rest_ne_nil paired done refines.later
      cases edge : edgeAt entries e with
      | call op =>
        obtain ⟨s', search', before', rest', turned, move, refines'⟩ :=
          refines.turn_call proper sound.valid cells edge
        exact .inl (continues turned move refines')
      | ret op =>
        have entry : search.rest = Edge.ret op :: edges entries after := by
          rw [refines.later, cells, edges_cons, edge]
        cases stack : search.frames with
        | cons frame frames =>
          obtain ⟨s', before', rest', turned, refines'⟩ :=
            refines.turn_undo proper sound.valid cells edge stack
          exact .inl (continues turned (.pop entry stack) refines')
        | nil =>
          refine .inr ⟨_, refines.turn_failed cells edge stack, .failed ?_ (refines.legal sound) ?_⟩
          · exact sound.dead.not_linearizable simulates paired sound.valid entry stack
          · intro noting
            subst noting
            exact refines.maximal proper simulates sound entry stack

/-- The loop returns, with a verdict that only depends on `kill` if it was read as set. -/
theorem Running.loop (proper : Proper model entries step)
    (simulates : Search.Simulates step model.equal) (kill : Nat → Bool) {fuel : Nat}
    (running : Running step entries model.init note s work) (enough : work < fuel) (i : Nat) :
    ∃ result j, (setupOf model entries note).loop kill fuel i s = some result ∧
      Verdict step entries model.init note (kill j) result := by
  induction fuel generalizing s work i with
  | zero => omega
  | succ fuel ih =>
    rcases running.turn proper simulates (kill i) with
      ⟨s', work', turned, less, running'⟩ | ⟨result, turned, verdict⟩
    · obtain ⟨result, j, returned, verdict⟩ := ih running' (by omega) (i + 1)
      refine ⟨result, j, ?_, verdict⟩
      rw [Setup.loop, turned]
      exact returned
    · refine ⟨result, i, ?_, verdict⟩
      rw [Setup.loop, turned]
      rfl

/-- The turns that are always enough. -/
def enoughTurns (model : FilledModel I O σ) (entries : List (Entry I O)) : Nat :=
  Search.work (entries.map Entry.edge) (Search.start (entries.map Entry.edge) model.init) + 1

theorem checkSingle_verdict (proper : Proper model entries step)
    (simulates : Search.Simulates step model.equal) (note : Bool) (kill : Nat → Bool) {fuel : Nat}
    (enough : enoughTurns model entries ≤ fuel) :
    ∃ result j, checkSingle model entries note kill fuel = some result ∧
      Verdict step entries model.init note (kill j) result := by
  rw [checkSingle, setUp_eq]
  exact (running_first note step model entries).loop proper simulates kill enough 0

/-- A search that is not stopped tells whether the history is linearizable. -/
theorem Verdict.ok_iff {result : Bool × Longest} (proper : Proper model entries step)
    (verdict : Verdict step entries model.init note false result) :
    result.1 = true ↔ Linearizable step (entries.map Entry.edge) model.init := by
  cases verdict with
  | found explains complete =>
    refine iff_of_true rfl ⟨_, explains, ?_⟩
    intro op called
    exact complete op ((proper.ids op).mp called)
  | killed killed _ => cases killed
  | failed illegal _ _ => exact iff_of_false Bool.false_ne_true illegal

end DistributedCloud.Porcupine
