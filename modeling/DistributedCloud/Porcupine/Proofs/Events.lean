import DistributedCloud.Misc.Locality
import DistributedCloud.Porcupine.Proofs.KvModel
import DistributedCloud.Porcupine.Proofs.Parallel

/-!
# Histories of events

`renumber` gives the ids of the events the numbers from 0 on, in the order in which they come up
first, so that the entries are those of the events under new names.
-/

namespace DistributedCloud.Porcupine

open Edge

variable {I O σ : Type}

/-! ## Renumbering -/

/-- Different ids have different numbers, and all numbers below `n` are used. -/
structure Numbering (m : Int → Option Nat) (n : Nat) : Prop where
  injective : ∀ {id id' r}, m id = some r → m id' = some r → id = id'
  numbers : ∀ r, r < n ↔ ∃ id, m id = some r

theorem Numbering.update {m : Int → Option Nat} {n : Nat} (numbering : Numbering m n) {id : Int}
    (fresh : m id = none) : Numbering (Function.update m id (some n)) (n + 1) := by
  have old : ∀ {other r}, other ≠ id →
      (Function.update m id (some n) other = some r ↔ m other = some r) := by
    intro other r apart
    rw [Function.update_of_ne apart]
  have below : ∀ {other r}, m other = some r → r < n := fun found =>
    (numbering.numbers _).mpr ⟨_, found⟩
  refine ⟨?_, ?_⟩
  · intro first second r left right
    by_cases own : first = id
    · by_cases own' : second = id
      · exact own.trans own'.symm
      · subst own
        rw [Function.update_self] at left
        cases left
        exact absurd (below ((old own').mp right)) (Nat.lt_irrefl _)
    · by_cases own' : second = id
      · subst own'
        rw [Function.update_self] at right
        cases right
        exact absurd (below ((old own).mp left)) (Nat.lt_irrefl _)
      · exact numbering.injective ((old own).mp left) ((old own').mp right)
  · intro r
    constructor
    · intro small
      rcases Nat.lt_succ_iff_lt_or_eq.mp small with small | rfl
      · obtain ⟨other, found⟩ := (numbering.numbers r).mp small
        refine ⟨other, (old ?_).mpr found⟩
        rintro rfl
        cases fresh.symm.trans found
      · exact ⟨id, Function.update_self ..⟩
    · intro found
      obtain ⟨other, found⟩ := found
      by_cases own : other = id
      · subst own
        rw [Function.update_self] at found
        cases found
        exact Nat.lt_succ_self _
      · exact Nat.lt_succ_of_lt (below ((old own).mp found))

/-- The numbers in the end extend those given so far to the ids of the events. -/
theorem renumberFrom_eq {m : Int → Option Nat} {n : Nat} (numbering : Numbering m n)
    (events : List (Event I O)) :
    ∃ m' n', Numbering m' n' ∧ (∀ id r, m id = some r → m' id = some r) ∧
      (∀ id, (m' id).isSome ↔ (m id).isSome ∨ ∃ v ∈ events, v.id = id) ∧
      renumberFrom m n events = events.map fun v => ((m' v.id).getD 0, v) := by
  induction events generalizing m n with
  | nil => exact ⟨m, n, numbering, fun _ _ => id, by simp, rfl⟩
  | cons v events ih =>
    cases known : m v.id with
    | some r =>
      obtain ⟨m', n', numbering', extends', domain, result⟩ := ih numbering
      refine ⟨m', n', numbering', extends', ?_, ?_⟩
      · intro id
        rw [domain]
        constructor
        · rintro (old | ⟨w, listed, own⟩)
          · exact .inl old
          · exact .inr ⟨w, List.mem_cons_of_mem _ listed, own⟩
        · rintro (old | ⟨w, listed, own⟩)
          · exact .inl old
          · rcases List.mem_cons.mp listed with rfl | listed
            · exact .inl (own ▸ Option.isSome_of_eq_some known)
            · exact .inr ⟨w, listed, own⟩
      · rw [renumberFrom, known, List.map_cons, extends' _ _ known]
        exact congrArg _ result
    | none =>
      obtain ⟨m', n', numbering', extends', domain, result⟩ := ih (numbering.update known)
      have own : m' v.id = some n := extends' _ _ (Function.update_self ..)
      refine ⟨m', n', numbering', ?_, ?_, ?_⟩
      · intro id r found
        refine extends' _ _ ((Function.update_of_ne ?_ _ _).trans found)
        rintro rfl
        cases known.symm.trans found
      · intro id
        rw [domain]
        by_cases same : id = v.id
        · subst same
          simp
        · rw [Function.update_of_ne same]
          simp [Ne.symm same]
      · rw [renumberFrom, known, List.map_cons, own]
        exact congrArg _ result

/-- The number of each id. -/
theorem exists_numbers (events : List (Event I O)) :
    ∃ (f : Int → Nat) (n : Nat), renumber events = events.map (fun v => (f v.id, v)) ∧
      (∀ v ∈ events, ∀ w ∈ events, f v.id = f w.id → v.id = w.id) ∧
      ∀ r, r < n ↔ ∃ v ∈ events, f v.id = r := by
  have none : Numbering (fun _ => none) 0 := ⟨by simp, by simp⟩
  obtain ⟨m, n, numbering, -, domain, result⟩ := renumberFrom_eq none events
  have known : ∀ v ∈ events, m v.id = some ((m v.id).getD 0) := by
    intro v listed
    obtain ⟨r, found⟩ := Option.isSome_iff_exists.mp ((domain v.id).mpr (.inr ⟨v, listed, rfl⟩))
    rw [found]
    rfl
  refine ⟨fun id => (m id).getD 0, n, result, ?_, ?_⟩
  · intro v listed w listed' same
    refine numbering.injective (known v listed) ?_
    rw [known w listed']
    exact congrArg some same.symm
  · intro r
    rw [numbering.numbers]
    constructor
    · intro found
      obtain ⟨id, found⟩ := found
      have used := (domain id).mp (Option.isSome_of_eq_some found)
      obtain ⟨v, listed, rfl⟩ := used.resolve_left (by simp)
      exact ⟨v, listed, congrArg (Option.getD · 0) found⟩
    · intro used
      obtain ⟨v, listed, rfl⟩ := used
      exact ⟨v.id, known v listed⟩

/-! ## Entries -/

/-- The entry of an event under a new id. -/
theorem mem_convertEntries {f : Int → Nat} {events : List (Event I O)} {entry : Entry I O}
    (listed : entry ∈ convertEntries (events.map fun v => (f v.id, v))) :
    ∃ v ∈ events, entry.edge = v.edge.map f ∧ entry.value = v.value ∧ entry.id = f v.id ∧
      (entry.kind = .callEntry ↔ v.kind = .callEvent) := by
  obtain ⟨i, found⟩ := List.mem_iff_getElem?.mp listed
  simp only [convertEntries, List.getElem?_mapIdx, List.getElem?_map, Option.map_map,
    Option.map_eq_some_iff, Function.comp_apply] at found
  obtain ⟨v, found, rfl⟩ := found
  refine ⟨v, List.mem_of_getElem? found, ?_, rfl, rfl, ?_⟩
  · simp only [Entry.edge, Event.edge]
    cases v.kind <;> rfl
  · cases v.kind <;> simp

theorem edges_convertEntries (f : Int → Nat) (events : List (Event I O)) :
    (convertEntries (events.map fun v => (f v.id, v))).map Entry.edge =
      (events.map Event.edge).map (Edge.map f) := by
  refine List.ext_getElem? ?_
  intro i
  simp only [convertEntries, List.getElem?_map, List.getElem?_mapIdx, Option.map_map]
  cases events[i]? with
  | none => rfl
  | some v =>
    simp only [Option.map_some, Function.comp_apply, Entry.edge, Event.edge]
    cases v.kind <;> rfl

section Step

variable {events : List (Event I O)} {step : σ → I → O → Bool × σ}

theorem edge_eq_call {v : Event I O} {id : Int} :
    v.edge = .call id ↔ v.kind = .callEvent ∧ v.id = id := by
  unfold Event.edge
  cases v.kind <;> simp

theorem edge_eq_ret {v : Event I O} {id : Int} :
    v.edge = .ret id ↔ v.kind = .returnEvent ∧ v.id = id := by
  unfold Event.edge
  cases v.kind <;> simp

/-- The event with an edge is the only one. -/
theorem WellFormed.find?_eq (formed : WellFormed events) {v : Event I O} (listed : v ∈ events) :
    events.find? (fun event => decide (event.edge = v.edge)) = some v := by
  cases found : events.find? (fun event => decide (event.edge = v.edge)) with
  | none =>
    have missing := List.find?_eq_none.mp found v listed
    simp at missing
  | some w =>
    have same : w.edge = v.edge := by simpa using List.find?_some found
    refine congrArg some ?_
    exact List.inj_on_of_nodup_map formed.paired.nodup (List.mem_of_find?_eq_some found) listed same

theorem WellFormed.eventStep_eq (formed : WellFormed events) {call ret : Event I O} {id : Int}
    {input : I} {output : O} (called : call ∈ events) (returned : ret ∈ events)
    (isCall : call.edge = .call id) (isReturn : ret.edge = .ret id)
    (isInput : call.value = .inl input) (isOutput : ret.value = .inr output) (state : σ) :
    eventStep step events state id = accepted (step state input output) := by
  have foundCall := formed.find?_eq called
  have foundReturn := formed.find?_eq returned
  rw [isCall] at foundCall
  rw [isReturn] at foundReturn
  obtain ⟨c, k, value, i⟩ := call
  obtain ⟨c', k', value', i'⟩ := ret
  cases isInput
  cases isOutput
  rw [eventStep, foundCall, foundReturn]

end Step

theorem simulates_eventStep {model : FilledModel I O σ} (respects : RespectsEqual model)
    (events : List (Event I O)) (g : Nat → Int) :
    Search.Simulates (fun state r => eventStep model.step events state (g r)) model.equal := by
  refine simulates_of_steps respects ?_
  intro r
  unfold eventStep
  split
  · exact .inr ⟨_, _, fun state => rfl⟩
  · exact .inl fun state => rfl

/-- The entries of well-formed events are proper, and linearizable if the events are. -/
theorem WellFormed.proper {events : List (Event I O)} (formed : WellFormed events)
    (model : FilledModel I O σ) :
    ∃ g : Nat → Int,
      Proper model (convertEntries (renumber events))
        (fun state r => eventStep model.step events state (g r)) ∧
      (Linearizable (fun state r => eventStep model.step events state (g r))
        ((convertEntries (renumber events)).map Entry.edge) model.init ↔
        EventsLinearizable model.init model.step events) := by
  obtain ⟨f, n, renumbered, injective, numbers⟩ := exists_numbers events
  rw [renumbered]
  -- an id that is called is one of an event
  have called : ∀ {id}, call id ∈ events.map Event.edge → ∃ v ∈ events, v.edge = .call id :=
    fun listed => List.mem_map.mp listed
  have names : ∀ id id', call id ∈ events.map Event.edge → call id' ∈ events.map Event.edge →
      f id = f id' → id = id' := by
    intro id id' listed listed' same
    obtain ⟨v, inside, isCall⟩ := called listed
    obtain ⟨w, inside', isCall'⟩ := called listed'
    obtain ⟨-, rfl⟩ := edge_eq_call.mp isCall
    obtain ⟨-, rfl⟩ := edge_eq_call.mp isCall'
    exact injective v inside w inside' same
  have paired := formed.paired
  have numbered : ∀ r, r < n ↔ ∃ id, call id ∈ events.map Event.edge ∧ f id = r := by
    intro r
    rw [numbers]
    constructor
    · intro used
      obtain ⟨v, listed, rfl⟩ := used
      refine ⟨v.id, ?_, rfl⟩
      have edge : v.edge ∈ events.map Event.edge := List.mem_map_of_mem listed
      cases kind : v.kind with
      | callEvent => rwa [edge_eq_call.mpr ⟨kind, rfl⟩] at edge
      | returnEvent =>
        rw [edge_eq_ret.mpr ⟨kind, rfl⟩] at edge
        exact paired.called edge
    · intro used
      obtain ⟨id, listed, rfl⟩ := used
      obtain ⟨v, inside, isCall⟩ := called listed
      exact ⟨v, inside, by rw [(edge_eq_call.mp isCall).2]⟩
  -- the id with a number
  let g : Nat → Int := fun r =>
    ((events.find? fun v => decide (f v.id = r)).map Event.id).getD 0
  have back : ∀ v ∈ events, g (f v.id) = v.id := by
    intro v listed
    cases found : events.find? (fun w => decide (f w.id = f v.id)) with
    | none =>
      have missing := List.find?_eq_none.mp found v listed
      simp at missing
    | some w =>
      have same : f w.id = f v.id := by simpa using List.find?_some found
      show ((events.find? fun w => decide (f w.id = f v.id)).map Event.id).getD 0 = v.id
      rw [found]
      exact injective w (List.mem_of_find?_eq_some found) v listed same
  refine ⟨g, ⟨?_, ?_, ?_⟩, ?_⟩
  · rw [edges_convertEntries]
    exact paired.map names
  · intro r
    rw [edges_convertEntries, paired.call_mem_map_iff names numbered]
    simp [convertEntries]
  · intro call inside ret inside' callKind returnKind same
    obtain ⟨v, listed, edge, value, id, kind⟩ := mem_convertEntries inside
    obtain ⟨w, listed', edge', value', id', kind'⟩ := mem_convertEntries inside'
    have isCall : v.kind = .callEvent := kind.mp callKind
    have isReturn : w.kind = .returnEvent := by
      cases other : w.kind with
      | callEvent => cases (kind'.mpr other).symm.trans returnKind
      | returnEvent => rfl
    have sameId : v.id = w.id := injective v listed w listed' (by rw [← id, ← id', same])
    obtain ⟨input, isInput⟩ := formed.input v listed isCall
    obtain ⟨output, isOutput⟩ := formed.output w listed' isReturn
    refine ⟨input, output, value.trans isInput, value'.trans isOutput, ?_⟩
    intro state
    rw [id, back v listed]
    exact formed.eventStep_eq listed listed' (edge_eq_call.mpr ⟨isCall, rfl⟩)
      (edge_eq_ret.mpr ⟨isReturn, sameId.symm⟩) isInput isOutput state
  · rw [edges_convertEntries]
    refine (paired.renames_map names).linearizable_iff ?_ paired (paired.map names)
    intro id listed state
    obtain ⟨v, inside, isCall⟩ := called listed
    obtain ⟨-, rfl⟩ := edge_eq_call.mp isCall
    rw [back v inside]

/-! ## All partitions -/

section Partitions

variable [DecidableEq σ] {model : Model I O σ} {history : List (Event I O)} {verbose timeout : Bool}

theorem checkable_events (verbose timeout : Bool) (respects : RespectsEqual (fillDefault model))
    (formed : ∀ subhistory ∈ (fillDefault model).partitionEvent history, WellFormed subhistory) :
    ∃ steps, Checkable (checkEvents model history verbose timeout) steps ∧
      ∀ i subhistory, ((fillDefault model).partitionEvent history)[i]? = some subhistory →
        (Linearizable (steps i) ((convertEntries (renumber subhistory)).map Entry.edge)
          model.init ↔ EventsLinearizable model.init model.step subhistory) := by
  have each : ∀ i : Nat, ∃ g : Nat → Int, ∀ subhistory,
      ((fillDefault model).partitionEvent history)[i]? = some subhistory →
      Proper (fillDefault model) (convertEntries (renumber subhistory))
        (fun state r => eventStep model.step subhistory state (g r)) ∧
      (Linearizable (fun state r => eventStep model.step subhistory state (g r))
        ((convertEntries (renumber subhistory)).map Entry.edge) model.init ↔
        EventsLinearizable model.init model.step subhistory) := by
    intro i
    cases listed : ((fillDefault model).partitionEvent history)[i]? with
    | none => exact ⟨fun _ => 0, by simp⟩
    | some subhistory =>
      obtain ⟨g, proper, linearizable⟩ :=
        (formed _ (List.mem_of_getElem? listed)).proper (fillDefault model)
      refine ⟨g, ?_⟩
      intro other same
      cases same
      exact ⟨proper, linearizable⟩
  choose g each using each
  refine ⟨fun i state r => eventStep model.step
    ((((fillDefault model).partitionEvent history)[i]?).getD []) state (g i r), ⟨?_, ?_⟩, ?_⟩
  · intro i entries listed
    simp only [checkEvents, List.getElem?_map, Option.map_eq_some_iff] at listed
    obtain ⟨subhistory, listed, rfl⟩ := listed
    rw [listed]
    exact (each i subhistory listed).1
  · intro i
    exact simulates_eventStep respects _ (g i)
  · intro i subhistory listed
    simp only [listed, Option.getD_some]
    exact (each i subhistory listed).2

/-- What `CheckEventsTimeout` returns for well-formed partitions and a model that respects its `Equal`,
    under every schedule and whenever the time is up. -/
theorem checkEvents_sound (respects : RespectsEqual (fillDefault model))
    (formed : ∀ subhistory ∈ (fillDefault model).partitionEvent history, WellFormed subhistory)
    {p : Parallel σ} {result : CheckResult} {partials : List (List (List Nat))}
    (reached : (checkEvents model history verbose timeout).checkParallel.Reachable p)
    (returned : p.main = .returned result partials) :
    (result = .ok → ∀ subhistory ∈ (fillDefault model).partitionEvent history,
      EventsLinearizable model.init model.step subhistory) ∧
    (result = .illegal → ∃ subhistory ∈ (fillDefault model).partitionEvent history,
      ¬ EventsLinearizable model.init model.step subhistory) ∧
    (result = .unknown → timeout = true) := by
  obtain ⟨steps, checkable, linearizable⟩ := checkable_events verbose timeout respects formed
  obtain ⟨work, sound⟩ := sound_of_reachable checkable reached
  refine ⟨?_, ?_, sound.timeout_of_unknown returned⟩
  · intro passed subhistory listed
    obtain ⟨i, found⟩ := List.mem_iff_getElem?.mp listed
    refine (linearizable i subhistory found).mp
      (sound.linearizable_of_ok returned checkable passed ?_)
    simp [checkEvents, found]
  · intro failed
    obtain ⟨i, entries, listed, illegal⟩ := sound.refuted_of_illegal returned failed
    simp only [checkEvents, List.getElem?_map, Option.map_eq_some_iff] at listed
    obtain ⟨subhistory, found, rfl⟩ := listed
    refine ⟨subhistory, List.mem_of_getElem? found, ?_⟩
    intro explained
    exact illegal ((linearizable i subhistory found).mpr explained)

end Partitions

/-- A put and a get that overlap, with ids out of order. -/
def overlappingEvents : List (Event KvInput KvOutput) :=
  [⟨0, .callEvent, .inl ⟨1, "x", "1"⟩, 7⟩, ⟨1, .callEvent, .inl ⟨0, "x", ""⟩, 3⟩,
    ⟨0, .returnEvent, .inr ⟨""⟩, 7⟩, ⟨1, .returnEvent, .inr ⟨"1"⟩, 3⟩]

theorem wellFormed_overlappingEvents : WellFormed overlappingEvents := by
  have edges : overlappingEvents.map Event.edge = [.call 7, .call 3, .ret 7, .ret 3] := rfl
  refine ⟨?_, ?_, ?_⟩
  · rw [edges]
    refine ⟨by decide, ?_, ?_⟩
    · intro id called
      have either : id = 7 ∨ id = 3 := by simpa using called
      rcases either with rfl | rfl <;> decide
    · intro id returned
      have either : id = 7 ∨ id = 3 := by simpa using returned
      rcases either with rfl | rfl <;> decide
  · intro event listed isCall
    simp only [overlappingEvents, List.mem_cons, List.not_mem_nil, or_false] at listed
    rcases listed with rfl | rfl | rfl | rfl
    · exact ⟨_, rfl⟩
    · exact ⟨_, rfl⟩
    · cases isCall
    · cases isCall
  · intro event listed isReturn
    simp only [overlappingEvents, List.mem_cons, List.not_mem_nil, or_false] at listed
    rcases listed with rfl | rfl | rfl | rfl
    · cases isReturn
    · cases isReturn
    · exact ⟨_, rfl⟩
    · exact ⟨_, rfl⟩

theorem checkEvents_sound_overlappingEvents :
    ∃ p result partials,
      (checkEvents kvModel overlappingEvents true true).checkParallel.Reachable p ∧
      p.main = .returned result partials ∧
      (result = .illegal → ¬ EventsLinearizable "" kvStep overlappingEvents) := by
  have respects := respectsEqual_kvModel
  have formed : ∀ subhistory ∈ (fillDefault kvModel).partitionEvent overlappingEvents,
      WellFormed subhistory := by
    intro subhistory listed
    rw [List.mem_singleton.mp listed]
    exact wellFormed_overlappingEvents
  obtain ⟨steps, checkable, -⟩ := checkable_events true true respects formed
  obtain ⟨work, sound⟩ := sound_init (checkEvents kvModel overlappingEvents true true) steps
  obtain ⟨p, reached, result, partials, returned⟩ :=
    sound.exists_return checkable (List.cons_ne_nil _ _)
  refine ⟨p, result, partials, reached, returned, ?_⟩
  intro failed
  obtain ⟨subhistory, listed, illegal⟩ :=
    (checkEvents_sound respects formed reached returned).2.1 failed
  rwa [List.mem_singleton.mp listed] at illegal

end DistributedCloud.Porcupine
