import DistributedCloud.Misc.Intervals
import Mathlib.Algebra.Ring.Nat

/-!
# Searching for a linearization

A depth-first search over the entries of a history. At each level it goes through the calls in
front of the first return; a call that the object accepts is taken out and opens a new level, and
at a return the last choice is undone. What was left of the history and the state at every opened
level are remembered and not entered again, and the orders tried last are noted for each of their
operations. The search is a relation on its variables, for whatever carries it out.
-/

namespace DistributedCloud

open Edge

variable {σ ι : Type}

/-- A choice that may be undone: the entries before and after the chosen call, and the state. -/
structure Frame (σ ι : Type) where
  before : List (Edge ι)
  op : ι
  after : List (Edge ι)
  state : σ

/-- The entries that the choice was made from. -/
def Frame.entries (frame : Frame σ ι) : List (Edge ι) :=
  frame.before ++ call frame.op :: frame.after

/-- The variables of a search: the choices made, the state that they lead to, the entries of the
    current level behind and ahead, the levels opened so far and the orders noted. -/
structure Search (σ ι : Type) where
  frames : List (Frame σ ι)
  state : σ
  before : List (Edge ι)
  rest : List (Edge ι)
  seen : List (List (Edge ι) × σ)
  best : ι → Option (List ι)

namespace Search

/-- Nothing has been chosen. -/
def start (history : List (Edge ι)) (state : σ) : Search σ ι where
  frames := []
  state := state
  before := []
  rest := history
  seen := []
  best := fun _ => none

/-- The entries of the current level. -/
def entries (search : Search σ ι) : List (Edge ι) := search.before ++ search.rest

/-- The operations chosen so far. -/
def chosen (search : Search σ ι) : List ι := search.frames.reverse.map Frame.op

/-- How long the order noted for an operation is. -/
def size (best : ι → Option (List ι)) (op : ι) : Nat := ((best op).getD []).length

/-- The call of an operation is passed over. -/
def skip (search : Search σ ι) (op : ι) (after : List (Edge ι)) : Search σ ι :=
  { search with before := search.before ++ [call op], rest := after }

variable [DecidableEq ι]

/-- An order is noted for its operations that have no longer one. -/
def record (order : List ι) (best : ι → Option (List ι)) : ι → Option (List ι) := fun op =>
  if op ∈ order ∧ (best op = none ∨ size best op < order.length) then some order else best op

/-- The operation is chosen and taken out, which opens a new level. -/
def push (search : Search σ ι) (op : ι) (after : List (Edge ι)) (next : σ) : Search σ ι where
  frames := ⟨search.before, op, after, search.state⟩ :: search.frames
  state := next
  before := []
  rest := without op (search.before ++ after)
  seen := (without op (search.before ++ after), next) :: search.seen
  best := search.best

/-- The orders noted after a choice is undone. -/
def noted (note : Bool) (search : Search σ ι) : ι → Option (List ι) :=
  if note then record search.chosen search.best else search.best

/-- The last choice is undone, and its operation passed over. -/
def pop (note : Bool) (search : Search σ ι) (frame : Frame σ ι) (frames : List (Frame σ ι)) :
    Search σ ι where
  frames := frames
  state := frame.state
  before := frame.before ++ [call frame.op]
  rest := frame.after
  seen := search.seen
  best := search.noted note

/-- A level with the same entries and the same state was opened before. -/
def Known (same : σ → σ → Bool) (seen : List (List (Edge ι) × σ)) (entries : List (Edge ι))
    (state : σ) : Prop := ∃ level ∈ seen, level.1 = entries ∧ same state level.2 = true

/-- One turn of the search. -/
inductive Move (step : σ → ι → Option σ) (same : σ → σ → Bool) (note : Bool)
    (search : Search σ ι) : Search σ ι → Prop
  | reject {op : ι} {after : List (Edge ι)} (entry : search.rest = call op :: after)
      (refused : step search.state op = none) : Move step same note search (search.skip op after)
  | known {op : ι} {after : List (Edge ι)} {next : σ} (entry : search.rest = call op :: after)
      (accepted : step search.state op = some next)
      (known : Known same search.seen (without op (search.before ++ after)) next) :
      Move step same note search (search.skip op after)
  | push {op : ι} {after : List (Edge ι)} {next : σ} (entry : search.rest = call op :: after)
      (accepted : step search.state op = some next)
      (fresh : ¬ Known same search.seen (without op (search.before ++ after)) next) :
      Move step same note search (search.push op after next)
  | pop {op : ι} {after : List (Edge ι)} {frame : Frame σ ι} {frames : List (Frame σ ι)}
      (entry : search.rest = ret op :: after) (stack : search.frames = frame :: frames) :
      Move step same note search (search.pop note frame frames)

omit [DecidableEq ι] in
theorem entries_of_rest {search : Search σ ι} {edge : Edge ι} {after : List (Edge ι)}
    (entry : search.rest = edge :: after) :
    search.entries = search.before ++ edge :: after := by
  rw [entries, entry]

omit [DecidableEq ι] in
theorem entries_skip {search : Search σ ι} {op : ι} {after : List (Edge ι)}
    (entry : search.rest = call op :: after) : (search.skip op after).entries = search.entries := by
  simp [entries, skip, entry]

theorem entries_push (search : Search σ ι) (op : ι) (after : List (Edge ι)) (next : σ) :
    (search.push op after next).entries = without op (search.before ++ after) := rfl

theorem entries_pop (note : Bool) (search : Search σ ι) (frame : Frame σ ι)
    (frames : List (Frame σ ι)) : (search.pop note frame frames).entries = frame.entries := by
  simp [entries, pop, Frame.entries]

/-- Taking an operation out of a level takes out its call as well. -/
theorem without_entries {before after : List (Edge ι)} (op : ι) :
    without op (before ++ call op :: after) = without op (before ++ after) := by
  rw [without_append, without_append, without_call]

theorem without_entries_of_rest {search : Search σ ι} {op : ι} {after : List (Edge ι)}
    (entry : search.rest = call op :: after) :
    without op search.entries = without op (search.before ++ after) := by
  rw [entries_of_rest entry, without_entries]

/-! ## The levels below -/

section Levels

variable (step : σ → ι → Option σ)

/-- Each level is what the choice below it left. -/
def Stacked (history : List (Edge ι)) (start : σ) :
    List (Frame σ ι) → List (Edge ι) → σ → Prop
  | [], entries, state => entries = history ∧ state = start
  | frame :: frames, entries, state =>
    entries = without frame.op (frame.before ++ frame.after) ∧
      step frame.state frame.op = some state ∧ (∀ edge ∈ frame.before, edge.isCall = true) ∧
      Stacked history start frames frame.entries frame.state

/-- The choices lead to the current level. -/
structure Valid (history : List (Edge ι)) (start : σ) (search : Search σ ι) : Prop where
  stacked : Stacked step history start search.frames search.entries search.state
  calls : ∀ edge ∈ search.before, edge.isCall = true

end Levels

variable {step : σ → ι → Option σ} {same : σ → σ → Bool} {note : Bool}
  {history entries : List (Edge ι)} {start state : σ} {frame : Frame σ ι}
  {frames : List (Frame σ ι)} {search search' : Search σ ι}

/-- The choices lead from the whole history to what is left. -/
theorem Stacked.leads (stacked : Stacked step history start frames entries state) :
    Leads step history start (frames.reverse.map Frame.op) entries state := by
  induction frames generalizing entries state with
  | nil =>
    obtain ⟨rfl, rfl⟩ := stacked
    exact .refl _ _
  | cons frame frames ih =>
    obtain ⟨rfl, accepted, calls, below⟩ := stacked
    have first : Minimal frame.entries frame.op := ⟨_, _, rfl, calls⟩
    have chosen := (ih below).concat first accepted
    rw [Frame.entries, without_entries] at chosen
    simpa using chosen

theorem Valid.leads (valid : Valid step history start search) :
    Leads step history start search.chosen search.entries search.state :=
  valid.stacked.leads

theorem valid_start (history : List (Edge ι)) (state : σ) :
    Valid step history state (Search.start history state) :=
  ⟨⟨rfl, rfl⟩, by simp [Search.start]⟩

theorem Valid.skip (valid : Valid step history start search) {op : ι} {after : List (Edge ι)}
    (entry : search.rest = call op :: after) :
    Valid step history start (search.skip op after) := by
  refine ⟨?_, ?_⟩
  · rw [entries_skip entry]
    exact valid.stacked
  · intro edge listed
    rcases List.mem_append.mp listed with listed | listed
    · exact valid.calls edge listed
    · rw [List.mem_singleton.mp listed]
      rfl

theorem Valid.push (valid : Valid step history start search) {op : ι} {after : List (Edge ι)}
    {next : σ} (entry : search.rest = call op :: after)
    (accepted : step search.state op = some next) :
    Valid step history start (search.push op after next) := by
  refine ⟨⟨rfl, accepted, valid.calls, ?_⟩, by simp [Search.push]⟩
  have below := valid.stacked
  rw [entries_of_rest entry] at below
  exact below

theorem Valid.pop (valid : Valid step history start search)
    (stack : search.frames = frame :: frames) :
    Valid step history start (search.pop note frame frames) := by
  have stacked := valid.stacked
  rw [stack] at stacked
  obtain ⟨-, -, calls, below⟩ := stacked
  refine ⟨?_, ?_⟩
  · rw [entries_pop]
    exact below
  · intro edge listed
    rcases List.mem_append.mp listed with listed | listed
    · exact calls edge listed
    · rw [List.mem_singleton.mp listed]
      rfl

theorem Valid.move (valid : Valid step history start search)
    (move : Move step same note search search') : Valid step history start search' := by
  cases move with
  | reject entry _ => exact valid.skip entry
  | known entry _ _ => exact valid.skip entry
  | push entry accepted _ => exact valid.push entry accepted
  | pop _ stack => exact valid.pop stack

/-- While entries are left, the search looks at one of them. -/
theorem Valid.rest_ne_nil (valid : Valid step history start search) (paired : Paired history)
    (some : search.entries ≠ []) : search.rest ≠ [] := by
  intro ended
  have all : search.entries = search.before := by rw [Search.entries, ended, List.append_nil]
  obtain ⟨edge, listed⟩ := List.exists_mem_of_ne_nil _ some
  have isCall := valid.calls edge (all ▸ listed)
  rw [eq_call_of_isCall isCall] at listed
  have returned := (valid.leads.paired paired).returned listed
  cases valid.calls _ (all ▸ returned)

/-- At a return every minimal operation has been looked at. -/
theorem Valid.minimal_mem_before (valid : Valid step history start search)
    (paired : Paired history) {op : ι} {after : List (Edge ι)}
    (entry : search.rest = ret op :: after) {other : ι} (first : Minimal search.entries other) :
    call other ∈ search.before := by
  have listed := first.mem
  rw [entries_of_rest entry, List.mem_append, List.mem_cons] at listed
  rcases listed with listed | same | listed
  · exact listed
  · cases same
  · refine absurd ?_ ((valid.leads.paired paired).not_before_minimal first op)
    rw [entries_of_rest entry]
    exact ((List.singleton_sublist.mpr listed).cons_cons _).trans (List.sublist_append_right _ _)

theorem Stacked.length_entries (paired : Paired history)
    (stacked : Stacked step history start (frame :: frames) entries state) :
    entries.length + 2 = frame.entries.length := by
  obtain ⟨rfl, -, -, below⟩ := stacked
  rw [← without_entries]
  exact (below.leads.paired paired).length_without (by simp [Frame.entries])

/-- The levels below have more entries. -/
theorem Stacked.length_lt (paired : Paired history)
    (stacked : Stacked step history start frames entries state) :
    ∀ frame ∈ frames, entries.length < frame.entries.length := by
  induction frames generalizing entries state with
  | nil => simp
  | cons first frames ih =>
    have shorter := stacked.length_entries paired
    intro frame listed
    rcases List.mem_cons.mp listed with rfl | listed
    · omega
    · have below := ih stacked.2.2.2 frame listed
      omega

/-! ## What has been searched is done with -/

section Explored

variable (step) (note) (history) (start) (same)

/-- A judgement of a level that follows from the same judgement of the levels above it. -/
structure Closed (good : (ι → Option (List ι)) → List (Edge ι) → σ → Prop) : Prop where
  known : ∀ {best entries state other}, same state other = true → good best entries other →
    good best entries state
  record : ∀ {best entries state} (order : List ι), good best entries state →
    good (record order best) entries state
  level : ∀ {search : Search σ ι} {op after}, Valid step history start search →
    search.rest = ret op :: after →
    (∀ op next, Minimal search.entries op → step search.state op = some next →
      good search.best (without op search.entries) next) →
    good (search.noted note) search.entries search.state

variable (good : (ι → Option (List ι)) → List (Edge ι) → σ → Prop)

/-- The operation leads to a level that is judged. -/
def Tried (best : ι → Option (List ι)) (entries : List (Edge ι)) (state : σ) (op : ι) : Prop :=
  ∀ next, step state op = some next → good best (without op entries) next

/-- The levels opened and not yet done with. -/
def levels (search : Search σ ι) : List (List (Edge ι) × σ) :=
  (search.entries, search.state) ::
    search.frames.map fun frame => (frame.entries, frame.state)

/-- Every level opened is judged or not yet done with, and whatever was passed over has been tried. -/
structure Explored (search : Search σ ι) : Prop where
  seen : ∀ level ∈ search.seen, good search.best level.1 level.2 ∨ level ∈ search.levels
  tried : ∀ op, call op ∈ search.before →
    Tried step good search.best search.entries search.state op
  below : ∀ frame ∈ search.frames, ∀ op, call op ∈ frame.before →
    Tried step good search.best frame.entries frame.state op

end Explored

variable {good : (ι → Option (List ι)) → List (Edge ι) → σ → Prop}

theorem explored_start (history : List (Edge ι)) (state : σ) :
    Explored step good (Search.start history state) :=
  ⟨by simp [Search.start], by simp [Search.start], by simp [Search.start]⟩

theorem Closed.noted (closed : Closed step same note history start good)
    (judged : good search.best entries state) : good (search.noted note) entries state := by
  unfold Search.noted
  split
  · exact closed.record _ judged
  · exact judged

theorem Explored.skip (explored : Explored step good search) {op : ι} {after : List (Edge ι)}
    (entry : search.rest = call op :: after)
    (tried : Tried step good search.best search.entries search.state op) :
    Explored step good (search.skip op after) := by
  refine ⟨?_, ?_, explored.below⟩
  · have same : (search.skip op after).levels = search.levels := by
      rw [levels, entries_skip entry]
      rfl
    rw [same]
    exact explored.seen
  · intro other listed
    rw [entries_skip entry]
    rcases List.mem_append.mp listed with listed | listed
    · exact explored.tried other listed
    · cases List.mem_singleton.mp listed
      exact tried

/-- A level that was opened before and whose entries are fewer than those of the current one is
    not among the levels that wait. -/
theorem Explored.good_of_known (explored : Explored step good search)
    (closed : Closed step same note history start good) (paired : Paired history)
    (valid : Valid step history start search) {op : ι} {after : List (Edge ι)} {next : σ}
    (entry : search.rest = call op :: after)
    (known : Known same search.seen (without op (search.before ++ after)) next) :
    good search.best (without op search.entries) next := by
  obtain ⟨level, listed, left, equal⟩ := known
  rw [← without_entries_of_rest entry] at left
  have shorter : level.1.length < search.entries.length := by
    have two := (valid.leads.paired paired).length_without
      (show call op ∈ search.entries by simp [entries_of_rest entry])
    rw [left]
    omega
  rcases explored.seen level listed with judged | waiting
  · exact closed.known equal (left ▸ judged)
  · exfalso
    rcases List.mem_cons.mp waiting with rfl | waiting
    · exact Nat.lt_irrefl _ shorter
    · obtain ⟨frame, inside, rfl⟩ := List.mem_map.mp waiting
      have longer := valid.stacked.length_lt paired frame inside
      exact Nat.lt_asymm shorter longer

theorem Explored.push (explored : Explored step good search) {op : ι} {after : List (Edge ι)}
    {next : σ} (entry : search.rest = call op :: after) :
    Explored step good (search.push op after next) := by
  refine ⟨?_, by simp [Search.push], ?_⟩
  · intro level listed
    rcases List.mem_cons.mp listed with rfl | listed
    · exact .inr (List.mem_cons_self ..)
    · refine (explored.seen level listed).imp_right ?_
      intro waiting
      refine List.mem_cons_of_mem _ ?_
      rw [levels, entries_of_rest entry] at waiting
      exact waiting
  · intro frame listed
    rcases List.mem_cons.mp listed with rfl | listed
    · have tried := explored.tried
      rw [entries_of_rest entry] at tried
      exact tried
    · exact explored.below frame listed

/-- The level that the search is about to leave is judged. -/
theorem Explored.good_of_return (explored : Explored step good search)
    (closed : Closed step same note history start good) (paired : Paired history)
    (valid : Valid step history start search) {op : ι} {after : List (Edge ι)}
    (entry : search.rest = ret op :: after) :
    good (search.noted note) search.entries search.state := by
  refine closed.level valid entry ?_
  intro other next first accepted
  exact explored.tried other (valid.minimal_mem_before paired entry first) next accepted

theorem Explored.pop (explored : Explored step good search)
    (closed : Closed step same note history start good) (paired : Paired history)
    (valid : Valid step history start search) {op : ι} {after : List (Edge ι)}
    (entry : search.rest = ret op :: after) (stack : search.frames = frame :: frames) :
    Explored step good (search.pop note frame frames) := by
  have judged := explored.good_of_return closed paired valid entry
  have stacked := valid.stacked
  rw [stack] at stacked
  obtain ⟨left, accepted, -, -⟩ := stacked
  have below := explored.below
  rw [stack] at below
  refine ⟨?_, ?_, ?_⟩
  · intro level listed
    rcases explored.seen level listed with earlier | waiting
    · exact .inl (closed.noted earlier)
    · rw [levels, stack] at waiting
      rcases List.mem_cons.mp waiting with rfl | waiting
      · exact .inl judged
      · refine .inr ?_
        rw [levels, entries_pop]
        exact waiting
  · intro other listed next taken
    rw [entries_pop]
    rcases List.mem_append.mp listed with listed | listed
    · exact closed.noted (below frame (by simp) other listed next taken)
    · cases List.mem_singleton.mp listed
      -- the operation whose level is left
      rw [Frame.entries, without_entries, ← left]
      have same : search.state = next := Option.some.inj (accepted.symm.trans taken)
      rw [← same]
      exact judged
  · intro other inside op listed next taken
    exact closed.noted (below other (List.mem_cons_of_mem _ inside) op listed next taken)

theorem Explored.move (explored : Explored step good search)
    (closed : Closed step same note history start good) (paired : Paired history)
    (valid : Valid step history start search) (move : Move step same note search search') :
    Explored step good search' := by
  cases move with
  | reject entry refused =>
    refine explored.skip entry ?_
    intro next accepted
    rw [refused] at accepted
    cases accepted
  | known entry accepted known =>
    refine explored.skip entry ?_
    intro other taken
    have same := Option.some.inj (accepted.symm.trans taken)
    rw [← same]
    exact explored.good_of_known closed paired valid entry known
  | push entry _ _ => exact explored.push entry
  | pop entry stack => exact explored.pop closed paired valid entry stack

/-! ## Levels that lead nowhere -/

/-- States that are the same accept the same operations. -/
def Simulates (step : σ → ι → Option σ) (same : σ → σ → Bool) : Prop :=
  ∀ state other op next, same state other = true → step state op = some next →
    ∃ next', step other op = some next' ∧ same next next' = true

theorem leads_of_same (simulates : Simulates step same) {other : σ} {order : List ι}
    {left : List (Edge ι)} {last : σ} (equal : same state other = true)
    (leads : Leads step entries state order left last) :
    ∃ last', Leads step entries other order left last' := by
  induction leads generalizing other with
  | refl entries state => exact ⟨other, .refl _ _⟩
  | head first accepted rest ih =>
    obtain ⟨next', taken, equal⟩ := simulates _ _ _ _ equal accepted
    obtain ⟨last', leads⟩ := ih equal
    exact ⟨last', .head first taken leads⟩

/-- No order empties the level. -/
def Dead (step : σ → ι → Option σ) (_best : ι → Option (List ι)) (entries : List (Edge ι))
    (state : σ) : Prop := ¬ ∃ order last, Leads step entries state order [] last

theorem dead_of_minimal {best best' : ι → Option (List ι)} (left : entries ≠ [])
    (each : ∀ op next, Minimal entries op → step state op = some next →
      Dead step best (without op entries) next) : Dead step best' entries state := by
  intro emptied
  obtain ⟨order, last, leads⟩ := emptied
  cases leads with
  | refl => exact left rfl
  | head first accepted rest => exact each _ _ first accepted ⟨_, _, rest⟩

theorem closed_dead (simulates : Simulates step same) :
    Closed step same note history start (Dead step) := by
  refine ⟨?_, ?_, ?_⟩
  · intro best entries state other equal dead emptied
    obtain ⟨order, last, leads⟩ := emptied
    obtain ⟨last', leads⟩ := leads_of_same simulates equal leads
    exact dead ⟨order, last', leads⟩
  · intro best entries state order dead
    exact dead
  · intro search op after valid entry each
    refine dead_of_minimal ?_ each
    rw [entries_of_rest entry]
    simp

/-- A search that comes to a return with nothing to undo has tried everything. -/
theorem Explored.not_linearizable (explored : Explored step (Dead step) search)
    (simulates : Simulates step same) (paired : Paired history)
    (valid : Valid step history start search) {op : ι} {after : List (Edge ι)}
    (entry : search.rest = ret op :: after) (bottom : search.frames = []) :
    ¬ Linearizable step history start := by
  rw [linearizable_iff_leads paired]
  have stacked := valid.stacked
  rw [bottom] at stacked
  obtain ⟨whole, first⟩ := stacked
  rw [← whole, ← first]
  exact explored.good_of_return (@closed_dead _ _ _ _ _ false _ _ simulates) paired valid entry

/-! ## The longest orders -/

theorem size_le_record (order : List ι) (best : ι → Option (List ι)) (op : ι) :
    size best op ≤ size (record order best) op := by
  unfold record
  rw [size, size]
  split
  · rename_i found
    rcases found.2 with none | shorter
    · simp [none]
    · exact Nat.le_of_lt shorter
  · exact Nat.le_refl _

theorem length_le_record {order : List ι} (best : ι → Option (List ι)) {op : ι}
    (listed : op ∈ order) : order.length ≤ size (record order best) op := by
  unfold record
  rw [size]
  split
  · exact Nat.le_refl _
  · rename_i unchanged
    exact Nat.le_of_not_lt fun shorter => unchanged ⟨listed, .inr shorter⟩

/-- Every order through the level is no longer than the one noted for each of its operations. -/
def Covered (step : σ → ι → Option σ) (history : List (Edge ι)) (best : ι → Option (List ι))
    (entries : List (Edge ι)) (state : σ) : Prop :=
  ∀ order left last, Leads step entries state order left last →
    ∀ op, call op ∈ history → call op ∉ left → history.length ≤ left.length + 2 * size best op

theorem closed_covered (simulates : Simulates step same) (paired : Paired history) :
    Closed step same true history start (Covered step history) := by
  refine ⟨?_, ?_, ?_⟩
  · intro best entries state other equal covered order left last leads
    obtain ⟨last', leads⟩ := leads_of_same simulates equal leads
    exact covered order left last' leads
  · intro best entries state order covered other left last leads op called taken
    have enough := covered _ _ _ leads op called taken
    have grown := size_le_record order best op
    omega
  · intro search op after valid entry each order left last leads op called taken
    cases leads with
    | refl =>
      have listed : op ∈ search.chosen := by
        by_contra missing
        exact taken (valid.leads.mem_left.mpr ⟨called, missing⟩)
      have total := valid.leads.length_eq paired
      have enough := length_le_record search.best listed
      rw [Search.noted, if_pos rfl]
      omega
    | head first accepted rest =>
      have enough := each _ _ first accepted _ _ _ rest op called taken
      have grown := size_le_record search.chosen search.best op
      rw [Search.noted, if_pos rfl]
      omega

/-- What is noted for an operation is an order that explains the start of the history and has the
    operation. -/
def Notes (step : σ → ι → Option σ) (history : List (Edge ι)) (start : σ)
    (best : ι → Option (List ι)) : Prop :=
  ∀ op order, best op = some order → op ∈ order ∧ Explains step history start order

theorem Notes.move (notes : Notes step history start search.best) (paired : Paired history)
    (valid : Valid step history start search) (move : Move step same note search search') :
    Notes step history start search'.best := by
  cases move with
  | reject entry refused => exact notes
  | known entry accepted known => exact notes
  | push entry accepted fresh => exact notes
  | pop entry stack =>
    intro op order found
    simp only [Search.pop, Search.noted] at found
    split at found
    · unfold record at found
      split at found
      · rename_i listed
        cases found
        exact ⟨listed.1, valid.leads.explains paired⟩
      · exact notes op order found
    · exact notes op order found

/-- A search that has tried everything has noted a longest order for each operation. -/
theorem Explored.longest (explored : Explored step (Covered step history) search)
    (simulates : Simulates step same) (paired : Paired history)
    (valid : Valid step history start search) {op : ι} {after : List (Edge ι)}
    (entry : search.rest = ret op :: after) (bottom : search.frames = []) {order : List ι}
    (explains : Explains step history start order) {other : ι} (listed : other ∈ order) :
    order.length ≤ size search.best other := by
  have stacked := valid.stacked
  rw [bottom] at stacked
  obtain ⟨whole, first⟩ := stacked
  obtain ⟨left, last, leads⟩ := explains.leads paired
  have total := leads.length_eq paired
  have covered := explored.good_of_return (closed_covered simulates paired) paired valid entry
  -- with no choice left nothing is noted any more
  have unchanged : search.noted true = search.best := by
    rw [Search.noted, if_pos rfl, chosen, bottom]
    funext op
    simp [record]
  rw [unchanged, whole, first] at covered
  have enough := covered _ _ _ leads other (explains.called other listed)
    (fun kept => (leads.mem_left.mp kept).2 listed)
  omega

/-! ## The search ends -/

section Termination

variable (history)

/-- The entries still to be looked at below, those of deeper levels weighing less. -/
def weigh : List (Frame σ ι) → Nat
  | [] => 0
  | frame :: frames =>
    frame.after.length * (history.length + 1) ^ (history.length - frames.length) + weigh frames

/-- The entries still to be looked at. -/
def work (search : Search σ ι) : Nat :=
  search.rest.length * (history.length + 1) ^ (history.length - search.frames.length) +
    weigh history search.frames

end Termination

omit [DecidableEq ι] in
theorem weigh_one_lt (frames : List (Frame σ ι)) {more fewer : Nat} (lt : fewer < more) :
    fewer * (history.length + 1) ^ (history.length - frames.length) <
      more * (history.length + 1) ^ (history.length - frames.length) :=
  Nat.mul_lt_mul_of_pos_right lt (Nat.pow_pos (Nat.succ_pos _))

omit [DecidableEq ι] in
theorem work_skip_lt {op : ι} {after : List (Edge ι)} (entry : search.rest = call op :: after) :
    work history (search.skip op after) < work history search := by
  unfold work
  rw [entry]
  exact Nat.add_lt_add_right (weigh_one_lt search.frames (Nat.lt_succ_self after.length)) _

/-- A new level weighs less than the entry that it was opened for. -/
theorem work_push_lt (paired : Paired history) (valid : Valid step history start search) {op : ι}
    {after : List (Edge ι)} {next : σ} (entry : search.rest = call op :: after) :
    work history (search.push op after next) < work history search := by
  have total := valid.leads.length_eq paired
  rw [chosen, List.length_map, List.length_reverse, entries_of_rest entry] at total
  have short : (without op (search.before ++ after)).length ≤ history.length := by
    have within := (without_sublist op (search.before ++ after)).length_le
    simp only [List.length_append, List.length_cons] at within total
    omega
  have deep : search.frames.length < history.length := by
    simp only [List.length_append, List.length_cons] at total
    omega
  obtain ⟨depth, bound⟩ := Nat.exists_eq_add_of_lt deep
  have above : history.length - (search.frames.length + 1) = depth := by omega
  have here : history.length - search.frames.length = depth + 1 := by omega
  unfold work
  simp only [Search.push, weigh, List.length_cons, entry, above, here]
  have level : (without op (search.before ++ after)).length * (history.length + 1) ^ depth <
      (history.length + 1) ^ (depth + 1) := by
    rw [Nat.pow_succ, Nat.mul_comm]
    exact Nat.mul_lt_mul_of_pos_left (Nat.lt_succ_of_le short) (Nat.pow_pos (Nat.succ_pos _))
  rw [Nat.add_mul, Nat.one_mul]
  omega

theorem work_pop_lt {op : ι} {after : List (Edge ι)} (entry : search.rest = ret op :: after)
    (stack : search.frames = frame :: frames) :
    work history (search.pop note frame frames) < work history search := by
  unfold work
  simp only [Search.pop, weigh, entry, stack, List.length_cons]
  have positive := @weigh_one_lt _ _ history (frame :: frames) _ _ (Nat.succ_pos after.length)
  rw [List.length_cons, Nat.zero_mul, Nat.succ_eq_add_one] at positive
  omega

theorem work_move_lt (paired : Paired history) (valid : Valid step history start search)
    (move : Move step same note search search') : work history search' < work history search := by
  cases move with
  | reject entry _ => exact work_skip_lt entry
  | known entry _ _ => exact work_skip_lt entry
  | push entry _ _ => exact work_push_lt paired valid entry
  | pop entry stack => exact work_pop_lt entry stack

/-! ## All of it together -/

/-- What every search from the start has in common. -/
structure Sound (step : σ → ι → Option σ) (note : Bool) (history : List (Edge ι)) (start : σ)
    (search : Search σ ι) : Prop where
  valid : Valid step history start search
  dead : Explored step (Dead step) search
  notes : Notes step history start search.best
  covered : note = true → Explored step (Covered step history) search

theorem sound_start (history : List (Edge ι)) (state : σ) :
    Sound step note history state (Search.start history state) := by
  refine ⟨valid_start history state, explored_start history state, ?_,
    fun _ => explored_start history state⟩
  intro op order found
  cases found

theorem Sound.move (sound : Sound step note history start search)
    (simulates : Simulates step same) (paired : Paired history)
    (move : Move step same note search search') : Sound step note history start search' := by
  refine ⟨sound.valid.move move, ?_, sound.notes.move paired sound.valid move, ?_⟩
  · exact sound.dead.move (closed_dead simulates) paired sound.valid move
  · intro noting
    subst noting
    exact (sound.covered rfl).move (closed_covered simulates paired) paired sound.valid move

end Search

end DistributedCloud
