import DistributedCloud.Misc.Intervals
import Mathlib.Logic.Function.Basic

/-!
# Locality

Operations on different keys do not see each other. Then a history is linearizable exactly if the
operations of each key are, for the object of one key: at the first return of the whole history the
operation that comes first for its key can come first of all. Whether a history is linearizable does
not depend on the names of the operations.
-/

namespace DistributedCloud

open Edge

variable {σ ι κ : Type}

/-! ## Objects with keys -/

section Keys

variable [DecidableEq κ] (key : ι → κ) (step : σ → ι → Option σ)

/-- One state for each key. -/
def stepAt (states : κ → σ) (op : ι) : Option (κ → σ) :=
  (step (states (key op)) op).map (Function.update states (key op))

/-- The operations on one key. -/
def restrict (k : κ) (history : List (Edge ι)) : List (Edge ι) :=
  history.filter fun edge => decide (key edge.op = k)

end Keys

section Restrict

variable [DecidableEq κ] {key : ι → κ} {step : σ → ι → Option σ} {history left : List (Edge ι)}
  {states last : κ → σ} {order : List ι} {k : κ} {op : ι}

theorem mem_restrict {edge : Edge ι} :
    edge ∈ restrict key k history ↔ edge ∈ history ∧ key edge.op = k := by
  simp [restrict]

theorem restrict_append (history more : List (Edge ι)) :
    restrict key k (history ++ more) = restrict key k history ++ restrict key k more :=
  List.filter_append ..

theorem Minimal.restrict (first : Minimal history op) (own : key op = k) :
    Minimal (restrict key k history) op := by
  obtain ⟨before, after, rfl, calls⟩ := first
  refine ⟨DistributedCloud.restrict key k before, DistributedCloud.restrict key k after, ?_, ?_⟩
  · rw [restrict_append]
    simp [DistributedCloud.restrict, own]
  · intro edge listed
    exact calls edge (mem_restrict.mp listed).1

theorem Paired.restrict (paired : Paired history) (k : κ) : Paired (restrict key k history) :=
  paired.filter fun op => decide (key op = k)

variable [DecidableEq ι]

theorem restrict_without (op : ι) (history : List (Edge ι)) :
    restrict key k (without op history) = without op (restrict key k history) := by
  simp only [restrict, without, List.filter_filter, Bool.and_comm]

/-- Taking out an operation on another key changes nothing. -/
theorem restrict_without_of_ne (other : key op ≠ k) :
    restrict key k (without op history) = restrict key k history := by
  rw [restrict, without, List.filter_filter]
  refine List.filter_congr ?_
  intro edge _
  by_cases own : key edge.op = k
  · have apart : edge.op ≠ op := by
      rintro rfl
      exact other own
    simp [own, apart]
  · simp [own]

/-- The operations on one key are taken out in the same order. -/
theorem Leads.restrict (leads : Leads (stepAt key step) history states order left last) (k : κ) :
    Leads step (restrict key k history) (states k) (order.filter fun op => decide (key op = k))
      (restrict key k left) (last k) := by
  induction leads with
  | refl history states => exact .refl _ _
  | @head history left states next last op order first accepted rest ih =>
    obtain ⟨value, taken, rfl⟩ := Option.map_eq_some_iff.mp accepted
    by_cases own : key op = k
    · subst own
      rw [Function.update_self, restrict_without] at ih
      rw [List.filter_cons_of_pos (by simp)]
      exact .head (first.restrict rfl) taken ih
    · rw [Function.update_of_ne (Ne.symm own), restrict_without_of_ne own] at ih
      rw [List.filter_cons_of_neg (by simpa using own)]
      exact ih

omit [DecidableEq ι] [DecidableEq κ] in
/-- Where anything is left, something returns first. -/
theorem Paired.exists_first_return (paired : Paired history) (some : history ≠ []) :
    ∃ before op after, history = before ++ ret op :: after ∧
      ∀ edge ∈ before, edge.isCall = true := by
  have returned : ∃ edge ∈ history, edge.isCall = false := by
    obtain ⟨edge, listed⟩ := List.exists_mem_of_ne_nil _ some
    cases edge with
    | call op => exact ⟨ret op, paired.returned listed, rfl⟩
    | ret op => exact ⟨ret op, listed, rfl⟩
  clear paired some
  induction history with
  | nil =>
    obtain ⟨edge, listed, -⟩ := returned
    cases listed
  | cons edge history ih =>
    cases edge with
    | ret op => exact ⟨[], op, history, rfl, by simp⟩
    | call op =>
      obtain ⟨other, listed, isReturn⟩ := returned
      rcases List.mem_cons.mp listed with rfl | listed
      · cases isReturn
      · obtain ⟨before, first, after, rfl, calls⟩ := ih ⟨other, listed, isReturn⟩
        refine ⟨call op :: before, first, after, rfl, ?_⟩
        intro edge listed
        rcases List.mem_cons.mp listed with rfl | listed
        · rfl
        · exact calls edge listed

theorem Leads.exists_head {entries : List (Edge ι)} {state final : σ}
    (leads : Leads step entries state order [] final) (some : entries ≠ []) :
    ∃ op next order', Minimal entries op ∧ step state op = Option.some next ∧
      Leads step (without op entries) next order' [] final := by
  cases leads with
  | refl => exact absurd rfl some
  | head first taken rest => exact ⟨_, _, _, first, taken, rest⟩

omit [DecidableEq ι] in
/-- What is minimal for the key of the first return is minimal. -/
theorem minimal_of_restrict (paired : Paired history) {before after : List (Edge ι)} {returned : ι}
    (split : history = before ++ ret returned :: after)
    (calls : ∀ edge ∈ before, edge.isCall = true)
    (first : Minimal (restrict key (key returned) history) op) : Minimal history op := by
  have listed := (mem_restrict.mp first.mem).1
  have early : call op ∈ before := by
    rw [split, List.mem_append, List.mem_cons] at listed
    rcases listed with listed | same | late
    · exact listed
    · cases same
    · exfalso
      refine (paired.restrict _).not_before_minimal first returned ?_
      have pair : [ret returned, call op].Sublist history := by
        rw [split]
        exact ((List.singleton_sublist.mpr late).cons_cons _).trans
          (List.sublist_append_right _ _)
      have kept := pair.filter fun edge => decide (key edge.op = key returned)
      have own : key op = key returned := (mem_restrict.mp first.mem).2
      simpa [own, DistributedCloud.restrict] using kept
  obtain ⟨front, back, rfl⟩ := List.append_of_mem early
  refine ⟨front, back ++ ret returned :: after, by simp [split], ?_⟩
  intro edge inside
  exact calls edge (by simp [inside])

/-- If the operations of every key can be taken out, so can all. -/
theorem exists_leads_of_restrict (paired : Paired history)
    (each : ∀ k, ∃ order last, Leads step (restrict key k history) (states k) order [] last) :
    ∃ order last, Leads (stepAt key step) history states order [] last := by
  induction length : history.length using Nat.strongRecOn generalizing history states with
  | ind n ih =>
    by_cases some : history = []
    · subst some
      exact ⟨[], states, .refl _ _⟩
    · obtain ⟨before, returned, after, split, calls⟩ := paired.exists_first_return some
      obtain ⟨order, last, leads⟩ := each (key returned)
      have inside : ret returned ∈ restrict key (key returned) history :=
        mem_restrict.mpr ⟨by simp [split], rfl⟩
      obtain ⟨op, next, order, first, taken, rest⟩ :=
        leads.exists_head (List.ne_nil_of_mem inside)
      have minimal := minimal_of_restrict paired split calls first
      have own : key op = key returned := (mem_restrict.mp first.mem).2
      have accepted : stepAt key step states op =
          Option.some (Function.update states (key op) next) := by
        rw [stepAt, own, taken]
        rfl
      have shorter : (without op history).length < n := by
        have two := paired.length_without minimal.mem
        omega
      -- only the state of the key of the operation changes
      have others : ∀ k, ∃ order last, Leads step (restrict key k (without op history))
          (Function.update states (key op) next k) order [] last := by
        intro k
        by_cases same : key op = k
        · subst same
          rw [restrict_without, Function.update_self, own]
          exact ⟨order, _, rest⟩
        · rw [restrict_without_of_ne same, Function.update_of_ne (Ne.symm same)]
          exact each k
      obtain ⟨order', last', leads'⟩ := ih _ shorter (paired.without op) others rfl
      exact ⟨op :: order', last', .head minimal accepted leads'⟩

/-- A history is linearizable if it is for every key. -/
theorem linearizable_iff_restrict (paired : Paired history) :
    Linearizable (stepAt key step) history states ↔
      ∀ k, Linearizable step (restrict key k history) (states k) := by
  rw [linearizable_iff_leads paired]
  constructor
  · intro emptied k
    obtain ⟨order, last, leads⟩ := emptied
    exact (linearizable_iff_leads (paired.restrict k)).mpr ⟨_, _, leads.restrict k⟩
  · intro each
    refine exists_leads_of_restrict paired ?_
    intro k
    exact (linearizable_iff_leads (paired.restrict k)).mp (each k)

end Restrict

/-! ## Names -/

/-- The operations of two histories correspond, with the same order of returns and calls. -/
structure Renames (f : ι → κ) (history : List (Edge ι)) (history' : List (Edge κ)) : Prop where
  called : ∀ {op}, call op ∈ history → call (f op) ∈ history'
  surjective : ∀ {op'}, call op' ∈ history' → ∃ op, call op ∈ history ∧ f op = op'
  injective : ∀ {op other}, call op ∈ history → call other ∈ history → f op = f other → op = other
  precedes : ∀ {op other}, call op ∈ history → call other ∈ history →
    ([ret op, call other].Sublist history ↔ [ret (f op), call (f other)].Sublist history')

section Renaming

variable {f : ι → κ} {history : List (Edge ι)} {history' : List (Edge κ)}
  {step : σ → ι → Option σ} {step' : σ → κ → Option σ} {order : List ι} {state : σ}

/-- Two edges stand in the same order under new names. -/
theorem pair_sublist_map {edge other : Edge ι} (left : edge ∈ history) (right : other ∈ history)
    (injective : ∀ edge ∈ history, ∀ other ∈ history, edge.map f = other.map f → edge = other) :
    [edge.map f, other.map f].Sublist (history.map (Edge.map f)) ↔
      [edge, other].Sublist history := by
  constructor
  · intro pair
    obtain ⟨cells, inside, split⟩ := List.sublist_map_iff.mp pair
    obtain ⟨x, rest, rfl, first, tail⟩ := List.map_eq_cons_iff.mp split.symm
    obtain ⟨y, rest, rfl, second, tail⟩ := List.map_eq_cons_iff.mp tail
    obtain rfl := List.map_eq_nil_iff.mp tail
    obtain rfl := injective x (inside.subset (by simp)) edge left first
    obtain rfl := injective y (inside.subset (by simp)) other right second
    exact inside
  · intro pair
    exact pair.map _

/-- Names that tell the operations of the history apart. -/
theorem Paired.map_injective (paired : Paired history)
    (injective : ∀ op other, call op ∈ history → call other ∈ history → f op = f other → op = other) :
    ∀ edge ∈ history, ∀ other ∈ history, edge.map f = other.map f → edge = other := by
  intro edge listed other listed' same
  cases edge with
  | call op =>
    cases other with
    | call op' => exact congrArg call (injective op op' listed listed' (Edge.call.inj same))
    | ret op' => cases same
  | ret op =>
    cases other with
    | call op' => cases same
    | ret op' =>
      exact congrArg ret (injective op op' (paired.called listed) (paired.called listed')
        (Edge.ret.inj same))

theorem Paired.renames_map (paired : Paired history)
    (injective : ∀ op other, call op ∈ history → call other ∈ history → f op = f other → op = other) :
    Renames f history (history.map (Edge.map f)) := by
  refine ⟨?_, ?_, ?_, ?_⟩
  · intro op called
    exact List.mem_map.mpr ⟨call op, called, rfl⟩
  · intro op' called
    obtain ⟨edge, listed, same⟩ := List.mem_map.mp called
    obtain ⟨op, rfl, own⟩ := map_eq_call.mp same
    exact ⟨op, listed, own⟩
  · intro op other called called' same
    exact injective op other called called' same
  · intro op other called called'
    exact (pair_sublist_map (paired.returned called) called' (paired.map_injective injective)).symm

theorem Paired.map (paired : Paired history)
    (injective : ∀ op other, call op ∈ history → call other ∈ history → f op = f other → op = other) :
    Paired (history.map (Edge.map f)) := by
  refine ⟨List.Nodup.map_on ?_ paired.nodup, ?_, ?_⟩
  · intro edge listed other listed' same
    exact paired.map_injective injective edge listed other listed' same
  · intro op' called
    obtain ⟨edge, listed, same⟩ := List.mem_map.mp called
    obtain ⟨op, rfl, rfl⟩ := map_eq_call.mp same
    exact (paired.returns listed).map (Edge.map f)
  · intro op' returned
    obtain ⟨edge, listed, same⟩ := List.mem_map.mp returned
    obtain ⟨op, rfl, rfl⟩ := map_eq_ret.mp same
    exact List.mem_map.mpr ⟨call op, paired.called listed, rfl⟩

/-- Numbers without gaps number the half of the entries that are calls. -/
theorem Paired.call_mem_map_iff {f : ι → Nat} {n : Nat} (paired : Paired history)
    (injective : ∀ op other, call op ∈ history → call other ∈ history → f op = f other → op = other)
    (numbers : ∀ r, r < n ↔ ∃ op, call op ∈ history ∧ f op = r) {r : Nat} :
    call r ∈ history.map (Edge.map f) ↔ r < history.length / 2 := by
  have calls : (((history.filter isCall).map Edge.op).map f).Perm (List.range n) := by
    refine (List.perm_ext_iff_of_nodup ?_ List.nodup_range).mpr ?_
    · refine List.Nodup.map_on ?_ paired.nodup_calls
      intro op listed other listed' same
      exact injective op other (Paired.mem_ops_calls.mp listed) (Paired.mem_ops_calls.mp listed') same
    · intro r
      rw [List.mem_map, List.mem_range, numbers]
      simp only [Paired.mem_ops_calls]
  have half : history.length / 2 = n := by
    have length := calls.length_eq
    have double := paired.length_calls
    rw [List.length_map, List.length_range] at length
    omega
  rw [half, numbers]
  constructor
  · intro listed
    obtain ⟨edge, inside, same⟩ := List.mem_map.mp listed
    obtain ⟨op, rfl, own⟩ := map_eq_call.mp same
    exact ⟨op, inside, own⟩
  · intro found
    obtain ⟨op, inside, rfl⟩ := found
    exact List.mem_map.mpr ⟨call op, inside, rfl⟩

theorem foldlM_map_eq (same : ∀ op ∈ order, ∀ s, step' s (f op) = step s op) (state : σ) :
    (order.map f).foldlM step' state = order.foldlM step state := by
  induction order generalizing state with
  | nil => rfl
  | cons op order ih =>
    rw [List.map_cons, List.foldlM_cons, List.foldlM_cons, same op (by simp)]
    refine congrArg (Option.bind (step state op)) (funext fun next => ?_)
    exact ih (fun other listed => same other (List.mem_cons_of_mem _ listed)) next

/-- A list of names of operations in the history comes from a list of operations. -/
theorem Renames.exists_map (renames : Renames f history history') {order' : List κ}
    (called : ∀ op' ∈ order', call op' ∈ history') :
    ∃ order : List ι, order.map f = order' ∧ ∀ op ∈ order, call op ∈ history := by
  induction order' with
  | nil => exact ⟨[], rfl, by simp⟩
  | cons op' order' ih =>
    obtain ⟨order, rfl, listed⟩ := ih fun other inside => called other (List.mem_cons_of_mem _ inside)
    obtain ⟨op, own, rfl⟩ := renames.surjective (called op' (by simp))
    refine ⟨op :: order, rfl, ?_⟩
    intro other inside
    rcases List.mem_cons.mp inside with rfl | inside
    · exact own
    · exact listed other inside

theorem Renames.explains_map (renames : Renames f history history')
    (same : ∀ op, call op ∈ history → ∀ s, step' s (f op) = step s op)
    (paired : Paired history) (paired' : Paired history')
    (called : ∀ op ∈ order, call op ∈ history) :
    Explains step' history' state (order.map f) ↔ Explains step history state order := by
  have legal := foldlM_map_eq (fun op listed => same op (called op listed)) state
  constructor
  · intro explains
    refine ⟨explains.nodup.of_map f, called, ?_, legal ▸ explains.legal⟩
    intro first second pair listed
    have begun : call first ∈ history := paired.called (pair.subset (by simp))
    have sublist := explains.realTime ((renames.precedes begun (called second listed)).mp pair)
      (List.mem_map_of_mem listed)
    obtain ⟨cells, inside, split⟩ := List.sublist_map_iff.mp sublist
    obtain ⟨x, rest, rfl, left, tail⟩ := List.map_eq_cons_iff.mp split.symm
    obtain ⟨y, rest, rfl, right, tail⟩ := List.map_eq_cons_iff.mp tail
    obtain rfl := List.map_eq_nil_iff.mp tail
    obtain rfl := renames.injective (called x (inside.subset (by simp))) begun left
    obtain rfl := renames.injective (called y (inside.subset (by simp))) (called second listed)
      right
    exact inside
  · intro explains
    refine ⟨?_, ?_, ?_, legal ▸ explains.legal⟩
    · refine List.Nodup.map_on ?_ explains.nodup
      intro op listed other listed' equal
      exact renames.injective (called op listed) (called other listed') equal
    · intro op' listed
      obtain ⟨op, inside, rfl⟩ := List.mem_map.mp listed
      exact renames.called (called op inside)
    · intro first' second' pair listed
      obtain ⟨second, inside, rfl⟩ := List.mem_map.mp listed
      have returned : ret first' ∈ history' := pair.subset (by simp)
      obtain ⟨first, begun, rfl⟩ := renames.surjective (paired'.called returned)
      have before := (renames.precedes begun (called second inside)).mpr pair
      exact (explains.realTime before inside).map f

/-- A history is linearizable under any names. -/
theorem Renames.linearizable_iff (renames : Renames f history history')
    (same : ∀ op, call op ∈ history → ∀ s, step' s (f op) = step s op)
    (paired : Paired history) (paired' : Paired history') :
    Linearizable step' history' state ↔ Linearizable step history state := by
  constructor
  · intro linearizable
    obtain ⟨order', explains, complete⟩ := linearizable
    obtain ⟨order, rfl, called⟩ := renames.exists_map explains.called
    refine ⟨order, (renames.explains_map same paired paired' called).mp explains, ?_⟩
    intro op listed
    obtain ⟨other, inside, equal⟩ := List.mem_map.mp (complete (f op) (renames.called listed))
    rwa [← renames.injective (called other inside) listed equal]
  · intro linearizable
    obtain ⟨order, explains, complete⟩ := linearizable
    refine ⟨order.map f, (renames.explains_map same paired paired' explains.called).mpr explains, ?_⟩
    intro op' listed
    obtain ⟨op, inside, rfl⟩ := renames.surjective listed
    exact List.mem_map_of_mem (complete op inside)

end Renaming

end DistributedCloud
