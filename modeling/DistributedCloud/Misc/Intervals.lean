import Mathlib.Data.List.Nodup
import Mathlib.Data.List.Perm.Basic
import Mathlib.Tactic.Common

/-!
# Histories of overlapping operations

A history lists the calls and the returns of operations in the order of time. An order of the
operations explains the history if a sequential object accepts them one after the other and no
operation comes before one that had returned when it was called. The same orders are found step by
step: any call with no return before it may come first, and its two entries are taken out.
-/

namespace DistributedCloud

/-- The two ends of an operation. -/
inductive Edge (ι : Type) where
  | call (op : ι)
  | ret (op : ι)
  deriving DecidableEq, Repr

namespace Edge

variable {ι : Type}

/-- The operation that begins or ends. -/
def op : Edge ι → ι
  | .call op => op
  | .ret op => op

@[simp] theorem op_call (op : ι) : (call op).op = op := rfl

@[simp] theorem op_ret (op : ι) : (ret op).op = op := rfl

/-- The operation begins. -/
def isCall : Edge ι → Bool
  | .call _ => true
  | .ret _ => false

@[simp] theorem isCall_call (op : ι) : (call op).isCall = true := rfl

@[simp] theorem isCall_ret (op : ι) : (ret op).isCall = false := rfl

theorem eq_call_of_isCall {edge : Edge ι} (is : edge.isCall = true) : edge = call edge.op := by
  cases edge with
  | call op => rfl
  | ret op => cases is

/-- The edge under another name of the operation. -/
def map {κ : Type} (f : ι → κ) : Edge ι → Edge κ
  | .call op => .call (f op)
  | .ret op => .ret (f op)

theorem map_eq_call {κ : Type} {f : ι → κ} {edge : Edge ι} {op : κ} :
    edge.map f = call op ↔ ∃ own, edge = call own ∧ f own = op := by
  cases edge <;> simp [map]

theorem map_eq_ret {κ : Type} {f : ι → κ} {edge : Edge ι} {op : κ} :
    edge.map f = ret op ↔ ∃ own, edge = ret own ∧ f own = op := by
  cases edge <;> simp [map]

end Edge

open Edge

variable {σ ι : Type}

/-- Every operation is called once and returns once, later. -/
structure Paired (history : List (Edge ι)) : Prop where
  nodup : history.Nodup
  returns : ∀ {op}, call op ∈ history → [call op, ret op].Sublist history
  called : ∀ {op}, ret op ∈ history → call op ∈ history

/-- The operation is called before anything has returned. -/
def Minimal (history : List (Edge ι)) (op : ι) : Prop :=
  ∃ before after, history = before ++ call op :: after ∧ ∀ edge ∈ before, edge.isCall = true

theorem Minimal.mem {history : List (Edge ι)} {op : ι} (first : Minimal history op) :
    call op ∈ history := by
  obtain ⟨before, after, rfl, -⟩ := first
  simp

section Without

variable [DecidableEq ι]

/-- The history without one operation. -/
def without (op : ι) (history : List (Edge ι)) : List (Edge ι) :=
  history.filter fun edge => edge.op ≠ op

theorem mem_without {op : ι} {history : List (Edge ι)} {edge : Edge ι} :
    edge ∈ without op history ↔ edge ∈ history ∧ edge.op ≠ op := by
  simp [without]

theorem without_append (op : ι) (history more : List (Edge ι)) :
    without op (history ++ more) = without op history ++ without op more :=
  List.filter_append ..

@[simp] theorem without_call (op : ι) (history : List (Edge ι)) :
    without op (call op :: history) = without op history := by
  simp [without]

@[simp] theorem without_ret (op : ι) (history : List (Edge ι)) :
    without op (ret op :: history) = without op history := by
  simp [without]

theorem without_sublist (op : ι) (history : List (Edge ι)) :
    (without op history).Sublist history := List.filter_sublist

/-- A pair of other operations is in the history without one operation in the same order. -/
theorem pair_sublist_without {op : ι} {history : List (Edge ι)} {first second : Edge ι}
    (pair : [first, second].Sublist history) (left : first.op ≠ op) (right : second.op ≠ op) :
    [first, second].Sublist (without op history) := by
  have kept := pair.filter (fun edge : Edge ι => decide (edge.op ≠ op))
  simpa [left, right, without] using kept

end Without

namespace Paired

variable {history : List (Edge ι)}

theorem returned (paired : Paired history) {op : ι} (called : call op ∈ history) :
    ret op ∈ history := (paired.returns called).subset (by simp)

/-- The operations of a kind. -/
theorem filter (paired : Paired history) (p : ι → Bool) :
    Paired (history.filter fun edge => p edge.op) := by
  refine ⟨paired.nodup.filter _, ?_, ?_⟩
  · intro op called
    obtain ⟨called, kind⟩ := List.mem_filter.mp called
    have kept := (paired.returns called).filter (fun edge => p edge.op)
    have kind : p op = true := kind
    simpa [kind] using kept
  · intro op returned
    obtain ⟨returned, kind⟩ := List.mem_filter.mp returned
    exact List.mem_filter.mpr ⟨paired.called returned, kind⟩

theorem mem_ops_calls {op : ι} :
    op ∈ (history.filter isCall).map Edge.op ↔ call op ∈ history := by
  rw [List.mem_map]
  constructor
  · rintro ⟨edge, listed, rfl⟩
    obtain ⟨listed, is⟩ := List.mem_filter.mp listed
    rwa [eq_call_of_isCall is] at listed
  · intro listed
    exact ⟨call op, List.mem_filter.mpr ⟨listed, rfl⟩, rfl⟩

theorem mem_ops_returns {op : ι} :
    op ∈ (history.filter fun edge => !edge.isCall).map Edge.op ↔ ret op ∈ history := by
  rw [List.mem_map]
  constructor
  · rintro ⟨edge, listed, rfl⟩
    obtain ⟨listed, is⟩ := List.mem_filter.mp listed
    cases edge with
    | call op => cases is
    | ret op => exact listed
  · intro listed
    exact ⟨ret op, List.mem_filter.mpr ⟨listed, rfl⟩, rfl⟩

theorem nodup_calls (paired : Paired history) :
    ((history.filter isCall).map Edge.op).Nodup := by
  refine List.Nodup.map_on ?_ (paired.nodup.filter _)
  intro edge listed other listed' same
  rw [eq_call_of_isCall (List.mem_filter.mp listed).2,
    eq_call_of_isCall (List.mem_filter.mp listed').2, same]

/-- Half of the entries are calls. -/
theorem length_calls (paired : Paired history) :
    2 * ((history.filter isCall).map Edge.op).length = history.length := by
  have returns : ((history.filter fun edge => !edge.isCall).map Edge.op).Nodup := by
    refine List.Nodup.map_on ?_ (paired.nodup.filter _)
    intro edge listed other listed' same
    cases edge <;> cases other <;> simp_all
  have both : ((history.filter isCall).map Edge.op).Perm
      ((history.filter fun edge => !edge.isCall).map Edge.op) := by
    refine (List.perm_ext_iff_of_nodup paired.nodup_calls returns).mpr ?_
    intro op
    rw [mem_ops_calls, mem_ops_returns]
    exact ⟨paired.returned, paired.called⟩
  have whole := (List.filter_append_perm isCall history).length_eq
  have same := both.length_eq
  simp only [List.length_append, List.length_map] at whole same ⊢
  omega

/-- Nothing has returned when a minimal operation is called. -/
theorem not_before_minimal (paired : Paired history) {op : ι} (first : Minimal history op)
    (other : ι) : ¬ [ret other, call op].Sublist history := by
  obtain ⟨before, after, rfl, calls⟩ := first
  intro pair
  have outside : call op ∉ after :=
    (List.nodup_cons.mp (List.nodup_append.mp paired.nodup).2.1).1
  obtain ⟨left, right, split, inside, outer⟩ := List.sublist_append_iff.mp pair
  rcases left with _ | ⟨edge, left⟩
  · rw [List.nil_append] at split
    rw [← split] at outer
    cases outer with
    | cons _ outer => exact outside (outer.subset (by simp))
  · obtain ⟨rfl, -⟩ := List.cons.inj split
    cases calls (ret other) (inside.subset (by simp))

theorem minimal_of_first (paired : Paired history) {op : ι} (called : call op ∈ history)
    (first : ∀ other, ¬ [ret other, call op].Sublist history) : Minimal history op := by
  obtain ⟨before, after, rfl⟩ := List.append_of_mem called
  refine ⟨before, after, rfl, ?_⟩
  intro edge listed
  cases edge with
  | call other => rfl
  | ret other =>
    refine absurd ?_ (first other)
    exact (List.singleton_sublist.mpr listed).append (List.singleton_sublist.mpr (by simp))

variable [DecidableEq ι]

theorem without (paired : Paired history) (op : ι) : Paired (without op history) :=
  paired.filter fun other => decide (other ≠ op)

/-- An operation takes two entries. -/
theorem length_without (paired : Paired history) {op : ι} (called : call op ∈ history) :
    (DistributedCloud.without op history).length + 2 = history.length := by
  have own : (history.filter fun edge => decide (edge.op = op)).Perm [call op, ret op] := by
    refine (List.perm_ext_iff_of_nodup (paired.nodup.filter _) (by simp)).mpr ?_
    intro edge
    simp only [List.mem_filter, decide_eq_true_eq, List.mem_cons, List.not_mem_nil, or_false]
    constructor
    · intro listed
      obtain ⟨-, rfl⟩ := listed
      cases edge <;> simp
    · intro either
      rcases either with rfl | rfl
      · exact ⟨called, rfl⟩
      · exact ⟨paired.returned called, rfl⟩
  have both := (List.filter_append_perm (fun edge : Edge ι => decide (edge.op = op)) history).length_eq
  rw [List.length_append, own.length_eq] at both
  have same : (DistributedCloud.without op history).length =
      (history.filter fun edge => !decide (edge.op = op)).length := by
    simp [DistributedCloud.without]
  rw [same]
  simpa [Nat.add_comm] using both

end Paired

/-! ## Orders that explain a history -/

section Explanations

variable (step : σ → ι → Option σ)

/-- The operations of `order` can be the first ones of the history, from `state`. -/
structure Explains (history : List (Edge ι)) (state : σ) (order : List ι) : Prop where
  nodup : order.Nodup
  called : ∀ op ∈ order, call op ∈ history
  realTime : ∀ {first second}, [ret first, call second].Sublist history → second ∈ order →
    [first, second].Sublist order
  legal : (order.foldlM step state).isSome

/-- An order of all operations explains the history. -/
def Linearizable (history : List (Edge ι)) (state : σ) : Prop :=
  ∃ order, Explains step history state order ∧ ∀ op, call op ∈ history → op ∈ order

variable [DecidableEq ι]

/-- Minimal operations are taken out one after the other. -/
inductive Leads : List (Edge ι) → σ → List ι → List (Edge ι) → σ → Prop
  | refl (history : List (Edge ι)) (state : σ) : Leads history state [] history state
  | head {history left : List (Edge ι)} {state next last : σ} {op : ι} {order : List ι}
      (first : Minimal history op) (accepted : step state op = some next)
      (rest : Leads (without op history) next order left last) :
      Leads history state (op :: order) left last

end Explanations

variable {step : σ → ι → Option σ} {history left : List (Edge ι)} {state last : σ}
  {order : List ι}

variable [DecidableEq ι]

theorem Leads.concat {op : ι} {next : σ} (leads : Leads step history state order left last)
    (first : Minimal left op) (accepted : step last op = some next) :
    Leads step history state (order ++ [op]) (without op left) next := by
  induction leads with
  | refl history state => exact .head first accepted (.refl _ _)
  | head earlier taken rest ih => exact .head earlier taken (ih first accepted)

theorem Leads.paired (leads : Leads step history state order left last)
    (paired : Paired history) : Paired left := by
  induction leads with
  | refl history state => exact paired
  | head earlier taken rest ih => exact ih (paired.without _)

theorem Leads.length_eq (leads : Leads step history state order left last)
    (paired : Paired history) : left.length + 2 * order.length = history.length := by
  induction leads with
  | refl history state => rfl
  | head earlier taken rest ih =>
    have shorter := paired.length_without earlier.mem
    have others := ih (paired.without _)
    rw [List.length_cons]
    omega

/-- What is left is the history without the operations that were taken out. -/
theorem Leads.left_eq (leads : Leads step history state order left last) :
    left = history.filter fun edge => edge.op ∉ order := by
  induction leads with
  | refl history state => simp
  | head earlier taken rest ih =>
    rw [ih, without, List.filter_filter]
    refine List.filter_congr ?_
    intro edge _
    simp [List.mem_cons, not_or, Bool.and_comm]

theorem Leads.mem_left (leads : Leads step history state order left last) {edge : Edge ι} :
    edge ∈ left ↔ edge ∈ history ∧ edge.op ∉ order := by
  rw [leads.left_eq, List.mem_filter, decide_eq_true_iff]

theorem Leads.explains (leads : Leads step history state order left last)
    (paired : Paired history) : Explains step history state order := by
  induction leads with
  | refl history state => exact ⟨by simp, by simp, by simp, rfl⟩
  | @head history left state next last op order first taken rest ih =>
    have later := ih (paired.without op)
    refine ⟨List.nodup_cons.mpr ⟨?_, later.nodup⟩, ?_, ?_, ?_⟩
    · intro again
      exact (mem_without.mp (later.called op again)).2 rfl
    · intro other listed
      rcases List.mem_cons.mp listed with rfl | listed
      · exact first.mem
      · exact (mem_without.mp (later.called other listed)).1
    · intro one two pair listed
      have notFirst : two ≠ op := by
        rintro rfl
        exact paired.not_before_minimal first one pair
      have inside : two ∈ order := (List.mem_cons.mp listed).resolve_left notFirst
      by_cases own : one = op
      · subst own
        exact List.Sublist.cons_cons _ (List.singleton_sublist.mpr inside)
      · exact (later.realTime (pair_sublist_without pair own notFirst) inside).cons _
    · rw [List.foldlM_cons, taken]
      exact later.legal

/-- An order that explains the start of a history is found by taking out minimal operations. -/
theorem Explains.leads (explains : Explains step history state order) (paired : Paired history) :
    ∃ left last, Leads step history state order left last := by
  induction order generalizing history state with
  | nil => exact ⟨history, state, .refl _ _⟩
  | cons op order ih =>
    obtain ⟨fresh, nodup⟩ := List.nodup_cons.mp explains.nodup
    have first : Minimal history op := by
      refine paired.minimal_of_first (explains.called op (by simp)) ?_
      intro other pair
      -- an operation that returned before would have to come before the first one
      have before := explains.realTime pair (by simp)
      cases before with
      | cons _ before => exact fresh (before.subset (by simp))
      | cons_cons _ before => exact fresh (before.subset (by simp))
    obtain ⟨final, legal⟩ := Option.isSome_iff_exists.mp explains.legal
    rw [List.foldlM_cons] at legal
    obtain ⟨next, accepted, legal⟩ := Option.bind_eq_some_iff.mp legal
    have later : Explains step (without op history) next order := by
      refine ⟨nodup, ?_, ?_, Option.isSome_iff_exists.mpr ⟨final, legal⟩⟩
      · intro other listed
        refine mem_without.mpr ⟨explains.called other (List.mem_cons_of_mem _ listed), ?_⟩
        rintro rfl
        exact fresh listed
      · intro one two pair listed
        have before := explains.realTime (pair.trans (without_sublist _ _))
          (List.mem_cons_of_mem _ listed)
        cases before with
        | cons _ before => exact before
        | cons_cons _ before =>
          exact absurd rfl (mem_without.mp (pair.subset (List.mem_cons_self ..))).2
    obtain ⟨left, last, leads⟩ := ih later (paired.without op)
    exact ⟨left, last, .head first accepted leads⟩

/-- A history can be linearized if taking out minimal operations can empty it. -/
theorem linearizable_iff_leads (paired : Paired history) :
    Linearizable step history state ↔ ∃ order last, Leads step history state order [] last := by
  constructor
  · intro linearizable
    obtain ⟨order, explains, complete⟩ := linearizable
    obtain ⟨left, last, leads⟩ := explains.leads paired
    have empty : left = [] := by
      refine List.eq_nil_iff_forall_not_mem.mpr ?_
      intro edge listed
      obtain ⟨listed, missing⟩ := leads.mem_left.mp listed
      refine missing (complete _ ?_)
      cases edge with
      | call op => exact listed
      | ret op => exact paired.called listed
    exact ⟨order, last, empty ▸ leads⟩
  · intro emptied
    obtain ⟨order, last, leads⟩ := emptied
    refine ⟨order, leads.explains paired, ?_⟩
    intro op called
    by_contra missing
    exact List.not_mem_nil (leads.mem_left.mpr ⟨called, missing⟩)

end DistributedCloud
