import DistributedCloud.Misc.Intervals
import DistributedCloud.Porcupine.Checker

/-!
# Linearizable histories

What the checker is to decide: a history of operations with their times is linearizable if the
operations can be put in an order that the model accepts and in which no operation comes before one
that had returned when it was called. A history of events lists the calls and returns themselves.
-/

namespace DistributedCloud.Porcupine

variable {I O σ : Type}

/-- The state after a step that was accepted. -/
def accepted : Bool × σ → Option σ
  | (ok, next) => if ok then some next else none

section Orders

variable (init : σ) (step : σ → I → O → Bool × σ) (history : List (Operation I O))

/-- The step of operation `i`. -/
def accepts (state : σ) (i : Nat) : Option σ :=
  history[i]?.bind fun op => accepted (step state op.input op.output)

/-- Some operations of the history, in an order that explains them. -/
structure Linearization (order : List Nat) : Prop where
  nodup : order.Nodup
  inside : ∀ i ∈ order, i < history.length
  realTime : ∀ {i j a b}, history[i]? = some a → history[j]? = some b → a.ret < b.call →
    j ∈ order → [i, j].Sublist order
  legal : (order.foldlM (accepts step history) init).isSome

/-- All operations of the history have an order that explains them. -/
def IsLinearizable : Prop :=
  ∃ order, Linearization init step history order ∧ ∀ i < history.length, i ∈ order

end Orders

/-- The times of every operation are in order. -/
def Timely (history : List (Operation I O)) : Prop := ∀ op ∈ history, op.call ≤ op.ret

/-- States that are equal for the model accept the same steps and stay equal. -/
def RespectsEqual (model : FilledModel I O σ) : Prop :=
  ∀ state other input output, model.equal state other = true →
    (model.step state input output).1 = true →
    (model.step other input output).1 = true ∧
      model.equal (model.step state input output).2 (model.step other input output).2 = true

/-! ## Histories of events -/

/-- The end of an operation that an event is. -/
def Event.edge (event : Event I O) : Edge Int :=
  match event.kind with
  | .callEvent => .call event.id
  | .returnEvent => .ret event.id

/-- Every id is called once with an input and returns once, later, with an output. -/
structure WellFormed (events : List (Event I O)) : Prop where
  paired : Paired (events.map Event.edge)
  input : ∀ event ∈ events, event.kind = .callEvent → ∃ input, event.value = .inl input
  output : ∀ event ∈ events, event.kind = .returnEvent → ∃ output, event.value = .inr output

/-- The step of the operation with an id. -/
def eventStep (step : σ → I → O → Bool × σ) (events : List (Event I O)) (state : σ) (id : Int) :
    Option σ :=
  match events.find? (fun event => decide (event.edge = .call id)),
    events.find? (fun event => decide (event.edge = .ret id)) with
  | some ⟨_, _, .inl input, _⟩, some ⟨_, _, .inr output, _⟩ => accepted (step state input output)
  | _, _ => none

/-- The operations of the events have an order that explains them. -/
def EventsLinearizable (init : σ) (step : σ → I → O → Bool × σ) (events : List (Event I O)) :
    Prop := Linearizable (eventStep step events) (events.map Event.edge) init

end DistributedCloud.Porcupine
