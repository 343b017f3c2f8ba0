/-!
# Chains of handlers

A request goes through a list of handlers that share a state. A handler may run the rest of the
list itself and do something afterwards. One that returns without having done so has no say in
what comes after it: the loop over the list goes on with the next handler. Only a handler that
aborts or panics keeps the rest from running. An error is the end of the process.
-/

namespace DistributedCloud

variable {ε σ : Type}

/-- How a handler leaves off. -/
inductive Flow (σ : Type) where
  | returns
  /-- It runs the rest of the chain, and then this. -/
  | next (after : σ → σ)
  | aborts
  | panics

/-- A handler changes the state and says how the chain goes on, or ends the process. -/
abbrev Handler (ε σ : Type) : Type := σ → Except ε (σ × Flow σ)

namespace Handler

/-- The state in the end, and whether a panic is on its way up. It does not stop at a handler that
    waits for the rest of the chain. -/
def run : List (Handler ε σ) → σ → Except ε (σ × Bool)
  | [], s => .ok (s, false)
  | handler :: rest, s => do
    let (s, flow) ← handler s
    match flow with
    | .returns => run rest s
    | .next after => do
      let (s, panicking) ← run rest s
      return (if panicking then s else after s, panicking)
    | .aborts => return (s, false)
    | .panics => return (s, true)

theorem run_of_error {handler : Handler ε σ} {s : σ} {err : ε} (exits : handler s = .error err)
    (rest : List (Handler ε σ)) : run (handler :: rest) s = .error err := by
  rw [run, exits]
  rfl

section Steps

variable {handler : Handler ε σ} {s s' : σ}

theorem run_of_returns (returns : handler s = .ok (s', .returns)) (rest : List (Handler ε σ)) :
    run (handler :: rest) s = run rest s' := by
  rw [run, returns]
  rfl

theorem run_of_next {after : σ → σ} (next : handler s = .ok (s', .next after))
    (rest : List (Handler ε σ)) :
    run (handler :: rest) s =
      (run rest s').map fun ended => (if ended.2 then ended.1 else after ended.1, ended.2) := by
  rw [run, next]
  cases ran : run rest s' with
  | error err => simp [bind, Except.bind, Except.map, ran]
  | ok ended => simp [bind, Except.bind, Except.map, ran, pure, Except.pure]

theorem run_of_aborts (aborts : handler s = .ok (s', .aborts)) (rest : List (Handler ε σ)) :
    run (handler :: rest) s = .ok (s', false) := by
  rw [run, aborts]
  rfl

theorem run_of_panics (panics : handler s = .ok (s', .panics)) (rest : List (Handler ε σ)) :
    run (handler :: rest) s = .ok (s', true) := by
  rw [run, panics]
  rfl

end Steps

end Handler

end DistributedCloud
