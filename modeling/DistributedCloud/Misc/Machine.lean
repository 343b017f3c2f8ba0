import Mathlib.Data.List.Basic
import Mathlib.Logic.Function.Basic
import Mathlib.Order.Basic

/-!
# Event-driven machines

A machine takes one event at a time; an event that is not possible in a state has no
result. Runs are restricted by a guard on the steps they may take, so that one notion of
reachability serves both the unrestricted runs of a system and the runs all of whose steps
meet a side condition. History variables are added on top of a machine without changing
which events it can take.
-/

namespace DistributedCloud

/-- A deterministic machine over states `σ` driven by events `ε`. -/
structure Machine (σ ε : Type) where
  init : σ
  step : σ → ε → Option σ

namespace Machine

variable {σ ε η : Type}

/-- The state after a whole list of events, if every one of them is possible. -/
def run (m : Machine σ ε) : σ → List ε → Option σ
  | s, [] => some s
  | s, e :: es => (m.step s e).bind (fun s' => m.run s' es)

/-- The guard that lets every step pass. -/
def anyStep : σ → ε → Prop := fun _ _ => True

/-- `s'` is reached from `s` by steps that all meet the guard `ok`. -/
inductive Path (m : Machine σ ε) (ok : σ → ε → Prop) (s : σ) : σ → Prop
  | refl : Path m ok s s
  | tail {s' s'' : σ} (e : ε) : Path m ok s s' → ok s' e → m.step s' e = some s'' →
      Path m ok s s''

/-- `s` is reached from the initial state by steps that all meet the guard `ok`. -/
def ReachableWhen (m : Machine σ ε) (ok : σ → ε → Prop) (s : σ) : Prop :=
  m.Path ok m.init s

/-- `s` is reached by some run of the machine. -/
def Reachable (m : Machine σ ε) (s : σ) : Prop :=
  m.ReachableWhen anyStep s

variable {m : Machine σ ε} {ok : σ → ε → Prop}

theorem ReachableWhen.init : m.ReachableWhen ok m.init := Path.refl

theorem ReachableWhen.step {s s' : σ} {e : ε} (reached : m.ReachableWhen ok s) (guard : ok s e)
    (next : m.step s e = some s') : m.ReachableWhen ok s' :=
  Path.tail e reached guard next

/-- A property of the initial state that every guarded step preserves holds in every state
    reached; the step may use that its source is itself reached. -/
theorem ReachableWhen.invariant {I : σ → Prop} (start : I m.init)
    (preserved : ∀ s e s', m.ReachableWhen ok s → I s → ok s e → m.step s e = some s' → I s')
    {s : σ} (reached : m.ReachableWhen ok s) : I s := by
  induction reached with
  | refl => exact start
  | tail e before guard next ih => exact preserved _ e _ before ih guard next

/-- A step-preserved relation between an earlier state and the states after it. -/
theorem Path.invariant {I : σ → Prop} {s s' : σ} (start : I s)
    (preserved : ∀ s e s', I s → ok s e → m.step s e = some s' → I s')
    (path : m.Path ok s s') : I s' := by
  induction path with
  | refl => exact start
  | tail e _ guard next ih => exact preserved _ e _ ih guard next

theorem Path.trans {s s' s'' : σ} (first : m.Path ok s s') (second : m.Path ok s' s'') :
    m.Path ok s s'' := by
  induction second with
  | refl => exact first
  | tail e _ guard next ih => exact Path.tail e ih guard next

/-- Weakening the guard keeps what is reached. -/
theorem Path.mono {ok' : σ → ε → Prop} (weaker : ∀ s e, ok s e → ok' s e) {s s' : σ}
    (path : m.Path ok s s') : m.Path ok' s s' := by
  induction path with
  | refl => exact Path.refl
  | tail e _ guard next ih => exact Path.tail e ih (weaker _ e guard) next

theorem ReachableWhen.reachable {s : σ} (reached : m.ReachableWhen ok s) : m.Reachable s :=
  Path.mono (fun _ _ _ => trivial) reached

/-- The end of a successful run is on a path from its start. -/
theorem path_of_run {es : List ε} {s s' : σ} (ran : m.run s es = some s') :
    m.Path anyStep s s' := by
  induction es generalizing s with
  | nil =>
    simp only [run, Option.some.injEq] at ran
    subst ran
    exact Path.refl
  | cons e es ih =>
    simp only [run, Option.bind_eq_some_iff] at ran
    obtain ⟨middle, next, rest⟩ := ran
    exact Path.trans (Path.tail e Path.refl trivial next) (ih rest)

/-- The state after a list of events, `s` itself if they are not all possible. -/
def afterFrom (m : Machine σ ε) (s : σ) (es : List ε) : σ :=
  (m.run s es).getD s

theorem path_afterFrom (s : σ) (es : List ε) : m.Path anyStep s (m.afterFrom s es) := by
  unfold afterFrom
  cases ran : m.run s es with
  | none => exact Path.refl
  | some s' => exact path_of_run ran

/-- The state after a list of events from the start. -/
def after (m : Machine σ ε) (es : List ε) : σ :=
  m.afterFrom m.init es

theorem reachable_after (es : List ε) : m.Reachable (m.after es) :=
  path_afterFrom m.init es

/-- The machine that refuses a step against the guard. -/
def guarded (m : Machine σ ε) (ok : σ → ε → Prop) [∀ s e, Decidable (ok s e)] : Machine σ ε where
  init := m.init
  step := fun s e => if ok s e then m.step s e else none

theorem path_of_guarded [∀ s e, Decidable (ok s e)] {s s' : σ}
    (path : (m.guarded ok).Path anyStep s s') : m.Path ok s s' := by
  induction path with
  | refl => exact Path.refl
  | tail e _ _ next ih =>
    simp only [guarded, Option.ite_none_right_eq_some] at next
    exact ih.tail e next.1 next.2

theorem reachableWhen_of_guarded [∀ s e, Decidable (ok s e)] {s : σ}
    (reached : (m.guarded ok).Reachable s) : m.ReachableWhen ok s :=
  path_of_guarded reached

/-- What a machine reaches, seen through `f`, another one reaches that can follow each of its
    steps or stand still. -/
theorem ReachableWhen.project {τ δ : Type} {n : Machine τ δ} {f : σ → τ} (start : f m.init = n.init)
    (follow : ∀ s e s', ok s e → m.step s e = some s' →
      f s' = f s ∨ ∃ d, n.step (f s) d = some (f s'))
    {s : σ} (reached : m.ReachableWhen ok s) : n.Reachable (f s) := by
  induction reached with
  | refl =>
    rw [start]
    exact ReachableWhen.init
  | tail e _ guard next ih =>
    obtain same | ⟨d, next⟩ := follow _ e _ guard next
    · rw [same]
      exact ih
    · exact ih.step trivial next

/-- What a machine reaches, another one reaches in a related state that can follow each of its steps
    or stand still. -/
theorem ReachableWhen.simulate {τ δ : Type} {n : Machine τ δ} {ok' : τ → δ → Prop}
    {Related : σ → τ → Prop} (start : Related m.init n.init)
    (follow : ∀ s e s' t, m.ReachableWhen ok s → n.ReachableWhen ok' t → Related s t → ok s e →
      m.step s e = some s' →
      Related s' t ∨ ∃ d t', ok' t d ∧ n.step t d = some t' ∧ Related s' t')
    {s : σ} (reached : m.ReachableWhen ok s) : ∃ t, n.ReachableWhen ok' t ∧ Related s t := by
  induction reached with
  | refl => exact ⟨n.init, ReachableWhen.init, start⟩
  | tail e before guard next ih =>
    obtain ⟨t, reached, related⟩ := ih
    rcases follow _ e _ t before reached related guard next with related | ⟨d, t', ok, step, related⟩
    · exact ⟨t, reached, related⟩
    · exact ⟨t', reached.step ok step, related⟩

/-- A property of the last state that no step brings about holds all along the path, so that every
    step can be taken in the knowledge that it will hold afterwards. -/
theorem Path.foresee {Q : σ → Prop} {s s' : σ}
    (back : ∀ t e t', m.Path ok s t → m.step t e = some t' → Q t' → Q t)
    (path : m.Path ok s s') (holds : Q s') :
    m.Path (fun t e => ok t e ∧ ∀ t', m.step t e = some t' → Q t') s s' := by
  induction path with
  | refl => exact Path.refl
  | tail e before guard next ih =>
    refine Path.tail e (ih (back _ e _ before next holds)) ⟨guard, ?_⟩ next
    intro other same
    rw [next] at same
    cases same
    exact holds

/-! ## History variables -/

/-- The machine extended by a history `η` that `record` updates from the step just taken.
    The history never decides whether an event is possible. -/
def withHistory (m : Machine σ ε) (start : η) (record : σ → ε → σ → η → η) :
    Machine (σ × η) ε where
  init := (m.init, start)
  step := fun s e => (m.step s.1 e).map (fun s' => (s', record s.1 e s' s.2))

theorem withHistory_step {start : η} {record : σ → ε → σ → η → η} {s s' : σ × η} {e : ε} :
    (m.withHistory start record).step s e = some s' ↔
      m.step s.1 e = some s'.1 ∧ s'.2 = record s.1 e s'.1 s.2 := by
  simp only [withHistory, Option.map_eq_some_iff]
  constructor
  · rintro ⟨next, hnext, rfl⟩
    exact ⟨hnext, rfl⟩
  · rintro ⟨hnext, hist⟩
    exact ⟨s'.1, hnext, Prod.ext rfl hist.symm⟩

/-- Every guarded path of the machine is the first component of one with history, whatever
    the history is at its start. -/
theorem Path.withHistory (start : η) (record : σ → ε → σ → η → η) {s s' : σ}
    (path : m.Path ok s s') (h : η) :
    ∃ h', (m.withHistory start record).Path (fun s e => ok s.1 e) (s, h) (s', h') := by
  induction path with
  | refl => exact ⟨h, Path.refl⟩
  | @tail s' s'' e _ guard next ih =>
    obtain ⟨h', before⟩ := ih
    exact ⟨record s' e s'' h', Path.tail e before guard (withHistory_step.mpr ⟨next, rfl⟩)⟩

theorem ReachableWhen.withHistory (start : η) (record : σ → ε → σ → η → η) {s : σ}
    (reached : m.ReachableWhen ok s) :
    ∃ h, (m.withHistory start record).ReachableWhen (fun s e => ok s.1 e) (s, h) :=
  Path.withHistory start record reached start

/-- Dropping the history gives back a run of the machine. -/
theorem ReachableWhen.dropHistory {start : η} {record : σ → ε → σ → η → η}
    {ok : σ × η → ε → Prop} {s : σ × η}
    (reached : (m.withHistory start record).ReachableWhen ok s) : m.Reachable s.1 := by
  induction reached with
  | refl => exact Path.refl
  | tail e _ _ next ih => exact Path.tail e ih trivial (withHistory_step.mp next).1

end Machine

end DistributedCloud
