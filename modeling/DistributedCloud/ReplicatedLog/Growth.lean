import DistributedCloud.ReplicatedLog.Coherence

/-!
# What actions add

How far the peers have accepted the logs of the terms, and what an action can change: terms,
logs of terms and acceptance only grow, and what belongs to a term that a peer has left is
fixed for that peer.
-/

namespace DistributedCloud.ReplicatedLog

variable {P E : Type} {termOf : E → Int} {root : E} {r r' : Replicas P E}

/-- How far the peers have accepted. -/
structure Accepting (r : Replicas P E) : Prop where
  least : ∀ p term, -1 ≤ r.accepted p term
  inside : ∀ p term, r.accepted p term < (r.termLog term).length
  future : ∀ p term, r.term p < term → r.accepted p term = -1
  leads : ∀ p, r.leader (r.term p) = some p → r.accepted p (r.term p) = (r.log p).length - 1
  follows : ∀ p, 0 ≤ r.accepted p (r.term p) → r.log p <+: r.termLog (r.term p)
  short : ∀ p, 0 ≤ r.accepted p (r.term p) → ((r.log p).length : Int) ≤ r.accepted p (r.term p) + 1

variable (termOf) in
/-- Terms, leaders, their logs and acceptance are only added to, and what a leader adds to its
    log is of its own term. -/
structure Extends (r r' : Replicas P E) : Prop where
  term : ∀ p, r.term p ≤ r'.term p
  leader : ∀ term p, r.leader term = some p → r'.leader term = some p
  termLog : ∀ term, r.termLog term <+: r'.termLog term
  added : ∀ term p, r.leader term = some p → ∀ i e, (r.termLog term).length ≤ i →
    (r'.termLog term)[i]? = some e → termOf e = term
  accepted : ∀ p term, r.accepted p term ≤ r'.accepted p term
  bid : ∀ p term, term ≤ r.term p → r'.bid p term = r.bid p term

variable (termOf) in
/-- What one action adds; nothing is accepted in a term that the peer has left. -/
structure Grows (r r' : Replicas P E) : Prop extends Extends termOf r r' where
  frozen : ∀ p term, term < r'.term p → r'.accepted p term = r.accepted p term

/-- A term without a leader had none before. -/
theorem Extends.vacant (grows : Extends termOf r r') {term : Int}
    (vacant : r'.leader term = none) : r.leader term = none := by
  cases led : r.leader term with
  | none => rfl
  | some p =>
    rw [grows.leader term p led] at vacant
    cases vacant

theorem Extends.refl (r : Replicas P E) : Extends termOf r r := by
  refine ⟨fun _ => le_refl _, fun _ _ led => led, fun _ => List.prefix_refl _, ?_,
    fun _ _ => le_refl _, fun _ _ _ => rfl⟩
  intro term p _ i e beyond found
  have inside := (List.getElem?_eq_some_iff.mp found).1
  omega

theorem Extends.trans {r'' : Replicas P E} (first : Extends termOf r r')
    (second : Extends termOf r' r'') : Extends termOf r r'' := by
  refine ⟨fun p => le_trans (first.term p) (second.term p),
    fun t p led => second.leader t p (first.leader t p led),
    fun t => (first.termLog t).trans (second.termLog t), ?_,
    fun p t => le_trans (first.accepted p t) (second.accepted p t), ?_⟩
  · intro t p led i e beyond found
    rcases Nat.lt_or_ge i (r'.termLog t).length with inside | outside
    · have agree := Agree.of_isPrefix (second.termLog t) inside
      exact first.added t p led i e beyond ((agree.getElem? (le_refl i)).trans found)
    · exact second.added t p (first.leader t p led) i e outside found
  · intro p t le
    rw [second.bid p t (le_trans le (first.term p)), first.bid p t le]

variable [DecidableEq P] [Fintype P] {ok : Replicas P E → P → Nat → Prop}

section Grows

variable {p : P}

omit [DecidableEq P] [Fintype P] in
/-- An action that only moves peers to later terms. -/
theorem grows_raised (terms : ∀ q, r.term q ≤ r'.term q) (leader : r'.leader = r.leader)
    (termLog : r'.termLog = r.termLog) (accepted : r'.accepted = r.accepted)
    (bid : ∀ q t, t ≤ r.term q → r'.bid q t = r.bid q t) : Grows termOf r r' := by
  have same : Extends termOf r r := Extends.refl r
  refine ⟨⟨terms, ?_, ?_, ?_, ?_, bid⟩, ?_⟩
  · rw [leader]
    exact same.leader
  · rw [termLog]
    exact same.termLog
  · rw [termLog]
    exact same.added
  · rw [accepted]
    exact same.accepted
  · intro q t _
    rw [accepted]

omit [Fintype P] in
theorem le_raised {term : Int} (le : r.term p ≤ term) (q : P) :
    r.term q ≤ Function.update r.term p term q := by
  by_cases here : q = p
  · subst here
    rw [Function.update_self]
    exact le
  · rw [Function.update_of_ne here]

omit [Fintype P] in
theorem grows_stand {term : Int} (higher : r.term p < term) :
    Grows termOf r (r.stand p term) := by
  refine grows_raised (le_raised higher.le) rfl rfl rfl ?_
  intro q t le
  apply setAt_ne
  rintro ⟨rfl, rfl⟩
  omega

omit [Fintype P] in
theorem grows_lead (coherent : Coherent termOf root r) (accepting : Accepting r)
    (vacant : r.leader (r.term p) = none) (positive : 0 < r.term p) :
    Grows termOf r (r.lead p) := by
  have same : Extends termOf r r := Extends.refl r
  have empty : r.termLog (r.term p) = [] := coherent.termLogs.vacant _ vacant (by omega)
  have nothing : r.accepted p (r.term p) ≤ -1 := by
    have inside := accepting.inside p (r.term p)
    rw [empty, List.length_nil] at inside
    omega
  have other : ∀ {t q}, r.leader t = some q → t ≠ r.term p := by
    rintro t q led rfl
    rw [vacant] at led
    cases led
  refine ⟨⟨same.term, ?_, ?_, ?_, ?_, same.bid⟩, ?_⟩
  · intro t q led
    simp only [Replicas.lead, Function.update_of_ne (other led)]
    exact led
  · exact (coherent.termLogs.lead (p := p) vacant positive (coherent.traced p)
      (coherent.bound p)).2
  · intro t q led i e beyond found
    simp only [Replicas.lead, Function.update_of_ne (other led)] at found
    exact same.added t q led i e beyond found
  · apply setAt_forall (C := fun q t k => r.accepted q t ≤ k)
    · omega
    · exact same.accepted
  · exact fun q t before => setAt_elsewhere _ _ before.ne

omit [Fintype P] in
theorem grows_extend (coherent : Coherent termOf root r) (accepting : Accepting r) {e : E}
    (leads : r.leader (r.term p) = some p) (now : termOf e = r.term p) :
    Grows termOf r (r.extend p e) := by
  have same : Extends termOf r r := Extends.refl r
  have own := coherent.own p leads
  have before := accepting.leads p leads
  refine ⟨⟨same.term, same.leader, ?_, ?_, ?_, same.bid⟩, ?_⟩
  · have grow := (coherent.termLogs.extend leads now).2
    rw [← own] at grow
    exact grow
  · intro t q led i a beyond found
    by_cases here : t = r.term p
    · subst here
      simp only [Replicas.extend, Function.update_self, own] at found
      rw [List.getElem?_append_right beyond] at found
      rw [List.mem_singleton.mp (List.mem_of_getElem? found), now]
    · simp only [Replicas.extend, Function.update_of_ne here] at found
      exact same.added t q led i a beyond found
  · apply setAt_forall (C := fun q t k => r.accepted q t ≤ k)
    · omega
    · exact same.accepted
  · exact fun q t earlier => setAt_elsewhere _ _ earlier.ne

omit [Fintype P] in
theorem grows_accept {j : Nat} : Grows termOf r (r.accept p j) := by
  have same : Extends termOf r r := Extends.refl r
  refine ⟨⟨same.term, same.leader, same.termLog, same.added, ?_, same.bid⟩, ?_⟩
  · apply setAt_forall (C := fun q t k => r.accepted q t ≤ k)
    · exact le_max_left _ _
    · exact same.accepted
  · exact fun q t earlier => setAt_elsewhere _ _ earlier.ne

end Grows

/-- What is added to the log of a term, and to what is accepted, by any action. -/
theorem grows_act (coherent : Coherent termOf root r)
    (accepting : Accepting r) (act : Act termOf ok r r') : Grows termOf r r' := by
  cases act with
  | raise le => exact grows_raised (le_raised le) rfl rfl rfl fun _ _ _ => rfl
  | stand higher => exact grows_stand higher
  | vote => exact grows_raised (fun _ => le_refl _) rfl rfl rfl fun _ _ _ => rfl
  | lead vacant positive => exact grows_lead coherent accepting vacant positive
  | extend leads now => exact grows_extend coherent accepting leads now
  | accept => exact grows_accept

omit [DecidableEq P] [Fintype P] in
/-- A peer whose term an action raises has accepted nothing in its new term. -/
theorem Accepting.raised (coherent : Coherent termOf root r) (accepting : Accepting r)
    (terms : ∀ p, r.term p ≤ r'.term p) (log : r'.log = r.log) (leader : r'.leader = r.leader)
    (termLog : r'.termLog = r.termLog) (accepted : r'.accepted = r.accepted) : Accepting r' := by
  constructor
  · rw [accepted]
    exact accepting.least
  · rw [accepted, termLog]
    exact accepting.inside
  · intro p t later
    rw [accepted]
    exact accepting.future p t (lt_of_le_of_lt (terms p) later)
  · intro p leads
    rw [leader] at leads
    have same := le_antisymm (coherent.reached _ p leads) (terms p)
    rw [same] at leads ⊢
    rw [accepted, log]
    exact accepting.leads p leads
  · intro p some
    rw [accepted] at some
    rcases (terms p).lt_or_eq with higher | same
    · have none := accepting.future p _ higher
      omega
    · rw [← same] at some ⊢
      rw [log, termLog]
      exact accepting.follows p some
  · intro p some
    rw [accepted] at some ⊢
    rcases (terms p).lt_or_eq with higher | same
    · have none := accepting.future p _ higher
      omega
    · rw [← same] at some ⊢
      rw [log]
      exact accepting.short p some

omit [Fintype P] in
/-- An action by which one peer changes its log and what it has accepted in its own term. -/
theorem Accepting.changed {p : P} {k : Int} (accepting : Accepting r)
    (grows : Grows termOf r r') (term : r'.term = r.term)
    (log : ∀ q, q ≠ p → r'.log q = r.log q)
    (accepted : r'.accepted = setAt r.accepted p (r.term p) k)
    (leader : ∀ q, q ≠ p → r'.leader (r.term q) = some q → r.leader (r.term q) = some q)
    (inside : k < (r'.termLog (r.term p)).length)
    (leads : r'.leader (r.term p) = some p → k = (r'.log p).length - 1)
    (follows : r'.log p <+: r'.termLog (r.term p)) (short : ((r'.log p).length : Int) ≤ k + 1) :
    Accepting r' := by
  have here : r'.accepted p (r.term p) = k := by rw [accepted, setAt_self]
  have other : ∀ q t, q ≠ p → r'.accepted q t = r.accepted q t := by
    intro q t differs
    rw [accepted, setAt_ne _ _ fun both => differs both.1]
  refine ⟨?_, ?_, ?_, ?_, ?_, ?_⟩
  · exact fun q t => le_trans (accepting.least q t) (grows.accepted q t)
  · rw [accepted]
    apply setAt_forall (C := fun _ t k => k < ((r'.termLog t).length : Int)) inside
    intro q t
    have before := accepting.inside q t
    have longer := (grows.termLog t).length_le
    omega
  · intro q t later
    rw [term] at later
    rw [accepted, setAt_elsewhere _ _ later.ne']
    exact accepting.future q t later
  · intro q led
    rw [term] at led ⊢
    by_cases same : q = p
    · subst same
      rw [here]
      exact leads led
    · rw [other q _ same, log q same]
      exact accepting.leads q (leader q same led)
  · intro q some
    rw [term] at some ⊢
    by_cases same : q = p
    · subst same
      exact follows
    · rw [other q _ same] at some
      rw [log q same]
      exact (accepting.follows q some).trans (grows.termLog _)
  · intro q some
    rw [term] at some ⊢
    by_cases same : q = p
    · subst same
      rw [here]
      exact short
    · rw [other q _ same] at some ⊢
      rw [log q same]
      exact accepting.short q some

theorem accepting_act (coherent : Coherent termOf root r) (accepting : Accepting r)
    (act : Act termOf ok r r') : Accepting r' := by
  have grows := grows_act coherent accepting act
  cases act with
  | raise => exact accepting.raised coherent grows.term rfl rfl rfl rfl
  | stand => exact accepting.raised coherent grows.term rfl rfl rfl rfl
  | vote => exact { accepting with }
  | @lead p vacant positive shape =>
    have termLog : (r.lead p).termLog (r.term p) = r.log p := Function.update_self _ _ _
    apply accepting.changed grows rfl (fun _ _ => rfl) rfl
    · intro q other led
      have elsewhere : r.term q ≠ r.term p := by
        intro same
        simp only [Replicas.lead, same, Function.update_self] at led
        exact other (Option.some.inj led).symm
      simp only [Replicas.lead, Function.update_of_ne elsewhere] at led
      exact led
    · rw [termLog]
      omega
    · exact fun _ => rfl
    · rw [termLog]
      exact List.prefix_refl _
    · exact (sub_add_cancel _ _).ge
  | @extend p e leads now =>
    have log : (r.extend p e).log p = r.log p ++ [e] := Function.update_self _ _ _
    have termLog : (r.extend p e).termLog (r.term p) = r.log p ++ [e] := Function.update_self _ _ _
    apply accepting.changed grows rfl (fun q other => Function.update_of_ne other _ _) rfl
      (fun _ _ led => led)
    · simp [termLog]
    · simp [log]
    · rw [log, termLog]
    · simp [log]
  | @accept p leader j leads other within =>
    have log : (r.accept p j).log p = (r.termLog (r.term p)).take (j + 1) :=
      Function.update_self _ _ _
    apply accepting.changed grows rfl (fun q other => Function.update_of_ne other _ _) rfl
      (fun _ _ led => led)
    · have before := accepting.inside p (r.term p)
      simp only [Replicas.accept]
      omega
    · intro led
      change r.leader (r.term p) = some p at led
      rw [leads] at led
      exact absurd (Option.some.inj led) other
    · rw [log]
      exact List.take_prefix _ _
    · rw [log, List.length_take]
      omega

omit [DecidableEq P] [Fintype P] in
theorem accepting_start (root : E) : Accepting (Replicas.start root : Replicas P E) := by
  refine ⟨fun _ _ => le_refl _, ?_, fun _ _ _ => rfl, by simp [Replicas.start], ?_, ?_⟩
  · intro p term
    change (-1 : Int) < _
    omega
  · intro p some
    change (0 : Int) ≤ -1 at some
    omega
  · intro p some
    change (0 : Int) ≤ -1 at some
    omega

/-! ## Runs -/

variable (termOf root) in
/-- The invariants of all runs. -/
structure Formed (r : Replicas P E) : Prop where
  coherent : Coherent termOf root r
  accepting : Accepting r

omit [DecidableEq P] [Fintype P] in
theorem formed_start (zero : termOf root = 0) :
    Formed termOf root (Replicas.start root : Replicas P E) :=
  ⟨coherent_start zero, accepting_start root⟩

theorem Formed.act (formed : Formed termOf root r) (act : Act termOf ok r r') :
    Formed termOf root r' :=
  ⟨formed.coherent.act act, accepting_act formed.coherent formed.accepting act⟩

theorem Formed.acts (formed : Formed termOf root r)
    (acts : Relation.ReflTransGen (Act termOf ok) r r') : Formed termOf root r' := by
  induction acts with
  | refl => exact formed
  | tail _ act ih => exact ih.act act

theorem Formed.extends (formed : Formed termOf root r)
    (acts : Relation.ReflTransGen (Act termOf ok) r r') : Extends termOf r r' := by
  induction acts with
  | refl => exact Extends.refl r
  | tail before act ih =>
    have here := formed.acts before
    exact ih.trans (grows_act here.coherent here.accepting act).toExtends

end DistributedCloud.ReplicatedLog
