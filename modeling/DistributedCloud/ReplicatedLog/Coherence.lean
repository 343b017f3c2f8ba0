import DistributedCloud.ReplicatedLog.Replicas

/-!
# Coherence is kept

Every action keeps the replicas coherent, whatever is accepted. Log matching follows.
-/

namespace DistributedCloud.ReplicatedLog

variable {P E : Type} [DecidableEq P] {termOf : E → Int} {root : E} {r r' : Replicas P E}

omit [DecidableEq P] in
theorem coherent_start (zero : termOf root = 0) :
    Coherent termOf root (Replicas.start root : Replicas P E) := by
  have single : Traced termOf (Replicas.start root : Replicas P E).termLog [root] := by
    intro i e found
    have inside : i < [root].length := (List.getElem?_eq_some_iff.mp found).1
    have here := List.mem_singleton.mp (List.mem_of_getElem? found)
    rw [here, zero]
    exact Agree.refl inside
  have terms : ∀ t, (Replicas.start root : Replicas P E).termLog t = [root] ∧ t = 0 ∨
      (Replicas.start root : Replicas P E).termLog t = [] := by
    intro t
    by_cases here : t = 0
    · exact Or.inl ⟨if_pos here, here⟩
    · exact Or.inr (if_neg here)
  have unled : ∀ t p, (Replicas.start root : Replicas P E).leader t ≠ some p := by
    simp [Replicas.start]
  have noBid : ∀ p t, (Replicas.start root : Replicas P E).bid p t = [] := fun _ _ => rfl
  refine ⟨⟨rfl, fun t _ nonzero => if_neg nonzero, fun t p led => absurd led (unled t p), ?_, ?_,
    ?_⟩, fun _ => single, ?_, fun t p led => absurd led (unled t p),
    fun p led => absurd led (unled _ p), ?_, by simp [noBid],
    fun t p led => absurd led (unled t p), fun t p led => absurd led (unled t p)⟩
  · intro t
    rcases terms t with ⟨shape, -⟩ | shape
    · rw [shape]
      exact List.pairwise_singleton _ _
    · rw [shape]
      exact List.Pairwise.nil
  · intro t e member
    rcases terms t with ⟨shape, rfl⟩ | shape
    · rw [shape] at member
      rw [List.mem_singleton.mp member, zero]
    · rw [shape] at member
      cases member
  · intro t
    rcases terms t with ⟨shape, -⟩ | shape
    · rw [shape]
      exact single
    · rw [shape]
      intro i e found
      cases found
  · intro p e member
    rw [List.mem_singleton.mp member, zero]
    exact le_refl _
  · intro p t i e found
    cases found

namespace Coherent

variable {p : P}

theorem raise (coherent : Coherent termOf root r) {term : Int} (le : r.term p ≤ term) :
    Coherent termOf root (r.raise p term) := by
  have mono : ∀ q, r.term q ≤ (r.raise p term).term q := by
    intro q
    by_cases same : q = p
    · subst same
      simpa [Replicas.raise] using le
    · simp [Replicas.raise, same]
  refine { coherent with bound := ?_, reached := ?_, own := ?_ }
  · intro q e member
    exact le_trans (coherent.bound q e member) (mono q)
  · intro t q led
    exact le_trans (coherent.reached t q led) (mono q)
  · intro q leads
    have reached := coherent.reached _ q leads
    have same : (r.raise p term).term q = r.term q := le_antisymm reached (mono q)
    rw [same] at leads ⊢
    exact coherent.own q leads

theorem stand (coherent : Coherent termOf root r) {term : Int} (higher : r.term p < term) :
    Coherent termOf root (r.stand p term) := by
  have raised : Coherent termOf root (r.raise p term) := coherent.raise higher.le
  refine { raised with bidTraced := ?_, bidBound := ?_, bidPrefix := ?_, suffix := ?_ }
  · exact setAt_forall (C := fun _ _ l => Traced termOf r.termLog l) (coherent.traced p)
      coherent.bidTraced
  · apply setAt_forall (C := fun _ t l => ∀ e ∈ l, termOf e < t)
    · exact fun e member => lt_of_le_of_lt (coherent.bound p e member) higher
    · exact coherent.bidBound
  · intro t q leads
    have reached := coherent.reached t q leads
    have other : ¬ (q = p ∧ t = term) := by
      rintro ⟨rfl, rfl⟩
      omega
    simp only [Replicas.stand, setAt_ne _ _ other]
    exact coherent.bidPrefix t q leads
  · intro t q leads
    have reached := coherent.reached t q leads
    have other : ¬ (q = p ∧ t = term) := by
      rintro ⟨rfl, rfl⟩
      omega
    simp only [Replicas.stand, setAt_ne _ _ other]
    exact coherent.suffix t q leads

theorem lead (coherent : Coherent termOf root r) (vacant : r.leader (r.term p) = none)
    (positive : 0 < r.term p) (same : r.log p = r.bid p (r.term p)) :
    Coherent termOf root (r.lead p) := by
  obtain ⟨logs, grow⟩ := coherent.termLogs.lead (p := p) vacant positive (coherent.traced p)
    (coherent.bound p)
  have led : ∀ {t q}, (r.lead p).leader t = some q → (t = r.term p ∧ q = p) ∨
      (t ≠ r.term p ∧ r.leader t = some q) := by
    intro t q leads
    by_cases here : t = r.term p
    · subst here
      simp only [Replicas.lead, Function.update_self, Option.some.injEq] at leads
      exact Or.inl ⟨rfl, leads.symm⟩
    · simp only [Replicas.lead, Function.update_of_ne here] at leads
      exact Or.inr ⟨here, leads⟩
  refine ⟨logs, fun q => (coherent.traced q).mono grow, coherent.bound, ?_, ?_,
    fun q t => (coherent.bidTraced q t).mono grow, coherent.bidBound, ?_, ?_⟩
  · intro t q leads
    rcases led leads with ⟨rfl, rfl⟩ | ⟨-, before⟩
    · exact le_refl _
    · exact coherent.reached t q before
  · intro q leads
    rcases led leads with ⟨here, rfl⟩ | ⟨other, before⟩
    · simp [Replicas.lead]
    · change r.term q ≠ r.term p at other
      change r.log q = Function.update r.termLog (r.term p) (r.log p) (r.term q)
      rw [Function.update_of_ne other]
      exact coherent.own q before
  · intro t q leads
    rcases led leads with ⟨rfl, rfl⟩ | ⟨other, before⟩
    · simp only [Replicas.lead, Function.update_self, same]
      exact List.prefix_refl _
    · simp only [Replicas.lead, Function.update_of_ne other]
      exact coherent.bidPrefix t q before
  · intro t q leads i e beyond found
    rcases led leads with ⟨rfl, rfl⟩ | ⟨other, before⟩
    · simp only [Replicas.lead, Function.update_self, same] at found beyond
      have inside := (List.getElem?_eq_some_iff.mp found).1
      omega
    · simp only [Replicas.lead, Function.update_of_ne other] at found
      exact coherent.suffix t q before i e beyond found

theorem extend (coherent : Coherent termOf root r) {e : E}
    (leads : r.leader (r.term p) = some p) (now : termOf e = r.term p) :
    Coherent termOf root (r.extend p e) := by
  obtain ⟨logs, grow⟩ := coherent.termLogs.extend leads now
  have own := coherent.own p leads
  rw [← own] at logs grow
  have log : ∀ q, q ≠ p → (r.extend p e).log q = r.log q := by
    intro q other
    simp [Replicas.extend, other]
  have here : (r.extend p e).log p = (r.extend p e).termLog (r.term p) := by
    simp [Replicas.extend]
  refine ⟨logs, ?_, ?_, coherent.reached, ?_, fun q t => (coherent.bidTraced q t).mono grow,
    coherent.bidBound, fun t q led => (coherent.bidPrefix t q led).trans (grow t), ?_⟩
  · intro q
    by_cases same : q = p
    · subst same
      rw [here]
      exact logs.traced _
    · rw [log q same]
      exact (coherent.traced q).mono grow
  · intro q a member
    by_cases same : q = p
    · subst same
      rw [here] at member
      exact logs.bound _ a member
    · rw [log q same] at member
      exact coherent.bound q a member
  · intro q led
    by_cases same : q = p
    · subst same
      exact here
    · have other : r.term q ≠ r.term p := by
        intro equal
        change r.leader (r.term q) = some q at led
        rw [equal, leads] at led
        exact same (Option.some.inj led).symm
      rw [log q same]
      change r.log q = Function.update r.termLog (r.term p) (r.log p ++ [e]) (r.term q)
      rw [Function.update_of_ne other]
      exact coherent.own q led
  · intro t q led i a beyond found
    by_cases same : t = r.term p
    · subst same
      simp only [Replicas.extend, Function.update_self] at found
      rcases Nat.lt_or_ge i (r.log p).length with inside | atEnd
      · rw [List.getElem?_append_left inside, own] at found
        exact coherent.suffix _ q led i a beyond found
      · rw [List.getElem?_append_right atEnd] at found
        rw [List.mem_singleton.mp (List.mem_of_getElem? found), now]
    · simp only [Replicas.extend, Function.update_of_ne same] at found
      exact coherent.suffix t q led i a beyond found

theorem accept (coherent : Coherent termOf root r) {leader : P} {j : Nat}
    (leads : r.leader (r.term p) = some leader) (other : leader ≠ p) :
    Coherent termOf root (r.accept p j) := by
  have log : ∀ q, q ≠ p → (r.accept p j).log q = r.log q := by
    intro q different
    simp [Replicas.accept, different]
  have here : (r.accept p j).log p <+: r.termLog (r.term p) := by
    simp only [Replicas.accept, Function.update_self]
    exact List.take_prefix _ _
  refine { coherent with traced := ?_, bound := ?_, own := ?_ }
  · intro q
    by_cases same : q = p
    · subst same
      exact (coherent.termLogs.traced _).of_isPrefix here
    · rw [log q same]
      exact coherent.traced q
  · intro q e member
    by_cases same : q = p
    · subst same
      exact coherent.termLogs.bound _ e (here.subset member)
    · rw [log q same] at member
      exact coherent.bound q e member
  · intro q led
    have same : q ≠ p := by
      rintro rfl
      change r.leader (r.term q) = some q at led
      rw [leads] at led
      exact other (Option.some.inj led)
    rw [log q same]
    exact coherent.own q led

theorem act [Fintype P] {ok : Replicas P E → P → Nat → Prop} (coherent : Coherent termOf root r)
    (act : Act termOf ok r r') : Coherent termOf root r' := by
  cases act with
  | raise le => exact coherent.raise le
  | stand higher => exact coherent.stand higher
  | vote => exact { coherent with }
  | lead vacant positive same => exact coherent.lead vacant positive same
  | extend leads now => exact coherent.extend leads now
  | accept leads other => exact coherent.accept leads other

omit [DecidableEq P] in
/-- Log matching: entries of the same term at the same index stand in the same log up to
    there. -/
theorem matching (coherent : Coherent termOf root r) {p q : P} {i : Nat} {e e' : E}
    (found : (r.log p)[i]? = some e) (found' : (r.log q)[i]? = some e')
    (same : termOf e = termOf e') : Agree (r.log p) (r.log q) i :=
  (coherent.traced p).matching (coherent.traced q) found found' same

end Coherent

end DistributedCloud.ReplicatedLog
