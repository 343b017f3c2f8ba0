import DistributedCloud.ReplicatedLog.Growth

/-!
# How far back a leader has to look

A leader that looks for the place where a follower's log leaves its own must not look before
it. An index covers a follower if the two logs do not agree beyond it, nor beyond what the
leader was elected with; as long as the follower has not reached the leader's term, its log
may still change, and the index has to cover everything the leader was elected with. Coverage
of a follower that has accepted nothing in the leader's term lasts.
-/

namespace DistributedCloud.ReplicatedLog

variable {P E : Type} {termOf : E → Int} {root : E} {r r' : Replicas P E}

/-- Index `k` covers what the follower `f` shares with the log of the leader of `term`. -/
structure Covered (r : Replicas P E) (leader : P) (term : Int) (f : P) (k : Int) : Prop where
  behind : r.term f < term → ((r.bid leader term).length : Int) ≤ k
  reached : r.term f = term → ∀ j, Agree (r.log f) (r.termLog term) j →
    (j : Int) ≤ k ∧ j < (r.bid leader term).length

/-- A log without entries of a term agrees with the term's log only inside the leader's bid. -/
theorem Coherent.agree_lt_bid (coherent : Coherent termOf root r) {leader : P} {term : Int}
    {l : List E} {j : Nat} (leads : r.leader term = some leader)
    (earlier : ∀ e ∈ l, termOf e < term) (agree : Agree l (r.termLog term) j) :
    j < (r.bid leader term).length := by
  by_contra beyond
  have found := List.getElem?_eq_getElem agree.inside
  have own := coherent.suffix term leader leads j _ (by omega)
    ((agree.getElem? (le_refl j)).symm.trans found)
  have before := earlier _ (List.getElem_mem agree.inside)
  omega

/-- What a leader adds to its log is not in the log of a peer yet. -/
theorem Extends.agree_back (coherent : Coherent termOf root r) (grows : Extends termOf r r')
    {leader f : P} {term : Int} {j : Nat} (leads : r.leader term = some leader)
    (agree : Agree (r.log f) (r'.termLog term) j) : Agree (r.log f) (r.termLog term) j := by
  rcases Nat.lt_or_ge j (r.termLog term).length with inside | beyond
  · exact agree.restrict (grows.termLog term) inside
  · have found := List.getElem?_eq_getElem agree.inside
    have own := grows.added term leader leads j _ beyond
      ((agree.getElem? (le_refl j)).symm.trans found)
    have traced := coherent.traced f j _ found
    rw [own] at traced
    exact traced

variable [DecidableEq P] [Fintype P] {ok : Replicas P E → P → Nat → Prop}

/-- A follower that accepts nothing in its term keeps its log. -/
theorem log_act (act : Act termOf ok r r') {leader f : P} {term : Int}
    (leads : r.leader term = some leader) (other : f ≠ leader) (reached : r'.term f = term)
    (nothing : r'.accepted f term = -1) : r'.log f = r.log f := by
  cases act with
  | raise | stand | vote | lead => rfl
  | @extend p e led now =>
    have different : f ≠ p := by
      rintro rfl
      change r.term f = term at reached
      rw [reached, leads] at led
      exact other (Option.some.inj led).symm
    simp only [Replicas.extend, Function.update_of_ne different]
  | @accept p _ j =>
    have different : f ≠ p := by
      rintro rfl
      change r.term f = term at reached
      subst reached
      simp only [Replicas.accept, setAt_self] at nothing
      omega
    simp only [Replicas.accept, Function.update_of_ne different]

theorem Covered.act (formed : Formed termOf root r) (act : Act termOf ok r r') {leader f : P}
    {term k : Int} (covered : Covered r leader term f k) (leads : r.leader term = some leader)
    (other : f ≠ leader) (nothing : r'.accepted f term = -1) : Covered r' leader term f k := by
  have grows := grows_act formed.coherent formed.accepting act
  have up := grows.term f
  refine ⟨?_, ?_⟩
  · intro before
    rw [grows.bid leader term (formed.coherent.reached term leader leads)]
    exact covered.behind (by omega)
  · intro now j agree
    rw [log_act act leads other now nothing] at agree
    have shared := grows.toExtends.agree_back formed.coherent leads agree
    rw [grows.bid leader term (formed.coherent.reached term leader leads)]
    rcases Int.lt_or_le (r.term f) term with before | reached
    · have bound := covered.behind before
      have inBid := formed.coherent.agree_lt_bid leads
        (fun e member => lt_of_le_of_lt (formed.coherent.bound f e member) before) shared
      exact ⟨by omega, inBid⟩
    · exact covered.reached (by omega) j shared

theorem Covered.acts (formed : Formed termOf root r)
    (acts : Relation.ReflTransGen (Act termOf ok) r r') {leader f : P} {term k : Int}
    (covered : Covered r leader term f k) (leads : r.leader term = some leader)
    (other : f ≠ leader) (nothing : r'.accepted f term = -1) : Covered r' leader term f k := by
  induction acts with
  | refl => exact covered
  | tail before act ih =>
    have here := formed.acts before
    have grows := grows_act here.coherent here.accepting act
    have least := here.accepting.least f term
    have up := grows.accepted f term
    refine (ih (by omega)).act here act ?_ other nothing
    exact (formed.extends before).leader term leader leads

/-- A follower that has reached a leader's term and accepts nothing in it keeps its log. -/
theorem log_acts (formed : Formed termOf root r)
    (acts : Relation.ReflTransGen (Act termOf ok) r r') {leader f : P} {term : Int}
    (leads : r.leader term = some leader) (other : f ≠ leader) (reached : r.term f = term)
    (still : r'.term f = term) (nothing : r'.accepted f term = -1) : r'.log f = r.log f := by
  induction acts with
  | refl => rfl
  | tail before act ih =>
    have here := formed.acts before
    have first := formed.extends before
    have grows := grows_act here.coherent here.accepting act
    have least := here.accepting.least f term
    have up := grows.accepted f term
    have mono := first.term f
    have mono' := grows.term f
    rw [log_act act (first.leader term leader leads) other still nothing]
    exact ih (by omega) (by omega)

/-- As long as a term has no leader, a peer in it keeps its log. -/
theorem log_vacant (formed : Formed termOf root r)
    (acts : Relation.ReflTransGen (Act termOf ok) r r') {p : P} (same : r'.term p = r.term p)
    (vacant : r'.leader (r.term p) = none) : r'.log p = r.log p := by
  induction acts with
  | refl => rfl
  | @tail middle last before act ih =>
    have here := formed.acts before
    have first := formed.extends before
    have grows := grows_act here.coherent here.accepting act
    have up := first.term p
    have up' := grows.term p
    have now : middle.term p = r.term p := by omega
    have unled : middle.leader (r.term p) = none := by
      cases led : middle.leader (r.term p) with
      | none => rfl
      | some q =>
        rw [grows.leader _ q led] at vacant
        cases vacant
    rw [← ih now unled]
    cases act with
    | raise | stand | vote | lead => rfl
    | @extend q e leads =>
      have different : p ≠ q := by
        rintro rfl
        rw [now, unled] at leads
        cases leads
      simp only [Replicas.extend, Function.update_of_ne different]
    | @accept q leader j leads =>
      have different : p ≠ q := by
        rintro rfl
        rw [now, unled] at leads
        cases leads
      simp only [Replicas.accept, Function.update_of_ne different]

end DistributedCloud.ReplicatedLog
