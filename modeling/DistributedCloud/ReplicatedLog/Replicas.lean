import DistributedCloud.Misc.Majority
import DistributedCloud.ReplicatedLog.Agreement

/-!
# Replicas of a log with one leader per term

Peers hold copies of a log that the leader of each term extends. A term's log is what its
leader has built in it; a peer that accepts takes over a prefix of the log of its own term.
Votes go to candidates whose log is at least as up to date as the voter's, and a candidate
with a majority of votes leads its term with the log it stood with. Nothing is said about how
peers communicate.

The state keeps what was cast and accepted in earlier terms, so that what holds of a whole
run is a property of a state.
-/

namespace DistributedCloud.ReplicatedLog

/-- Change the value a peer has in a term. -/
def setAt {P α : Type} [DecidableEq P] (f : P → Int → α) (p : P) (term : Int) (value : α) :
    P → Int → α :=
  fun q t => if q = p ∧ t = term then value else f q t

section SetAt

variable {P α : Type} [DecidableEq P] (f : P → Int → α)

@[simp] theorem setAt_self (p : P) (term : Int) (value : α) :
    setAt f p term value p term = value := by
  simp [setAt]

theorem setAt_ne {p q : P} {term t : Int} (value : α) (other : ¬ (q = p ∧ t = term)) :
    setAt f p term value q t = f q t := by
  simp [setAt, other]

/-- A property of every value that the new value has as well. -/
theorem setAt_forall {f} {p : P} {term : Int} {value : α} {C : P → Int → α → Prop}
    (here : C p term value) (before : ∀ q t, C q t (f q t)) (q : P) (t : Int) :
    C q t (setAt f p term value q t) := by
  by_cases same : q = p ∧ t = term
  · obtain ⟨rfl, rfl⟩ := same
    rw [setAt_self]
    exact here
  · rw [setAt_ne _ _ same]
    exact before q t

/-- Setting a peer's value of its own term changes no other term. -/
theorem setAt_elsewhere {terms : P → Int} {p q : P} {t : Int} (value : α) (other : t ≠ terms q) :
    setAt f p (terms p) value q t = f q t := by
  apply setAt_ne
  rintro ⟨rfl, rfl⟩
  exact other rfl

end SetAt

/-- The logs of some peers, and what they have done in each term. -/
@[ext]
structure Replicas (P E : Type) where
  term : P → Int
  log : P → List E
  /-- The candidate a peer has voted for in a term. -/
  voted : P → Int → Option P
  /-- The log with which a peer stood in a term. -/
  bid : P → Int → List E
  leader : Int → Option P
  /-- The log that the leader of a term has built. -/
  termLog : Int → List E
  /-- The largest index up to which a peer has accepted the log of a term, -1 for none. -/
  accepted : P → Int → Int

variable {P E : Type} [DecidableEq P]

namespace Replicas

variable (r : Replicas P E)

/-- A peer gets to another term. -/
def raise (p : P) (term : Int) : Replicas P E :=
  { r with term := Function.update r.term p term }

/-- A peer gets to another term and votes for itself. -/
def stand (p : P) (term : Int) : Replicas P E :=
  { r with
    term := Function.update r.term p term
    voted := setAt r.voted p term (some p)
    bid := setAt r.bid p term (r.log p) }

/-- A peer votes for a candidate of its term. -/
def vote (p candidate : P) : Replicas P E :=
  { r with voted := setAt r.voted p (r.term p) (some candidate) }

/-- A peer becomes the leader of its term. -/
def lead (p : P) : Replicas P E :=
  { r with
    leader := Function.update r.leader (r.term p) (some p)
    termLog := Function.update r.termLog (r.term p) (r.log p)
    accepted := setAt r.accepted p (r.term p) ((r.log p).length - 1) }

/-- A leader appends an entry to its log. -/
def extend (p : P) (e : E) : Replicas P E :=
  { r with
    log := Function.update r.log p (r.log p ++ [e])
    termLog := Function.update r.termLog (r.term p) (r.log p ++ [e])
    accepted := setAt r.accepted p (r.term p) (r.log p).length }

/-- Take over the log of the current term up to index `j`, dropping everything else. -/
def accept (p : P) (j : Nat) : Replicas P E :=
  { r with
    log := Function.update r.log p ((r.termLog (r.term p)).take (j + 1))
    accepted := setAt r.accepted p (r.term p) (max (r.accepted p (r.term p)) j) }

/-- The peers that have voted for `candidate` in `term`. -/
def voters [Fintype P] (candidate : P) (term : Int) : Finset P :=
  Finset.univ.filter fun p => r.voted p term = some candidate

end Replicas

variable (termOf : E → Int)

/-- The candidate's log is at least as up to date as the voter's: a later last term, or the
    same one and at least the same length. -/
def UpToDate (candidate voter : List E) : Prop :=
  ∀ v ∈ voter.getLast?, ∃ c ∈ candidate.getLast?, termOf v < termOf c ∨
    (termOf v = termOf c ∧ voter.length ≤ candidate.length)

/-- The actions of the peers. `ok` restricts what may be accepted. -/
inductive Act [Fintype P] (ok : Replicas P E → P → Nat → Prop) (r : Replicas P E) :
    Replicas P E → Prop
  | raise {p : P} {term : Int} (le : r.term p ≤ term) : Act ok r (r.raise p term)
  | stand {p : P} {term : Int} (higher : r.term p < term) : Act ok r (r.stand p term)
  | vote {p candidate : P} (stood : r.term p ≤ r.term candidate)
      (upToDate : UpToDate termOf (r.bid candidate (r.term p)) (r.log p)) :
      Act ok r (r.vote p candidate)
  | lead {p : P} (vacant : r.leader (r.term p) = none) (positive : 0 < r.term p)
      (same : r.log p = r.bid p (r.term p)) (majority : Majority (r.voters p (r.term p))) :
      Act ok r (r.lead p)
  | extend {p : P} {e : E} (leads : r.leader (r.term p) = some p) (now : termOf e = r.term p) :
      Act ok r (r.extend p e)
  | accept {p leader : P} {j : Nat} (leads : r.leader (r.term p) = some leader)
      (other : leader ≠ p) (inside : j < (r.termLog (r.term p)).length) (allowed : ok r p j) :
      Act ok r (r.accept p j)

/-- All peers in term 0 with the log `[root]`. -/
def Replicas.start (root : E) : Replicas P E where
  term := fun _ => 0
  log := fun _ => [root]
  voted := fun _ _ => none
  bid := fun _ _ => []
  leader := fun _ => none
  termLog := fun term => if term = 0 then [root] else []
  accepted := fun _ _ => -1

/-! ## Coherence -/

/-- Every entry of the list came from the log of its term, with everything before it. -/
def Traced (termLog : Int → List E) (l : List E) : Prop :=
  ∀ i e, l[i]? = some e → Agree l (termLog (termOf e)) i

/-- The terms' logs: one for each led term, ordered, and each entry from the log of its own
    term. -/
structure TermLogs (root : E) (leader : Int → Option P) (termLog : Int → List E) : Prop where
  zero : termLog 0 = [root]
  vacant : ∀ term, leader term = none → term ≠ 0 → termLog term = []
  positive : ∀ term p, leader term = some p → 0 < term
  ordered : ∀ term, Ordered termOf (termLog term)
  bound : ∀ term, ∀ e ∈ termLog term, termOf e ≤ term
  traced : ∀ term, Traced termOf termLog (termLog term)

/-- The peers' logs are made of entries of the terms' logs, and the leader of its own term
    has its log. -/
structure Coherent (root : E) (r : Replicas P E) : Prop where
  termLogs : TermLogs termOf root r.leader r.termLog
  traced : ∀ p, Traced termOf r.termLog (r.log p)
  bound : ∀ p, ∀ e ∈ r.log p, termOf e ≤ r.term p
  reached : ∀ term p, r.leader term = some p → term ≤ r.term p
  own : ∀ p, r.leader (r.term p) = some p → r.log p = r.termLog (r.term p)
  bidTraced : ∀ p term, Traced termOf r.termLog (r.bid p term)
  bidBound : ∀ p term, ∀ e ∈ r.bid p term, termOf e < term
  bidPrefix : ∀ term p, r.leader term = some p → r.bid p term <+: r.termLog term
  suffix : ∀ term p, r.leader term = some p → ∀ i e, (r.bid p term).length ≤ i →
    (r.termLog term)[i]? = some e → termOf e = term

variable {termOf} {root : E} {termLog termLog' : Int → List E} {leader : Int → Option P}

section Traced

omit [DecidableEq P]

theorem Traced.mono {l : List E} (traced : Traced termOf termLog l)
    (grow : ∀ t, termLog t <+: termLog' t) : Traced termOf termLog' l :=
  fun i e found => (traced i e found).extend (grow _)

theorem Traced.of_isPrefix {l l' : List E} (traced : Traced termOf termLog l') (sub : l <+: l') :
    Traced termOf termLog l := by
  intro i e found
  have inside : i < l.length := (List.getElem?_eq_some_iff.mp found).1
  have agree := Agree.of_isPrefix sub inside
  exact agree.trans (traced i e ((agree.getElem? (le_refl i)).symm.trans found))

/-- A traced list ends in the log of its last entry's term. -/
theorem Traced.isPrefix {l : List E} {e : E} (traced : Traced termOf termLog l)
    (last : l.getLast? = some e) : l <+: termLog (termOf e) := by
  have nonempty : l ≠ [] := by
    rintro rfl
    cases last
  rw [List.getLast?_eq_getElem?] at last
  exact isPrefix_of_agree nonempty (traced _ e last)

theorem Traced.ordered {l : List E} (traced : Traced termOf termLog l)
    (ordered : ∀ t, Ordered termOf (termLog t)) : Ordered termOf l := by
  cases last : l.getLast? with
  | none =>
    rw [List.getLast?_eq_none_iff.mp last]
    exact List.Pairwise.nil
  | some e => exact (ordered _).of_isPrefix (traced.isPrefix last)

/-- A traced list is ordered if the log of a term has no later term in it. -/
theorem Traced.ordered_of_bound {l : List E} (traced : Traced termOf termLog l)
    (bound : ∀ t, ∀ e ∈ termLog t, termOf e ≤ t) : Ordered termOf l := by
  refine List.pairwise_iff_getElem.mpr fun i j inside inside' before => ?_
  have agree := traced j l[j] (List.getElem?_eq_getElem inside')
  have first := agree.getElem? before.le
  rw [List.getElem?_eq_getElem inside] at first
  exact bound _ _ (List.mem_of_getElem? first.symm)

/-- Two traced lists with entries of the same term at an index agree up to it. -/
theorem Traced.matching {l l' : List E} {i : Nat} {e e' : E} (traced : Traced termOf termLog l)
    (traced' : Traced termOf termLog l') (found : l[i]? = some e) (found' : l'[i]? = some e')
    (same : termOf e = termOf e') : Agree l l' i := by
  have first := traced i e found
  have second := traced' i e' found'
  rw [same] at first
  exact first.trans second.symm

end Traced

section TermLogs

omit [DecidableEq P]

/-- A term with an entry in a traced list is led, or is term 0. -/
theorem TermLogs.led {l : List E} {i : Nat} {e : E} (logs : TermLogs termOf root leader termLog)
    (traced : Traced termOf termLog l) (found : l[i]? = some e) (nonzero : termOf e ≠ 0) :
    ∃ p, leader (termOf e) = some p := by
  cases led : leader (termOf e) with
  | none =>
    have inside := (traced i e found).inside_right
    rw [logs.vacant _ led nonzero] at inside
    cases inside
  | some p => exact ⟨p, rfl⟩

/-- The log of a term that gets its leader. -/
theorem TermLogs.lead {term : Int} {p : P} {l : List E}
    (logs : TermLogs termOf root leader termLog) (vacant : leader term = none)
    (positive : 0 < term) (traced : Traced termOf termLog l) (bound : ∀ e ∈ l, termOf e ≤ term) :
    TermLogs termOf root (Function.update leader term (some p))
      (Function.update termLog term l) ∧ ∀ t, termLog t <+: Function.update termLog term l t := by
  have grow : ∀ t, termLog t <+: Function.update termLog term l t := by
    intro t
    by_cases here : t = term
    · subst here
      rw [logs.vacant t vacant (by omega)]
      exact List.nil_prefix
    · rw [Function.update_of_ne here]
  refine ⟨⟨?_, ?_, ?_, ?_, ?_, ?_⟩, grow⟩
  · rw [Function.update_of_ne (by omega)]
    exact logs.zero
  · intro t none nonzero
    by_cases here : t = term
    · subst here
      rw [Function.update_self] at none
      cases none
    · rw [Function.update_of_ne here] at none ⊢
      exact logs.vacant t none nonzero
  · apply (Function.forall_update_iff leader fun t led => ∀ q, led = some q → 0 < t).mpr
    exact ⟨fun _ _ => positive, fun t _ => logs.positive t⟩
  · apply (Function.forall_update_iff termLog fun _ l => Ordered termOf l).mpr
    exact ⟨traced.ordered logs.ordered, fun t _ => logs.ordered t⟩
  · apply (Function.forall_update_iff termLog fun t l => ∀ e ∈ l, termOf e ≤ t).mpr
    exact ⟨bound, fun t _ => logs.bound t⟩
  · apply (Function.forall_update_iff termLog fun _ l => Traced termOf _ l).mpr
    exact ⟨traced.mono grow, fun t _ => (logs.traced t).mono grow⟩

/-- The log of a term that its leader extends. -/
theorem TermLogs.extend {term : Int} {p : P} {e : E}
    (logs : TermLogs termOf root leader termLog) (leads : leader term = some p)
    (now : termOf e = term) :
    TermLogs termOf root leader (Function.update termLog term (termLog term ++ [e])) ∧
      ∀ t, termLog t <+: Function.update termLog term (termLog term ++ [e]) t := by
  have grow : ∀ t, termLog t <+: Function.update termLog term (termLog term ++ [e]) t := by
    intro t
    by_cases here : t = term
    · subst here
      rw [Function.update_self]
      exact List.prefix_append _ _
    · rw [Function.update_of_ne here]
  have positive := logs.positive term p leads
  refine ⟨⟨?_, ?_, logs.positive, ?_, ?_, ?_⟩, grow⟩
  · rw [Function.update_of_ne (by omega)]
    exact logs.zero
  · intro t none nonzero
    by_cases here : t = term
    · subst here
      rw [leads] at none
      cases none
    · rw [Function.update_of_ne here]
      exact logs.vacant t none nonzero
  · apply (Function.forall_update_iff termLog fun _ l => Ordered termOf l).mpr
    refine ⟨(logs.ordered term).concat fun a member => ?_, fun t _ => logs.ordered t⟩
    rw [now]
    exact logs.bound term a member
  · apply (Function.forall_update_iff termLog fun t l => ∀ a ∈ l, termOf a ≤ t).mpr
    refine ⟨fun a member => ?_, fun t _ => logs.bound t⟩
    rcases List.mem_append.mp member with old | new
    · exact logs.bound term a old
    · rw [List.mem_singleton.mp new, now]
  · apply (Function.forall_update_iff termLog fun _ l => Traced termOf _ l).mpr
    refine ⟨fun i a found => ?_, fun t _ => (logs.traced t).mono grow⟩
    rcases Nat.lt_or_ge i (termLog term).length with inside | atEnd
    · have agree := Agree.of_isPrefix (List.prefix_append (termLog term) [e]) inside
      have old := logs.traced term i a ((agree.getElem? (le_refl i)).trans found)
      exact agree.symm.trans (old.extend (grow _))
    · -- the new entry is the last one of its own term's log
      have bound : i < (termLog term ++ [e]).length := (List.getElem?_eq_some_iff.mp found).1
      rw [List.getElem?_append_right atEnd] at found
      have here := List.mem_singleton.mp (List.mem_of_getElem? found)
      rw [here, now, Function.update_self]
      exact Agree.refl bound

end TermLogs

end DistributedCloud.ReplicatedLog
