import DistributedCloud.ReplicatedLog.Growth

/-!
# What a majority has accepted stays

A peer that accepts must not lose agreement with the log of its term. Then an index of a
term's log that a majority has accepted in that term is in the log of every later leader: the
voters of a later leader and the acceptors share a peer, and its vote went to a log that is at
least as up to date as one that has the index.
-/

namespace DistributedCloud.ReplicatedLog

variable {P E : Type} {termOf : E → Int} {root : E} {r r' : Replicas P E}

/-- Accepting up to `j` keeps everything the peer's log shares with the log of its term. -/
def Keeps (r : Replicas P E) (p : P) (j : Nat) : Prop :=
  ∀ i, Agree (r.log p) (r.termLog (r.term p)) i → i ≤ j

variable (termOf) in
/-- Index `i` of the log of `term` has an entry of that term. -/
def OwnAt (r : Replicas P E) (term : Int) (i : Nat) : Prop :=
  ∃ e, (r.termLog term)[i]? = some e ∧ termOf e = term

/-- A leader of a later term does not have the log of `term` up to `i`. -/
structure Missed (r : Replicas P E) (term : Int) (i : Nat) (later : Int) : Prop where
  after : term < later
  led : ∃ p, r.leader later = some p
  misses : ¬ Agree (r.termLog term) (r.termLog later) i

namespace Extends

theorem ownAt_back (grows : Extends termOf r r') {term : Int} {i : Nat}
    (inside : i < (r.termLog term).length) (own : OwnAt termOf r' term i) : OwnAt termOf r term i := by
  obtain ⟨e, found, now⟩ := own
  exact ⟨e, ((Agree.of_isPrefix (grows.termLog term) inside).getElem? (le_refl i)).trans found, now⟩

theorem ownAt (grows : Extends termOf r r') {term : Int} {i : Nat} (own : OwnAt termOf r term i) :
    OwnAt termOf r' term i := by
  obtain ⟨e, found, now⟩ := own
  have inside := (List.getElem?_eq_some_iff.mp found).1
  have agree := Agree.of_isPrefix (grows.termLog term) inside
  exact ⟨e, (agree.getElem? (le_refl i)).symm.trans found, now⟩

/-- A later leader that misses an index never gets it: what it adds is of its own term. -/
theorem missed (grows : Extends termOf r r') {term later : Int} {i : Nat}
    (own : OwnAt termOf r term i) (missed : Missed r term i later) : Missed r' term i later := by
  obtain ⟨p, led⟩ := missed.led
  refine ⟨missed.after, ⟨p, grows.leader later p led⟩, fun agree => missed.misses ?_⟩
  obtain ⟨e, found, now⟩ := own
  have inside := (List.getElem?_eq_some_iff.mp found).1
  have grown := Agree.of_isPrefix (grows.termLog term) inside
  rcases Nat.lt_or_ge i (r.termLog later).length with short | beyond
  · exact (grown.trans agree).restrict (grows.termLog later) short
  · have added := ((grown.trans agree).getElem? (le_refl i)).symm.trans found
    have later' := grows.added later p led i e beyond added
    have after := missed.after
    omega

end Extends

/-! ## Votes -/

variable (termOf) in
/-- The list ends in a term after `term`, or in `term` itself and not before index `i`. -/
def UpTo (l : List E) (term : Int) (i : Nat) : Prop :=
  ∃ c, l.getLast? = some c ∧ (term < termOf c ∨ (termOf c = term ∧ i < l.length))

/-- A log at least as up to date as one that has the log of `term` up to `i`. -/
theorem UpToDate.upTo {candidate voter l : List E} {term : Int} {i : Nat} {e : E}
    (upToDate : UpToDate termOf candidate voter) (ordered : Ordered termOf voter)
    (agree : Agree l voter i) (found : l[i]? = some e) (now : termOf e = term) :
    UpTo termOf candidate term i := by
  have inside := agree.inside_right
  obtain ⟨v, last⟩ : ∃ v, voter.getLast? = some v := by
    rw [List.getLast?_eq_getElem?]
    exact ⟨_, List.getElem?_eq_getElem (by omega)⟩
  have here : voter[i]? = some e := (agree.getElem? (le_refl i)).symm.trans found
  have end' := last
  rw [List.getLast?_eq_getElem?] at end'
  have atLeast : term ≤ termOf v := now ▸ ordered.le here end' (by omega)
  obtain ⟨c, lastC, compare⟩ := upToDate v last
  refine ⟨c, lastC, ?_⟩
  rcases compare with later | ⟨same, longer⟩
  · exact Or.inl (by omega)
  · rcases atLeast.lt_or_eq with earlier | equal
    · exact Or.inl (by omega)
    · exact Or.inr ⟨by omega, by omega⟩

theorem upToDate_refl (l : List E) : UpToDate termOf l l :=
  fun v last => ⟨v, last, Or.inr ⟨rfl, le_refl _⟩⟩

variable (termOf) in
/-- What a vote in `term'` says about everything the voter accepted before: the log voted for
    is up to it, or a leader no later than `bound` has missed it. -/
def Backed (r : Replicas P E) (p : P) (term' : Int) (l : List E) (bound : Int) : Prop :=
  ∀ term (i : Nat), term < term' → (i : Int) ≤ r.accepted p term → OwnAt termOf r term i →
    UpTo termOf l term i ∨ ∃ later, later ≤ bound ∧ Missed r term i later

theorem Backed.grows {p : P} {term' bound : Int} {l : List E}
    (backed : Backed termOf r p term' l bound) (grows : Grows termOf r r')
    (accepting : Accepting r) (reached : term' ≤ r'.term p) : Backed termOf r' p term' l bound := by
  intro term i before le own
  rw [grows.frozen p term (by omega)] at le
  have inside : i < (r.termLog term).length := by
    have := accepting.inside p term
    omega
  have own' := grows.ownAt_back inside own
  rcases backed term i before le own' with upTo | ⟨later, bounded, missed⟩
  · exact Or.inl upTo
  · exact Or.inr ⟨later, bounded, grows.missed own' missed⟩

variable [Fintype P] in
variable (termOf) in
/-- What was accepted in the current term is held, what was accepted earlier is still held or
    has been missed by a later leader, votes are backed by what the voters accepted, and so is
    the election of every leader. -/
structure Lasting (r : Replicas P E) : Prop where
  now : ∀ p (i : Nat), (i : Int) ≤ r.accepted p (r.term p) →
    Agree (r.termLog (r.term p)) (r.log p) i
  held : ∀ p term (i : Nat), (i : Int) ≤ r.accepted p term → OwnAt termOf r term i →
    Agree (r.termLog term) (r.log p) i ∨ ∃ later, later ≤ r.term p ∧ Missed r term i later
  votes : ∀ p term c, r.voted p term = some c → term ≤ r.term p ∧ term ≤ r.term c ∧
    Backed termOf r p term (r.bid c term) term
  elections : ∀ term c, r.leader term = some c → ∃ Q : Finset P, Majority Q ∧
    ∀ p ∈ Q, term ≤ r.term p ∧ Backed termOf r p term (r.bid c term) (term - 1)

/-! ## The actions -/

section Actions

variable [DecidableEq P] [Fintype P]

/-- What a peer has accepted in its term stays in its log. -/
theorem now_act (coherent : Coherent termOf root r) (accepting : Accepting r)
    (lasting : Lasting termOf r) (act : Act termOf Keeps r r') (p : P) (i : Nat)
    (bound : (i : Int) ≤ r'.accepted p (r'.term p)) :
    Agree (r'.termLog (r'.term p)) (r'.log p) i := by
  have grows := grows_act coherent accepting act
  -- nothing changes for a peer that keeps its term and its log
  have carried : (i : Int) ≤ r.accepted p (r.term p) →
      Agree (r'.termLog (r.term p)) (r.log p) i := by
    intro le
    have agree := lasting.now p i le
    exact (Agree.of_isPrefix (grows.termLog _) agree.inside).symm.trans agree
  -- and a peer with a new term has accepted nothing in it
  have fresh : r'.accepted = r.accepted → r'.log = r.log →
      Agree (r'.termLog (r'.term p)) (r'.log p) i := by
    intro accepted log
    rw [accepted] at bound
    rcases (grows.term p).lt_or_eq with higher | same
    · have none := accepting.future p _ higher
      omega
    · rw [← same] at bound ⊢
      rw [log]
      exact carried bound
  cases act with
  | raise => exact fresh rfl rfl
  | stand => exact fresh rfl rfl
  | vote => exact fresh rfl rfl
  | @lead q vacant positive shape =>
    change (i : Int) ≤ setAt r.accepted q (r.term q) _ p (r.term p) at bound
    by_cases here : p = q ∧ r.term p = r.term q
    · obtain ⟨rfl, -⟩ := here
      rw [setAt_self] at bound
      simp only [Replicas.lead, Function.update_self]
      exact Agree.refl (by omega)
    · rw [setAt_ne _ _ here] at bound
      exact carried bound
  | @extend q e leads now =>
    change (i : Int) ≤ setAt r.accepted q (r.term q) _ p (r.term p) at bound
    by_cases same : p = q
    · subst same
      rw [setAt_self] at bound
      simp only [Replicas.extend, Function.update_self]
      refine Agree.refl ?_
      rw [List.length_append, List.length_singleton]
      omega
    · rw [setAt_ne _ _ (fun both => same both.1)] at bound
      have agree := carried bound
      simp only [Replicas.extend, Function.update_of_ne same]
      exact agree
  | @accept q leader j leads other within keeps =>
    change (i : Int) ≤ setAt r.accepted q (r.term q) _ p (r.term p) at bound
    by_cases same : p = q
    · subst same
      have reach : r.accepted p (r.term p) ≤ j := by
        rcases Int.lt_or_le (r.accepted p (r.term p)) 0 with none | some
        · omega
        · obtain ⟨a, accepted⟩ := Int.eq_ofNat_of_zero_le some
          have agree := lasting.now p a (by omega)
          have := keeps a agree.symm
          omega
      rw [setAt_self] at bound
      simp only [Replicas.accept, Function.update_self]
      exact (Agree.take (by omega) (by omega)).symm
    · rw [setAt_ne _ _ (fun both => same both.1)] at bound
      have agree := carried bound
      simp only [Replicas.accept, Function.update_of_ne same]
      exact agree

omit [DecidableEq P] in
/-- A vote for a log at least as up to date as the peer's own is backed. -/
theorem Lasting.backed (coherent : Coherent termOf root r) (lasting : Lasting termOf r) {p : P}
    {l : List E} (upToDate : UpToDate termOf l (r.log p)) (term' : Int) :
    Backed termOf r p term' l (r.term p) := by
  intro term i _ le own
  rcases lasting.held p term i le own with agree | missed
  · obtain ⟨e, found, now⟩ := own
    have ordered := (coherent.traced p).ordered coherent.termLogs.ordered
    exact Or.inl (upToDate.upTo ordered agree found now)
  · exact Or.inr missed

/-- What a peer shares with the log of an earlier term, it keeps or its new leader misses. -/
theorem agree_act (act : Act termOf Keeps r r') {p : P} {term : Int} {i : Nat}
    (agree : Agree (r.termLog term) (r.log p) i) (before : term < r'.term p) :
    Agree (r.termLog term) (r'.log p) i ∨ Missed r term i (r.term p) := by
  cases act with
  | raise | stand | vote | lead => exact Or.inl agree
  | @extend q e leads now =>
    refine Or.inl (agree.extend ?_)
    by_cases same : p = q
    · subst same
      simp only [Replicas.extend, Function.update_self]
      exact List.prefix_append _ _
    · simp only [Replicas.extend, Function.update_of_ne same]
      exact List.prefix_refl _
  | @accept q leader j leads other within keeps =>
    by_cases same : p = q
    · subst same
      simp only [Replicas.accept, Function.update_self]
      by_cases shared : Agree (r.termLog term) (r.termLog (r.term p)) i
      · have le := keeps i (agree.symm.trans shared)
        exact Or.inl (shared.trans (Agree.take shared.inside_right le).symm)
      · exact Or.inr ⟨before, ⟨leader, leads⟩, shared⟩
    · simp only [Replicas.accept, Function.update_of_ne same]
      exact Or.inl agree

/-- The votes after an action: those from before, and at most one that is backed. -/
theorem voted_act (coherent : Coherent termOf root r) (lasting : Lasting termOf r)
    (act : Act termOf Keeps r r') {p c : P} {term : Int} (voted : r'.voted p term = some c) :
    r.voted p term = some c ∨
      (term = r'.term p ∧ term ≤ r'.term c ∧ Backed termOf r p term (r'.bid c term) term) := by
  cases act with
  | raise | lead | extend | accept => exact Or.inl voted
  | @stand q t higher =>
    by_cases here : p = q ∧ term = t
    · obtain ⟨rfl, rfl⟩ := here
      simp only [Replicas.stand, setAt_self, Option.some.injEq] at voted
      subst voted
      refine Or.inr ⟨?_, ?_, ?_⟩
      · simp [Replicas.stand]
      · simp [Replicas.stand]
      · simp only [Replicas.stand, setAt_self]
        intro t i before le own
        rcases lasting.backed coherent (upToDate_refl _) term t i before le own with
          upTo | ⟨later, bound, missed⟩
        · exact Or.inl upTo
        · exact Or.inr ⟨later, by omega, missed⟩
    · simp only [Replicas.stand, setAt_ne _ _ here] at voted
      exact Or.inl voted
  | @vote q candidate stood upToDate =>
    by_cases here : p = q ∧ term = r.term q
    · obtain ⟨rfl, rfl⟩ := here
      simp only [Replicas.vote, setAt_self, Option.some.injEq] at voted
      subst voted
      exact Or.inr ⟨rfl, stood, lasting.backed coherent upToDate _⟩
    · simp only [Replicas.vote, setAt_ne _ _ here] at voted
      exact Or.inl voted

/-- The leaders after an action: those from before, and at most one with a majority. -/
theorem leader_act {ok : Replicas P E → P → Nat → Prop} (act : Act termOf ok r r') {c : P}
    {term : Int} (leads : r'.leader term = some c) :
    r.leader term = some c ∨ (r.leader term = none ∧ Majority (r.voters c term)) := by
  cases act with
  | raise | stand | vote | extend | accept => exact Or.inl leads
  | @lead p vacant positive shape majority =>
    by_cases here : term = r.term p
    · subst here
      simp only [Replicas.lead, Function.update_self, Option.some.injEq] at leads
      subst leads
      exact Or.inr ⟨vacant, majority⟩
    · simp only [Replicas.lead, Function.update_of_ne here] at leads
      exact Or.inl leads

omit [DecidableEq P] [Fintype P] in
/-- In a term without a leader, the ones that missed an entry are of earlier terms. -/
theorem Backed.vacant {p : P} {term : Int} {l : List E} (backed : Backed termOf r p term l term)
    (vacant : r.leader term = none) : Backed termOf r p term l (term - 1) := by
  intro t i before le own
  rcases backed t i before le own with upTo | ⟨later, bound, missed⟩
  · exact Or.inl upTo
  · have other : later ≠ term := by
      rintro rfl
      obtain ⟨q, led⟩ := missed.led
      rw [vacant] at led
      cases led
    exact Or.inr ⟨later, by omega, missed⟩

theorem lasting_act (coherent : Coherent termOf root r) (accepting : Accepting r)
    (lasting : Lasting termOf r) (act : Act termOf Keeps r r') : Lasting termOf r' := by
  have grows := grows_act coherent accepting act
  have accepting' := accepting_act coherent accepting act
  have now := now_act coherent accepting lasting act
  refine ⟨now, ?_, ?_, ?_⟩
  · intro p term i le own
    rcases lt_trichotomy term (r'.term p) with before | rfl | after
    · rw [grows.frozen p term before] at le
      have within : i < (r.termLog term).length := by
        have := accepting.inside p term
        omega
      have own' := grows.ownAt_back within own
      have grown := Agree.of_isPrefix (grows.termLog term) within
      have missing : ∀ later, later ≤ r.term p → Missed r term i later →
          ∃ later, later ≤ r'.term p ∧ Missed r' term i later := fun later bound missed =>
        ⟨later, le_trans bound (grows.term p), grows.missed own' missed⟩
      rcases lasting.held p term i le own' with agree | ⟨later, bound, missed⟩
      · rcases agree_act act agree before with kept | missed
        · exact Or.inl (grown.symm.trans kept)
        · exact Or.inr (missing _ (le_refl _) missed)
      · exact Or.inr (missing later bound missed)
    · exact Or.inl (now p i le)
    · have none := accepting'.future p term after
      omega
  · intro p term c voted
    rcases voted_act coherent lasting act voted with old | ⟨now, reached, backed⟩
    · obtain ⟨reached, stood, backed⟩ := lasting.votes p term c old
      have up := grows.term p
      refine ⟨by omega, le_trans stood (grows.term c), ?_⟩
      rw [grows.bid c term stood]
      exact backed.grows grows accepting (by omega)
    · exact ⟨now.le, reached, backed.grows grows accepting now.le⟩
  · intro term c leads
    rcases leader_act act leads with old | ⟨vacant, majority⟩
    · obtain ⟨Q, majority, voters⟩ := lasting.elections term c old
      refine ⟨Q, majority, fun p member => ?_⟩
      obtain ⟨reached, backed⟩ := voters p member
      have up := grows.term p
      refine ⟨by omega, ?_⟩
      rw [grows.bid c term (coherent.reached term c old)]
      exact backed.grows grows accepting (by omega)
    · refine ⟨_, majority, fun p member => ?_⟩
      have voted : r.voted p term = some c := (Finset.mem_filter.mp member).2
      obtain ⟨reached, stood, backed⟩ := lasting.votes p term c voted
      have up := grows.term p
      refine ⟨by omega, ?_⟩
      rw [grows.bid c term stood]
      exact (backed.vacant vacant).grows grows accepting (by omega)

end Actions

/-! ## Leader completeness -/

section Completeness

variable [Fintype P]

/-- The peers that have accepted the log of `term` up to `i`. -/
def acceptors (r : Replicas P E) (term : Int) (i : Nat) : Finset P :=
  Finset.univ.filter fun p => (i : Int) ≤ r.accepted p term

variable (termOf) in
/-- A majority has accepted, in its own term, an entry that the leader of the term added. -/
structure Committed (r : Replicas P E) (term : Int) (i : Nat) : Prop where
  own : OwnAt termOf r term i
  majority : Majority (acceptors r term i)

omit [Fintype P] in
theorem OwnAt.nonneg (coherent : Coherent termOf root r) {term : Int} {i : Nat}
    (own : OwnAt termOf r term i) : 0 ≤ term := by
  obtain ⟨e, found, now⟩ := own
  by_cases zero : term = 0
  · exact zero.ge
  · obtain ⟨p, led⟩ := coherent.termLogs.led (coherent.termLogs.traced term) found (by omega)
    rw [now] at led
    exact (coherent.termLogs.positive term p led).le

omit [Fintype P] in
/-- A candidate's log that is up to a committed index has it, if every leader in between has. -/
theorem UpTo.agree (coherent : Coherent termOf root r) {c : P} {term term' : Int} {i : Nat}
    (own : OwnAt termOf r term i) (upTo : UpTo termOf (r.bid c term') term i)
    (between : ∀ later p, term < later → later < term' → r.leader later = some p →
      Agree (r.termLog term) (r.termLog later) i) :
    Agree (r.termLog term) (r.bid c term') i := by
  have nonneg := own.nonneg coherent
  obtain ⟨e, found, now⟩ := own
  obtain ⟨last, atEnd, compare⟩ := upTo
  have sub := (coherent.bidTraced c term').isPrefix atEnd
  rw [List.getLast?_eq_getElem?] at atEnd
  rcases compare with later | ⟨same, inside⟩
  · obtain ⟨p, led⟩ := coherent.termLogs.led (coherent.bidTraced c term') atEnd (by omega)
    have earlier := coherent.bidBound c term' last (List.mem_of_getElem? atEnd)
    have agree := between _ p later earlier led
    refine agree.restrict sub ?_
    -- the last entry of the bid is of a later term than entry `i`, so it comes after it
    by_contra outside
    have here := (agree.getElem? (le_refl i)).symm.trans found
    have bound := (List.getElem?_eq_some_iff.mp atEnd).1
    have atLast := ((Agree.of_isPrefix sub bound).getElem? (le_refl _)).symm.trans atEnd
    have order := (coherent.termLogs.ordered _).le atLast here (by omega)
    omega
  · rw [same] at sub
    exact (Agree.of_isPrefix sub inside).symm

/-- The leaders of all later terms have every committed index. -/
theorem Committed.complete [DecidableEq P] (coherent : Coherent termOf root r)
    (lasting : Lasting termOf r) {term : Int} {i : Nat} (committed : Committed termOf r term i) :
    ∀ (gap : Nat) (term' : Int) (c : P), term' = term + 1 + gap → r.leader term' = some c →
      Agree (r.termLog term) (r.termLog term') i := by
  intro gap
  induction gap using Nat.strong_induction_on with
  | _ gap ih =>
    intro term' c distance leads
    have between : ∀ later p, term < later → later < term' → r.leader later = some p →
        Agree (r.termLog term) (r.termLog later) i := by
      intro later p after before led
      exact ih (later - term - 1).toNat (by omega) later p (by omega) led
    -- a peer that has accepted the index and voted for the leader
    obtain ⟨Q, majority, voters⟩ := lasting.elections term' c leads
    obtain ⟨p, accepts, votes⟩ := committed.majority.inter majority
    have accepted : (i : Int) ≤ r.accepted p term := (Finset.mem_filter.mp accepts).2
    obtain ⟨-, backed⟩ := voters p votes
    rcases backed term i (by omega) accepted committed.own with upTo | ⟨later, bound, missed⟩
    · exact (upTo.agree coherent committed.own between).extend (coherent.bidPrefix term' c leads)
    · obtain ⟨q, led⟩ := missed.led
      exact absurd (between later q missed.after (by omega) led) missed.misses

theorem Committed.agree [DecidableEq P] (coherent : Coherent termOf root r)
    (lasting : Lasting termOf r) {term term' : Int} {i : Nat} {c : P}
    (committed : Committed termOf r term i) (le : term ≤ term') (leads : r.leader term' = some c) :
    Agree (r.termLog term) (r.termLog term') i := by
  rcases le.lt_or_eq with before | rfl
  · exact committed.complete coherent lasting (term' - term - 1).toNat term' c (by omega) leads
  · obtain ⟨e, found, -⟩ := committed.own
    exact Agree.refl (List.getElem?_eq_some_iff.mp found).1

variable (termOf) in
/-- The entry stands at index `k` of a term's log that is committed at `k` or after it. -/
def ChosenAt (r : Replicas P E) (k : Nat) (e : E) : Prop :=
  ∃ term i, Committed termOf r term i ∧ k ≤ i ∧ (r.termLog term)[k]? = some e

/-- No two entries are chosen for one index. -/
theorem chosenAt_unique [DecidableEq P] (coherent : Coherent termOf root r)
    (lasting : Lasting termOf r) {k : Nat} {e e' : E} (first : ChosenAt termOf r k e)
    (second : ChosenAt termOf r k e') : e = e' := by
  have main : ∀ {a b : E} {s t : Int} {i j : Nat}, Committed termOf r s i → k ≤ i →
      (r.termLog s)[k]? = some a → Committed termOf r t j → (r.termLog t)[k]? = some b → s ≤ t →
      a = b := by
    intro a b s t i j committed le found committed' found' order
    have agree : Agree (r.termLog s) (r.termLog t) i := by
      rcases order.lt_or_eq with before | rfl
      · have nonneg := committed.own.nonneg coherent
        obtain ⟨e, inLog, now⟩ := committed'.own
        obtain ⟨p, led⟩ := coherent.termLogs.led (coherent.termLogs.traced t) inLog (by omega)
        rw [now] at led
        exact committed.agree coherent lasting order led
      · obtain ⟨e, inLog, -⟩ := committed.own
        exact Agree.refl (List.getElem?_eq_some_iff.mp inLog).1
    have same := agree.getElem? le
    rw [found, found'] at same
    exact Option.some.inj same
  obtain ⟨s, i, committed, le, found⟩ := first
  obtain ⟨t, j, committed', le', found'⟩ := second
  rcases le_total s t with order | order
  · exact main committed le found committed' found' order
  · exact (main committed' le' found' committed found order).symm

end Completeness

/-! ## Committed logs -/

section Commit

variable [Fintype P]

variable (termOf) in
/-- Index `c` is covered by what is committed in the terms up to `term`. -/
def CommittedBy (r : Replicas P E) (term : Int) (c : Nat) : Prop :=
  ∃ t i, Committed termOf r t i ∧ t ≤ term ∧ c ≤ i

variable (termOf) in
/-- The peer's log is committed up to `c`. -/
def HoldsCommitted (r : Replicas P E) (p : P) (c : Nat) : Prop :=
  ∃ t i, Committed termOf r t i ∧ t ≤ r.term p ∧ c ≤ i ∧ Agree (r.log p) (r.termLog t) c

theorem CommittedBy.mono {term : Int} {c c' : Nat} (committed : CommittedBy termOf r term c)
    (le : c' ≤ c) : CommittedBy termOf r term c' := by
  obtain ⟨t, i, at', earlier, within⟩ := committed
  exact ⟨t, i, at', earlier, le_trans le within⟩

theorem HoldsCommitted.committedBy {p : P} {c : Nat} (holds : HoldsCommitted termOf r p c) :
    CommittedBy termOf r (r.term p) c := by
  obtain ⟨t, i, committed, le, within, -⟩ := holds
  exact ⟨t, i, committed, le, within⟩

theorem HoldsCommitted.chosen {p : P} {c k : Nat} {e : E} (holds : HoldsCommitted termOf r p c)
    (le : k ≤ c) (found : (r.log p)[k]? = some e) : ChosenAt termOf r k e := by
  obtain ⟨t, i, committed, -, within, agree⟩ := holds
  exact ⟨t, i, committed, le_trans le within, (agree.getElem? le).symm.trans found⟩

theorem Committed.extends {term : Int} {i : Nat} (committed : Committed termOf r term i)
    (grows : Extends termOf r r') : Committed termOf r' term i := by
  refine ⟨grows.ownAt committed.own, committed.majority.mono ?_⟩
  intro p accepts
  simp only [acceptors, Finset.mem_filter, Finset.mem_univ, true_and] at accepts ⊢
  exact le_trans accepts (grows.accepted p term)

theorem CommittedBy.extends {term : Int} {c : Nat} (committed : CommittedBy termOf r term c)
    (grows : Extends termOf r r') : CommittedBy termOf r' term c := by
  obtain ⟨t, i, at', le, within⟩ := committed
  exact ⟨t, i, at'.extends grows, le, within⟩

theorem ChosenAt.extends {k : Nat} {e : E} (chosen : ChosenAt termOf r k e)
    (grows : Extends termOf r r') : ChosenAt termOf r' k e := by
  obtain ⟨t, i, committed, le, found⟩ := chosen
  have inside := (List.getElem?_eq_some_iff.mp found).1
  have agree := Agree.of_isPrefix (grows.termLog t) inside
  exact ⟨t, i, committed.extends grows, le, (agree.getElem? (le_refl k)).symm.trans found⟩

variable [DecidableEq P]

/-- A peer whose log is that of its term up to `c` holds what is committed there. -/
theorem CommittedBy.holds (coherent : Coherent termOf root r) (lasting : Lasting termOf r)
    {p leader : P} {c : Nat} (committed : CommittedBy termOf r (r.term p) c)
    (leads : r.leader (r.term p) = some leader)
    (agree : Agree (r.log p) (r.termLog (r.term p)) c) : HoldsCommitted termOf r p c := by
  obtain ⟨t, i, at', le, within⟩ := committed
  have shared := (at'.agree coherent lasting le leads).mono within
  exact ⟨t, i, at', le, within, agree.trans shared.symm⟩

/-- What a peer holds of the committed log, no action takes away. -/
theorem HoldsCommitted.act (coherent : Coherent termOf root r) (accepting : Accepting r)
    (lasting : Lasting termOf r) (act : Act termOf Keeps r r') {p : P} {c : Nat}
    (holds : HoldsCommitted termOf r p c) : HoldsCommitted termOf r' p c := by
  have grows := grows_act coherent accepting act
  obtain ⟨t, i, committed, le, within, agree⟩ := holds
  have up := grows.term p
  refine ⟨t, i, committed.extends grows.toExtends, by omega, within, ?_⟩
  have kept : Agree (r'.log p) (r.termLog t) c := by
    cases act with
    | raise | stand | vote | lead => exact agree
    | @extend q e leads now =>
      by_cases same : p = q
      · subst same
        simp only [Replicas.extend, Function.update_self]
        exact (Agree.of_isPrefix (List.prefix_append _ _) agree.inside).symm.trans agree
      · simp only [Replicas.extend, Function.update_of_ne same]
        exact agree
    | @accept q leader j leads other inside keeps =>
      by_cases same : p = q
      · subst same
        -- the leader of the peer's term has the committed log, so the peer keeps it
        have shared := (committed.agree coherent lasting le leads).mono within
        have reach := keeps c (agree.trans shared)
        simp only [Replicas.accept, Function.update_self]
        exact (Agree.take shared.inside_right reach).trans shared.symm
      · simp only [Replicas.accept, Function.update_of_ne same]
        exact agree
  exact kept.extend (grows.termLog t)

end Commit

/-! ## Runs -/

section Runs

variable [DecidableEq P] [Fintype P]

omit [DecidableEq P] in
theorem lasting_start (root : E) : Lasting termOf (Replicas.start root : Replicas P E) := by
  refine ⟨?_, ?_, by simp [Replicas.start], by simp [Replicas.start]⟩
  · intro p i bound
    change (i : Int) ≤ -1 at bound
    omega
  · intro p term i bound
    change (i : Int) ≤ -1 at bound
    omega

variable (termOf root) in
/-- The invariants of runs in which every accept keeps agreement. -/
structure Sound (r : Replicas P E) : Prop extends Formed termOf root r where
  lasting : Lasting termOf r

theorem Sound.act (sound : Sound termOf root r) (act : Act termOf Keeps r r') :
    Sound termOf root r' :=
  ⟨sound.toFormed.act act, lasting_act sound.coherent sound.accepting sound.lasting act⟩

theorem Sound.acts (sound : Sound termOf root r)
    (acts : Relation.ReflTransGen (Act termOf Keeps) r r') : Sound termOf root r' := by
  induction acts with
  | refl => exact sound
  | tail _ act ih => exact ih.act act

theorem HoldsCommitted.acts (sound : Sound termOf root r)
    (acts : Relation.ReflTransGen (Act termOf Keeps) r r') {p : P} {c : Nat}
    (holds : HoldsCommitted termOf r p c) : HoldsCommitted termOf r' p c := by
  induction acts with
  | refl => exact holds
  | tail before act ih =>
    have here := sound.acts before
    exact ih.act here.coherent here.accepting here.lasting act

end Runs

end DistributedCloud.ReplicatedLog
