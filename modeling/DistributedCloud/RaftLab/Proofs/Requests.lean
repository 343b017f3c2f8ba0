import DistributedCloud.RaftLab.Proofs.Abstraction
import DistributedCloud.RaftLab.Proofs.Senders

/-!
# Requests, rejections and where they lead

Invariants of the runs in which every `AppendEntries` request is built by a leader. A request
of a term repeats a part of the log of that term, or probes past its end. A leader that backs
up after rejections never backs up before the place where the follower's log leaves its own;
so the second branch of the log update never appends entries twice, and a peer that accepts a
request takes over the log of the term up to the request's end.
-/

namespace DistributedCloud.RaftLab

open ReplicatedLog (Replicas Coherent Accepting Formed Act Agree Traced Ordered Covered)

variable {n : Nat} {Byte Command : Type}

/-- The step does not build a request at a peer that is not the leader. -/
def SentByLeader (w : World n Byte Command) : Event n Command → Prop
  | .send peer _ => (w.rf peer).whoami = .leader
  | _ => True

instance (w : World n Byte Command) (e : Event n Command) : Decidable (SentByLeader w e) :=
  match e with
  | .send peer _ => inferInstanceAs (Decidable ((w.rf peer).whoami = .leader))
  | .election _ | .start _ _ | .heartbeat _ _ | .replicate _ _ | .requestVote _
  | .requestVoteReply _ | .appendEntries _ | .appendEntriesReply _ | .applyTake _ _ | .applySend _
  | .applyDone _ | .crash _ => isTrue trivial

/-- What a request of a term may carry, given the log of the term and the length of the log its
    leader was elected with. -/
inductive RequestShape (termLog : List (LogEntries Command)) (base : Nat)
    (args : AppendEntriesArgs Command) : Prop
  | inside {p : Nat} (prev : args.prevLogIndex = p) (bound : p < termLog.length)
      (term : args.prevLogTerm = termAt termLog p) (items : args.items <+: termLog.drop (p + 1))
  | probe (positive : 1 ≤ args.prevLogIndex) (beyond : (base : Int) ≤ args.prevLogIndex)
      (term : args.prevLogTerm = 0) (items : args.items = [])

/-- A request comes from the leader of its term and goes to another peer. -/
structure Request (h : History n Command)
    (call : Call n (AppendEntriesArgs Command) AppendEntriesReply) : Prop where
  leader : h.leader call.args.term = some call.caller
  other : call.server ≠ call.caller
  shape : RequestShape (h.termLog call.args.term) (h.bid call.caller call.args.term).length
    call.args

/-- A rejection that says where the log `log` leaves that of the request. -/
inductive Rejection (log : List (LogEntries Command)) (args : AppendEntriesArgs Command)
    (reply : AppendEntriesReply) : Prop
  | short (failed : reply.success = false) (beyond : lastLogIndex log < args.prevLogIndex)
      (conflictTerm : reply.conflictTerm = -1) (conflictIndex : reply.conflictIndex = log.length)
  | mismatch (failed : reply.success = false) (within : args.prevLogIndex ≤ lastLogIndex log)
      (differs : args.prevLogTerm ≠ termAt log args.prevLogIndex)
      (conflictTerm : reply.conflictTerm = termAt log args.prevLogIndex)
      (scanned : conflictIndexOf log (termAt log args.prevLogIndex) args.prevLogIndex =
        some reply.conflictIndex)

/-- As long as the follower has accepted nothing in the term of a request, the request does not
    look before the place where its log leaves the leader's, and a reply to it rejects it. -/
structure Probing (w : World n Byte Command) (h : History n Command)
    (call : Call n (AppendEntriesArgs Command) AppendEntriesReply) : Prop where
  answered : ∀ reply, call.reply = some reply →
    call.args.term ≤ (w.rf call.server).currentTerm
  covered : h.accepted call.server call.args.term = -1 →
    Covered (replicas w h) call.caller call.args.term call.server call.args.prevLogIndex
  rejected : h.accepted call.server call.args.term = -1 →
    (w.rf call.server).currentTerm = call.args.term → ∀ reply, call.reply = some reply →
    Rejection (w.rf call.server).log call.args reply

/-- What a vote request says about the log its sender stood with. -/
structure VoteBid (h : History n Command) (call : Call n RequestVoteArgs RequestVoteReply) :
    Prop where
  nonempty : h.bid call.caller call.args.term ≠ []
  index : call.args.lastLogIndex = lastLogIndex (h.bid call.caller call.args.term)
  term : call.args.lastLogTerm = termAt (h.bid call.caller call.args.term)
    (lastLogIndex (h.bid call.caller call.args.term))

/-- A candidate has not led its term, and until somebody does it has the log it stood with. -/
structure Standing (w : World n Byte Command) (h : History n Command) (p : Fin n) : Prop where
  fresh : h.leader (w.rf p).currentTerm ≠ some p
  bid : h.leader (w.rf p).currentTerm = none → (w.rf p).log = h.bid p (w.rf p).currentTerm

variable [Zero Command]

/-- The logs are formed as in the abstract system, and candidates, leaders and requests have what
    they say about them. -/
structure Replicating (w : World n Byte Command) (h : History n Command) : Prop where
  formed : Formed LogEntries.term sentinel (replicas w h)
  standing : ∀ p, (w.rf p).whoami = .candidate → Standing w h p
  bids : ∀ call ∈ w.votes, VoteBid h call
  requests : ∀ call ∈ w.appends, Request h call
  probing : ∀ call ∈ w.appends, Probing w h call
  next : ∀ p f, (w.rf p).whoami = .leader → f ≠ p →
    h.accepted f (w.rf p).currentTerm = -1 →
    Covered (replicas w h) p (w.rf p).currentTerm f ((w.rf p).nextIndex f - 1)

/-! ## Logs by their terms -/

section Logs

omit [Zero Command]

theorem exists_termAt {log : List (LogEntries Command)} {i : Nat} (inside : i < log.length) :
    ∃ e, log[i]? = some e ∧ termAt log i = e.term :=
  ⟨_, List.getElem?_eq_getElem inside, termAt_of_getElem? (List.getElem?_eq_getElem inside)⟩

theorem termAt_eq_of_agree {l l' : List (LogEntries Command)} {i j : Nat} (agree : Agree l l' i)
    (le : j ≤ i) : termAt l j = termAt l' j := by
  simp only [termAt, goIndex_natCast, agree.getElem? le]

theorem agree_of_termAt {termLog : Int → List (LogEntries Command)}
    {l l' : List (LogEntries Command)} {i : Nat} (traced : Traced LogEntries.term termLog l)
    (traced' : Traced LogEntries.term termLog l') (inside : i < l.length)
    (inside' : i < l'.length) (same : termAt l i = termAt l' i) : Agree l l' i := by
  obtain ⟨e, found, term⟩ := exists_termAt inside
  obtain ⟨e', found', term'⟩ := exists_termAt inside'
  exact traced.matching traced' found found' (by rw [← term, ← term', same])

theorem termAt_le_of_ordered {l : List (LogEntries Command)} (ordered : Ordered LogEntries.term l)
    {i j : Nat} (le : i ≤ j) (inside : j < l.length) : termAt l i ≤ termAt l j := by
  obtain ⟨e, found, term⟩ := exists_termAt (lt_of_le_of_lt le inside)
  obtain ⟨e', found', term'⟩ := exists_termAt inside
  rw [term, term']
  exact ordered.le found found' le

/-- Replacing what follows an index on which two logs agree by what follows in the other. -/
theorem take_append_of_agree {l l' items : List (LogEntries Command)} {p : Nat}
    (agree : Agree l l' p) (sub : items <+: l'.drop (p + 1)) :
    l.take (p + 1) ++ items = l'.take (p + items.length + 1) := by
  have front : l.take (p + 1) = l'.take (p + 1) := by
    refine List.ext_getElem? fun i => ?_
    rw [List.getElem?_take, List.getElem?_take]
    split
    · exact agree.getElem? (by omega)
    · rfl
  have back : items = (l'.drop (p + 1)).take items.length := List.prefix_iff_eq_take.mp sub
  have whole : l'.take (p + 1 + items.length) =
      l'.take (p + 1) ++ (l'.drop (p + 1)).take items.length := List.take_add
  rw [front, show p + items.length + 1 = p + 1 + items.length by omega, whole, ← back]

end Logs

/-! ## Accepting a request -/

section Accepting

variable {w : World n Byte Command} {h : History n Command}
  {call : Call n (AppendEntriesArgs Command) AppendEntriesReply}

/-- The logs that a request meets: nothing in the receiver's log beyond `prevLogIndex` is also
    in the leader's, unless the receiver has accepted in the term before. -/
theorem Replicating.agree_le (inv : Replicating w h) (member : call ∈ w.appends)
    (current : (w.rf call.server).currentTerm ≤ call.args.term)
    (nothing : h.accepted call.server call.args.term = -1) {j : Nat}
    (agree : Agree (w.rf call.server).log (h.termLog call.args.term) j) :
    (j : Int) ≤ call.args.prevLogIndex := by
  have covered := (inv.probing call member).covered nothing
  rcases current.lt_or_eq with behind | reached
  · have bound := covered.behind behind
    have request := inv.requests call member
    have inBid := inv.formed.coherent.agree_lt_bid request.leader
      (fun e inLog => lt_of_le_of_lt (inv.formed.coherent.bound _ e inLog) behind) agree
    change ((h.bid call.caller call.args.term).length : Int) ≤ _ at bound
    change j < (h.bid call.caller call.args.term).length at inBid
    omega
  · exact (covered.reached reached j agree).1

omit [Zero Command] in
/-- The terms of a request's entries are those of the log of its term. -/
theorem termAt_items {termLog items : List (LogEntries Command)} {p k : Nat}
    (sub : items <+: termLog.drop (p + 1)) (inside : k < items.length) :
    termAt items k = termAt termLog (p + 1 + k : Nat) := by
  rw [termAt_eq_of_agree (Agree.of_isPrefix sub inside) (le_refl k)]
  simp only [termAt, goIndex_natCast, List.getElem?_drop]

/-- No entry of a request conflicts with the receiver's log right after entries that do not:
    those would be shared by the two logs, beyond what the request was sent for. -/
theorem Replicating.no_conflict (inv : Replicating w h) (member : call ∈ w.appends)
    (current : (w.rf call.server).currentTerm ≤ call.args.term) {p i : Nat}
    (prev : call.args.prevLogIndex = p)
    (items : call.args.items <+: (h.termLog call.args.term).drop (p + 1)) (positive : 0 < i)
    (inItems : i < call.args.items.length) (inLog : p + 1 + i < (w.rf call.server).log.length)
    (same : ∀ k, k < i → termAt (w.rf call.server).log (p + 1 + k : Nat) =
      termAt call.args.items k) :
    termAt (w.rf call.server).log (p + 1 + i : Nat) = termAt call.args.items i := by
  have length : p + 1 + i < (h.termLog call.args.term).length := by
    have := items.length_le
    rw [List.length_drop] at this
    omega
  rcases Int.lt_or_le (h.accepted call.server call.args.term) 0 with none | some
  · exfalso
    have least : -1 ≤ h.accepted call.server call.args.term :=
      inv.formed.accepting.least call.server call.args.term
    have before := same (i - 1) (by omega)
    rw [termAt_items items (by omega)] at before
    have further : Agree (w.rf call.server).log (h.termLog call.args.term) (p + 1 + (i - 1)) :=
      agree_of_termAt (inv.formed.coherent.traced call.server)
        (inv.formed.coherent.termLogs.traced call.args.term) (by omega) (by omega) before
    have bounded := inv.agree_le member current (by omega) further
    omega
  · have now : (w.rf call.server).currentTerm = call.args.term := by
      by_contra other
      have future : h.accepted call.server call.args.term = -1 :=
        inv.formed.accepting.future call.server call.args.term (lt_of_le_of_ne current other)
      omega
    have follows := inv.formed.accepting.follows call.server
      (by rw [replicas_term, now]; exact some)
    rw [replicas_term, now] at follows
    rw [termAt_items items inItems]
    exact termAt_eq_of_agree (Agree.of_isPrefix follows inLog) (le_refl _)

/-- A peer that accepts a request takes over the log of the term up to the request's end. -/
theorem Replicating.installed (inv : Replicating w h) (member : call ∈ w.appends)
    (bounds : LogBounds (w.rf call.server).currentTerm (w.rf call.server).log)
    (accepts : Accepts (w.rf call.server) call.args) {log : List (LogEntries Command)}
    (installed : installEntries (w.rf call.server).log call.args.prevLogIndex call.args.items =
      some log) :
    ∃ j : Nat, (j : Int) = call.args.prevLogIndex + call.args.items.length ∧
      j < (h.termLog call.args.term).length ∧ log = (h.termLog call.args.term).take (j + 1) := by
  obtain ⟨current, within, prevTerm⟩ := accepts_iff.mp accepts
  rw [lastLogIndex_of_ne_nil bounds.ne_nil] at within
  have traced := inv.formed.coherent.traced call.server
  have tracedTerm := inv.formed.coherent.termLogs.traced call.args.term
  cases (inv.requests call member).shape with
  | probe positive _ term =>
    -- past the sentinel no entry has term 0
    obtain ⟨p, prev⟩ := Int.eq_ofNat_of_zero_le (by omega : 0 ≤ call.args.prevLogIndex)
    have good := bounds.termAt_pos (i := p) (by omega) (by omega)
    rw [prev] at prevTerm
    omega
  | @inside p prev bound term items =>
    rw [prev] at within prevTerm installed
    have inLog : p < (w.rf call.server).log.length := by omega
    have agree : Agree (w.rf call.server).log (h.termLog call.args.term) p :=
      agree_of_termAt traced tracedTerm inLog bound (by rw [← prevTerm, term])
    have length : p + call.args.items.length < (h.termLog call.args.term).length := by
      have := items.length_le
      rw [List.length_drop] at this
      omega
    refine ⟨p + call.args.items.length, by rw [prev]; push_cast; rfl, length, ?_⟩
    rcases installEntries_cases (w.rf call.server).log call.args.items inLog with
      updated | ⟨i, positive, inItems, below, same, differ, -⟩
    · rw [updated] at installed
      rw [← Option.some.inj installed, take_append_of_agree agree items]
    · exact absurd (inv.no_conflict member current prev items positive inItems (by omega) same) differ

end Accepting

/-! ## Building a request -/

omit [Zero Command] in
/-- What a request may carry does not change when the log of its term grows. -/
theorem RequestShape.mono {termLog termLog' : List (LogEntries Command)} {base : Nat}
    {args : AppendEntriesArgs Command} (shape : RequestShape termLog base args)
    (sub : termLog <+: termLog') : RequestShape termLog' base args := by
  cases shape with
  | @inside p prev bound term items =>
    refine .inside prev (lt_of_lt_of_le bound sub.length_le) ?_ (items.trans ?_)
    · rw [term]
      exact termAt_eq_of_agree (Agree.of_isPrefix sub bound) (le_refl p)
    · obtain ⟨rest, rfl⟩ := sub
      rw [List.drop_append_of_le_length (by omega)]
      exact List.prefix_append _ _
  | probe positive beyond term items => exact .probe positive beyond term items

omit [Zero Command] in
/-- The request a leader builds repeats a part of its log, or probes past its end. -/
theorem BuiltArgs.shape {rf : Raft n Byte Command} {server : Fin n}
    {args : AppendEntriesArgs Command} {base : Nat} (built : BuiltArgs rf server args)
    (nonempty : rf.log ≠ []) (positive : 1 ≤ rf.nextIndex server)
    (inside : base ≤ rf.log.length) : RequestShape rf.log base args := by
  have length := List.length_pos_iff.mpr nonempty
  obtain ⟨p, next⟩ := Int.eq_ofNat_of_zero_le (by omega : 0 ≤ rf.nextIndex server - 1)
  have prev := built.prevLogIndex
  rw [next] at prev
  rcases Nat.lt_or_ge p rf.log.length with within | beyond
  · refine .inside prev within ?_ ?_
    · rw [built.prevLogTerm, prev]
    · rw [built.items, show (rf.nextIndex server).toNat = p + 1 by omega]
  · refine .probe (by omega) (by omega) ?_ ?_
    · rw [built.prevLogTerm, prev, termAt_of_le (by omega)]
    · rw [built.items, List.drop_eq_nil_iff]
      omega

/-! ## Backing up after a rejection -/

omit [Zero Command] in
/-- The index a leader backs up to after a rejection covers everything the follower's log
    shares with its own. -/
theorem rejection_covers {base : Nat} {log termLog : List (LogEntries Command)}
    {args : AppendEntriesArgs Command} {reply : AppendEntriesReply} {next : Int}
    (grounded : Grounded log) (ordered : Ordered LogEntries.term log)
    (orderedTerm : Ordered LogEntries.term termLog) (nonneg : 0 ≤ args.prevLogIndex)
    (shape : RequestShape termLog base args) (rejected : Rejection log args reply)
    (backed : backedUpIndex termLog reply = some next) {j : Nat} (agree : Agree log termLog j)
    (inBid : j < base) : (j : Int) ≤ next - 1 := by
  have inside := agree.inside
  cases rejected with
  | short _ _ conflictTerm conflictIndex =>
    rcases backedUpIndex_cases termLog reply with ⟨returned, -⟩ | ⟨_, -, -, given, -⟩
    · rw [backed, conflictIndex] at returned
      cases returned
      omega
    · exact absurd conflictTerm given
  | mismatch _ within differs conflictTerm scanned =>
    obtain ⟨p, prev⟩ := Int.eq_ofNat_of_zero_le nonneg
    rw [lastLogIndex_of_ne_nil grounded.ne_nil] at within
    rw [prev] at differs conflictTerm scanned
    -- the logs differ at `prevLogIndex`, so they agree only before it
    have before : j < p := by
      by_contra reaches
      cases shape with
      | inside prev' _ prevTerm =>
        obtain rfl : _ = p := by exact_mod_cast prev'.symm.trans prev
        exact differs (prevTerm.trans (termAt_eq_of_agree agree (by omega)).symm)
      | probe _ beyond => omega
    have here : termAt log j = termAt termLog j := termAt_eq_of_agree agree (le_refl j)
    rcases backedUpIndex_cases termLog reply with
      ⟨returned, why⟩ | ⟨m, inTerm, returned, -, found, after⟩
    · rw [backed] at returned
      cases returned
      have absent : termAt termLog j ≠ reply.conflictTerm := by
        rcases why with given | absent
        · have positive := grounded.termAt_nonneg (i := p) (by omega)
          omega
        · exact absent j agree.inside_right
      obtain ⟨start, index, _, run, -⟩ := conflictIndexOf_spec scanned
      rw [index]
      by_contra late
      exact absent (here.symm.trans ((run j (by omega) (by omega)).trans conflictTerm.symm))
    · rw [backed] at returned
      cases returned
      by_contra late
      have later := after j (by omega) agree.inside_right
      have up := termAt_le_of_ordered orderedTerm (show m ≤ j by omega) agree.inside_right
      have down := termAt_le_of_ordered ordered before.le (by omega : p < log.length)
      omega

/-! ## Votes -/

omit [Zero Command] in
theorem termAt_lastLogIndex {log : List (LogEntries Command)} {e : LogEntries Command}
    (last : log.getLast? = some e) : termAt log (lastLogIndex log) = e.term := by
  have nonempty : log ≠ [] := by
    rintro rfl
    cases last
  have length := List.length_pos_iff.mpr nonempty
  rw [List.getLast?_eq_getElem?] at last
  rw [lastLogIndex_of_ne_nil nonempty, show (log.length : Int) - 1 = (log.length - 1 : Nat) by omega]
  exact termAt_of_getElem? last

omit [Zero Command] in
/-- The handler's comparison with a request is a comparison with the log the candidate stood
    with. -/
theorem VoteBid.upToDate {h : History n Command} {call : Call n RequestVoteArgs RequestVoteReply}
    {log : List (LogEntries Command)} (bid : VoteBid h call) (compared : UpToDate call.args log) :
    ReplicatedLog.UpToDate LogEntries.term (h.bid call.caller call.args.term) log := by
  intro v last
  have nonempty : log ≠ [] := by
    rintro rfl
    cases last
  obtain ⟨c, lastBid⟩ : ∃ c, (h.bid call.caller call.args.term).getLast? = some c :=
    ⟨_, List.getLast?_eq_some_getLast bid.nonempty⟩
  refine ⟨c, lastBid, ?_⟩
  have index := bid.index
  have term := bid.term
  rw [termAt_lastLogIndex lastBid] at term
  rw [lastLogIndex_of_ne_nil bid.nonempty] at index
  unfold UpToDate at compared
  rw [termAt_lastLogIndex last, lastLogIndex_of_ne_nil nonempty] at compared
  omega

end DistributedCloud.RaftLab
