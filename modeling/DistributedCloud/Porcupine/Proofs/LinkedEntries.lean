import DistributedCloud.Porcupine.Checker

/-!
# The linked list of entries

`makeLinkedEntries` links the positions of the history in order and finds the return of each call.
`lift` takes the two entries of an operation out of the list, and `unlift` puts them back.
-/

namespace DistributedCloud.Porcupine

open Links

variable {I O : Type} {links : Links Nat} {a c e m n : Nat} {before middle after cells : List Nat}

/-! ## Building the list -/

/-- The cells are linked, with nothing in front of them. -/
def Free (links : Links Nat) (cells : List Nat) : Prop :=
  ∀ first rest, cells = first :: rest → Chain links first rest ∧ links.prev first = none

theorem insertBefore_of_free {first : Nat} (front : links.prev first = none) :
    insertBefore links n (some first) = (links.setPrev first (some n)).setNext n (some first) := by
  rw [insertBefore]
  simp only [front]

theorem insertBefore_outside (free : Free links cells) (other : a ≠ n) (outside : a ∉ cells) :
    (insertBefore links n cells.head?).next a = links.next a ∧
      (insertBefore links n cells.head?).prev a = links.prev a := by
  cases cells with
  | nil => exact ⟨rfl, rfl⟩
  | cons first rest =>
    rw [List.head?_cons, insertBefore_of_free (free first rest rfl).2]
    refine ⟨Function.update_of_ne other _ _, Function.update_of_ne ?_ _ _⟩
    rintro rfl
    exact outside (by simp)

/-- A fresh node becomes the first one. -/
theorem chain_insertBefore (free : Free links cells) (once : (n :: cells).Nodup)
    (fresh : links.next n = none) : Chain (insertBefore links n cells.head?) n cells := by
  cases cells with
  | nil => exact fresh
  | cons first rest =>
    obtain ⟨chain, front⟩ := free first rest rfl
    obtain ⟨outside, inside⟩ := List.nodup_cons.mp once
    rw [List.head?_cons, insertBefore_of_free front]
    refine ⟨Function.update_self .., Function.update_self .., chain.congr ?_ ?_⟩
    · intro b listed
      refine Function.update_of_ne ?_ _ _
      rintro rfl
      exact outside listed
    · intro b listed
      refine Function.update_of_ne ?_ _ _
      rintro rfl
      exact (List.nodup_cons.mp inside).1 listed

theorem insertBefore_prev_self (free : Free links cells) (outside : n ∉ cells) :
    (insertBefore links n cells.head?).prev n = links.prev n := by
  cases cells with
  | nil => rfl
  | cons first rest =>
    rw [List.head?_cons, insertBefore_of_free (free first rest rfl).2]
    refine Function.update_of_ne ?_ _ _
    rintro rfl
    exact outside (by simp)

theorem insert_links (linking : Linking I O) (i : Nat) (elem : Entry I O) :
    (linking.insert i elem).links = insertBefore linking.links i linking.root := by
  unfold Linking.insert
  split <;> rfl

theorem insert_root (linking : Linking I O) (i : Nat) (elem : Entry I O) :
    (linking.insert i elem).root = some i := by
  unfold Linking.insert
  split <;> rfl

theorem linkFrom_root (i : Nat) (entries : List (Entry I O)) :
    (linkFrom i entries).root = (List.range' i entries.length).head? := by
  cases entries with
  | nil => rfl
  | cons elem entries =>
    rw [linkFrom, insert_root]
    rfl

/-- Nodes at other addresses do not exist yet. -/
theorem linkFrom_links (i : Nat) (entries : List (Entry I O)) :
    Free (linkFrom i entries).links (List.range' i entries.length) ∧
      ∀ b ∉ List.range' i entries.length,
        (linkFrom i entries).links.next b = none ∧ (linkFrom i entries).links.prev b = none := by
  induction entries generalizing i with
  | nil =>
    refine ⟨?_, fun _ _ => ⟨rfl, rfl⟩⟩
    intro first rest empty
    cases empty
  | cons elem entries ih =>
    obtain ⟨free, outside⟩ := ih (i + 1)
    have fresh : i ∉ List.range' (i + 1) entries.length := by
      rw [List.mem_range'_1]
      omega
    rw [linkFrom, insert_links, linkFrom_root, List.length_cons, List.range'_succ]
    refine ⟨?_, ?_⟩
    · intro first rest split
      obtain ⟨rfl, rfl⟩ := List.cons.inj split
      refine ⟨chain_insertBefore free ?_ (outside _ fresh).1, ?_⟩
      · exact List.nodup_cons.mpr ⟨fresh, List.nodup_range'⟩
      · rw [insertBefore_prev_self free fresh]
        exact (outside _ fresh).2
    · intro b missing
      obtain ⟨other, missing⟩ := not_or.mp (List.mem_cons.not.mp missing)
      obtain ⟨next, prev⟩ := insertBefore_outside free other missing
      rw [next, prev]
      exact outside b missing

/-- With the head node in front the list holds all positions. -/
theorem chain_makeLinkedEntries (entries : List (Entry I O)) :
    Chain (insertBefore (makeLinkedEntries entries).links entries.length
      (makeLinkedEntries entries).root) entries.length (List.range' 0 entries.length) := by
  obtain ⟨free, outside⟩ := linkFrom_links 0 entries
  have fresh : entries.length ∉ List.range' 0 entries.length := by
    rw [List.mem_range'_1]
    omega
  rw [makeLinkedEntries, linkFrom_root]
  exact chain_insertBefore free (List.nodup_cons.mpr ⟨fresh, List.nodup_range'⟩)
    (outside _ fresh).1

theorem length_of_chain (chain : Chain links a cells) (fuel : cells.length < n) :
    length links n (some a) = cells.length + 1 := by
  induction cells generalizing a n with
  | nil =>
    obtain ⟨k, rfl⟩ := Nat.exists_eq_add_of_lt fuel
    have ended : links.next a = none := chain
    rw [List.length_nil, Nat.zero_add, length, ended]
    cases k <;> rfl
  | cons b cells ih =>
    rw [List.length_cons] at fuel
    obtain ⟨k, rfl⟩ := Nat.exists_eq_add_of_le' (Nat.lt_of_le_of_lt (Nat.zero_le _) fuel)
    have next : links.next a = some b := chain.1
    rw [length, next, ih chain.2.2 (by omega), List.length_cons]

theorem length_makeLinkedEntries (entries : List (Entry I O)) :
    length (makeLinkedEntries entries).links entries.length (makeLinkedEntries entries).root =
      entries.length := by
  obtain ⟨free, -⟩ := linkFrom_links 0 entries
  rw [makeLinkedEntries, linkFrom_root]
  cases entries with
  | nil => rfl
  | cons elem entries =>
    rw [List.length_cons, List.range'_succ] at free ⊢
    rw [List.head?_cons, length_of_chain (free _ _ rfl).1 (by simp)]
    simp

/-! ## The nodes -/

theorem insert_return {linking : Linking I O} {elem : Entry I O} (i : Nat)
    (kind : elem.kind = .returnEntry) :
    linking.insert i elem =
      { root := some i
        matching := Function.update linking.matching elem.id (some i)
        node := Function.update linking.node i (some ⟨elem.value, none, elem.id⟩)
        links := insertBefore linking.links i linking.root } := by
  rw [Linking.insert, kind]

theorem insert_call {linking : Linking I O} {elem : Entry I O} (i : Nat)
    (kind : elem.kind = .callEntry) :
    linking.insert i elem =
      { root := some i
        matching := linking.matching
        node := Function.update linking.node i
          (some ⟨elem.value, linking.matching elem.id, elem.id⟩)
        links := insertBefore linking.links i linking.root } := by
  rw [Linking.insert, kind]

theorem linkFrom_matching_some {i id : Nat} {entries : List (Entry I O)}
    (found : (linkFrom i entries).matching id = some m) :
    ∃ j r, m = i + j ∧ entries[j]? = some r ∧ r.kind = .returnEntry ∧ r.id = id := by
  induction entries generalizing i with
  | nil => cases found
  | cons elem entries ih =>
    -- a return found later in the history, or the one at the front
    have later : (linkFrom (i + 1) entries).matching id = some m →
        ∃ j r, m = i + j ∧ (elem :: entries)[j]? = some r ∧ r.kind = .returnEntry ∧
          r.id = id := by
      intro found
      obtain ⟨j, r, rfl, listed, rest⟩ := ih found
      exact ⟨j + 1, r, by omega, listed, rest⟩
    rw [linkFrom] at found
    cases kind : elem.kind with
    | callEntry =>
      rw [insert_call i kind] at found
      exact later found
    | returnEntry =>
      rw [insert_return i kind] at found
      by_cases own : id = elem.id
      · subst own
        cases (Function.update_self ..).symm.trans found
        exact ⟨0, elem, rfl, rfl, kind, rfl⟩
      · exact later ((Function.update_of_ne own _ _).symm.trans found)

theorem exists_linkFrom_matching {i : Nat} {entries : List (Entry I O)} {r : Entry I O}
    (listed : r ∈ entries) (kind : r.kind = .returnEntry) :
    ∃ m, (linkFrom i entries).matching r.id = some m := by
  induction entries generalizing i with
  | nil => cases listed
  | cons elem entries ih =>
    rw [linkFrom]
    cases elemKind : elem.kind with
    | callEntry =>
      rw [insert_call i elemKind]
      refine ih ?_
      rcases List.mem_cons.mp listed with rfl | listed
      · rw [elemKind] at kind
        cases kind
      · exact listed
    | returnEntry =>
      rw [insert_return i elemKind]
      by_cases own : r.id = elem.id
      · rw [own]
        exact ⟨i, Function.update_self ..⟩
      · obtain ⟨m, found⟩ := @ih (i + 1) ((List.mem_cons.mp listed).resolve_left
          (fun same => own (congrArg Entry.id same)))
        exact ⟨m, (Function.update_of_ne own _ _).trans found⟩

theorem insert_node_of_ne {linking : Linking I O} {i b : Nat} (elem : Entry I O) (other : b ≠ i) :
    (linking.insert i elem).node b = linking.node b := by
  unfold Linking.insert
  split
  · exact Function.update_of_ne other _ _
  · exact Function.update_of_ne other _ _

/-- The node of a return. -/
theorem linkFrom_node_return {i j : Nat} {entries : List (Entry I O)} {r : Entry I O}
    (listed : entries[j]? = some r) (kind : r.kind = .returnEntry) :
    (linkFrom i entries).node (i + j) = some ⟨r.value, none, r.id⟩ := by
  induction entries generalizing i j with
  | nil => cases listed
  | cons elem entries ih =>
    rw [linkFrom]
    cases j with
    | zero =>
      cases listed
      rw [insert_return i kind]
      exact Function.update_self ..
    | succ j =>
      rw [insert_node_of_ne elem (by omega)]
      have later := @ih (i + 1) _ listed
      rwa [Nat.add_right_comm] at later

/-- The node of a call knows the return that comes later. -/
theorem linkFrom_node_call {i j k : Nat} {entries : List (Entry I O)} {call r : Entry I O}
    (listed : entries[j]? = some call) (kind : call.kind = .callEntry)
    (returned : entries[k]? = some r) (returnKind : r.kind = .returnEntry) (same : r.id = call.id)
    (later : j < k) :
    ∃ m, (linkFrom i entries).node (i + j) = some ⟨call.value, some (i + m), call.id⟩ ∧
      ∃ r', entries[m]? = some r' ∧ r'.kind = .returnEntry ∧ r'.id = call.id := by
  induction entries generalizing i j k with
  | nil => cases listed
  | cons elem entries ih =>
    obtain ⟨k, rfl⟩ := Nat.exists_eq_add_of_le' (Nat.lt_of_le_of_lt (Nat.zero_le _) later)
    rw [linkFrom]
    cases j with
    | zero =>
      cases listed
      have inside : r ∈ entries := List.mem_of_getElem? returned
      obtain ⟨m, found⟩ := @exists_linkFrom_matching _ _ (i + 1) _ _ inside returnKind
      rw [same] at found
      obtain ⟨j, r', rfl, listed, rest⟩ := linkFrom_matching_some found
      refine ⟨j + 1, ?_, r', listed, rest⟩
      rw [insert_call i kind, found, Nat.add_assoc i 1 j, Nat.add_comm 1 j]
      exact Function.update_self ..
    | succ j =>
      obtain ⟨m, found, r', listed, rest⟩ := @ih (i + 1) _ _ listed returned (by omega)
      refine ⟨m + 1, ?_, r', listed, rest⟩
      rw [insert_node_of_ne elem (by omega)]
      rwa [Nat.add_right_comm i 1 j, Nat.add_right_comm i 1 m] at found

/-! ## Taking out and putting back -/

/-- The neighbours that `lift` and `unlift` write to are other nodes. -/
theorem prev_ne_self (chain : Chain links a (before ++ c :: after))
    (once : (a :: (before ++ c :: after)).Nodup) :
    ∃ p, links.prev c = some p ∧ p ≠ c := by
  obtain ⟨p, listed, prev, -⟩ := chain.neighbours
  refine ⟨p, prev, ?_⟩
  rintro rfl
  have middle : (p :: (a :: before ++ after)).Nodup := by
    refine List.nodup_middle.mp ?_
    simpa using once
  exact (List.nodup_cons.mp middle).1 (List.mem_append_left _ listed)

theorem setNextOfPrev_of_prev {p : Nat} {target : Option Nat} (prev : links.prev c = some p) :
    setNextOfPrev links c target = some (links.setNext p target) := by
  rw [setNextOfPrev, prev]
  rfl

theorem setNext_next_of_ne {p : Nat} {target : Option Nat} (apart : p ≠ c) :
    (links.setNext p target).next c = links.next c := Function.update_of_ne apart.symm _ _

/-- `lift` takes out the call, then its return. -/
theorem lift_eq (chain : Chain links a (before ++ e :: (middle ++ m :: after)))
    (once : (a :: (before ++ e :: (middle ++ m :: after))).Nodup) :
    lift links e (some m) = some ((links.unlink e).unlink m) := by
  obtain ⟨p, prev, apart⟩ := prev_ne_self chain once
  obtain ⟨-, -, -, -, next⟩ := chain.neighbours
  obtain ⟨b, rest, split⟩ := List.exists_cons_of_ne_nil
    (show middle ++ m :: after ≠ [] by simp)
  rw [split, List.head?_cons] at next
  have first : links.unlink e = (links.setNext p (some b)).setPrev b (some p) := by
    rw [unlink_of_prev prev, next]
    rfl
  have without := chain.unlink once
  rw [← List.append_assoc] at without
  have still : (a :: (before ++ middle ++ m :: after)).Nodup := by
    refine List.Nodup.sublist (List.Sublist.cons_cons _ ?_) once
    simp
  obtain ⟨q, prevMatch, apartMatch⟩ := prev_ne_self without still
  have second : (links.unlink e).unlink m =
      setPrevOfNextIfAny ((links.unlink e).setNext q ((links.unlink e).next m)) m (some q) := by
    rw [unlink_of_prev prevMatch, setPrevOfNextIfAny, setNext_next_of_ne apartMatch]
    cases (links.unlink e).next m <;> rfl
  rw [second, lift, setNextOfPrev_of_prev prev, Option.bind_eq_bind, Option.bind_some,
    setPrevOfNext, setNext_next_of_ne apart, next]
  simp only [Option.map_some, Option.bind_eq_bind, Option.bind_some]
  have kept : (links.setNext p (some b)).prev e = some p := prev
  rw [kept, ← first, setNextOfPrev_of_prev prevMatch]
  have keptMatch : ((links.unlink e).setNext q ((links.unlink e).next m)).prev m = some q :=
    prevMatch
  simp only [Option.bind_some, keptMatch]
  rfl

/-- The list without the operation. -/
theorem chain_lift (chain : Chain links a (before ++ e :: (middle ++ m :: after)))
    (once : (a :: (before ++ e :: (middle ++ m :: after))).Nodup) :
    Chain ((links.unlink e).unlink m) a (before ++ (middle ++ after)) := by
  have without := chain.unlink once
  rw [← List.append_assoc] at without
  have still : (a :: (before ++ middle ++ m :: after)).Nodup := by
    refine List.Nodup.sublist (List.Sublist.cons_cons _ ?_) once
    simp
  rw [← List.append_assoc]
  exact without.unlink still

/-- `unlift` undoes `lift`. -/
theorem unlift_lift (chain : Chain links a (before ++ e :: (middle ++ m :: after)))
    (once : (a :: (before ++ e :: (middle ++ m :: after))).Nodup) :
    unlift ((links.unlink e).unlink m) e (some m) = some links := by
  have without := chain.unlink once
  rw [← List.append_assoc] at without
  have still : (a :: (before ++ middle ++ m :: after)).Nodup := by
    refine List.Nodup.sublist (List.Sublist.cons_cons _ ?_) once
    simp
  obtain ⟨p, prev, apart⟩ := prev_ne_self chain once
  obtain ⟨q, prevMatch, apartMatch⟩ := prev_ne_self without still
  obtain ⟨nextKept, prevKept⟩ := chain.unlink_self once
  obtain ⟨nextMatchKept, prevMatchKept⟩ := without.unlink_self still
  obtain ⟨-, -, -, -, next⟩ := chain.neighbours
  obtain ⟨b, rest, split⟩ := List.exists_cons_of_ne_nil
    (show middle ++ m :: after ≠ [] by simp)
  rw [split, List.head?_cons] at next
  have first : setPrevOfNextIfAny (((links.unlink e).unlink m).setNext q (some m)) m (some m) =
      links.unlink e := by
    have relinked := without.relink_unlink still
    rw [relink_of_prev (prevMatchKept.trans prevMatch)] at relinked
    refine Eq.trans ?_ relinked
    rw [setPrevOfNextIfAny, setNext_next_of_ne apartMatch]
    cases ((links.unlink e).unlink m).next m <;> rfl
  have second : ((links.unlink e).setNext p (some e)).setPrev b (some e) = links := by
    have relinked := chain.relink_unlink once
    rw [relink_of_prev (prevKept.trans prev), nextKept, next] at relinked
    exact relinked
  rw [unlift, Option.bind_eq_bind, Option.bind_some,
    setNextOfPrev_of_prev (prevMatchKept.trans prevMatch)]
  simp only [Option.bind_eq_bind, Option.bind_some, first,
    setNextOfPrev_of_prev (prevKept.trans prev)]
  rw [setPrevOfNext, setNext_next_of_ne apart, nextKept, next]
  exact congrArg some second

end DistributedCloud.Porcupine
