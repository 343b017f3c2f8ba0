import Mathlib.Tactic

/-!
# Agreement of logs

Two lists agree up to an index if both reach it and they have the same entries up to it. The
terms of an ordered log do not go down.
-/

namespace DistributedCloud.ReplicatedLog

variable {E : Type}

/-- The lists reach index `i` and are the same up to it. -/
def Agree (l l' : List E) (i : Nat) : Prop :=
  i < l.length ∧ ∀ j, j ≤ i → l[j]? = l'[j]?

namespace Agree

variable {l l' l'' : List E} {i j : Nat}

theorem inside (agree : Agree l l' i) : i < l.length := agree.1

theorem inside_right (agree : Agree l l' i) : i < l'.length := by
  have here := agree.2 i (le_refl i)
  rw [List.getElem?_eq_getElem agree.1] at here
  exact (List.getElem?_eq_some_iff.mp here.symm).1

theorem getElem? (agree : Agree l l' i) (le : j ≤ i) : l[j]? = l'[j]? := agree.2 j le

theorem refl (inside : i < l.length) : Agree l l i := ⟨inside, fun _ _ => rfl⟩

theorem symm (agree : Agree l l' i) : Agree l' l i :=
  ⟨agree.inside_right, fun j le => (agree.2 j le).symm⟩

theorem trans (first : Agree l l' i) (second : Agree l' l'' i) : Agree l l'' i :=
  ⟨first.1, fun j le => (first.2 j le).trans (second.2 j le)⟩

theorem mono (agree : Agree l l' i) (le : j ≤ i) : Agree l l' j :=
  ⟨lt_of_le_of_lt le agree.1, fun k below => agree.2 k (le_trans below le)⟩

/-- A list agrees with everything it is a prefix of. -/
theorem of_isPrefix (sub : l <+: l') (inside : i < l.length) : Agree l l' i := by
  refine ⟨inside, fun j le => ?_⟩
  obtain ⟨rest, rfl⟩ := sub
  rw [List.getElem?_append_left (by omega)]

theorem extend (agree : Agree l l' i) (sub : l' <+: l'') : Agree l l'' i :=
  agree.trans (of_isPrefix sub agree.inside_right)

/-- Agreement with a longer list is agreement with its prefix, as far as that goes. -/
theorem restrict (agree : Agree l l'' i) (sub : l' <+: l'') (inside : i < l'.length) :
    Agree l l' i :=
  agree.trans (of_isPrefix sub inside).symm

theorem take (inside : i < l.length) (le : i ≤ j) : Agree (l.take (j + 1)) l i := by
  refine of_isPrefix (List.take_prefix _ _) ?_
  rw [List.length_take]
  omega

end Agree

/-- Two lists that agree up to the end of the first: it is a prefix of the second. -/
theorem isPrefix_of_agree {l l' : List E} (nonempty : l ≠ [])
    (agree : Agree l l' (l.length - 1)) : l <+: l' := by
  have positive : 0 < l.length := List.length_pos_iff.mpr nonempty
  rw [List.prefix_iff_getElem?]
  intro i inside
  rw [← agree.getElem? (by omega), List.getElem?_eq_getElem inside]

/-! ## Ordered logs -/

variable (termOf : E → Int)

/-- The terms do not go down. -/
def Ordered (l : List E) : Prop := l.Pairwise fun a b => termOf a ≤ termOf b

variable {termOf}

theorem Ordered.le {l : List E} (ordered : Ordered termOf l) {i j : Nat} {a b : E}
    (first : l[i]? = some a) (second : l[j]? = some b) (le : i ≤ j) : termOf a ≤ termOf b := by
  rcases le.lt_or_eq with before | rfl
  · obtain ⟨hi, rfl⟩ := List.getElem?_eq_some_iff.mp first
    obtain ⟨hj, rfl⟩ := List.getElem?_eq_some_iff.mp second
    exact List.pairwise_iff_getElem.mp ordered i j hi hj before
  · rw [first] at second
    cases second
    exact le_refl _

theorem Ordered.of_isPrefix {l l' : List E} (ordered : Ordered termOf l') (sub : l <+: l') :
    Ordered termOf l :=
  ordered.sublist sub.sublist

/-- Appending an entry whose term is not below any other. -/
theorem Ordered.concat {l : List E} (ordered : Ordered termOf l) {e : E}
    (last : ∀ a ∈ l, termOf a ≤ termOf e) : Ordered termOf (l ++ [e]) := by
  refine List.pairwise_append.mpr ⟨ordered, List.pairwise_singleton _ _, ?_⟩
  intro a member b atEnd
  rw [List.mem_singleton.mp atEnd]
  exact last a member

end DistributedCloud.ReplicatedLog
