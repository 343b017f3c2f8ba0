import Mathlib.Data.List.Nodup
import Mathlib.Logic.Function.Basic
import Mathlib.Tactic.Common

/-!
# Doubly linked lists

Cells with a pointer to the next and one to the previous cell. A cell that is taken out of a list
keeps its own pointers, so that it can be put back where it was.
-/

namespace DistributedCloud

/-- The cells before and behind each cell of a doubly linked list. -/
@[ext] structure Links (α : Type) where
  next : α → Option α
  prev : α → Option α

namespace Links

variable {α : Type}

/-- `cells` are what comes after `a`, in both directions. -/
def Chain (links : Links α) : α → List α → Prop
  | a, [] => links.next a = none
  | a, b :: cells => links.next a = some b ∧ links.prev b = some a ∧ Chain links b cells

variable {links links' : Links α} {a c : α} {before after cells : List α}

/-- A list lives in the pointers of its cells. -/
theorem Chain.congr (chain : Chain links a cells)
    (next : ∀ b ∈ a :: cells, links'.next b = links.next b)
    (prev : ∀ b ∈ cells, links'.prev b = links.prev b) : Chain links' a cells := by
  induction cells generalizing a with
  | nil => exact (next a (by simp)).trans chain
  | cons b cells ih =>
    obtain ⟨forward, backward, rest⟩ := chain
    refine ⟨(next a (by simp)).trans forward, (prev b (by simp)).trans backward, ?_⟩
    exact ih rest (fun c listed => next c (List.mem_cons_of_mem _ listed))
      (fun c listed => prev c (List.mem_cons_of_mem _ listed))

theorem Chain.next_eq (chain : Chain links a cells) : links.next a = cells.head? := by
  cases cells with
  | nil => exact chain
  | cons b cells => exact chain.1

/-- The neighbours of a cell inside a list. -/
theorem Chain.neighbours (chain : Chain links a (before ++ c :: after)) :
    ∃ p ∈ a :: before, links.prev c = some p ∧ links.next p = some c ∧
      links.next c = after.head? := by
  induction before generalizing a with
  | nil => exact ⟨a, by simp, chain.2.1, chain.1, chain.2.2.next_eq⟩
  | cons b before ih =>
    obtain ⟨p, listed, pointers⟩ := ih chain.2.2
    exact ⟨p, List.mem_cons_of_mem _ listed, pointers⟩

theorem Chain.prev_after {d : α} (chain : Chain links a (before ++ c :: d :: after)) :
    links.prev d = some c := by
  induction before generalizing a with
  | nil => exact chain.2.2.2.1
  | cons b before ih => exact ih chain.2.2

section Updates

variable [DecidableEq α]

/-- The field `next` of a cell is assigned. -/
def setNext (links : Links α) (a : α) (target : Option α) : Links α :=
  { links with next := Function.update links.next a target }

/-- The field `prev` of a cell is assigned. -/
def setPrev (links : Links α) (a : α) (target : Option α) : Links α :=
  { links with prev := Function.update links.prev a target }

/-- The neighbours `p` and `n` of a cell are made to point to `left` and `right`. -/
def join (links : Links α) (p : α) (n : Option α) (right left : Option α) : Links α :=
  match n with
  | some n => (links.setNext p right).setPrev n left
  | none => links.setNext p right

/-- A cell is taken out. -/
def unlink (links : Links α) (c : α) : Links α :=
  match links.prev c with
  | some p => links.join p (links.next c) (links.next c) (some p)
  | none => links

/-- A cell is put back between the cells that it points to. -/
def relink (links : Links α) (c : α) : Links α :=
  match links.prev c with
  | some p => links.join p (links.next c) (some c) (some c)
  | none => links

theorem join_next (p : α) (n right left : Option α) :
    (links.join p n right left).next = Function.update links.next p right := by
  cases n <;> rfl

theorem join_prev_of_ne {b p : α} {n right left : Option α} (other : n ≠ some b) :
    (links.join p n right left).prev b = links.prev b := by
  cases n with
  | none => rfl
  | some n => exact Function.update_of_ne (fun same => other (congrArg some same.symm)) _ _

theorem join_prev_self (p n : α) (right left : Option α) :
    (links.join p (some n) right left).prev n = left := Function.update_self ..

theorem unlink_of_prev {p : α} (prev : links.prev c = some p) :
    links.unlink c = links.join p (links.next c) (links.next c) (some p) := by
  rw [unlink, prev]

theorem relink_of_prev {p : α} (prev : links.prev c = some p) :
    links.relink c = links.join p (links.next c) (some c) (some c) := by
  rw [relink, prev]

/-- The list without the cell. -/
theorem Chain.unlink (chain : Chain links a (before ++ c :: after))
    (once : (a :: (before ++ c :: after)).Nodup) :
    Chain (links.unlink c) a (before ++ after) := by
  induction before generalizing a with
  | nil =>
    obtain ⟨-, prev, rest⟩ := chain
    rw [unlink_of_prev prev]
    obtain ⟨first, others⟩ := List.nodup_cons.mp once
    obtain ⟨second, others⟩ := List.nodup_cons.mp others
    cases after with
    | nil =>
      show (links.join _ _ _ _).next a = none
      rw [join_next, Function.update_self]
      exact rest
    | cons d after =>
      have next : links.next c = some d := rest.1
      rw [next]
      refine ⟨?_, join_prev_self .., rest.2.2.congr ?_ ?_⟩
      · rw [join_next, Function.update_self]
      · intro b listed
        rw [join_next]
        refine Function.update_of_ne ?_ _ _
        rintro rfl
        exact first (by simp [listed])
      · intro b listed
        refine join_prev_of_ne ?_
        intro same
        cases same
        exact (List.nodup_cons.mp others).1 listed
  | cons b before ih =>
    obtain ⟨forward, backward, rest⟩ := chain
    obtain ⟨first, others⟩ := List.nodup_cons.mp once
    obtain ⟨p, listed, prev, -, next⟩ := rest.neighbours
    refine ⟨?_, ?_, ih rest others⟩
    · rw [unlink_of_prev prev, join_next]
      refine (Function.update_of_ne ?_ _ _).trans forward
      rintro rfl
      rcases List.mem_cons.mp listed with rfl | listed
      · exact first (by simp)
      · exact first (by simp [listed])
    · rw [unlink_of_prev prev, next]
      refine (join_prev_of_ne ?_).trans backward
      intro same
      have inside : b ∈ after := List.mem_of_mem_head? same
      exact (List.nodup_cons.mp others).1 (by simp [inside])

/-- Its pointers are left as they were. -/
theorem Chain.unlink_self (chain : Chain links a (before ++ c :: after))
    (once : (a :: (before ++ c :: after)).Nodup) :
    (links.unlink c).next c = links.next c ∧ (links.unlink c).prev c = links.prev c := by
  obtain ⟨p, listed, prev, -, next⟩ := chain.neighbours
  rw [unlink_of_prev prev, join_next]
  have middle : (c :: (a :: before ++ after)).Nodup := by
    refine List.nodup_middle.mp ?_
    simpa using once
  obtain ⟨outside, -⟩ := List.nodup_cons.mp middle
  refine ⟨Function.update_of_ne ?_ _ _, join_prev_of_ne ?_⟩
  · rintro rfl
    exact outside (List.mem_append_left _ listed)
  · rw [next]
    intro same
    exact outside (List.mem_append_right _ (List.mem_of_mem_head? same))

/-- Putting a cell back undoes that it was taken out. -/
theorem Chain.relink_unlink (chain : Chain links a (before ++ c :: after))
    (once : (a :: (before ++ c :: after)).Nodup) : (links.unlink c).relink c = links := by
  obtain ⟨keptNext, keptPrev⟩ := chain.unlink_self once
  obtain ⟨p, listed, prev, forward, next⟩ := chain.neighbours
  rw [relink_of_prev (keptPrev.trans prev), keptNext, unlink_of_prev prev]
  ext1
  · rw [join_next, join_next, Function.update_idem, ← forward, Function.update_eq_self]
  · cases after with
    | nil =>
      rw [next]
      rfl
    | cons d after =>
      have backward : links.prev d = some c := chain.prev_after
      rw [next]
      show Function.update (Function.update links.prev d _) d _ = links.prev
      rw [Function.update_idem, ← backward, Function.update_eq_self]

end Updates

end Links

end DistributedCloud
