import Mathlib.Data.List.Basic
import Mathlib.Data.Int.Order.Basic

/-!
# Index and slice expressions with a signed index

Go indexes slices by a signed `int` and stops the program when the index is out of range.
Here `none` is that run-time panic, so a function that indexes a slice returns an `Option`
and "no index is out of range" is the statement that it never returns `none`.
-/

namespace DistributedCloud

variable {α : Type}

/-- `l[i]`. -/
def goIndex (l : List α) (i : Int) : Option α :=
  if 0 ≤ i then l[i.toNat]? else none

/-- `l[:hi]`, for a bound within the length. -/
def goSliceTo (l : List α) (hi : Int) : Option (List α) :=
  if 0 ≤ hi ∧ hi ≤ l.length then some (l.take hi.toNat) else none

/-- `l[lo:]`. -/
def goSliceFrom (l : List α) (lo : Int) : Option (List α) :=
  if 0 ≤ lo ∧ lo ≤ l.length then some (l.drop lo.toNat) else none

@[simp] theorem goIndex_natCast (l : List α) (i : Nat) : goIndex l (i : Int) = l[i]? := by
  simp [goIndex]

theorem goIndex_isSome {l : List α} {i : Int} :
    (goIndex l i).isSome ↔ 0 ≤ i ∧ i < l.length := by
  unfold goIndex
  split
  · rw [isSome_getElem?]
    omega
  · simp
    omega

@[simp] theorem goSliceTo_natCast {l : List α} {hi : Nat} (bound : hi ≤ l.length) :
    goSliceTo l (hi : Int) = some (l.take hi) := by
  simp [goSliceTo, bound]

theorem goSliceTo_eq_some {l r : List α} {hi : Int} :
    goSliceTo l hi = some r ↔ 0 ≤ hi ∧ hi ≤ l.length ∧ r = l.take hi.toNat := by
  unfold goSliceTo
  by_cases bound : 0 ≤ hi ∧ hi ≤ l.length
  · simp [bound, eq_comm]
  · simp only [if_neg bound, reduceCtorEq, false_iff]
    rintro ⟨lower, upper, -⟩
    exact bound ⟨lower, upper⟩

theorem goSliceFrom_eq_some {l r : List α} {lo : Int} :
    goSliceFrom l lo = some r ↔ 0 ≤ lo ∧ lo ≤ l.length ∧ r = l.drop lo.toNat := by
  unfold goSliceFrom
  by_cases bound : 0 ≤ lo ∧ lo ≤ l.length
  · simp [bound, eq_comm]
  · simp only [if_neg bound, reduceCtorEq, false_iff]
    rintro ⟨lower, upper, -⟩
    exact bound ⟨lower, upper⟩

end DistributedCloud
