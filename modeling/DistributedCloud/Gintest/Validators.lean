import Mathlib.Data.Nat.Notation

/-!
# Field validators

`handlers/validators/user_validator.go`. A Go `int` has 64 bits here, so its products wrap around;
`Int64` computes as Go does, except that it gives a value to a remainder by zero, where Go panics.
-/

namespace DistributedCloud.Gintest

/-- How far a loop has come. -/
inductive Looped where
  | running
  | dividedByZero
  | returned (result : Bool)
  deriving DecidableEq, Repr

/-- The loop of `ValidatePrime` at `i`, for at most `rounds` rounds. -/
def primeLoop (num : Int64) : Nat → Int64 → Looped
  | 0, _ => .running
  | rounds + 1, i =>
    if i * i ≤ num then
      if i = 0 then .dividedByZero
      else if num % i = 0 then .returned false
      else primeLoop num rounds (i + 1)
    else .returned true

/-- `ValidatePrime`; the field is `none` if its type is not `int`. -/
def validatePrime (rounds : Nat) (field : Option Int64) : Looped :=
  match field with
  | none => .returned false
  | some num => if num < 2 then .returned false else primeLoop num rounds 2

end DistributedCloud.Gintest
