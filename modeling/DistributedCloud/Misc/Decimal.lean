import Mathlib.Data.List.Basic
import Mathlib.Data.Nat.Digits.Defs

/-!
# Decimal numbers in text

What the verb `%d` prints for a number, and reading a number off the front of a text.
-/

namespace DistributedCloud.Decimal

/-- The decimal digits of a number. -/
def digits (n : Nat) : List Char := Nat.toDigits 10 n

theorem isDigit_of_mem_digits {n : Nat} {c : Char} (listed : c ∈ digits n) : c.isDigit = true :=
  Nat.isDigit_of_mem_toDigits (by decide) (by decide) listed

theorem digits_ne_nil (n : Nat) : digits n ≠ [] := Nat.toDigits_ne_nil

@[simp] theorem ofDigitChars_digits (n : Nat) : Nat.ofDigitChars 10 (digits n) 0 = n :=
  Nat.ofDigitChars_toDigits (by decide) (by decide)

theorem digits_injective : Function.Injective digits := by
  intro n n' same
  have values := congrArg (fun ds => Nat.ofDigitChars 10 ds 0) same
  simpa using values

/-- The digits at the front of a text as a number, and the text after them. -/
def read (text : List Char) : Option (Nat × List Char) :=
  match text.takeWhile Char.isDigit with
  | [] => none
  | front => some (Nat.ofDigitChars 10 front 0, text.dropWhile Char.isDigit)

/-- The text goes on with something other than a digit, or ends. -/
def Stops (text : List Char) : Prop := ∀ c ∈ text.head?, c.isDigit = false

theorem takeWhile_run {run rest : List Char} (decimal : ∀ c ∈ run, c.isDigit = true)
    (stops : Stops rest) : (run ++ rest).takeWhile Char.isDigit = run := by
  rw [List.takeWhile_append_of_pos decimal]
  cases rest with
  | nil => simp
  | cons c rest => simp [stops c rfl]

theorem dropWhile_run {run rest : List Char} (decimal : ∀ c ∈ run, c.isDigit = true)
    (stops : Stops rest) : (run ++ rest).dropWhile Char.isDigit = rest := by
  rw [List.dropWhile_append_of_pos decimal]
  cases rest with
  | nil => simp
  | cons c rest => simp [stops c rfl]

/-- A printed number is read back. -/
theorem read_digits {n : Nat} {rest : List Char} (stops : Stops rest) :
    read (digits n ++ rest) = some (n, rest) := by
  have decimal : ∀ c ∈ digits n, c.isDigit = true := fun c listed => isDigit_of_mem_digits listed
  unfold read
  rw [takeWhile_run decimal stops, dropWhile_run decimal stops]
  cases printed : digits n with
  | nil => exact absurd printed (digits_ne_nil n)
  | cons c front => simp [← printed]

/-! ## Formats -/

/-- `fmt.Sprintf` with `%d` as the only verb. -/
def printFormat : List Char → List Nat → List Char
  | '%' :: 'd' :: format, n :: args => digits n ++ printFormat format args
  | c :: format, args => c :: printFormat format args
  | [], _ => []

/-- `fmt.Sprintf` for a format with the verb `%d` only and a number for each of its verbs. -/
def sprintf (format : String) (args : List Nat) : String :=
  String.ofList (printFormat format.toList args)

end DistributedCloud.Decimal
