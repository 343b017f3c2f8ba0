import DistributedCloud.Gintest.Validators
import Mathlib.Data.Nat.Prime.Basic
import Mathlib.Data.Nat.Sqrt
import Mathlib.Tactic

/-!
# `ValidatePrime` over the 64-bit integers

A composite number has a divisor up to its square root, where no square has wrapped around yet,
and the loop gets there. For a prime the loop has to end before it tries the prime itself. Up to
`3037000499 ^ 2` it ends at the square root. Above that the squares wrap around before they exceed
the number, and the loop runs on; but the square of 2759374635167858507 leaves `2 ^ 63 - 7`, which
exceeds all numbers except the last seven, and none of these is a prime.
-/

namespace DistributedCloud.Gintest

/-! ## Trial division -/

section Trial

variable (test : Nat → Prop) {num : Nat}

/-- No divisor is found from 2 up to `k`, and the test holds all the way. -/
def Passed (test : Nat → Prop) (num k : Nat) : Prop :=
  ∀ j, 2 ≤ j → j < k → test j ∧ ¬ j ∣ num

/-- A composite number is found out at its least divisor, if the test holds up to the root. -/
theorem passed_minFac (composite : ¬ num.Prime) (positive : 0 < num)
    (upToRoot : ∀ j, j ^ 2 ≤ num → test j) : Passed test num num.minFac ∧ test num.minFac := by
  have root : num.minFac ^ 2 ≤ num := Nat.minFac_sq_le_self positive composite
  refine ⟨fun j two below => ⟨upToRoot j ?_, ?_⟩, upToRoot _ root⟩
  · exact le_trans (Nat.pow_le_pow_left below.le 2) root
  · exact fun divides => absurd (Nat.minFac_le_of_dvd two divides) (not_le.mpr below)

/-- For a prime the first failure of the test below it comes before any divisor. -/
theorem exists_passed_of_prime (prime : num.Prime) {last : Nat} (two : 2 ≤ last) (below : last < num)
    (fails : ¬ test last) : ∃ k, 2 ≤ k ∧ k ≤ last ∧ Passed test num k ∧ ¬ test k := by
  classical
  have some : ∃ k, 2 ≤ k ∧ ¬ test k := ⟨last, two, fails⟩
  have first := Nat.find_min' some ⟨two, fails⟩
  refine ⟨Nat.find some, (Nat.find_spec some).1, first, ?_, (Nat.find_spec some).2⟩
  intro j lower before
  refine ⟨?_, ?_⟩
  · by_contra other
    exact Nat.find_min some before ⟨lower, other⟩
  · intro divides
    rcases (Nat.dvd_prime prime).mp divides with one | self
    · omega
    · omega

end Trial

/-! ## The loop -/

/-- The value of `i * i` for `i = k`. -/
def wrappedSquare (k : Nat) : Int := ((k : Int) * k).bmod (2 ^ 64)

theorem wrappedSquare_of_lt {k : Nat} (fits : k ^ 2 < 2 ^ 63) : wrappedSquare k = (k : Int) ^ 2 := by
  have square : ((k : Int) * k) = (k : Int) ^ 2 := (pow_two _).symm
  have high : (k : Int) ^ 2 < 2 ^ 63 := by exact_mod_cast fits
  have low : (0 : Int) ≤ (k : Int) ^ 2 := sq_nonneg _
  calc wrappedSquare k = ((k : Int) ^ 2).bmod (2 ^ 64) :=
        congrArg (fun value : Int => value.bmod (2 ^ 64)) square
    _ = (k : Int) ^ 2 :=
        Int.bmod_eq_of_le (le_trans (by norm_num) low) (lt_of_lt_of_le high (by norm_num))

section Loop

variable {num : Int64} {k : Nat}

theorem ofNat_add_one (k : Nat) : Int64.ofNat k + 1 = Int64.ofNat (k + 1) :=
  (Int64.ofNat_add k 1).symm

theorem square_le_iff (fits : k < 2 ^ 63) :
    Int64.ofNat k * Int64.ofNat k ≤ num ↔ wrappedSquare k ≤ num.toInt := by
  rw [Int64.le_iff_toInt_le]
  have product : (Int64.ofNat k * Int64.ofNat k).toInt = wrappedSquare k := by
    rw [Int64.toInt_mul, Int64.toInt_ofNat_of_lt fits]
    exact rfl
  rw [product]

theorem ofNat_ne_zero (positive : 0 < k) (fits : k < 2 ^ 63) : Int64.ofNat k ≠ 0 := by
  intro zero
  have value : (Int64.ofNat k).toInt = k := Int64.toInt_ofNat_of_lt fits
  rw [zero, Int64.toInt_zero] at value
  omega

theorem mod_eq_zero_iff (fits : k < 2 ^ 63) {N : Nat} (value : num.toInt = N) :
    num % Int64.ofNat k = 0 ↔ k ∣ N := by
  rw [← Int64.toInt_inj, Int64.toInt_mod, Int64.toInt_ofNat_of_lt fits, value]
  change (N : Int).tmod k = 0 ↔ _
  rw [← Int.dvd_iff_tmod_eq_zero, Int.natCast_dvd_natCast]

/-- Rounds that find nothing lead to the next. -/
theorem primeLoop_passed {N : Nat} (value : num.toInt = N) {last : Nat} (fits : last < 2 ^ 63)
    (passed : Passed (fun j => wrappedSquare j ≤ N) N last) (rounds : Nat) :
    ∀ d, 2 + d ≤ last → primeLoop num (rounds + (last - (2 + d))) (Int64.ofNat (2 + d)) =
      primeLoop num rounds (Int64.ofNat last) := by
  intro d inside
  obtain ⟨steps, reach⟩ := Nat.exists_eq_add_of_le inside
  induction steps generalizing d with
  | zero =>
    rw [← show last = 2 + d from reach, Nat.sub_self, Nat.add_zero]
  | succ steps ih =>
    obtain ⟨small, free⟩ := passed (2 + d) (by omega) (by omega)
    have within : 2 + d < 2 ^ 63 := by omega
    have count : rounds + (last - (2 + d)) = rounds + (last - (2 + (d + 1))) + 1 := by omega
    have square : Int64.ofNat (2 + d) * Int64.ofNat (2 + d) ≤ num :=
      (square_le_iff within).mpr (by rw [value]; exact small)
    have rest : num % Int64.ofNat (2 + d) ≠ 0 := fun zero =>
      free ((mod_eq_zero_iff within value).mp zero)
    rw [count, primeLoop, if_pos square, if_neg (ofNat_ne_zero (by omega) within), if_neg rest,
      ofNat_add_one]
    exact ih (d + 1) (by omega) (by omega)

/-- The loop ends at the first index that fails the test or divides the number. -/
theorem primeLoop_returns {N : Nat} (value : num.toInt = N) {last : Nat} (two : 2 ≤ last)
    (fits : last < 2 ^ 63) (passed : Passed (fun j => wrappedSquare j ≤ N) N last)
    (stops : wrappedSquare last ≤ N → last ∣ N) {rounds : Nat} (enough : last ≤ rounds) :
    primeLoop num rounds 2 = .returned (decide (¬ wrappedSquare last ≤ N)) := by
  have reach := primeLoop_passed value fits passed (rounds - (last - 2) - 1 + 1) 0 (by omega)
  have count : rounds - (last - 2) - 1 + 1 + (last - (2 + 0)) = rounds := by omega
  rw [count] at reach
  change primeLoop num rounds 2 = _ at reach
  rw [reach, primeLoop]
  by_cases small : wrappedSquare last ≤ N
  · have square : Int64.ofNat last * Int64.ofNat last ≤ num :=
      (square_le_iff fits).mpr (by rw [value]; exact small)
    have rest : num % Int64.ofNat last = 0 := (mod_eq_zero_iff fits value).mpr (stops small)
    rw [if_pos square, if_neg (ofNat_ne_zero (by omega) fits), if_pos rest]
    simp [small]
  · have square : ¬ Int64.ofNat last * Int64.ofNat last ≤ num := by
      rw [square_le_iff fits, value]
      exact small
    rw [if_neg square]
    simp [small]

end Loop

/-! ## Where the loop ends for a prime -/

/-- A number whose square leaves `2 ^ 63 - 7`. -/
def lateRoot : Nat := 2759374635167858507

theorem wrappedSquare_lateRoot : wrappedSquare lateRoot = 2 ^ 63 - 7 := by decide +kernel

/-- None of the last seven integers is a prime. -/
theorem not_prime_of_large {N : Nat} (large : 2 ^ 63 - 7 ≤ N) (fits : N < 2 ^ 63) : ¬ N.Prime := by
  intro prime
  have divisor : ∃ d, d ∣ N ∧ 2 ≤ d ∧ d ≤ 157 := by
    have cases : N = 2 ^ 63 - 7 ∨ N = 2 ^ 63 - 6 ∨ N = 2 ^ 63 - 5 ∨ N = 2 ^ 63 - 4 ∨
        N = 2 ^ 63 - 3 ∨ N = 2 ^ 63 - 2 ∨ N = 2 ^ 63 - 1 := by omega
    rcases cases with rfl | rfl | rfl | rfl | rfl | rfl | rfl
    · exact ⟨157, by decide, by decide, by decide⟩
    · exact ⟨2, by decide, by decide, by decide⟩
    · exact ⟨3, by decide, by decide, by decide⟩
    · exact ⟨2, by decide, by decide, by decide⟩
    · exact ⟨5, by decide, by decide, by decide⟩
    · exact ⟨2, by decide, by decide, by decide⟩
    · exact ⟨7, by decide, by decide, by decide⟩
  obtain ⟨d, divides, two, small⟩ := divisor
  rcases (Nat.dvd_prime prime).mp divides with one | self
  · omega
  · omega

/-- Below a prime there is an index at which the bound test fails. -/
theorem exists_square_gt {N : Nat} (prime : N.Prime) (three : 3 ≤ N) (fits : N < 2 ^ 63) :
    ∃ last, 2 ≤ last ∧ last < N ∧ ¬ wrappedSquare last ≤ N := by
  rcases Nat.lt_or_ge N (3037000499 ^ 2) with small | large
  · have root : N.sqrt < 3037000499 := Nat.sqrt_lt'.mpr small
    have above : N < (N.sqrt + 1) ^ 2 := Nat.lt_succ_sqrt' N
    have least : N.sqrt * N.sqrt ≤ N := Nat.sqrt_le N
    have one : 1 ≤ N.sqrt := Nat.le_sqrt.mpr (by omega)
    refine ⟨N.sqrt + 1, by omega, ?_, ?_⟩
    · rcases Nat.lt_or_ge N.sqrt 2 with few | many
      · omega
      · nlinarith
    · have bounded : (N.sqrt + 1) ^ 2 ≤ 3037000499 ^ 2 := Nat.pow_le_pow_left root 2
      rw [wrappedSquare_of_lt (lt_of_le_of_lt bounded (by decide))]
      exact_mod_cast not_le.mpr above
  · have below : N < 2 ^ 63 - 7 := by
      by_contra last
      exact not_prime_of_large (not_lt.mp last) fits prime
    refine ⟨lateRoot, by decide, lt_of_lt_of_le (by decide) large, ?_⟩
    rw [wrappedSquare_lateRoot]
    omega

/-- For a prime the loop ends because the test fails. -/
theorem exists_stop_of_prime {N : Nat} (prime : N.Prime) (fits : N < 2 ^ 63) :
    ∃ last, 2 ≤ last ∧ last ≤ N ∧ Passed (fun j => wrappedSquare j ≤ N) N last ∧
      ¬ wrappedSquare last ≤ N := by
  rcases prime.two_le.eq_or_lt with rfl | three
  · refine ⟨2, le_refl 2, le_refl 2, fun j low below => absurd low (not_le.mpr below), ?_⟩
    rw [wrappedSquare_of_lt (by norm_num)]
    norm_num
  · obtain ⟨last, low, below, fails⟩ := exists_square_gt prime three fits
    obtain ⟨k, start, upTo, passed, fails⟩ :=
      exists_passed_of_prime (fun j => wrappedSquare j ≤ N) prime low below fails
    exact ⟨k, start, by omega, passed, fails⟩

/-- Every number has an index at which the loop ends; the test fails there exactly for primes. -/
theorem exists_stop {N : Nat} (two : 2 ≤ N) (fits : N < 2 ^ 63) :
    ∃ last, 2 ≤ last ∧ last ≤ N ∧ Passed (fun j => wrappedSquare j ≤ N) N last ∧
      (wrappedSquare last ≤ N → last ∣ N) ∧ (¬ wrappedSquare last ≤ N ↔ N.Prime) := by
  by_cases prime : N.Prime
  · obtain ⟨last, start, upTo, passed, fails⟩ := exists_stop_of_prime prime fits
    exact ⟨last, start, upTo, passed, fun small => absurd small fails, iff_of_true fails prime⟩
  · have upToRoot : ∀ j : Nat, j ^ 2 ≤ N → wrappedSquare j ≤ N := by
      intro j root
      rw [wrappedSquare_of_lt (lt_of_le_of_lt root fits)]
      exact_mod_cast root
    obtain ⟨passed, holds⟩ :=
      passed_minFac (fun j => wrappedSquare j ≤ N) prime (by omega) upToRoot
    exact ⟨N.minFac, (Nat.minFac_prime (by omega)).two_le, Nat.minFac_le (by omega), passed,
      fun _ => Nat.minFac_dvd N, iff_of_false (not_not.mpr holds) prime⟩

/-! ## `ValidatePrime` -/

/-- For every value of an `int` the loop ends, without a division by zero, and its answer is
    whether the value is a prime. -/
theorem validatePrime_iff (num : Int64) :
    ∃ enough result, (∀ rounds, enough ≤ rounds →
        validatePrime rounds (some num) = .returned result) ∧
      (result = true ↔ ∃ p : Nat, p.Prime ∧ num.toInt = p) := by
  rcases Int.lt_or_le num.toInt 2 with small | large
  · have less : num < 2 := Int64.lt_iff_toInt_lt.mpr small
    refine ⟨0, false, fun rounds _ => by rw [validatePrime, if_pos less], ?_⟩
    simp only [Bool.false_eq_true, false_iff, not_exists, not_and]
    intro p prime equal
    have := prime.two_le
    omega
  · have notLess : ¬ num < 2 := by
      rw [Int64.lt_iff_toInt_lt]
      exact not_lt.mpr large
    obtain ⟨N, value⟩ := Int.eq_ofNat_of_zero_le (by omega : 0 ≤ num.toInt)
    have fits : N < 2 ^ 63 := by
      have := Int64.toInt_lt num
      omega
    have answer : (∃ p : Nat, p.Prime ∧ num.toInt = p) ↔ N.Prime := by
      rw [value]
      constructor
      · rintro ⟨p, prime, equal⟩
        rwa [show N = p by omega]
      · exact fun prime => ⟨N, prime, rfl⟩
    obtain ⟨last, two, upTo, passed, stops, prime⟩ := exists_stop (by omega : 2 ≤ N) fits
    refine ⟨last, decide (¬ wrappedSquare last ≤ N), fun rounds enough => ?_, ?_⟩
    · rw [validatePrime, if_neg notLess]
      exact primeLoop_returns value two (lt_of_le_of_lt upTo fits) passed stops enough
    · rw [answer, decide_eq_true_iff]
      exact prime

end DistributedCloud.Gintest
