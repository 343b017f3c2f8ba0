import DistributedCloud.Porcupine.Bitset
import Mathlib.Data.Nat.Bitwise

/-!
# Bit sets represent sets of positions

A bit set is determined by its length and its bits, so that comparing words compares sets, and
setting and clearing a bit adds and removes one position.
-/

namespace DistributedCloud.Porcupine.Bitset

variable {b b' : Bitset} {pos i n : Nat}

/-- The bit at a position, with nothing beyond the last word. -/
def bit (b : Bitset) (pos : Nat) : Bool := (b[pos / 64]?.getD 0).toNat.testBit (pos % 64)

theorem toNat_mask {minor : Nat} (inside : minor < 64) : (mask minor).toNat = 2 ^ minor := by
  have small : 2 ^ minor < 2 ^ 64 := Nat.pow_lt_pow_right (by decide) inside
  have index : minor % 2 ^ 64 % 64 = minor := by omega
  rw [mask, UInt64.toNat_shiftLeft, UInt64.toNat_ofNat', index, Nat.shiftLeft_eq,
    UInt64.toNat_one, Nat.one_mul, Nat.mod_eq_of_lt small]

theorem testBit_mask {minor i : Nat} (inside : minor < 64) :
    (mask minor).toNat.testBit i = decide (minor = i) := by
  rw [toNat_mask inside, Nat.testBit_two_pow]

theorem testBit_or_mask (word : UInt64) {minor i : Nat} (inside : minor < 64) :
    (word ||| mask minor).toNat.testBit i = (decide (minor = i) || word.toNat.testBit i) := by
  rw [UInt64.toNat_or, Nat.testBit_or, testBit_mask inside, Bool.or_comm]

theorem testBit_and_not_mask (word : UInt64) {minor i : Nat} (inside : minor < 64)
    (bound : i < 64) : (word &&& ~~~mask minor).toNat.testBit i =
      (!decide (minor = i) && word.toNat.testBit i) := by
  have masked : (~~~mask minor).toNat.testBit i = !decide (minor = i) := by
    rw [← testBit_mask inside, ← UInt64.toNat_toBitVec, ← UInt64.toNat_toBitVec,
      UInt64.toBitVec_not, BitVec.testBit_toNat, BitVec.testBit_toNat, BitVec.getLsbD_not]
    simp [bound]
  rw [UInt64.toNat_and, Nat.testBit_and, masked, Bool.and_comm]

theorem set_eq_some (updated : b.set pos = some b') :
    b'.length = b.length ∧ ∀ i, b'.bit i = (decide (i = pos) || b.bit i) := by
  simp only [set, bitsetIndex, Option.map_eq_some_iff] at updated
  obtain ⟨word, found, rfl⟩ := updated
  refine ⟨List.length_set, ?_⟩
  intro i
  obtain ⟨inside, -⟩ := List.getElem?_eq_some_iff.mp found
  unfold bit
  by_cases same : pos / 64 = i / 64
  · rw [← same, List.getElem?_set_self inside, found]
    simp only [Option.getD_some]
    rw [testBit_or_mask word (Nat.mod_lt _ (by decide))]
    have index : pos % 64 = i % 64 ↔ i = pos := by omega
    simp only [index]
  · rw [List.getElem?_set_ne same]
    have apart : i ≠ pos := by
      rintro rfl
      exact same rfl
    simp [apart]

theorem clear_eq_some (updated : b.clear pos = some b') :
    b'.length = b.length ∧ ∀ i, b'.bit i = (!decide (i = pos) && b.bit i) := by
  simp only [clear, bitsetIndex, Option.map_eq_some_iff] at updated
  obtain ⟨word, found, rfl⟩ := updated
  refine ⟨List.length_set, ?_⟩
  intro i
  obtain ⟨inside, -⟩ := List.getElem?_eq_some_iff.mp found
  unfold bit
  by_cases same : pos / 64 = i / 64
  · rw [← same, List.getElem?_set_self inside, found]
    simp only [Option.getD_some]
    rw [testBit_and_not_mask word (Nat.mod_lt _ (by decide)) (Nat.mod_lt _ (by decide))]
    have index : pos % 64 = i % 64 ↔ i = pos := by omega
    simp only [index]
  · rw [List.getElem?_set_ne same]
    have apart : i ≠ pos := by
      rintro rfl
      exact same rfl
    simp [apart]

theorem exists_set (inside : pos / 64 < b.length) : ∃ b', b.set pos = some b' := by
  simp [set, bitsetIndex, List.getElem?_eq_getElem inside]

theorem exists_clear (inside : pos / 64 < b.length) : ∃ b', b.clear pos = some b' := by
  simp [clear, bitsetIndex, List.getElem?_eq_getElem inside]

theorem and_mask_ne_zero (word : UInt64) {minor : Nat} (inside : minor < 64) :
    word &&& mask minor ≠ 0 ↔ word.toNat.testBit minor = true := by
  have zero : word &&& mask minor = 0 ↔ (word &&& mask minor).toNat = 0 :=
    (UInt64.toNat_inj (b := 0)).symm
  rw [ne_eq, zero, UInt64.toNat_and, toNat_mask inside, Nat.and_two_pow]
  cases word.toNat.testBit minor <;> simp

/-- Reading a bit through the mask. -/
theorem get_eq (inside : pos / 64 < b.length) : b.get pos = some (b.bit pos) := by
  have bound : pos % 64 < 64 := Nat.mod_lt _ (by decide)
  show b[pos / 64]?.map (fun word => decide (word &&& mask (pos % 64) ≠ 0)) = _
  rw [bit, List.getElem?_eq_getElem inside]
  refine congrArg some (Bool.eq_iff_iff.mpr ?_)
  rw [decide_eq_true_iff]
  exact and_mask_ne_zero _ bound

/-! ## Bit sets of one size -/

/-- The bit set has room for `n` positions and holds those of `p`. -/
structure Holds (b : Bitset) (n : Nat) (p : Nat → Bool) : Prop where
  length : b.length = (newBitset n).length
  bits : ∀ i, b.bit i = p i

theorem length_newBitset (inside : pos < n) : pos / 64 < (newBitset n).length := by
  simp only [newBitset, List.length_replicate]
  split
  · omega
  · omega

theorem holds_newBitset (n : Nat) : Holds (newBitset n) n fun _ => false := by
  refine ⟨rfl, ?_⟩
  intro i
  have zero : (newBitset n)[i / 64]?.getD 0 = 0 := by
    simp only [newBitset, List.getElem?_replicate]
    split <;> split <;> rfl
  rw [bit, zero]
  simp

variable {p : Nat → Bool}

theorem Holds.set (holds : Holds b n p) (inside : pos < n) :
    ∃ b', b.set pos = some b' ∧ Holds b' n fun i => decide (i = pos) || p i := by
  obtain ⟨b', updated⟩ := exists_set (holds.length ▸ length_newBitset inside)
  obtain ⟨same, bits⟩ := set_eq_some updated
  refine ⟨b', updated, same.trans holds.length, ?_⟩
  intro i
  rw [bits, holds.bits]

theorem Holds.clear (holds : Holds b n p) (inside : pos < n) :
    ∃ b', b.clear pos = some b' ∧ Holds b' n fun i => !decide (i = pos) && p i := by
  obtain ⟨b', updated⟩ := exists_clear (holds.length ▸ length_newBitset inside)
  obtain ⟨same, bits⟩ := clear_eq_some updated
  refine ⟨b', updated, same.trans holds.length, ?_⟩
  intro i
  rw [bits, holds.bits]

/-- The words are determined by the bits. -/
theorem eq_of_bits (length : b.length = b'.length) (bits : ∀ i, b.bit i = b'.bit i) : b = b' := by
  refine List.ext_getElem length ?_
  intro major left right
  refine UInt64.toNat_inj.mp (Nat.eq_of_testBit_eq ?_)
  intro minor
  by_cases bound : minor < 64
  · have same := bits (64 * major + minor)
    have word : (64 * major + minor) / 64 = major := by omega
    have position : (64 * major + minor) % 64 = minor := by omega
    rw [bit, bit, word, position, List.getElem?_eq_getElem left,
      List.getElem?_eq_getElem right] at same
    exact same
  · have large : 2 ^ 64 ≤ 2 ^ minor := Nat.pow_le_pow_right (by decide) (Nat.le_of_not_lt bound)
    rw [Nat.testBit_lt_two_pow (Nat.lt_of_lt_of_le (UInt64.toNat_lt _) large),
      Nat.testBit_lt_two_pow (Nat.lt_of_lt_of_le (UInt64.toNat_lt _) large)]

theorem Holds.unique (holds : Holds b n p) (holds' : Holds b' n p) : b = b' := by
  refine eq_of_bits (holds.length.trans holds'.length.symm) ?_
  intro i
  rw [holds.bits, holds'.bits]

theorem Holds.congr {q : Nat → Bool} (holds : Holds b n p) (same : ∀ i, p i = q i) :
    Holds b n q := ⟨holds.length, fun i => (holds.bits i).trans (same i)⟩

theorem equals_iff : b.equals b' = true ↔ b = b' := by
  unfold equals
  split
  · rename_i apart
    simp only [Bool.false_eq_true, false_iff]
    rintro rfl
    exact apart rfl
  · rename_i same
    have length : b.length = b'.length := by simpa using same
    simp only [List.all_eq_true, List.mem_range, beq_iff_eq]
    constructor
    · intro words
      refine List.ext_getElem? ?_
      intro major
      by_cases inside : major < b.length
      · exact words major inside
      · rw [List.getElem?_eq_none (Nat.le_of_not_lt inside),
          List.getElem?_eq_none (length ▸ Nat.le_of_not_lt inside)]
    · rintro rfl major -
      rfl

end DistributedCloud.Porcupine.Bitset
