import Mathlib.Data.List.Basic
import Mathlib.Tactic.Common

/-!
# Bit sets

`porcupine/bitset.go`: the operations chosen so far as words of 64 bits. An index out of range
stops the program, which is `none` here.
-/

namespace DistributedCloud.Porcupine

/-- Bits 0-63 are in the first word, the next are in the second one, etc. -/
abbrev Bitset := List UInt64

namespace Bitset

/-- `newBitset`. -/
def newBitset (bits : Nat) : Bitset :=
  let extra := if bits % 64 ≠ 0 then 1 else 0
  List.replicate (bits / 64 + extra) 0

/-- `bitsetIndex`: the word of a position and the bit in it. -/
def bitsetIndex (pos : Nat) : Nat × Nat := (pos / 64, pos % 64)

/-- `1 << minor`. -/
def mask (minor : Nat) : UInt64 := 1 <<< UInt64.ofNat minor

/-- `set`. -/
def set (b : Bitset) (pos : Nat) : Option Bitset :=
  let (major, minor) := bitsetIndex pos
  b[major]?.map fun word => List.set b major (word ||| mask minor)

/-- `clear`. -/
def clear (b : Bitset) (pos : Nat) : Option Bitset :=
  let (major, minor) := bitsetIndex pos
  b[major]?.map fun word => List.set b major (word &&& ~~~mask minor)

/-- `get`. -/
def get (b : Bitset) (pos : Nat) : Option Bool :=
  let (major, minor) := bitsetIndex pos
  b[major]?.map fun word => decide (word &&& mask minor ≠ 0)

/-- `bits.OnesCount64`. -/
def onesCount64 (word : UInt64) : Nat := (List.range 64).countP word.toNat.testBit

/-- `popcnt`. -/
def popcnt (b : Bitset) : Nat := b.foldl (fun total word => total + onesCount64 word) 0

/-- `hash`. -/
def hash (b : Bitset) : UInt64 :=
  b.foldl (fun hash word => hash ^^^ word) (UInt64.ofNat b.popcnt)

/-- `equals`. -/
def equals (b b2 : Bitset) : Bool :=
  if b.length ≠ b2.length then false
  else (List.range b.length).all fun i => b[i]? == b2[i]?

end Bitset

end DistributedCloud.Porcupine
