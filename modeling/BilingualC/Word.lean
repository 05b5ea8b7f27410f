/-!
# Words

The cells of the node arena, of the tables and of the machine image hold signed 64-bit words. A
word is kept as an `Int`; every operation that can leave the range brings its result back with
`wrap64`. Language-level integers have 32 bits, and `fitsInt` tells which words are such integers.
-/

namespace BilingualC

/-- Keeps the low 64 bits of an integer and reads them as a signed word. -/
def wrap64 (x : Int) : Int := x.bmod 18446744073709551616

/-- Keeps the low 32 bits of an integer and reads them as a signed integer. -/
def wrap32 (x : Int) : Int := x.bmod 4294967296

/-- Says whether a word is an integer of the source language, which has 32 bits. -/
def fitsInt (x : Int) : Bool := x == wrap32 x

/-- Gives the two's complement bits of a word. -/
def wordBits (x : Int) : BitVec 64 := BitVec.ofInt 64 x

/-- Turns a condition into the word that stands for it. -/
def flagWord (b : Bool) : Int := if b then 1 else 0

/-- Wrapping leaves a word of the range alone. -/
theorem wrap64_of_range {x : Int} (low : -9223372036854775808 ≤ x)
    (high : x < 9223372036854775808) : wrap64 x = x := by
  simp only [wrap64, Int.bmod]
  split <;> omega

/-- The integers of the source language are those between the two 32-bit bounds. -/
theorem fitsInt_iff (x : Int) : fitsInt x = true ↔ -2147483648 ≤ x ∧ x < 2147483648 := by
  simp only [fitsInt, wrap32, Int.bmod, beq_iff_eq]
  split <;> omega

end BilingualC
