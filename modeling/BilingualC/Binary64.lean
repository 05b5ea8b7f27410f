import BilingualC.Word

/-!
# Floating values

A floating value is the 64-bit pattern of an IEEE double. The operations are stated on the pattern
itself: a finite value is decoded to an integer times a power of two, the exact result is formed
with integers, and `ofRatio` rounds it to the nearest pattern, ties going to the even one.

An operation with an undefined result gives `indefinite`; an operand that is not a number is passed
on, the left one before the right one, with its quiet bit set.
-/

namespace BilingualC

/-- The bit pattern of a floating value. -/
structure Binary64 where
  bits : UInt64
deriving DecidableEq, Repr, Inhabited

namespace Binary64

/-! ## Fields of a pattern -/

/-- Says whether the sign bit is set. -/
def sign (x : Binary64) : Bool := x.bits.toNat / 9223372036854775808 == 1

/-- The pattern without its sign bit. -/
def magnitude (x : Binary64) : Nat := x.bits.toNat % 9223372036854775808

/-- The biased exponent. -/
def exponentField (x : Binary64) : Nat := x.magnitude / 4503599627370496

/-- The fraction. -/
def fraction (x : Binary64) : Nat := x.magnitude % 4503599627370496

/-- Says whether the pattern is not a number. -/
def isNaN (x : Binary64) : Bool := 9218868437227405312 < x.magnitude

/-- Says whether the pattern is one of the two infinities. -/
def isInfinite (x : Binary64) : Bool := x.magnitude == 9218868437227405312

/-- Says whether the pattern is one of the two zeros. -/
def isZero (x : Binary64) : Bool := x.magnitude == 0

/-- The integer `m` of the decoding `m * 2 ^ scale` of a finite pattern. -/
def significand (x : Binary64) : Nat :=
  if x.exponentField == 0 then x.fraction else x.fraction + 4503599627370496

/-- The exponent of the decoding of a finite pattern. -/
def scale (x : Binary64) : Int :=
  if x.exponentField == 0 then -1074 else (x.exponentField : Int) - 1075

/-- Puts a sign on a pattern without one. -/
def ofMagnitude (negative : Bool) (magnitude : Nat) : Binary64 :=
  ⟨UInt64.ofNat (magnitude + if negative then 9223372036854775808 else 0)⟩

def zero (negative : Bool) : Binary64 := ofMagnitude negative 0
def infinity (negative : Bool) : Binary64 := ofMagnitude negative 9218868437227405312

/-- The result of an operation that has none. -/
def indefinite : Binary64 := ⟨0xfff8000000000000⟩

/-- Sets the quiet bit of a pattern that is not a number. -/
def quiet (x : Binary64) : Binary64 := ⟨x.bits ||| 0x0008000000000000⟩

/-! ## Rounding -/

/-- Rounds a quotient of naturals to the nearest natural, ties to the even one. -/
def roundDiv (num den : Nat) : Nat :=
  let low := num / den
  let rest := 2 * (num % den)
  if rest < den then low
  else if den < rest then low + 1
  else if low % 2 == 0 then low else low + 1

/-- The numerator and the denominator of a quotient divided by a power of two. -/
def scaled (num den : Nat) (q : Int) : Nat × Nat :=
  if q < 0 then (num * Nat.pow 2 (-q).toNat, den) else (num, den * Nat.pow 2 q.toNat)

/-- The exponent of the last place kept when the quotient is rounded: 53 significant bits, but never
a place below that of the least positive value. -/
def lastPlace (num den : Nat) : Int :=
  let guess : Int := max (-1074) ((num.log2 : Int) - (den.log2 : Int) - 53)
  let (a, b) := scaled num den guess
  if 9007199254740992 ≤ a / b then guess + 1 else guess

/-- The pattern nearest to a quotient of naturals, ties to the even pattern. -/
def ofRatio (negative : Bool) (num den : Nat) : Binary64 :=
  if num == 0 then zero negative
  else
    let q := lastPlace num den
    let (a, b) := scaled num den q
    let r := roundDiv a b
    let magnitude := if r < 4503599627370496 then r
      else (q + 1075).toNat * 4503599627370496 + (r - 4503599627370496)
    if 9218868437227405312 ≤ magnitude then infinity negative else ofMagnitude negative magnitude

/-- The pattern nearest to an integer times a power of two. -/
def ofScaled (negative : Bool) (m : Nat) (q : Int) : Binary64 :=
  if q < 0 then ofRatio negative m (Nat.pow 2 (-q).toNat)
    else ofRatio negative (m * Nat.pow 2 q.toNat) 1

/-- The pattern nearest to an integer. -/
def ofInt (n : Int) : Binary64 := ofRatio (n < 0) n.natAbs 1

/-- The pattern nearest to a natural times a power of ten. -/
def ofDecimal (digits : Nat) (exponent : Int) : Binary64 :=
  if digits == 0 then zero false
  else if exponent < 0 then ofRatio false digits (Nat.pow 10 (-exponent).toNat)
  else ofRatio false (digits * Nat.pow 10 exponent.toNat) 1

/-! ## Words -/

/-- Reads the pattern as a signed word. -/
def toWord (x : Binary64) : Int := wrap64 x.bits.toNat

/-- Takes a signed word as a pattern. -/
def ofWord (w : Int) : Binary64 := ⟨UInt64.ofNat (w % 18446744073709551616).toNat⟩

/-! ## Operations -/

/-- Applies an operation to numbers and passes on an operand that is not a number. -/
def onNumbers (x y : Binary64) (result : Binary64) : Binary64 :=
  if x.isNaN then x.quiet else if y.isNaN then y.quiet else result

def neg (x : Binary64) : Binary64 := ⟨x.bits ^^^ 0x8000000000000000⟩
def abs (x : Binary64) : Binary64 := ⟨x.bits &&& 0x7fffffffffffffff⟩

/-- The decoded significand with its sign. -/
def signedSignificand (x : Binary64) : Int :=
  if x.sign then -(x.significand : Int) else x.significand

def addFinite (x y : Binary64) : Binary64 :=
  let q := min x.scale y.scale
  let sum := x.signedSignificand * Int.pow 2 (x.scale - q).toNat + y.signedSignificand *
    Int.pow 2 (y.scale - q).toNat
  if sum == 0 then zero (x.sign && y.sign) else ofScaled (sum < 0) sum.natAbs q

def add (x y : Binary64) : Binary64 :=
  onNumbers x y <|
    if x.isInfinite then (if y.isInfinite && x.sign != y.sign then indefinite else x)
    else if y.isInfinite then y
    else addFinite x y

def sub (x y : Binary64) : Binary64 :=
  onNumbers x y (add x (neg y))

def mul (x y : Binary64) : Binary64 :=
  let negative := x.sign != y.sign
  onNumbers x y <|
    if x.isInfinite || y.isInfinite then
      (if x.isZero || y.isZero then indefinite else infinity negative)
    else ofScaled negative (x.significand * y.significand) (x.scale + y.scale)

def divFinite (negative : Bool) (x y : Binary64) : Binary64 :=
  let q := x.scale - y.scale
  if q < 0 then ofRatio negative x.significand (y.significand * Nat.pow 2 (-q).toNat)
  else ofRatio negative (x.significand * Nat.pow 2 q.toNat) y.significand

def div (x y : Binary64) : Binary64 :=
  let negative := x.sign != y.sign
  onNumbers x y <|
    if x.isInfinite then (if y.isInfinite then indefinite else infinity negative)
    else if y.isInfinite then zero negative
    else if y.isZero then (if x.isZero then indefinite else infinity negative)
    else divFinite negative x y

/-- Orders numbers; the two zeros have the same place. -/
def place (x : Binary64) : Int := if x.sign then -(x.magnitude : Int) else x.magnitude

def lt (x y : Binary64) : Bool := !x.isNaN && !y.isNaN && x.place < y.place
def le (x y : Binary64) : Bool := !x.isNaN && !y.isNaN && x.place ≤ y.place
def eq (x y : Binary64) : Bool := !x.isNaN && !y.isNaN && x.place == y.place

end Binary64

end BilingualC
