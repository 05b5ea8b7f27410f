import BilingualC.Binary64
import BilingualC.Text.Fields
import BilingualC.Text.Numeral

/-!
# Durations

A duration is a number of nanoseconds. It is written with units, from hours down to seconds or in
the one smaller unit that fits, and read as a sum of numbers with units.
-/

namespace BilingualC

/-- A number of nanoseconds. -/
abbrev Duration := Int

namespace Duration

def microsecond : Nat := 1000
def millisecond : Nat := 1000000
def second : Nat := 1000000000

/-- Whole units and a fraction of the given number of digits without zeros at its end. -/
def withFraction (n unit digits : Nat) : String :=
  let fraction := (toString (n % unit)).toList
  let fraction := List.replicate (digits - fraction.length) '0' ++ fraction
  let fraction := (fraction.reverse.dropWhile (· == '0')).reverse
  toString (n / unit) ++ (if fraction.isEmpty then "" else "." ++ String.ofList fraction)

/-- The text of a natural number of nanoseconds. -/
def natText (n : Nat) : String :=
  if n == 0 then "0s"
  else if n < microsecond then toString n ++ "ns"
  else if n < millisecond then withFraction n microsecond 3 ++ "µs"
  else if n < second then withFraction n millisecond 6 ++ "ms"
  else
    let minutes := n / second / 60
    let seconds := withFraction (n % (60 * second)) second 9 ++ "s"
    if minutes == 0 then seconds
    else if minutes < 60 then toString minutes ++ "m" ++ seconds
    else toString (minutes / 60) ++ "h" ++ toString (minutes % 60) ++ "m" ++ seconds

def text (d : Duration) : String := (if d < 0 then "-" else "") ++ natText d.natAbs

/-- A duration in whole microseconds, or in whole milliseconds if it has one. -/
def short (d : Duration) : String :=
  if d < millisecond then toString (d.tdiv microsecond) ++ "µs"
    else toString (d.tdiv millisecond) ++ "ms"

/-! ## Reading -/

/-- The size of a unit. -/
def unit? (name : String) : Option Nat :=
  if name == "ns" then some 1
  else if name == "us" || name == "µs" || name == "μs" then some microsecond
  else if name == "ms" then some millisecond
  else if name == "s" then some second
  else if name == "m" then some (60 * second)
  else if name == "h" then some (3600 * second)
  else none

/-- The largest magnitude of a duration. -/
def limit : Nat := 9223372036854775808

/-- The whole part of a floating number that is not negative. -/
def wholePart (x : Binary64) : Nat :=
  if x.scale < 0 then x.significand / Nat.pow 2 (-x.scale).toNat
    else x.significand * Nat.pow 2 x.scale.toNat

/-- The digits of a fraction that count, and the power of ten that they are divided by. -/
def fractionValue (digits : List Char) : Nat × Nat :=
  digits.foldl (fun (n, scale) c =>
    let next := n * 10 + (c.toNat - '0'.toNat)
    if (limit - 1) / 10 < n || limit < next then (n, scale) else (next, scale * 10)) (0, 1)

/-- The nanoseconds of a number with a unit. -/
def amount? (whole fraction : List Char) (unit : Nat) : Option Nat :=
  let n := Text.digitsValue whole
  if limit / unit < n then none
  else
    let (f, scale) := fractionValue fraction
    let part := wholePart (.mul (.ofInt f) (.div (.ofInt unit) (.ofInt scale)))
    let total := n * unit + (if f == 0 then 0 else part)
    if limit < total then none else some total

/-- Reads a sum of numbers with units; `left` bounds the number of its terms. -/
def terms : Nat → Nat → List Char → Option Nat
  | _, sum, [] => some sum
  | 0, _, _ => none
  | left + 1, sum, cs => do
    let whole := cs.takeWhile Char.isDigit
    let rest := cs.dropWhile Char.isDigit
    let (fraction, rest) := match rest with
      | '.' :: ds => (ds.takeWhile Char.isDigit, ds.dropWhile Char.isDigit)
      | ds => ([], ds)
    if whole.isEmpty && fraction.isEmpty then none
    let isUnit (c : Char) := c != '.' && !c.isDigit
    let unit ← unit? (String.ofList (rest.takeWhile isUnit))
    let sum := sum + (← amount? whole fraction unit)
    if limit < sum then none
    terms left sum (rest.dropWhile isUnit)

/-- Reads a duration: an optional sign, and zero or numbers with units. -/
def ofText? (s : String) : Option Duration := do
  let (negative, cs) := Text.splitSign s.toList
  if cs == ['0'] then return 0
  if cs.isEmpty then none
  let n ← terms cs.length 0 cs
  if negative then return -(n : Int)
  if n == limit then none else return n

end Duration

end BilingualC
