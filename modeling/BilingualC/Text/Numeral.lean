/-!
# Decimal numerals

Reading whole numbers in decimal, as they stand on command lines and in settings.
-/

namespace BilingualC.Text

/-- The value of a list of decimal digits. -/
def digitsValue (digits : List Char) : Nat :=
  digits.foldl (fun n c => n * 10 + (c.toNat - '0'.toNat)) 0

/-- Splits a sign off the front of a numeral; the sign says whether the number is negative. -/
def splitSign : List Char → Bool × List Char
  | '-' :: cs => (true, cs)
  | '+' :: cs => (false, cs)
  | cs => (false, cs)

/-- The word that a numeral denotes: an optional sign and at least one digit, within 64 bits. -/
def word? (s : String) : Option Int :=
  let (negative, digits) := splitSign s.toList
  if digits.isEmpty || !digits.all Char.isDigit then none
  else
    let value : Int := digitsValue digits
    let value := if negative then -value else value
    if -9223372036854775808 ≤ value && value ≤ 9223372036854775807 then some value else none

end BilingualC.Text
