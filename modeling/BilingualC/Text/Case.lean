/-!
# Letter case

The reserved spellings use the Latin and the Russian alphabet, so the case maps know these two. The
dotted capital I is the one further letter whose small form is a letter of a reserved spelling.
Names of settings are Latin and are compared without regard to case.
-/

namespace BilingualC.Text

/-- The capital form of a Latin or Russian letter; every other character is kept. -/
def upperLetter (c : Char) : Char :=
  let n := c.toNat
  if ('a'.toNat ≤ n && n ≤ 'z'.toNat) || ('а'.toNat ≤ n && n ≤ 'я'.toNat) then Char.ofNat (n - 32)
  else if c == 'ё' then 'Ё'
  else c

/-- The small form of a Latin or Russian letter; every other character is kept. -/
def lowerLetter (c : Char) : Char :=
  let n := c.toNat
  if ('A'.toNat ≤ n && n ≤ 'Z'.toNat) || ('А'.toNat ≤ n && n ≤ 'Я'.toNat) then Char.ofNat (n + 32)
  else if c == 'Ё' then 'ё'
  else if c == 'İ' then 'i'
  else c

/-- One form for the Latin letters that differ in case only; the long s and the sign for kelvin are
such forms of their letters. -/
def foldLetter (c : Char) : Char :=
  if c == 'ſ' then 's' else if c.toNat == 0x212a then 'k' else c.toLower

/-- Says whether two texts are equal but for the case of Latin letters. -/
def sameLetters (a b : String) : Bool := a.toList.map foldLetter == b.toList.map foldLetter

def upper (s : String) : String := .ofList (s.toList.map upperLetter)
def lower (s : String) : String := .ofList (s.toList.map lowerLetter)

end BilingualC.Text
