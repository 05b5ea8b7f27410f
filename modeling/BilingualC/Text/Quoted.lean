import BilingualC.Text.Printable

/-!
# Quoted texts

A quoted text stands between two quote marks. Printable characters are shown as they are, the mark
and the backslash after a backslash, the usual controls by a letter after a backslash, and every
other character by its code in base sixteen: `\x` with two digits, `\u` with four, `\U` with eight.
-/

namespace BilingualC.Text

/-- The character shown for a code that no character has. -/
def replacement : Char := '\ufffd'

/-- The character with a given code. -/
def letterOfCode (code : Int) : Char :=
  if 0 ≤ code && code.toNat.isValidChar then Char.ofNat code.toNat else replacement

/-- The digits of a natural in base sixteen, filled up with zeros to a least width. -/
def hexPadded (width n : Nat) : List Char :=
  let digits := Nat.toDigits 16 n
  List.replicate (width - digits.length) '0' ++ digits

/-- The letter that names a control character after a backslash. -/
def controlLetter? (c : Char) : Option Char :=
  match c.toNat with
  | 7 => some 'a'
  | 8 => some 'b'
  | 12 => some 'f'
  | 10 => some 'n'
  | 13 => some 'r'
  | 9 => some 't'
  | 11 => some 'v'
  | _ => none

/-- Writes one character of a quoted text. -/
def quoteChar (mark c : Char) : List Char :=
  if c == mark || c == '\\' then ['\\', c]
  else if isPrintable c then [c]
  else match controlLetter? c with
    | some letter => ['\\', letter]
    | none =>
      if c.toNat < 0x20 || c.toNat == 0x7f then '\\' :: 'x' :: hexPadded 2 c.toNat
      else if c.toNat < 0x10000 then '\\' :: 'u' :: hexPadded 4 c.toNat
      else '\\' :: 'U' :: hexPadded 8 c.toNat

/-- Writes a text between two marks. -/
def quoteChars (mark : Char) (cs : List Char) : List Char :=
  mark :: (cs.flatMap (quoteChar mark) ++ [mark])

/-- Writes a text between double quotes. -/
def quote (s : String) : String := String.ofList (quoteChars '"' s.toList)

/-- Writes a character between single quotes. -/
def quoteLetter (c : Char) : String := String.ofList (quoteChars '\'' [c])

end BilingualC.Text
