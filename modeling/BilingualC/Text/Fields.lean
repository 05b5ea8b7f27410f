/-!
# Cutting texts

Cutting at blanks and at separators, and tests on the ends of a text. Everything works on lists of
characters, and `String` forms stand beside the list forms where callers have strings.
-/

namespace BilingualC.Text

/-- Says whether a character is a blank of any script. -/
def isBlank (c : Char) : Bool :=
  let n := c.toNat
  (9 ≤ n && n ≤ 13) || n == 0x20 || n == 0x85 || n == 0xa0 || n == 0x1680
    || (0x2000 ≤ n && n ≤ 0x200a) || n == 0x2028 || n == 0x2029 || n == 0x202f || n == 0x205f
    || n == 0x3000

/-- Puts a character in front of the first piece. -/
def consFirst (c : Char) : List (List Char) → List (List Char)
  | [] => [[c]]
  | piece :: pieces => (c :: piece) :: pieces

/-- Cuts at every character of a class; pieces may be empty. -/
def cutAt (isCut : Char → Bool) : List Char → List (List Char)
  | [] => [[]]
  | c :: cs => if isCut c then [] :: cutAt isCut cs else consFirst c (cutAt isCut cs)

/-- The words of a text: its longest runs without blanks. -/
def fields (s : String) : List String :=
  ((cutAt isBlank s.toList).filter fun piece => !piece.isEmpty).map String.ofList

/-- The pieces of a text between the occurrences of a character. -/
def splitAtChar (mark : Char) (s : String) : List String :=
  (cutAt (· == mark) s.toList).map String.ofList

/-- The rest of a text after a beginning, if the text begins so. -/
def afterStart? : List Char → List Char → Option (List Char)
  | [], cs => some cs
  | _ :: _, [] => none
  | p :: ps, c :: cs => if p == c then afterStart? ps cs else none

/-- Says whether a text begins with another. -/
def startsWith (start s : String) : Bool := (afterStart? start.toList s.toList).isSome

/-- Says whether a text ends with another. -/
def endsWith (tail s : String) : Bool :=
  (afterStart? tail.toList.reverse s.toList.reverse).isSome

/-- A text without a beginning it may have, and whether it had it. -/
def cutStart (start s : String) : String × Bool :=
  match afterStart? start.toList s.toList with
  | some rest => (String.ofList rest, true)
  | none => (s, false)

/-- A text without a beginning it may have. -/
def dropStart (start s : String) : String := (cutStart start s).1

/-- A text without one ending that it may have. -/
def dropEnding (tail s : String) : String :=
  match afterStart? tail.toList.reverse s.toList.reverse with
  | some rest => String.ofList rest.reverse
  | none => s

/-- Says whether a list of characters occurs in another. -/
def occursIn (part : List Char) : List Char → Bool
  | [] => part.isEmpty
  | c :: cs => (afterStart? part (c :: cs)).isSome || occursIn part cs

/-- Says whether a text occurs in another. -/
def contains (s part : String) : Bool := occursIn part.toList s.toList

/-- Replaces a non-empty part wherever it occurs, from left to right; `skip` characters of the last
occurrence are still to be passed over. -/
def replaceChars (part new : List Char) : Nat → List Char → List Char
  | _, [] => []
  | skip + 1, _ :: cs => replaceChars part new skip cs
  | 0, c :: cs =>
    match afterStart? part (c :: cs) with
    | some _ => new ++ replaceChars part new (part.length - 1) cs
    | none => c :: replaceChars part new 0 cs

/-- Replaces a non-empty part of a text wherever it occurs. -/
def replaceAll (s part new : String) : String :=
  if part.isEmpty then s else String.ofList (replaceChars part.toList new.toList 0 s.toList)

/-- A text without the blanks at its ends. -/
def trimBlanks (s : String) : String :=
  String.ofList ((s.toList.dropWhile isBlank).reverse.dropWhile isBlank).reverse

/-- A text without the characters of a class at its end. -/
def trimEndWhile (drop : Char → Bool) (s : String) : String :=
  String.ofList (s.toList.reverse.dropWhile drop).reverse

/-- A text filled up with blanks on the left to a least number of characters. -/
def padLeft (width : Nat) (s : String) : String :=
  String.ofList (List.replicate (width - s.length) ' ') ++ s

/-- A text filled up with blanks on the right to a least number of characters. -/
def padRight (width : Nat) (s : String) : String :=
  s ++ String.ofList (List.replicate (width - s.length) ' ')

/-- A character repeated. -/
def repeated (n : Nat) (c : Char) : String := String.ofList (List.replicate n c)

end BilingualC.Text
