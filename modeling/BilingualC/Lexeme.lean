import BilingualC.Options
import BilingualC.Text.Letter
import BilingualC.Token

/-!
# Lexemes

A source is cut into lexemes from left to right. `Lexeme.next` passes over blanks and comments,
takes the longest lexeme that starts there and returns the rest of the source, so that the lexemes
of a whole source come from repeated use (`scanAll`). What is wrong with a lexeme is noted beside
it; a note never stops the scan.

Every lexeme but the end of the input takes at least one character (`next_shrinks`), which is why a
scan ends.
-/

namespace BilingualC

/-- A place in a source: an offset and the characters from there on. -/
structure Cursor where
  pos : Nat
  rest : List Char
deriving Repr

/-- A remark about a part of a source. Errors have no warning to switch them. -/
structure Note where
  warning : Option Warning
  loc : Location
  diagnostic : Diagnostic
deriving Repr

/-- What a lexeme is. -/
inductive Lexeme where
  | endOfInput
  | word (text : String)
  | punctuator (kind : TokenKind)
  | integer (text : String) (value : Nat)
  | floating (text : String) (value : Binary64)
  /-- A character constant; one without a character stands for zero. -/
  | character (value : Option Char)
  | text (value : String)
deriving Repr

/-- A lexeme, the offsets it covers, the notes about it and the source after it. -/
structure Scan where
  lexeme : Lexeme
  start : Nat
  stop : Nat
  notes : List Note
  next : Cursor
deriving Repr

namespace Lexeme

def errorNote (start stop : Nat) (d : Diagnostic) : Note := ⟨none, ⟨start, stop⟩, d⟩

/-! ## Blanks and comments -/

def isLayout (c : Char) : Bool :=
  c == ' ' || c == '\t' || c == '\n' || c == '\r' || c == '\x0c' || c == '\x0b'

/-- The place after the end of a block comment whose opening was passed over. -/
def closeComment : Nat → List Char → Option Cursor
  | _, [] => none
  | pos, '*' :: '/' :: cs => some ⟨pos + 2, cs⟩
  | pos, _ :: cs => closeComment (pos + 1) cs

/-- The place of the end of the current line. -/
def skipLine : Nat → List Char → Cursor
  | pos, [] => ⟨pos, []⟩
  | pos, c :: cs => if c == '\n' then ⟨pos, c :: cs⟩ else skipLine (pos + 1) cs

theorem closeComment_shrinks {pos : Nat} {cs : List Char} {c : Cursor}
    (closed : closeComment pos cs = some c) : c.rest.length < cs.length := by
  fun_induction closeComment pos cs with
  | case1 => simp at closed
  | case2 pos cs => cases closed; simp only [List.length_cons]; omega
  | case3 pos head tail _ ih => have := ih closed; simp only [List.length_cons]; omega

theorem skipLine_le (pos : Nat) (cs : List Char) : (skipLine pos cs).rest.length ≤ cs.length := by
  fun_induction skipLine pos cs with
  | case1 => simp
  | case2 => simp
  | case3 pos c cs _ ih => simp only [List.length_cons]; omega

/-- Passes over blanks and comments. A block comment that is never closed takes the rest of the
source. -/
def skipBlanks (lineComments : Bool) (c : Cursor) : Cursor × List Note :=
  match c with
  | ⟨pos, []⟩ => (⟨pos, []⟩, [])
  | ⟨pos, '/' :: '*' :: cs⟩ =>
    match _closed : closeComment (pos + 2) cs with
    | some next => skipBlanks lineComments next
    | none => (⟨pos + 2 + cs.length, []⟩, [errorNote pos (pos + 2) (.plain .unterminatedComment)])
  | ⟨pos, '/' :: '/' :: cs⟩ =>
    if lineComments then skipBlanks lineComments (skipLine (pos + 2) cs)
    else (⟨pos, '/' :: '/' :: cs⟩, [])
  | ⟨pos, a :: cs⟩ =>
    if isLayout a then skipBlanks lineComments ⟨pos + 1, cs⟩ else (⟨pos, a :: cs⟩, [])
termination_by c.rest.length
decreasing_by
  · have := closeComment_shrinks _closed; simp only [List.length_cons]; omega
  · have := skipLine_le (pos + 2) cs; simp only [List.length_cons]; omega
  · simp only [List.length_cons]; omega

/-! ## Words and numbers -/

/-- Says whether a character may start a word. -/
def isLetter (c : Char) : Bool := Text.isScriptLetter c || c == '_'

def isDigit (c : Char) : Bool := '0'.toNat ≤ c.toNat && c.toNat ≤ '9'.toNat

/-- Says whether a character may continue a word. -/
def isWordChar (c : Char) : Bool := isLetter c || isDigit c

/-- The longest run of characters of a class, and the source after it. -/
def spanWhile (p : Char → Bool) (c : Cursor) : List Char × Cursor :=
  let run := c.rest.takeWhile p
  (run, ⟨c.pos + run.length, c.rest.dropWhile p⟩)

/-- Exponents are marked by the Latin letter or by the Cyrillic letter of the same shape. -/
def isExponentMark (c : Char) : Bool := c == 'e' || c == 'E' || c == 'е' || c == 'Е'

def digitValue (c : Char) : Nat :=
  if isDigit c then c.toNat - '0'.toNat
  else if 'a'.toNat ≤ c.toNat && c.toNat ≤ 'z'.toNat then c.toNat - 'a'.toNat + 10
  else if 'A'.toNat ≤ c.toNat && c.toNat ≤ 'Z'.toNat then c.toNat - 'A'.toNat + 10
  else 99

/-- The largest integer of the source language. -/
def largestInt : Nat := 2147483647

/-- The digits of a number that were taken in so far: their value in an unsigned word, and whether
it was ever past the largest integer. -/
structure Accumulator where
  value : UInt64
  overflow : Bool
deriving DecidableEq, Repr

namespace Accumulator

def start : Accumulator := ⟨0, false⟩

/-- The word with one more digit. -/
def next (acc : Accumulator) (radix digit : Nat) : UInt64 :=
  acc.value * radix.toUInt64 + digit.toUInt64

/-- Takes one more digit in. A value past the largest integer is kept at one more than it. -/
def push (acc : Accumulator) (radix digit : Nat) : Accumulator :=
  let value := acc.next radix digit
  if largestInt.toUInt64 < value then ⟨(largestInt + 1).toUInt64, true⟩ else ⟨value, acc.overflow⟩

end Accumulator

/-- Takes in the digits of a number. -/
def accumulate (radix : Nat) (digits : List Char) : Accumulator :=
  digits.foldl (fun acc d => acc.push radix (digitValue d)) .start

/-- The value of the digits of an exponent. Five digits decide between nothing and infinity, so the
digits after them do not count. -/
def exponentValue (digits : List Char) : Nat :=
  digits.foldl (fun acc d => if acc < 10000 then acc * 10 + digitValue d else acc) 0

/-- The exact value of digits. -/
def exactValue (digits : List Char) : Nat := digits.foldl (fun acc d => acc * 10 + digitValue d) 0

/-- A number as it is written: digits before and after the point and the exponent. -/
structure Decimal where
  whole : List Char
  fraction : List Char
  negative : Bool
  exponent : List Char
deriving Repr

/-- The floating value nearest to a written number. -/
def Decimal.value (d : Decimal) : Binary64 :=
  let exponent : Int :=
    if d.negative then -(exponentValue d.exponent : Int) else exponentValue d.exponent
  .ofDecimal (exactValue (d.whole ++ d.fraction)) (exponent - d.fraction.length)

/-- The fraction of a number, if a point follows its whole part. -/
def scanFraction (c : Cursor) : Option (List Char × Cursor) :=
  match c.rest with
  | '.' :: cs => some (spanWhile isDigit ⟨c.pos + 1, cs⟩)
  | _ => none

/-- The sign of an exponent: whether it is a minus, and the source after it. -/
def scanSign (c : Cursor) : Bool × Cursor :=
  match c.rest with
  | '+' :: cs => (false, ⟨c.pos + 1, cs⟩)
  | '-' :: cs => (true, ⟨c.pos + 1, cs⟩)
  | _ => (false, c)

/-- The exponent of a number, if an exponent mark follows: whether it is negative, its digits, the
notes about it and the source after it. -/
def scanExponent (start : Nat) (c : Cursor) : Option (Bool × List Char × List Note × Cursor) :=
  match c.rest with
  | [] => none
  | mark :: cs =>
    if isExponentMark mark then
      let (negative, c) := scanSign ⟨c.pos + 1, cs⟩
      let (digits, next) := spanWhile isDigit c
      let notes := if digits.isEmpty then [errorNote start c.pos (.plain .exponentDigits)] else []
      some (negative, digits, notes, next)
    else none

/-- The lexeme of a number that is not written as a floating one: an integer, or a floating number
with a warning if it is too large. -/
def wholeNumber (start : Nat) (stop : Cursor) (text : String) (digits : Accumulator)
    (floatValue : Binary64) (notes : List Note) : Scan :=
  if digits.overflow then
    ⟨.floating text floatValue, start, stop.pos,
      notes ++ [⟨some .overflow, ⟨start, stop.pos⟩, .plain .intOverflow⟩], stop⟩
  else ⟨.integer text digits.value.toNat, start, stop.pos, notes, stop⟩

/-- The characters of a source up to a later place in it. -/
def sourceText (c stop : Cursor) : String := String.ofList (c.rest.take (stop.pos - c.pos))

/-- The source after a fraction, if there is one. -/
def fractionEnd (c : Cursor) : Cursor := ((scanFraction c).map (·.2)).getD c

/-- The source after an exponent, if there is one. -/
def exponentEnd (start : Nat) (c : Cursor) : Cursor := ((scanExponent start c).map (·.2.2.2)).getD c

/-- Scans a number without a radix. -/
def scanDecimal (c : Cursor) : Scan :=
  let whole := spanWhile isDigit c
  let fraction := scanFraction whole.2
  let middle := fractionEnd whole.2
  let exponent := scanExponent c.pos middle
  let stop := exponentEnd c.pos middle
  let notes := (exponent.map (·.2.2.1)).getD []
  let decimal : Decimal := ⟨whole.1, (fraction.map (·.1)).getD [], (exponent.map (·.1)).getD false,
    (exponent.map (·.2.1)).getD []⟩
  let text := sourceText c stop
  if fraction.isSome || exponent.isSome then
    ⟨.floating text decimal.value, c.pos, stop.pos, notes, stop⟩
  else wholeNumber c.pos stop text (accumulate 10 whole.1) decimal.value notes

/-- The radix that a letter after a zero stands for. -/
def radixOf? (c : Char) : Option Nat :=
  if c == 'x' || c == 'X' then some 16
  else if c == 'o' || c == 'O' then some 8
  else if c == 'b' || c == 'B' then some 2
  else if c == 'd' || c == 'D' then some 10
  else none

/-- The notes about characters that are no digits of a radix. -/
def badDigits (radix : Nat) : Nat → List Char → List Note
  | _, [] => []
  | pos, c :: cs =>
    if radix ≤ digitValue c then
      errorNote pos (pos + 1) (.lettered .badDigit c.toNat) :: badDigits radix (pos + 1) cs
    else badDigits radix (pos + 1) cs

/-- The floating value of digits, rounded after every digit. -/
def floatDigits (radix : Nat) (digits : List Char) : Binary64 :=
  digits.foldl (fun acc d => (acc.mul (.ofInt radix)).add (.ofInt (digitValue d))) (.zero false)

/-- Scans a number after its radix mark, passing over characters that are no digits of the radix. -/
def scanRadix (start : Cursor) (mark : Char) (radix : Nat) (body : Cursor) : Scan :=
  let (run, stop) := spanWhile isWordChar body
  let digits := run.filter fun d => digitValue d < radix
  let missing := if digits.isEmpty then
    [errorNote start.pos stop.pos (.lettered .badDigit mark.toNat)] else []
  wholeNumber start.pos stop (sourceText start stop) (accumulate radix digits)
    (floatDigits radix digits) (badDigits radix body.pos run ++ missing)

/-- Scans a number. -/
def scanNumber (radixPrefixes : Bool) (c : Cursor) : Scan :=
  match c.rest with
  | '0' :: mark :: cs =>
    match (if radixPrefixes then radixOf? mark else none) with
    | some radix => scanRadix c mark radix ⟨c.pos + 2, cs⟩
    | none => scanDecimal c
  | _ => scanDecimal c

/-- Scans a word. -/
def scanWord (c : Cursor) : Scan :=
  let (run, stop) := spanWhile isWordChar c
  ⟨.word (String.ofList run), c.pos, stop.pos, [], stop⟩

/-! ## Characters and strings -/

/-- The character that a letter after a backslash stands for. -/
def escape? (c : Char) : Option Char :=
  if c == 'n' || c == 'н' then some '\n'
  else if c == 't' || c == 'т' then some '\t'
  else if c == '0' then some '\x00'
  else if c == '\\' || c == '\'' || c == '"' then some c
  else none

/-- The notes about the character after a backslash at an offset. -/
def escapeNotes (pos : Nat) (c : Char) : List Note :=
  if (escape? c).isSome then [] else [errorNote pos (pos + 2) (.lettered .badEscape c.toNat)]

/-- The note about a backslash at the end of the source. -/
def bareBackslash (pos : Nat) : Note := errorNote pos (pos + 1) (.lettered .badEscape 0)

/-- A part of a string literal: its characters, the notes about it and the source after it. -/
structure Piece where
  chars : List Char
  notes : List Note
  next : Cursor
deriving Repr

/-- Puts a character and its notes in front of a piece. -/
def Piece.cons (c : Char) (notes : List Note) (p : Piece) : Piece :=
  { p with chars := c :: p.chars, notes := notes ++ p.notes }

/-- Scans one quoted piece of a string literal that started at `start`; its opening quote was passed
over. A piece without a closing quote ends with its line. -/
def scanPiece (start : Nat) : Nat → List Char → Piece
  | pos, [] => ⟨[], [errorNote start pos (.plain .unterminatedString)], ⟨pos, []⟩⟩
  | pos, '\n' :: cs => ⟨[], [errorNote start pos (.plain .unterminatedString)], ⟨pos, '\n' :: cs⟩⟩
  | pos, '"' :: cs => ⟨[], [], ⟨pos + 1, cs⟩⟩
  | pos, ['\\'] =>
    ⟨['\x00'], [bareBackslash pos, errorNote start (pos + 1) (.plain .unterminatedString)],
      ⟨pos + 1, []⟩⟩
  | pos, '\\' :: c :: cs =>
    (scanPiece start (pos + 2) cs).cons ((escape? c).getD c) (escapeNotes pos c)
  | pos, c :: cs => (scanPiece start (pos + 1) cs).cons c []

theorem scanPiece_le (start pos : Nat) (cs : List Char) :
    (scanPiece start pos cs).next.rest.length ≤ cs.length := by
  fun_induction scanPiece start pos cs with
  | case1 => simp
  | case2 => simp
  | case3 => simp
  | case4 => simp
  | case5 pos c cs ih => simp only [Piece.cons, List.length_cons]; omega
  | case6 pos c cs _ _ _ _ ih => simp only [Piece.cons, List.length_cons]; omega

theorem skipBlanks_le (lineComments : Bool) (c : Cursor) :
    (skipBlanks lineComments c).1.rest.length ≤ c.rest.length := by
  fun_induction skipBlanks lineComments c with
  | case1 => simp
  | case2 pos cs next closed ih =>
    have := closeComment_shrinks closed; simp only [List.length_cons]; omega
  | case3 => simp
  | case4 pos cs _ ih =>
    have := skipLine_le (pos + 2) cs; simp only [List.length_cons]; omega
  | case5 => simp
  | case6 pos a cs _ _ _ ih => simp only [List.length_cons] at ih ⊢; omega
  | case7 => simp

/-- Scans the pieces of a string literal after an opening quote. Pieces that follow each other with
only blanks and comments between them make one literal; the result is its text, the offset after
its last piece, its notes and the source after it. -/
def scanPieces (lineComments : Bool) (start : Nat) (c : Cursor) :
    List Char × Nat × List Note × Cursor :=
  let piece := scanPiece start c.pos c.rest
  let after := skipBlanks lineComments piece.next
  match _following : after.1 with
  | ⟨pos, '"' :: cs⟩ =>
    let (chars, stop, notes, next) := scanPieces lineComments start ⟨pos + 1, cs⟩
    (piece.chars ++ chars, stop, piece.notes ++ after.2 ++ notes, next)
  | next => (piece.chars, piece.next.pos, piece.notes ++ after.2, next)
termination_by c.rest.length
decreasing_by
  have first := scanPiece_le start c.pos c.rest
  have second := skipBlanks_le lineComments (scanPiece start c.pos c.rest).next
  have third : (skipBlanks lineComments (scanPiece start c.pos c.rest).next).1 = ⟨pos, '"' :: cs⟩ :=
    _following
  rw [third] at second
  simp only [List.length_cons] at second ⊢
  omega

/-- Scans a string literal whose first quote is at an offset. -/
def scanText (lineComments : Bool) (pos : Nat) (cs : List Char) : Scan :=
  let (chars, stop, notes, next) := scanPieces lineComments pos ⟨pos + 1, cs⟩
  ⟨.text (String.ofList chars), pos, stop, notes, next⟩

/-- Ends a character constant: the closing quote has to follow. -/
def closeCharacter (start : Nat) (value : Char) (notes : List Note) (c : Cursor) : Scan :=
  match c.rest with
  | '\'' :: cs => ⟨.character (some value), start, c.pos + 1, notes, ⟨c.pos + 1, cs⟩⟩
  | _ =>
    ⟨.character (some value), start, c.pos,
      notes ++ [errorNote start c.pos (.plain .unterminatedChar)], c⟩

/-- Scans a character constant whose opening quote is at an offset. -/
def scanCharacter (pos : Nat) : List Char → Scan
  | [] =>
    ⟨.character none, pos, pos + 1, [errorNote pos (pos + 1) (.plain .unterminatedChar)],
      ⟨pos + 1, []⟩⟩
  | '\'' :: cs =>
    ⟨.character none, pos, pos + 2, [errorNote pos (pos + 2) (.plain .emptyCharConst)],
      ⟨pos + 2, cs⟩⟩
  | '\n' :: cs =>
    ⟨.character none, pos, pos + 1, [errorNote pos (pos + 1) (.plain .unterminatedChar)],
      ⟨pos + 1, '\n' :: cs⟩⟩
  | ['\\'] => closeCharacter pos '\x00' [bareBackslash (pos + 1)] ⟨pos + 2, []⟩
  | '\\' :: c :: cs =>
    closeCharacter pos ((escape? c).getD c) (escapeNotes (pos + 1) c) ⟨pos + 3, cs⟩
  | c :: cs => closeCharacter pos c [] ⟨pos + 2, cs⟩

/-! ## Punctuators -/

/-- The punctuators, longer ones first. -/
def punctuators : List (List Char × TokenKind) := [
  (['<', '<', '='], .shiftLeftAssign), (['>', '>', '='], .shiftRightAssign),
  (['!', '='], .notEqual), (['^', '='], .xorAssign), (['%', '='], .percentAssign),
  (['*', '='], .starAssign), (['/', '='], .slashAssign), (['=', '='], .equal),
  (['+', '+'], .increment), (['+', '='], .plusAssign), (['-', '-'], .decrement),
  (['-', '>'], .arrow), (['-', '='], .minusAssign), (['&', '&'], .andAnd),
  (['&', '='], .andAssign), (['|', '|'], .orOr), (['|', '='], .orAssign),
  (['<', '<'], .shiftLeft), (['<', '='], .lessEqual), (['>', '>'], .shiftRight),
  (['>', '='], .greaterEqual),
  (['('], .leftParen), ([')'], .rightParen), (['\x7b'], .leftBrace), (['\x7d'], .rightBrace),
  (['['], .leftBracket), ([']'], .rightBracket), ([';'], .semicolon), ([','], .comma),
  (['?'], .question), ([':'], .colon), (['.'], .dot), (['~'], .tilde), (['!'], .not),
  (['^'], .caret), (['%'], .percent), (['*'], .star), (['/'], .slash), (['='], .assign),
  (['+'], .plus), (['-'], .minus), (['&'], .ampersand), (['|'], .bar), (['<'], .less),
  (['>'], .greater)]

/-- The longest punctuator at the start of a source. -/
def punctuator? (cs : List Char) : Option (List Char × TokenKind) :=
  punctuators.find? fun entry => (Text.afterStart? entry.1 cs).isSome

/-! ## The next lexeme -/

/-- Says whether a source starts with a number: a digit, or a point before a digit. -/
def startsNumber (a : Char) (cs : List Char) : Bool :=
  isDigit a || (a == '.' && (match cs with | b :: _ => isDigit b | [] => false))

/-- The lexeme at the start of a source without leading blanks; a character that starts no lexeme
gives none. -/
def scanAt (features : Features) (pos : Nat) (a : Char) (cs : List Char) : Option Scan :=
  if isLetter a then some (scanWord ⟨pos, a :: cs⟩)
  else if startsNumber a cs then some (scanNumber features.radixPrefixes ⟨pos, a :: cs⟩)
  else if a == '"' then some (scanText features.lineComments pos cs)
  else if a == '\'' then some (scanCharacter pos cs)
  else (punctuator? (a :: cs)).map fun (spelling, kind) =>
    ⟨.punctuator kind, pos, pos + spelling.length, [],
      ⟨pos + spelling.length, (a :: cs).drop spelling.length⟩⟩

/-- The next lexeme of a source. Characters that start no lexeme are noted and passed over. -/
def next (features : Features) (c : Cursor) : Scan :=
  let after := skipBlanks features.lineComments c
  match _following : after.1 with
  | ⟨pos, []⟩ => ⟨.endOfInput, pos, pos, after.2, ⟨pos, []⟩⟩
  | ⟨pos, a :: cs⟩ =>
    match scanAt features pos a cs with
    | some scan => { scan with notes := after.2 ++ scan.notes }
    | none =>
      let scan := next features ⟨pos + 1, cs⟩
      { scan with
        notes :=
          after.2 ++ errorNote pos (pos + 1) (.lettered .badCharacter a.toNat) :: scan.notes }
termination_by c.rest.length
decreasing_by
  have first := skipBlanks_le features.lineComments c
  have second : (skipBlanks features.lineComments c).1 = ⟨pos, a :: cs⟩ := _following
  rw [second] at first
  simp only [List.length_cons] at first ⊢
  omega

/-! ## A lexeme takes characters -/

theorem spanWhile_le (p : Char → Bool) (c : Cursor) :
    (spanWhile p c).2.rest.length ≤ c.rest.length :=
  (List.dropWhile_sublist p).length_le

theorem spanWhile_shrinks (p : Char → Bool) (pos : Nat) (a : Char) (cs : List Char)
    (taken : p a = true) : (spanWhile p ⟨pos, a :: cs⟩).2.rest.length ≤ cs.length := by
  simp only [spanWhile, List.dropWhile_cons, taken, if_true]
  exact (List.dropWhile_sublist p).length_le

theorem scanFraction_le {c next : Cursor} {digits : List Char}
    (found : scanFraction c = some (digits, next)) : next.rest.length < c.rest.length := by
  unfold scanFraction at found
  split at found
  · rename_i cs shape
    have := spanWhile_le isDigit ⟨c.pos + 1, cs⟩
    simp only [Option.some.injEq] at found
    rw [found] at this
    simp only [shape, List.length_cons] at this ⊢
    omega
  · simp at found

theorem scanSign_le (c : Cursor) : (scanSign c).2.rest.length ≤ c.rest.length := by
  unfold scanSign
  split <;> simp_all

theorem scanExponent_le {start : Nat} {c next : Cursor} {negative : Bool} {digits : List Char}
    {notes : List Note} (found : scanExponent start c = some (negative, digits, notes, next)) :
    next.rest.length < c.rest.length := by
  unfold scanExponent at found
  split at found
  · simp at found
  · rename_i mark cs shape
    split at found
    · have sign := scanSign_le ⟨c.pos + 1, cs⟩
      have span := spanWhile_le isDigit (scanSign ⟨c.pos + 1, cs⟩).2
      simp only [Option.some.injEq, Prod.mk.injEq] at found
      rw [found.2.2.2] at span
      simp only [shape, List.length_cons] at sign ⊢
      omega
    · simp at found

theorem wholeNumber_next (start : Nat) (stop : Cursor) (text : String) (digits : Accumulator)
    (floatValue : Binary64) (notes : List Note) :
    (wholeNumber start stop text digits floatValue notes).next = stop := by
  unfold wholeNumber
  split <;> rfl

theorem fractionEnd_le (c : Cursor) : (fractionEnd c).rest.length ≤ c.rest.length := by
  unfold fractionEnd
  cases found : scanFraction c with
  | none => simp
  | some result => simpa using Nat.le_of_lt (scanFraction_le found)

theorem exponentEnd_le (start : Nat) (c : Cursor) :
    (exponentEnd start c).rest.length ≤ c.rest.length := by
  unfold exponentEnd
  cases found : scanExponent start c with
  | none => simp
  | some result => simpa using Nat.le_of_lt (scanExponent_le found)

theorem scanDecimal_next (c : Cursor) :
    (scanDecimal c).next = exponentEnd c.pos (fractionEnd (spanWhile isDigit c).2) := by
  unfold scanDecimal
  dsimp only
  split
  · rfl
  · exact wholeNumber_next ..

theorem scanDecimal_shrinks (pos : Nat) (a : Char)
    (cs : List Char) (number : startsNumber a cs = true) :
    (scanDecimal ⟨pos, a :: cs⟩).next.rest.length ≤ cs.length := by
  rw [scanDecimal_next]
  refine Nat.le_trans (exponentEnd_le _ _) ?_
  by_cases digit : isDigit a = true
  · exact Nat.le_trans (fractionEnd_le _) (spanWhile_shrinks isDigit pos a cs digit)
  · have point : a = '.' := by
      simp only [startsNumber, Bool.or_eq_true, Bool.and_eq_true, beq_iff_eq] at number
      rcases number with h | h
      · exact absurd h digit
      · exact h.1
    subst point
    have stay : (spanWhile isDigit ⟨pos, '.' :: cs⟩).2 = ⟨pos, '.' :: cs⟩ := by
      simp [spanWhile, digit]
    rw [stay]
    simp only [fractionEnd, scanFraction, Option.map_some, Option.getD_some]
    exact spanWhile_le isDigit ⟨pos + 1, cs⟩

theorem scanNumber_shrinks (radixPrefixes : Bool) (pos : Nat) (a : Char) (cs : List Char)
    (number : startsNumber a cs = true) :
    (scanNumber radixPrefixes ⟨pos, a :: cs⟩).next.rest.length ≤ cs.length := by
  unfold scanNumber
  split
  · rename_i mark tail shape
    simp only [List.cons.injEq] at shape
    split
    · rw [scanRadix, wholeNumber_next]
      have := spanWhile_le isWordChar ⟨pos + 2, tail⟩
      rw [shape.2]
      simp only [List.length_cons] at this ⊢
      omega
    · exact scanDecimal_shrinks pos a cs number
  · exact scanDecimal_shrinks pos a cs number

theorem scanPieces_le (lineComments : Bool) (start : Nat) (c : Cursor) :
    (scanPieces lineComments start c).2.2.2.rest.length ≤ c.rest.length := by
  fun_induction scanPieces lineComments start c with
  | case1 c piece after pos cs following chars stop notes next result ih =>
    have first := scanPiece_le start c.pos c.rest
    have second := skipBlanks_le lineComments (scanPiece start c.pos c.rest).next
    have third :
      (skipBlanks lineComments (scanPiece start c.pos c.rest).next).1 = ⟨pos, '"' :: cs⟩ :=
      following
    rw [third] at second
    rw [result] at ih
    simp only [List.length_cons] at second ih ⊢
    omega
  | case2 c piece after _ =>
    exact Nat.le_trans (skipBlanks_le lineComments (scanPiece start c.pos c.rest).next)
      (scanPiece_le start c.pos c.rest)

theorem closeCharacter_le (start : Nat) (value : Char) (notes : List Note) (c : Cursor) :
    (closeCharacter start value notes c).next.rest.length ≤ c.rest.length := by
  unfold closeCharacter
  split <;> simp_all

theorem scanCharacter_le (pos : Nat) (cs : List Char) :
    (scanCharacter pos cs).next.rest.length ≤ cs.length := by
  unfold scanCharacter
  split
  · simp
  · simp
  · simp
  · exact Nat.le_trans (closeCharacter_le ..) (by simp)
  · exact Nat.le_trans (closeCharacter_le ..) (by simp only [List.length_cons]; omega)
  · exact Nat.le_trans (closeCharacter_le ..) (by simp)

/-- No punctuator is empty. -/
theorem punctuator?_pos {cs spelling : List Char} {kind : TokenKind}
    (found : punctuator? cs = some (spelling, kind)) : 0 < spelling.length := by
  have listed : ∀ entry ∈ punctuators, 0 < entry.1.length := by decide
  exact listed _ (List.mem_of_find?_eq_some found)

/-- A lexeme at the start of a source takes its first character. -/
theorem scanAt_shrinks {features : Features} {pos : Nat} {a : Char} {cs : List Char} {scan : Scan}
    (found : scanAt features pos a cs = some scan) : scan.next.rest.length ≤ cs.length := by
  unfold scanAt at found
  split at found
  · rename_i letter
    cases found
    exact spanWhile_shrinks isWordChar pos a cs (by simp [isWordChar, letter])
  · split at found
    · rename_i number
      cases found
      exact scanNumber_shrinks _ pos a cs number
    · split at found
      · cases found
        exact scanPieces_le features.lineComments pos ⟨pos + 1, cs⟩
      · split at found
        · cases found
          exact scanCharacter_le pos cs
        · simp only [Option.map_eq_some_iff] at found
          obtain ⟨⟨spelling, kind⟩, entry, shape⟩ := found
          have := punctuator?_pos entry
          subst shape
          simp only [List.length_drop, List.length_cons]
          omega

/-- Every lexeme but the end of the input takes characters. -/
theorem next_shrinks (features : Features) (c : Cursor) : (next features c).lexeme = .endOfInput ∨
    (next features c).next.rest.length < c.rest.length := by
  fun_induction next features c with
  | case1 => exact Or.inl rfl
  | case2 c after pos a cs following scan found =>
    have first := skipBlanks_le features.lineComments c
    have second : (skipBlanks features.lineComments c).1 = ⟨pos, a :: cs⟩ := following
    rw [second] at first
    have := scanAt_shrinks found
    simp only [List.length_cons] at first ⊢
    exact Or.inr (by omega)
  | case3 c after pos a cs following _ scan ih =>
    have first := skipBlanks_le features.lineComments c
    have second : (skipBlanks features.lineComments c).1 = ⟨pos, a :: cs⟩ := following
    rw [second] at first
    simp only [List.length_cons] at first ih ⊢
    rcases ih with h | h
    · exact Or.inl h
    · exact Or.inr (Nat.lt_trans h (by omega))

/-- Says whether a lexeme is the end of the input. -/
def isEnd : Lexeme → Bool
  | .endOfInput => true
  | _ => false

/-- The lexemes of a source in order; the last one is the end of the input. -/
def scanAll (features : Features) (c : Cursor) : List Scan :=
  let scan := next features c
  if _last : scan.lexeme.isEnd then [scan] else scan :: scanAll features scan.next
termination_by c.rest.length
decreasing_by
  rcases next_shrinks features c with h | h
  · simp [scan, h, isEnd] at _last
  · exact h

end Lexeme

end BilingualC
