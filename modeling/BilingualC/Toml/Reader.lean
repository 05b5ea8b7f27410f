import BilingualC.Binary64
import BilingualC.Text.Fields
import BilingualC.Text.Numeral
import BilingualC.Text.Utf8
import BilingualC.Toml.Build

/-!
# Reading settings files

The text of a settings file: a statement takes a line, arrays and inline tables may go over several
lines, and a comment goes to the end of its line. The text has to be well-formed UTF-8 without
control characters other than tabs and line ends, and a carriage return stands only before a line
feed.

Moments are written as a date and a time with an offset or without one, as a date alone, or as a
time alone. Seconds can be left out, and a fraction of a second may follow them.
-/

namespace BilingualC.Toml

/-! ## Dates and times -/

namespace Moment

/-- Two digits. -/
def twoDigits : List Char → Option (Nat × List Char)
  | a :: b :: rest => if a.isDigit && b.isDigit then some (Text.digitsValue [a, b], rest) else none
  | _ => none

/-- A given character. -/
def mark (c : Char) : List Char → Option (List Char)
  | d :: rest => if c == d then some rest else none
  | [] => none

def isLeapYear (y : Nat) : Bool := y % 4 == 0 && (y % 100 != 0 || y % 400 == 0)

def daysIn (year month : Nat) : Nat :=
  if month == 2 then (if isLeapYear year then 29 else 28)
  else if [4, 6, 9, 11].contains month then 30
  else 31

/-- Reads a date. -/
def date (cs : List Char) : Option (List Char) := do
  let (century, rest) ← twoDigits cs
  let (decade, rest) ← twoDigits rest
  let (month, rest) ← twoDigits (← mark '-' rest)
  let (day, rest) ← twoDigits (← mark '-' rest)
  if 1 ≤ month && month ≤ 12 && 1 ≤ day &&
    day ≤ daysIn (century * 100 + decade) month then some rest else none

/-- Reads a fraction of a second, if there is one. -/
def fraction : List Char → List Char
  | '.' :: d :: rest => if d.isDigit then rest.dropWhile Char.isDigit else '.' :: d :: rest
  | cs => cs

/-- Reads a time. -/
def time (cs : List Char) : Option (List Char) := do
  let (hour, rest) ← twoDigits cs
  let (minute, rest) ← twoDigits (← mark ':' rest)
  if 23 < hour || 59 < minute then none
  match rest with
  | ':' :: rest =>
    let (second, rest) ← twoDigits rest
    if 59 < second then none else some (fraction rest)
  | _ => some rest

/-- Reads an offset from universal time, if there is one. -/
def offset : List Char → Option (List Char)
  | 'Z' :: rest => some rest
  | c :: rest =>
    if c == '+' || c == '-' then do
      let (hour, rest) ← twoDigits rest
      let (minute, rest) ← twoDigits (← mark ':' rest)
      if hour ≤ 24 && minute ≤ 60 then some rest else none
    else some (c :: rest)
  | [] => some []

/-- The form of a moment with capital marks and a mark in place of a blank. -/
def normalize (c : Char) : Char := if c == 'z' then 'Z' else if c == 't' || c == ' ' then 'T' else c

/-- Says whether a text is a moment. -/
def isMoment (text : List Char) : Bool :=
  let cs := text.map normalize
  let withDate := do
    let rest ← date cs
    if rest.isEmpty then some rest else offset (← time (← mark 'T' rest))
  withDate == some [] || time cs == some []

end Moment

/-! ## Characters -/

def isSpace (c : Char) : Bool := c == ' ' || c == '\t'
def isLineEnd (c : Char) : Bool := c == '\n' || c == '\r'

/-- Says whether all characters may stand in a settings file. -/
def areAllowed : List Char → Bool
  | [] => true
  | '\r' :: cs => cs.head? == some '\n' && areAllowed cs
  | c :: cs => (c == '\t' || c == '\n' || (0x20 ≤ c.toNat && c.toNat != 0x7f)) && areAllowed cs

/-- Passes over blanks. -/
def skipSpaces (cs : List Char) : List Char := cs.dropWhile isSpace

/-- Passes over blanks, line ends and comments. -/
def skipLines (inComment : Bool) : List Char → List Char
  | [] => []
  | c :: cs =>
    if isLineEnd c then skipLines false cs
    else if inComment || isSpace c then skipLines inComment cs
    else if c == '#' then skipLines true cs
    else c :: cs

/-- Passes over what may follow a statement on its line. -/
def endStatement (cs : List Char) : Option (List Char) :=
  match skipSpaces cs with
  | [] => some []
  | c :: rest => if isLineEnd c || c == '#' then some (c :: rest) else none

/-! ## Texts -/

def hexDigit? (c : Char) : Option Nat :=
  if c.isDigit then some (c.toNat - '0'.toNat)
  else if 'a' ≤ c.toLower && c.toLower ≤ 'f' then some (c.toLower.toNat - 'a'.toNat + 10)
  else none

/-- The character with a code of some digits in base sixteen. -/
def codedChar? (width : Nat) (cs : List Char) : Option (Char × Nat) := do
  let digits ← (cs.take width).mapM hexDigit?
  let code := digits.foldl (fun n d => n * 16 + d) 0
  if digits.length == width && code.isValidChar then some (Char.ofNat code, width + 1) else none

/-- The character that an escape stands for, and how many characters after the backslash it
takes. -/
def escape? : List Char → Option (Char × Nat)
  | [] => none
  | c :: cs =>
    match c with
    | 'b' => some ('\x08', 1)
    | 't' => some ('\t', 1)
    | 'n' => some ('\n', 1)
    | 'f' => some ('\x0c', 1)
    | 'r' => some ('\r', 1)
    | 'e' => some ('\x1b', 1)
    | '"' => some ('"', 1)
    | '\\' => some ('\\', 1)
    | 'x' => codedChar? 2 cs
    | 'u' => codedChar? 4 cs
    | 'U' => codedChar? 8 cs
    | _ => none

/-- Reads a text up to its closing double quote; `skip` characters of an escape are passed over. -/
def basicText : Nat → List Char → Option (List Char × List Char)
  | _, [] => none
  | skip + 1, _ :: cs => basicText skip cs
  | 0, c :: cs =>
    if c == '"' then some ([], cs)
    else if isLineEnd c then none
    else if c == '\\' then do
      let (letter, width) ← escape? cs
      let (text, rest) ← basicText width cs
      return (letter :: text, rest)
    else do
      let (text, rest) ← basicText 0 cs
      return (c :: text, rest)

/-- Reads a text up to its closing single quote. -/
def literalText : List Char → Option (List Char × List Char)
  | [] => none
  | c :: cs =>
    if c == '\'' then some ([], cs)
    else if isLineEnd c then none
    else do
      let (text, rest) ← literalText cs
      return (c :: text, rest)

/-- Says whether a text, given in reverse, ends with five marks that no backslash stands before. -/
def hasFiveMarks (quote : Char) (escapes : Bool) (reversed : List Char) : Bool :=
  reversed.take 5 == List.replicate 5 quote && !(escapes && reversed[5]? == some '\\')

/-- Finds the end of a text of several lines, which closes with three marks. One or two more marks
belong to the text; `seen` is what was read before, in reverse. -/
def blockText (quote : Char) (escapes : Bool) (seen : List Char) : Bool → List Char →
    Option (List Char × List Char)
  | _, [] => none
  | true, c :: cs => blockText quote escapes (c :: seen) false cs
  | false, c :: cs =>
    if escapes && c == '\\' then blockText quote escapes (c :: seen) true cs
    else if c == quote && cs.take 2 == [quote, quote] then
      if cs[2]? != some quote then some (seen.reverse, cs.drop 2)
      else if hasFiveMarks quote escapes (quote :: quote :: quote :: seen) then none
      else blockText quote escapes (c :: seen) false cs
    else blockText quote escapes (c :: seen) false cs

/-- A text without a line end at its start. -/
def dropFirstLineEnd : List Char → List Char
  | '\n' :: cs => cs
  | '\r' :: '\n' :: cs => cs
  | cs => cs

/-- Reads the escapes in a text of several lines. A backslash before a line end hides all blanks and
line ends up to the next character. -/
def unescape : Nat → List Char → Option (List Char)
  | _, [] => some []
  | skip + 1, _ :: cs => unescape skip cs
  | 0, c :: cs =>
    if c == '\\' then
      let hidden := cs.takeWhile fun d => isSpace d || isLineEnd d
      if hidden.contains '\n' then unescape hidden.length cs
      else do
        let (letter, width) ← escape? cs
        return letter :: (← unescape width cs)
    else do return c :: (← unescape 0 cs)

/-- Reads a text that begins with a quote mark. -/
def readText (quote : Char) (cs : List Char) : Option (String × List Char) := do
  if cs.take 2 == [quote, quote] then
    let (raw, rest) ← blockText quote (quote == '"') [] false (cs.drop 2)
    let raw := dropFirstLineEnd raw
    let text ← if quote == '"' then unescape 0 raw else some raw
    return (String.ofList text, rest)
  else
    let (text, rest) ← if quote == '"' then basicText 0 cs else literalText cs
    return (String.ofList text, rest)

/-! ## Keys -/

def isKeyChar (c : Char) : Bool := c.isAlphanum || c == '_' || c == '-'

/-- Reads one part of a key. -/
def keyPart : List Char → Option (String × List Char)
  | '"' :: cs => (basicText 0 cs).map fun (text, rest) => (String.ofList text, rest)
  | '\'' :: cs => (literalText cs).map fun (text, rest) => (String.ofList text, rest)
  | cs =>
    let name := cs.takeWhile isKeyChar
    if name.isEmpty then none else some (String.ofList name, cs.dropWhile isKeyChar)

/-- Reads a dotted key and the blanks around it; `left` bounds the number of its parts. -/
def readKey : Nat → List Char → Option (Key × List Char)
  | 0, _ => none
  | left + 1, cs => do
    let (name, rest) ← keyPart (skipSpaces cs)
    match skipSpaces rest with
    | '.' :: rest =>
      let (key, rest) ← readKey left rest
      return (name :: key, rest)
    | rest => return ([name], rest)

/-! ## Numbers -/

def isHexDigit (c : Char) : Bool := (hexDigit? c).isSome

/-- Says whether underscores stand between digits only, and the text ends with a digit. -/
def underscoresFit (cs : List Char) : Bool :=
  let step (state : Bool × Bool) (c : Char) := (state.1 && (c != '_' || state.2), isHexDigit c)
  let (fit, last) := cs.foldl step (true, false)
  fit && last

/-- Says whether a number starts with a zero that means nothing. -/
def hasLeadingZero (cs : List Char) : Bool :=
  match cs with
  | '0' :: c :: _ => !(c == 'b' || c == 'o' || c == 'x')
  | s :: '0' :: _ :: _ => s == '-' || s == '+'
  | _ => false

/-- The value of digits in some base. -/
def digitsIn (base : Nat) (cs : List Char) : Nat :=
  cs.foldl (fun n c => n * base + (hexDigit? c).getD 0) 0

/-- A written integer with 64 bits. -/
def integer? (cs : List Char) : Option Toml :=
  if !underscoresFit cs || hasLeadingZero cs then none
  else
    let plain := cs.filter (· != '_')
    let value : Int := match plain with
      | '0' :: 'x' :: ds => digitsIn 16 ds
      | '0' :: 'o' :: ds => digitsIn 8 ds
      | '0' :: 'b' :: ds => digitsIn 2 ds
      | '-' :: ds => -(digitsIn 10 ds : Int)
      | '+' :: ds => digitsIn 10 ds
      | ds => digitsIn 10 ds
    if -9223372036854775808 ≤ value &&
      value ≤ 9223372036854775807 then some (.integer value) else none

def isFloatMark (c : Char) : Bool := c == '.' || c == 'e' || c == 'E'

/-- The digits of an exponent with an optional sign. -/
def exponent? (cs : List Char) : Option Int :=
  let (negative, digits) := Text.splitSign cs
  if digits.isEmpty || !digits.all Char.isDigit then none
  else
    let size := digits.foldl (fun n c => if n < 10000 then n * 10 + (c.toNat - '0'.toNat) else n) 0
    some (if negative then -(size : Int) else size)

/-- Says whether a text without underscores is a number with a fraction or an exponent that is not
too large. -/
def isFinite (cs : List Char) : Bool :=
  let (_, cs) := Text.splitSign cs
  let whole := cs.takeWhile Char.isDigit
  let rest := cs.dropWhile Char.isDigit
  let (fraction, rest) := match rest with
    | '.' :: ds => (ds.takeWhile Char.isDigit, ds.dropWhile Char.isDigit)
    | ds => ([], ds)
  let exponent := match rest with
    | [] => some 0
    | c :: ds => if c == 'e' || c == 'E' then exponent? ds else none
  match exponent with
  | some e =>
    !whole.isEmpty &&
      !(Binary64.ofDecimal (Text.digitsValue (whole ++ fraction)) (e - fraction.length)).isInfinite
  | none => false

/-- Says whether every point is followed by a digit. -/
def pointsFit : List Char → Bool
  | [] => true
  | '.' :: cs => (cs.head?.map Char.isDigit).getD false && pointsFit cs
  | _ :: cs => pointsFit cs

/-- A written floating number. -/
def float? (cs : List Char) : Option Toml :=
  let parts := (Text.cutAt isFloatMark cs).filter (!·.isEmpty)
  if parts.all underscoresFit && !hasLeadingZero (parts.headD []) && pointsFit cs
      && isFinite (cs.filter (· != '_')) then some .float
  else none

def isMomentChar (c : Char) : Bool := c.isDigit || "-:Tt .Zz+".toList.contains c

/-- Reads a decimal number that begins with the given characters. -/
def decimal (start cs : List Char) : Option (Toml × List Char) := do
  let isPart (c : Char) := c.isDigit || c == '_'
  let whole := start ++ cs.takeWhile isPart
  let rest := cs.dropWhile isPart
  if (rest.head?.map isFloatMark).getD false then
    let isMore (c : Char) := isPart c || isFloatMark c || c == '-' || c == '+'
    return (← float? (whole ++ rest.takeWhile isMore), rest.dropWhile isMore)
  else return (← integer? whole, rest)

/-- Reads a number in a base that its beginning names. -/
def based (start : List Char) (isPart : Char → Bool) (cs : List Char) : Option (Toml × List Char) :=
  do
  if !(cs.head?.map isPart).getD false then none
  let isMore (c : Char) := isPart c || c == '_'
  return (← integer? (start ++ cs.takeWhile isMore), cs.dropWhile isMore)

/-- Reads a number or a moment that begins with a digit. -/
def numberOrMoment (cs : List Char) : Option (Toml × List Char) :=
  match cs with
  | '0' :: 'x' :: rest => based ['0', 'x'] isHexDigit rest
  | '0' :: 'o' :: rest => based ['0', 'o'] (fun c => '0' ≤ c && c ≤ '7') rest
  | '0' :: 'b' :: rest => based ['0', 'b'] (fun c => c == '0' || c == '1') rest
  | cs =>
    let rest := cs.dropWhile Char.isDigit
    if rest.head? == some '-' || rest.head? == some ':' then
      let text := ((cs.takeWhile isMomentChar).reverse.dropWhile isSpace).reverse
      if Moment.isMoment text then some (.moment, cs.dropWhile isMomentChar) else none
    else decimal [] cs

/-- Reads a number that begins with a sign. -/
def signed (sign : Char) : List Char → Option (Toml × List Char)
  | 'i' :: 'n' :: 'f' :: rest => some (.float, rest)
  | 'n' :: 'a' :: 'n' :: rest => some (.float, rest)
  | c :: rest => if c.isDigit then decimal [sign] (c :: rest) else none
  | [] => none

/-- Reads a value without parts. -/
def scalar : List Char → Option (Toml × List Char)
  | 't' :: 'r' :: 'u' :: 'e' :: rest => some (.boolean true, rest)
  | 'f' :: 'a' :: 'l' :: 's' :: 'e' :: rest => some (.boolean false, rest)
  | 'i' :: 'n' :: 'f' :: rest => some (.float, rest)
  | 'n' :: 'a' :: 'n' :: rest => some (.float, rest)
  | [] => none
  | c :: rest =>
    if c == '"' || c == '\'' then (readText c rest).map fun (text, rest) => (.string text, rest)
    else if c == '-' || c == '+' then signed c rest
    else if c.isDigit then numberOrMoment (c :: rest)
    else none

/-! ## Values and statements -/

mutual

/-- Reads a value; `left` bounds the number of its parts. -/
def readValue : Nat → List Char → Option (Written × List Char)
  | 0, _ => none
  | left + 1, cs =>
    match skipSpaces cs with
    | '[' :: rest => do
      let (items, rest) ← readItems left rest
      return (.array items, rest)
    | '\x7b' :: rest => do
      let (entries, rest) ← readEntries left rest
      return (.inline entries, rest)
    | cs => do
      let (v, rest) ← scalar cs
      return (.value v, rest)

/-- Reads the items of an array up to its closing bracket. -/
def readItems : Nat → List Char → Option (List Written × List Char)
  | 0, _ => none
  | left + 1, cs =>
    match skipLines false cs with
    | ']' :: rest => some ([], rest)
    | cs => do
      let (item, rest) ← readValue left cs
      match skipLines false rest with
      | ',' :: rest =>
        let (items, rest) ← readItems left rest
        return (item :: items, rest)
      | ']' :: rest => return ([item], rest)
      | _ => none

/-- Reads the entries of an inline table up to its closing brace. -/
def readEntries : Nat → List Char → Option (List (Key × Written) × List Char)
  | 0, _ => none
  | left + 1, cs =>
    match skipLines false cs with
    | '\x7d' :: rest => some ([], rest)
    | cs => do
      let (key, rest) ← readKey (cs.length + 1) cs
      let (v, rest) ← readValue left (← Moment.mark '=' rest)
      match skipLines false rest with
      | ',' :: rest =>
        let (entries, rest) ← readEntries left rest
        return ((key, v) :: entries, rest)
      | '\x7d' :: rest => return ([(key, v)], rest)
      | _ => none

end

/-- Reads a statement. -/
def readStatement (cs : List Char) : Option (Statement × List Char) := do
  let bound := 2 * cs.length + 2
  match cs with
  | '[' :: '[' :: rest =>
    let (key, rest) ← readKey bound rest
    let rest ← endStatement (← Moment.mark ']' (← Moment.mark ']' rest))
    return (.tableItem key, rest)
  | '[' :: rest =>
    let (key, rest) ← readKey bound rest
    let rest ← endStatement (← Moment.mark ']' rest)
    return (.table key, rest)
  | _ =>
    let (key, rest) ← readKey bound cs
    let (v, rest) ← readValue bound (← Moment.mark '=' rest)
    return (.assign key v, ← endStatement rest)

/-- Reads statements; `left` bounds their number. -/
def readStatements : Nat → List Char → Option (List Statement)
  | 0, _ => none
  | left + 1, cs => do
    match skipLines false cs with
    | [] => return []
    | cs =>
      let (s, rest) ← readStatement cs
      return s :: (← readStatements left rest)

/-- Bytes without a mark of their encoding at the start. -/
def dropEncodingMark : List UInt8 → List UInt8
  | 0xff :: 0xfe :: rest => rest
  | 0xfe :: 0xff :: rest => rest
  | 0xef :: 0xbb :: 0xbf :: rest => rest
  | bytes => bytes

/-- The table that a settings file holds. -/
def read? (bytes : List UInt8) : Option Entries := do
  let bytes := dropEncodingMark bytes
  if !Text.isUtf8 bytes then none
  let cs := Text.decodeUtf8 bytes
  if !areAllowed cs then none
  ofStatements (← readStatements (cs.length + 1) cs)

end BilingualC.Toml
