import BilingualC.Text.Utf8

/-!
# JSON

The format of recorded results. Numbers are kept as they are written. Written text is indented by
two blanks, and characters that mean something to a browser are written by their code.
-/

namespace BilingualC

/-- A value in JSON. -/
inductive Json where
  | null
  | boolean (value : Bool)
  | number (written : String)
  | string (value : String)
  | array (items : List Json)
  | object (members : List (String × Json))
deriving Repr, Inhabited

namespace Json

/-! ## Writing -/

/-- Writes one character of a string. -/
def writeChar (c : Char) : List Char :=
  match c with
  | '"' => ['\\', '"']
  | '\\' => ['\\', '\\']
  | '\n' => ['\\', 'n']
  | '\r' => ['\\', 'r']
  | '\t' => ['\\', 't']
  | '\x08' => ['\\', 'b']
  | '\x0c' => ['\\', 'f']
  | _ =>
    let byCode := c.toNat < 0x20 || c == '<' || c == '>' || c == '&' || c.toNat == 0x2028 ||
      c.toNat == 0x2029
    if byCode then '\\' :: 'u' :: Text.hexPadded 4 c.toNat else [c]

def writeString (s : String) : String :=
  String.ofList ('"' :: (s.toList.flatMap writeChar ++ ['"']))

/-- A new line at some depth. -/
def newLine (depth : Nat) : String := "\n" ++ String.ofList (List.replicate (2 * depth) ' ')

mutual

/-- Writes a value at some depth. -/
def writeAt (depth : Nat) : Json → String
  | .null => "null"
  | .boolean b => if b then "true" else "false"
  | .number written => written
  | .string s => writeString s
  | .array [] => "[]"
  | .array items => "[" ++ ",".intercalate (writeItems (depth + 1) items) ++ newLine depth ++ "]"
  | .object [] => "\x7b\x7d"
  | .object members =>
    "\x7b" ++ ",".intercalate (writeMembers (depth + 1) members) ++ newLine depth ++ "\x7d"

/-- Writes the items of an array, each on a line of its own. -/
def writeItems (depth : Nat) : List Json → List String
  | [] => []
  | item :: rest => (newLine depth ++ writeAt depth item) :: writeItems depth rest

/-- Writes the members of an object, each on a line of its own. -/
def writeMembers (depth : Nat) : List (String × Json) → List String
  | [] => []
  | (name, v) :: rest =>
    (newLine depth ++ writeString name ++ ": " ++ writeAt depth v) :: writeMembers depth rest

end

def write (v : Json) : String := writeAt 0 v

/-! ## Reading -/

def isSpace (c : Char) : Bool := c == ' ' || c == '\t' || c == '\n' || c == '\r'

def skipSpaces (cs : List Char) : List Char := cs.dropWhile isSpace

/-- Takes a text off the front. -/
def literal : List Char → List Char → Option (List Char)
  | [], cs => some cs
  | _ :: _, [] => none
  | p :: ps, c :: cs => if p == c then literal ps cs else none

def hexDigit? (c : Char) : Option Nat :=
  if c.isDigit then some (c.toNat - '0'.toNat)
  else if 'a' ≤ c.toLower && c.toLower ≤ 'f' then some (c.toLower.toNat - 'a'.toNat + 10)
  else none

/-- The value of the four digits of a code. -/
def code? (cs : List Char) : Option Nat := do
  let digits ← (cs.take 4).mapM hexDigit?
  if digits.length == 4 then some (digits.foldl (fun n d => n * 16 + d) 0) else none

/-- The character of two codes that belong together. -/
def pair? (high low : Nat) : Option Char :=
  if 0xd800 ≤ high && high < 0xdc00 && 0xdc00 ≤ low && low < 0xe000 then
    some (Char.ofNat ((high - 0xd800) * 0x400 + (low - 0xdc00) + 0x10000))
  else none

/-- The character given by its code, and how many characters that takes. Half of a pair without the
other half stands for no character. -/
def coded? (cs : List Char) : Option (Char × Nat) := do
  let code ← code? cs
  if code.isValidChar then return (Char.ofNat code, 5)
  let second := match cs.drop 4 with
    | '\\' :: 'u' :: more => code? more
    | _ => none
  match second.bind (pair? code) with
  | some c => return (c, 11)
  | none => return (Text.replacement, 5)

/-- The character that an escape stands for, and how many characters after the backslash it
takes. -/
def escape? : List Char → Option (Char × Nat)
  | [] => none
  | c :: cs =>
    match c with
    | '"' | '\\' | '/' => some (c, 1)
    | 'b' => some ('\x08', 1)
    | 'f' => some ('\x0c', 1)
    | 'n' => some ('\n', 1)
    | 'r' => some ('\r', 1)
    | 't' => some ('\t', 1)
    | 'u' => coded? cs
    | _ => none

/-- Reads a string up to its closing quote; `skip` characters of an escape are passed over. -/
def stringBody : Nat → List Char → Option (List Char × List Char)
  | _, [] => none
  | skip + 1, _ :: cs => stringBody skip cs
  | 0, c :: cs =>
    if c == '"' then some ([], cs)
    else if c.toNat < 0x20 then none
    else if c == '\\' then do
      let (letter, width) ← escape? cs
      let (body, rest) ← stringBody width cs
      return (letter :: body, rest)
    else do
      let (body, rest) ← stringBody 0 cs
      return (c :: body, rest)

/-- At least one digit. -/
def digits (cs : List Char) : Option (List Char × List Char) :=
  let ds := cs.takeWhile Char.isDigit
  if ds.isEmpty then none else some (ds, cs.dropWhile Char.isDigit)

/-- The whole part of a number, which has no zero before other digits. -/
def wholePart : List Char → Option (List Char × List Char)
  | '0' :: cs => some (['0'], cs)
  | cs => digits cs

/-- Reads a number. -/
def numberBody (cs : List Char) : Option (String × List Char) := do
  let (sign, cs) := if cs.head? == some '-' then (['-'], cs.tail) else ([], cs)
  let (whole, cs) ← wholePart cs
  let (fraction, cs) ← match cs with
    | '.' :: rest => (digits rest).map fun (ds, rest) => ('.' :: ds, rest)
    | cs => some ([], cs)
  let (exponent, cs) ← match cs with
    | c :: rest =>
      if c == 'e' || c == 'E' then
        let (mark, rest) := match rest with
          | s :: more => if s == '+' || s == '-' then ([c, s], more) else ([c], rest)
          | [] => ([c], [])
        (digits rest).map fun (ds, rest) => (mark ++ ds, rest)
      else some ([], c :: rest)
    | [] => some ([], [])
  return (String.ofList (sign ++ whole ++ fraction ++ exponent), cs)

mutual

/-- Reads a value; `left` bounds the number of its parts and `nesting` the depth of arrays and
objects. -/
def readValue : Nat → Nat → List Char → Option (Json × List Char)
  | 0, _, _ => none
  | left + 1, nesting, cs =>
    match skipSpaces cs with
    | [] => none
    | '[' :: rest =>
      if nesting == 0 then none
      else match skipSpaces rest with
      | ']' :: rest => some (.array [], rest)
      | rest => do
        let (items, rest) ← readItems left (nesting - 1) rest
        return (.array items, rest)
    | '\x7b' :: rest =>
      if nesting == 0 then none
      else match skipSpaces rest with
      | '\x7d' :: rest => some (.object [], rest)
      | rest => do
        let (members, rest) ← readMembers left (nesting - 1) rest
        return (.object members, rest)
    | '"' :: rest => do
      let (body, rest) ← stringBody 0 rest
      return (.string (String.ofList body), rest)
    | c :: rest =>
      if c == 'n' then (literal "null".toList (c :: rest)).map fun rest => (.null, rest)
      else if c == 't' then (literal "true".toList (c :: rest)).map fun rest =>
          (.boolean true, rest)
      else if c == 'f' then (literal "false".toList (c :: rest)).map fun rest =>
          (.boolean false, rest)
      else (numberBody (c :: rest)).map fun (written, rest) => (.number written, rest)

/-- Reads the items of an array that has some. -/
def readItems : Nat → Nat → List Char → Option (List Json × List Char)
  | 0, _, _ => none
  | left + 1, nesting, cs => do
    let (item, rest) ← readValue left nesting cs
    match skipSpaces rest with
    | ',' :: rest =>
      let (items, rest) ← readItems left nesting rest
      return (item :: items, rest)
    | ']' :: rest => return ([item], rest)
    | _ => none

/-- Reads the members of an object that has some. -/
def readMembers : Nat → Nat → List Char → Option (List (String × Json) × List Char)
  | 0, _, _ => none
  | left + 1, nesting, cs => do
    let (name, rest) ← match skipSpaces cs with
      | '"' :: rest => stringBody 0 rest
      | _ => none
    let (v, rest) ← match skipSpaces rest with
      | ':' :: rest => readValue left nesting rest
      | _ => none
    let member := (String.ofList name, v)
    match skipSpaces rest with
    | ',' :: rest =>
      let (members, rest) ← readMembers left nesting rest
      return (member :: members, rest)
    | '\x7d' :: rest => return ([member], rest)
    | _ => none

end

/-- The deepest nesting of arrays and objects. -/
def maxNesting : Nat := 10000

/-- The value that bytes hold. -/
def read? (bytes : List UInt8) : Option Json := do
  let cs := Text.decodeUtf8 bytes
  let (v, rest) ← readValue (2 * cs.length + 2) maxNesting cs
  if (skipSpaces rest).isEmpty then some v else none

end Json

end BilingualC
