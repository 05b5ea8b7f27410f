import BilingualC.Disk
import BilingualC.Text.Utf8

/-!
# Patterns for paths

A star stands for any number of bytes, a question mark for one character, and brackets for one
character of a class; none of them but a class matches a slash. A backslash takes the meaning from
the byte after it. Matching works on bytes, so that names need not be well-formed texts.
-/

namespace BilingualC

/-- A class of characters, given by ranges of codes. -/
structure CharClass where
  negated : Bool
  ranges : List (Nat × Nat)
deriving DecidableEq, Repr

/-- A part of a pattern that takes one byte or one character. -/
inductive GlobPiece where
  | byte (b : UInt8)
  | anyChar
  | oneOf (c : CharClass)
deriving DecidableEq, Repr

/-- Pieces that stand together, and whether a star stands before them. -/
structure GlobChunk where
  star : Bool
  pieces : List GlobPiece
deriving DecidableEq, Repr

/-- A pattern. -/
abbrev Glob := List GlobChunk

namespace Glob

def slash : UInt8 := 0x2f
def starMark : UInt8 := 0x2a
def anyMark : UInt8 := 0x3f
def openMark : UInt8 := 0x5b
def closeMark : UInt8 := 0x5d
def escapeMark : UInt8 := 0x5c
def notMark : UInt8 := 0x5e
def rangeMark : UInt8 := 0x2d

/-! ## Reading -/

/-- The bytes up to the next star outside of brackets, and the bytes from there on. -/
def splitChunk (inClass : Bool) : List UInt8 → List UInt8 × List UInt8
  | [] => ([], [])
  | [b] => if b == starMark && !inClass then ([], [b]) else ([b], [])
  | b :: c :: rest =>
    if b == starMark && !inClass then ([], b :: c :: rest)
    else if b == escapeMark then
      let (chunk, after) := splitChunk inClass rest
      (b :: c :: chunk, after)
    else
      let inClass := if b == openMark then true else if b == closeMark then false else inClass
      let (chunk, after) := splitChunk inClass (c :: rest)
      (b :: chunk, after)

/-- One end of a range, and the bytes after it, of which there has to be one. -/
def rangeEnd : List UInt8 → Option (Nat × List UInt8)
  | [] => none
  | b :: rest => do
    if b == rangeMark || b == closeMark then none
    let bytes := if b == escapeMark then rest else b :: rest
    let (c, width) ← Text.firstChar? bytes
    let after := bytes.drop width
    if after.isEmpty then none else some (c.toNat, after)

/-- The ranges of a class up to its closing bracket; there is at least one. -/
def classRanges : Nat → List (Nat × Nat) → List UInt8 → Option (List (Nat × Nat) × List UInt8)
  | 0, _, _ => none
  | left + 1, done, bytes => do
    if bytes.head? == some closeMark && !done.isEmpty then return (done, bytes.tail)
    let (low, after) ← rangeEnd bytes
    if after.head? == some rangeMark then
      let (high, after) ← rangeEnd after.tail
      classRanges left (done ++ [(low, high)]) after
    else classRanges left (done ++ [(low, low)]) after

/-- The pieces of a chunk; `left` bounds their number. -/
def pieces : Nat → List UInt8 → Option (List GlobPiece)
  | _, [] => some []
  | 0, _ => none
  | left + 1, b :: rest => do
    if b == openMark then
      let negated := rest.head? == some notMark
      let (ranges, after) ← classRanges (rest.length + 1) [] (if negated then rest.tail else rest)
      return .oneOf ⟨negated, ranges⟩ :: (← pieces left after)
    else if b == anyMark then return .anyChar :: (← pieces left rest)
    else if b == escapeMark then
      match rest with
      | [] => none
      | c :: rest => return .byte c :: (← pieces left rest)
    else return .byte b :: (← pieces left rest)

/-- Reads a pattern; `left` bounds the number of its chunks. -/
def chunks : Nat → List UInt8 → Option Glob
  | _, [] => some []
  | 0, _ => none
  | left + 1, bytes => do
    let star := bytes.head? == some starMark
    let (chunk, after) := splitChunk false (bytes.dropWhile (· == starMark))
    return ⟨star, ← pieces (chunk.length + 1) chunk⟩ :: (← chunks left after)

/-- Reads a pattern. -/
def ofText? (pattern : String) : Option Glob :=
  let bytes := Text.bytesOfText pattern
  chunks (bytes.length + 1) bytes

/-! ## Matching -/

/-- The code of the first character and its width; a byte that starts no character counts for
one. -/
def firstCode (bytes : List UInt8) : Nat × Nat :=
  match Text.firstChar? bytes with
  | some (c, width) => (c.toNat, width)
  | none => (Text.replacement.toNat, 1)

def CharClass.contains (c : CharClass) (code : Nat) : Bool :=
  (c.ranges.any fun (low, high) => low ≤ code && code ≤ high) != c.negated

/-- The bytes that are left after pieces have taken theirs. -/
def matchPieces : List GlobPiece → List UInt8 → Option (List UInt8)
  | [], name => some name
  | _ :: _, [] => none
  | .byte b :: rest, c :: name => if b == c then matchPieces rest name else none
  | .anyChar :: rest, c :: name =>
    if c == slash then none else matchPieces rest ((c :: name).drop (firstCode (c :: name)).2)
  | .oneOf cls :: rest, c :: name =>
    let (code, width) := firstCode (c :: name)
    if CharClass.contains cls code then matchPieces rest ((c :: name).drop width) else none

/-- The bytes that are left after a star has taken at least one byte and pieces theirs; the last
pieces have to take all. -/
def matchAfterStar (pieces : List GlobPiece) (isLast : Bool) : List UInt8 → Option (List UInt8)
  | [] => none
  | c :: name =>
    if c == slash then none
    else match matchPieces pieces name with
      | some rest =>
        if isLast && !rest.isEmpty then matchAfterStar pieces isLast name else some rest
      | none => matchAfterStar pieces isLast name

/-- Says whether a pattern matches all bytes of a name. A star takes as few bytes as it can. -/
def matchBytes : Glob → List UInt8 → Bool
  | [], name => name.isEmpty
  | ⟨star, pieces⟩ :: rest, name =>
    if star && pieces.isEmpty then !name.contains slash
    else
      let later := if star then matchAfterStar pieces rest.isEmpty name else none
      match matchPieces pieces name with
      | some after =>
        if after.isEmpty || !rest.isEmpty then matchBytes rest after
        else (later.map (matchBytes rest)).getD false
      | none => (later.map (matchBytes rest)).getD false

/-! ## Finding files -/

/-- A pattern that cannot be read. -/
structure BadPattern where
  pattern : String
deriving DecidableEq, Repr

def BadPattern.message (e : BadPattern) : String :=
  "bad pattern " ++ e.pattern ++ ": syntax error in pattern"

/-- Says whether a text means more than itself as a pattern. -/
def isPattern (text : String) : Bool :=
  text.toList.any fun c => c == '*' || c == '?' || c == '[' || c == '\\'

/-- The directory part of a pattern and its last component. -/
def split (pattern : String) : String × String :=
  let reversed := pattern.toList.reverse
  let directory := (reversed.dropWhile (· != '/')).reverse
  let directory := if directory.isEmpty then ['.'] else if directory.length == 1 then directory
    else directory.dropLast
  (String.ofList directory, String.ofList (reversed.takeWhile (· != '/')).reverse)

/-- The entries of a directory that match a pattern. -/
def inDirectory (d : Disk) (directory pattern : String) : Option (List String) := do
  match d.lookup directory, d.resolve directory with
  | .ok .directory, .ok place =>
    let names := d.names place
    if names.isEmpty then return []
    let glob ← ofText? pattern
    return (names.filter fun name => matchBytes glob (Text.bytesOfText name)).map fun name =>
      Path.join [directory, name]
  | _, _ => return []

/-- The paths that match a pattern, as the pattern spells their directories; `left` bounds the
number of directories. -/
def paths (d : Disk) : Nat → String → Option (List String)
  | 0, _ => none
  | left + 1, pattern => do
    let _ ← ofText? pattern
    if !isPattern pattern then return if (d.lookup pattern).isOk then [pattern] else []
    let (directory, name) := split pattern
    let directories ← if isPattern directory then paths d left directory else some [directory]
    return (← directories.mapM fun directory => inDirectory d directory name).flatten

/-- Adds the files among some paths that were not found before. -/
def addFiles (d : Disk) (found : List String) : List String → List String
  | [] => found
  | path :: rest =>
    let place := Path.absolute d.workingDirectory path
    let isFile := match d.lookup place with
      | .ok (.file _) => true
      | _ => false
    addFiles d (if isFile && !found.contains place then found ++ [place] else found) rest

/-- The files that match one of some patterns. -/
def filesFor (d : Disk) (found : List String) : List String → Except BadPattern (List String)
  | [] => .ok found
  | pattern :: rest =>
    match paths d (pattern.length + 1) pattern with
    | none => .error ⟨pattern⟩
    | some matched => filesFor d (addFiles d found matched) rest

/-- The files that match one of the patterns in a text, as absolute paths, each once and in the
order of the patterns. -/
def expand (d : Disk) (patterns : String) : Except BadPattern (List String) :=
  filesFor d [] (Text.fields patterns)

end Glob

end BilingualC
