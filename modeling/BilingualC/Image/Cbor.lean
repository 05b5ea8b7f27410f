import BilingualC.Image
import BilingualC.Text.Utf8

/-!
# Images in binary form

An image is written as a CBOR map from the numbers one to seven to its fields, every number in its
shortest form; an empty table is written as null. Reading takes any well-formed item: definite or
indefinite lengths, tags, and keys that are numbers or their decimal spelling. The first occurrence
of a key counts, unknown keys are passed over, and null leaves a field as it was.
-/

namespace BilingualC

/-- A well-formed data item. -/
inductive Cbor where
  | unsigned (n : Nat)
  /-- The number minus one minus `n`. -/
  | negative (n : Nat)
  | byteString (content : List UInt8)
  /-- The pieces in which a text is given. -/
  | text (chunks : List (List UInt8))
  | array (items : List Cbor)
  | map (items : List (Cbor × Cbor))
  | tag (number : Nat) (content : Cbor)
  | simple (value : Nat)
  | float
deriving Repr, Inhabited

namespace Cbor

/-! ## Writing -/

/-- The bytes of a natural, highest first, in a given number of bytes. -/
def bigEndian : Nat → Nat → List UInt8
  | 0, _ => []
  | width + 1, n => UInt8.ofNat (n >>> (8 * width)) :: bigEndian width n

/-- The head of an item: its major type and its argument in the shortest form. -/
def head (major n : Nat) : List UInt8 :=
  let start (info : Nat) := UInt8.ofNat (major * 32 + info)
  if n < 24 then [start n]
  else if n < 256 then start 24 :: bigEndian 1 n
  else if n < 65536 then start 25 :: bigEndian 2 n
  else if n < 4294967296 then start 26 :: bigEndian 4 n
  else start 27 :: bigEndian 8 n

/-- A word. -/
def encodeWord (w : Int) : List UInt8 := if w < 0 then head 1 (-1 - w).toNat else head 0 w.toNat

/-- A table; an empty one is written as null. -/
def encodeTable (table : List Int) : List UInt8 :=
  if table.isEmpty then [0xf6] else head 4 table.length ++ table.flatMap encodeWord

/-! ## Reading -/

/-- The natural with given bytes, highest first. -/
def ofBigEndian (bytes : List UInt8) : Nat := bytes.foldl (fun n b => n * 256 + b.toNat) 0

/-- Takes bytes off the front. -/
def takeBytes (n : Nat) (bytes : List UInt8) : Option (List UInt8 × List UInt8) :=
  if bytes.length < n then none else some (bytes.take n, bytes.drop n)

/-- The major type, the additional information and the argument of an item, and the bytes after its
head. An indefinite length has no argument. -/
def readHead : List UInt8 → Option (Nat × Nat × Option Nat × List UInt8)
  | [] => none
  | b :: rest =>
    let major := b.toNat / 32
    let info := b.toNat % 32
    let sized (width : Nat) := (takeBytes width rest).map fun (bytes, rest) =>
      (major, info, some (ofBigEndian bytes), rest)
    if info < 24 then some (major, info, some info, rest)
    else if info == 24 then
      (sized 1).filter fun (_, _, n, _) => major != 7 || 32 ≤ n.getD 0
    else if info == 25 then sized 2
    else if info == 26 then sized 4
    else if info == 27 then sized 8
    else if info == 31 && 2 ≤ major && major ≤ 5 then some (major, info, none, rest)
    else none

/-- The most items of an array or pairs of a map. -/
def maxItems : Nat := 131072

/-- The deepest nesting of arrays, maps and tags on tags. -/
def maxNesting : Nat := 32

/-- Puts items together to pairs. -/
def pairs : List Cbor → Option (List (Cbor × Cbor))
  | [] => some []
  | [_] => none
  | key :: value :: rest => (pairs rest).map ((key, value) :: ·)

/-- The code that ends an item of indefinite length. -/
def stopCode : UInt8 := 0xff

/-- The chunks of a string of indefinite length. -/
def readChunks (major : Nat) : Nat → List UInt8 → Option (List (List UInt8) × List UInt8)
  | 0, _ => none
  | _, [] => none
  | left + 1, b :: rest =>
    if b == stopCode then some ([], rest)
    else do
      let (chunkMajor, _, length, rest) ← readHead (b :: rest)
      let length ← length
      if chunkMajor != major then none
      let (chunk, rest) ← takeBytes length rest
      let (chunks, rest) ← readChunks major left rest
      return (chunk :: chunks, rest)

/-- Says whether the next item is a tag. -/
def startsWithTag : List UInt8 → Bool
  | [] => false
  | b :: _ => b.toNat / 32 == 6

mutual

/-- Reads an item; `left` bounds the number of items still to be read. -/
def readItem : Nat → Nat → List UInt8 → Option (Cbor × List UInt8)
  | 0, _, _ => none
  | left + 1, nesting, bytes => do
    let (major, info, argument, rest) ← readHead bytes
    match major, argument with
    | 0, some n => return (.unsigned n, rest)
    | 1, some n => return (.negative n, rest)
    | 2, some n => let (content, rest) ← takeBytes n rest; return (.byteString content, rest)
    | 2, none =>
      let (chunks, rest) ← readChunks 2 left rest; return (.byteString chunks.flatten, rest)
    | 3, some n => let (content, rest) ← takeBytes n rest; return (.text [content], rest)
    | 3, none => let (chunks, rest) ← readChunks 3 left rest; return (.text chunks, rest)
    | 4, length =>
      if nesting == 0 then none
      let (items, rest) ← readItems left (nesting - 1) length rest
      if maxItems < items.length then none
      return (.array items, rest)
    | 5, length =>
      if nesting == 0 then none
      let (items, rest) ← readItems left (nesting - 1) (length.map (2 * ·)) rest
      let entries ← pairs items
      if maxItems < entries.length then none
      return (.map entries, rest)
    | 6, some n =>
      if startsWithTag rest && nesting == 0 then none
      let (content, rest) ← readItem left (if startsWithTag rest then nesting - 1 else nesting) rest
      return (.tag n content, rest)
    | 7, some n =>
      return (if info == 25 || info == 26 || info == 27 then .float else .simple n, rest)
    | _, _ => none

/-- Reads a number of items, or all items up to the stop code. -/
def readItems : Nat → Nat → Option Nat → List UInt8 → Option (List Cbor × List UInt8)
  | 0, _, _, _ => none
  | left + 1, nesting, count, bytes => do
    match count, bytes with
    | some 0, _ => return ([], bytes)
    | none, b :: rest =>
      if b == stopCode then return ([], rest)
      let (item, rest) ← readItem left nesting bytes
      let (items, rest) ← readItems left nesting none rest
      return (item :: items, rest)
    | some (n + 1), _ =>
      let (item, rest) ← readItem left nesting bytes
      let (items, rest) ← readItems left nesting (some n) rest
      return (item :: items, rest)
    | none, [] => none

end

/-- Reads bytes that are one item and nothing else. -/
def read (bytes : List UInt8) : Option Cbor := do
  let (item, rest) ← readItem (2 * bytes.length + 2) maxNesting bytes
  if rest.isEmpty then return item else none

/-! ## Fields -/

/-- The tag that marks data as CBOR. -/
def selfDescribed : Nat := 55799

/-- Says whether the content of a tag with a fixed meaning is of the right kind. -/
def tagFits (number : Nat) (content : Cbor) : Bool :=
  match number, content with
  | 0, .text _ => true
  | 0, _ => false
  | 1, .unsigned _ | 1, .negative _ | 1, .float => true
  | 1, _ => false
  | 2, .byteString _ | 3, .byteString _ => true
  | 2, _ | 3, _ => false
  | _, _ => true

/-- A word within its range. -/
def word? (w : Int) : Option Int :=
  if -9223372036854775808 ≤ w && w ≤ 9223372036854775807 then some w else none

/-- An item as a new value of a word; null leaves the old one. -/
def toWord (old : Int) : Cbor → Option Int
  | .unsigned n => word? n
  | .negative n => word? (-1 - (n : Int))
  | .simple n =>
    if n == 20 || n == 21 then none else if n == 22 || n == 23 then some old else some n
  | .tag number content =>
    if !tagFits number content then none
    else match number, content with
      | 2, .byteString b => word? (ofBigEndian b)
      | 3, .byteString b => word? (-1 - (ofBigEndian b : Int))
      | _, _ => toWord old content
  | _ => none

/-- An item as a new value of a table; null empties it. -/
def toTable : Cbor → Option (List Int)
  | .array items => items.mapM (toWord 0)
  | .simple n => if n == 22 || n == 23 then some [] else none
  | .tag number content =>
    if !tagFits number content || number == 2 || number == 3 then none else toTable content
  | _ => none

/-- The number that a key stands for; a key that cannot name a field is an error. -/
def keyNumber : Cbor → Option Int
  | .unsigned n => some n
  | .negative n => word? (-1 - (n : Int))
  | .text chunks =>
    if !chunks.all Text.isUtf8 then none
    else match chunks.flatten with
      | [b] => some (if 0x31 ≤ b.toNat && b.toNat ≤ 0x37 then (b.toNat : Int) - 0x30 else 0)
      | _ => some 0
  | _ => none

/-- Sets a field of an image by its number. -/
def setField (img : Image) (key : Int) (value : Cbor) : Option Image :=
  if key == 1 then do return { img with memory := ← toTable value }
  else if key == 2 then do return { img with functions := ← toTable value }
  else if key == 3 then do return { img with identifiers := ← toTable value }
  else if key == 4 then do return { img with representations := ← toTable value }
  else if key == 5 then do return { img with types := ← toTable value }
  else if key == 6 then do return { img with maxGlobal := ← toWord img.maxGlobal value }
  else if key == 7 then do return { img with maxThreads := ← toWord img.maxThreads value }
  else some img

/-- Sets the fields of an image in order; a key that was seen before is passed over. -/
def setFields (img : Image) (seen : List Int) : List (Cbor × Cbor) → Option Image
  | [] => some img
  | (key, value) :: rest => do
    let key ← keyNumber key
    let img ← if seen.contains key then some img else setField img key value
    setFields img (key :: seen) rest

/-- The image that an item describes. -/
def toImage (empty : Image) : Cbor → Option Image
  | .map entries => setFields empty [] entries
  | .simple n => if n == 22 || n == 23 then some empty else none
  | .tag number content =>
    if !tagFits number content || number == 2 || number == 3 then none else toImage empty content
  | _ => none

end Cbor

namespace Image

/-- An image without code and tables. -/
def empty : Image := ⟨[], [], [], [], [], 0, 0⟩

/-- An image in binary form. -/
def toCbor (img : Image) : List UInt8 :=
  Cbor.head 5 7 ++ Cbor.head 0 1 ++ Cbor.encodeTable img.memory
    ++ Cbor.head 0 2 ++ Cbor.encodeTable img.functions
    ++ Cbor.head 0 3 ++ Cbor.encodeTable img.identifiers
    ++ Cbor.head 0 4 ++ Cbor.encodeTable img.representations
    ++ Cbor.head 0 5 ++ Cbor.encodeTable img.types
    ++ Cbor.head 0 6 ++ Cbor.encodeWord img.maxGlobal
    ++ Cbor.head 0 7 ++ Cbor.encodeWord img.maxThreads

/-- The image in binary form that some bytes are. -/
def ofCbor? (bytes : List UInt8) : Option Image := (Cbor.read bytes).bind (Cbor.toImage empty)

end Image

end BilingualC
