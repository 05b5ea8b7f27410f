import BilingualC.Checksum
import BilingualC.Fault
import BilingualC.Text.Case

/-!
# Spellings

Every spelling of an identifier is stored once and named by a number, in the order of first use and
starting at one. A spelling remembers the declaration that it currently stands for. Spellings are
found through chains: a hash of the text selects a chain, and each entry names the one before it.
-/

namespace BilingualC

/-- A stored spelling. -/
structure Spelling where
  text : String
  /-- The visible declaration, or zero. -/
  declaration : Int
  /-- The spelling before it in its chain, or zero. -/
  before : Nat
deriving Repr, Inhabited

/-- The stored spellings; the entry with number zero is not one. -/
structure Spellings where
  entries : Array Spelling
  chains : Array Nat
deriving Repr

namespace Spellings

def chainCount : Nat := 256

def empty : Spellings := ⟨#[⟨"", 0, 0⟩], Array.replicate chainCount 0⟩

/-- Looks for a text along a chain. -/
def findFrom (s : Spellings) (text : String) : Nat → Nat → Option Nat
  | 0, _ => none
  | _, 0 => none
  | steps + 1, id =>
    match s.entries[id]? with
    | none => none
    | some entry => if entry.text == text then some id else s.findFrom text steps entry.before

/-- The number of a text and the spellings with it, for a given hash. -/
def internWith (hash : String → UInt64) (s : Spellings) (text : String) : Spellings × Nat :=
  let chain := (hash text).toNat % chainCount
  let first := s.chains.getD chain 0
  match s.findFrom text s.entries.size first with
  | some id => (s, id)
  | none =>
    let id := s.entries.size
    (⟨s.entries.push ⟨text, 0, first⟩, s.chains.setIfInBounds chain id⟩, id)

/-- The number of a text and the spellings with it. -/
def intern (s : Spellings) (text : String) : Spellings × Nat := s.internWith Checksum.ofText text

/-- Says whether a number names a stored spelling. -/
def has (s : Spellings) (id : Int) : Bool := 0 < id && id < s.entries.size

/-- The text of a spelling; an unknown number has none. -/
def text (s : Spellings) (id : Int) : String :=
  if s.has id then (s.entries.getD id.toNat default).text else ""

/-- The declaration that a spelling stands for, or zero. -/
def declaration (s : Spellings) (id : Int) : Int :=
  if s.has id then (s.entries.getD id.toNat default).declaration else 0

/-- Makes a spelling stand for a declaration. -/
def setDeclaration (s : Spellings) (id declaration : Int) : Guarded Spellings := do
  let entry ← cellAt s.entries id
  return { s with entries := ← setCellAt s.entries id { entry with declaration } }

/-- Says whether a text names the entry point of a program, whatever its case. -/
def isEntryName (text : String) : Bool :=
  let small := Text.lower text
  small == "main" || small == "главная"

/-- The table as words: declaration, length and characters of every spelling. -/
def table (s : Spellings) : List Int :=
  (s.entries.toList.drop 1).flatMap fun entry =>
    entry.declaration :: entry.text.length :: entry.text.toList.map fun c => (c.toNat : Int)

end Spellings

end BilingualC
