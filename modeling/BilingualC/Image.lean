/-!
# Machine images

An image is a program for the stack machine together with the tables that the machine needs to print
identifiers and values.
-/

namespace BilingualC

/-- A program for the stack machine. -/
structure Image where
  memory : List Int
  functions : List Int
  identifiers : List Int
  representations : List Int
  types : List Int
  maxGlobal : Int
  maxThreads : Int
deriving DecidableEq, Repr

namespace Image

/-- The address of the first instruction; the cells below it belong to the machine. -/
def codeStart : Nat := 4

/-- The sizes of the tables, the size of the global frame and the number of threads. -/
def header (img : Image) : List Int :=
  [img.memory.length, img.functions.length, img.identifiers.length, img.representations.length,
    img.types.length, img.maxGlobal, img.maxThreads]

/-- The tables in the order in which formats write them. -/
def tables (img : Image) : List (List Int) :=
  [img.memory, img.functions, img.identifiers, img.representations, img.types]

end Image

end BilingualC
