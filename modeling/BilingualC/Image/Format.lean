import BilingualC.Image.Cbor

/-!
# Image formats

An image is written as text for the machine, or in binary form.
-/

namespace BilingualC

namespace Image

/-- The first line of an image in text form. -/
def shebang : String := "#!/usr/bin/ruc-vm"

/-- A line of numbers. -/
def numberLine (numbers : List Int) : String := " ".intercalate (numbers.map toString) ++ "\n"

/-- An image in text form: the first line, the header and one line for every table. -/
def toText (img : Image) : String :=
  shebang ++ "\n" ++ numberLine img.header ++ String.join (img.tables.map numberLine)

end Image

/-- A way to write images. -/
inductive ImageFormat where
  | text
  | binary
deriving DecidableEq, Repr

/-- The name of a format that does not exist. -/
structure UnknownFormat where
  name : String
deriving Repr

def UnknownFormat.message (e : UnknownFormat) : String := "unsupported backend '" ++ e.name ++ "'"

namespace ImageFormat

/-- The format with a given name; no name means text. -/
def ofName (name : String) : Except UnknownFormat ImageFormat :=
  if name == "" || name == "vm" then .ok .text
  else if name == "cbor" then .ok .binary
  else .error ⟨name⟩

/-- The bytes of an image. -/
def write (f : ImageFormat) (img : Image) : List UInt8 :=
  match f with
  | .text => Text.bytesOfText img.toText
  | .binary => img.toCbor

end ImageFormat

end BilingualC
