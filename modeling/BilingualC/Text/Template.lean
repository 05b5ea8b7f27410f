import BilingualC.Text.Quoted

/-!
# Message templates

A template is a text with holes: `%s` for a text, `%d` for a number, `%c` for a character, `%q` for
a quoted text or character, and `%%` for a percent sign. A hole filled with a value of another kind,
a hole without a value and a value without a hole are all shown as such in the result, so a message
never loses a value.
-/

namespace BilingualC.Text

/-- A value for a hole of a template. -/
inductive Filler where
  | text (value : String)
  | number (value : Int)
  | letter (code : Int)
deriving DecidableEq, Repr

namespace Filler

/-- The name of the kind of a value. -/
def kindName : Filler → String
  | .text _ => "string"
  | .number _ => "int"
  | .letter _ => "int32"

/-- The value without regard to a hole. -/
def plain : Filler → String
  | .text value => value
  | .number value => toString value
  | .letter code => toString code

/-- The kind and the value, as shown where the value fits no hole. -/
def labelled (f : Filler) : String := f.kindName ++ "=" ++ f.plain

/-- Fills one hole. -/
def fill (verb : Char) : Filler → String
  | .text value =>
    if verb == 's' then value
    else if verb == 'q' then quote value
    else misfit verb (.text value)
  | .number value =>
    if verb == 'd' then toString value
    else if verb == 'c' then String.singleton (letterOfCode value)
    else if verb == 'q' then quoteLetter (letterOfCode value)
    else misfit verb (.number value)
  | .letter code =>
    if verb == 'd' then toString code
    else if verb == 'c' then String.singleton (letterOfCode code)
    else if verb == 'q' then quoteLetter (letterOfCode code)
    else misfit verb (.letter code)
where
  /-- Shows a value in a hole of another kind. -/
  misfit (verb : Char) (f : Filler) : String :=
    "%!" ++ String.singleton verb ++ "(" ++ f.labelled ++ ")"

end Filler

/-- Fills the holes of a template from left to right. -/
def fillHoles : List Char → List Filler → String
  | [], [] => ""
  | [], rest => "%!(EXTRA " ++ ", ".intercalate (rest.map Filler.labelled) ++ ")"
  | '%' :: '%' :: cs, fillers => "%" ++ fillHoles cs fillers
  | '%' :: verb :: cs, f :: fillers => f.fill verb ++ fillHoles cs fillers
  | '%' :: verb :: cs, [] => "%!" ++ String.singleton verb ++ "(MISSING)" ++ fillHoles cs []
  | c :: cs, fillers => String.singleton c ++ fillHoles cs fillers

/-- The text of a template with its values. A template that gets no value stands as it is. -/
def fillTemplate (template : String) (fillers : List Filler) : String :=
  if fillers.isEmpty then template else fillHoles template.toList fillers

end BilingualC.Text
