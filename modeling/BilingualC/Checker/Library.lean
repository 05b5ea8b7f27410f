import BilingualC.Checker.Expression

/-!
# Rules for library calls

Most library functions have a fixed signature. The printing functions have rules of their own:
`printf` needs a literal format whose conversions match the other arguments, `print` takes anything
but pointers, and the functions on identifiers take only those.
-/

namespace BilingualC.Checker

/-- The most arguments that a format can print. -/
def maxPrinted : Nat := 20

/-! ## Signatures -/

/-- What a library function wants in one place. -/
inductive Wanted where
  | type (id : TypeId)
  | anyArray
deriving DecidableEq, Repr

/-- The type of the result and the wanted arguments of a library function. A function with rules of
its own and a number without a function have an empty signature. -/
def signature (stringType : TypeId) (b : Builtin) : TypeId × List Wanted :=
  let float := Wanted.type TypeId.float
  let int := Wanted.type TypeId.int
  let text := Wanted.type stringType
  match b with
  | .sqrt | .exp | .sin | .cos | .log | .log10 | .asin => (TypeId.float, [float])
  | .rand => (TypeId.float, [])
  | .round => (TypeId.int, [float])
  | .strcpy | .strcat => (TypeId.void, [text, text])
  | .strncpy | .strncat => (TypeId.void, [text, text, int])
  | .strcmp | .strstr => (TypeId.int, [text, text])
  | .strncmp => (TypeId.int, [text, text, int])
  | .strlen => (TypeId.int, [text])
  | .assert => (TypeId.void, [int, text])
  | .upb => (TypeId.int, [int, .anyArray])
  | _ => (TypeId.undefined, [])

/-- Checks arguments against a signature and converts them; the first misfit is reported. -/
def matchArguments : List Wanted → List Handle → Check (Option (List Handle))
  | .anyArray :: wanted, arg :: args => do
    let type ← typeOf arg
    if !(← types).isArray type then
      report (← locationOf arg) (.mismatch "array" (← typeName type))
      return none
    return (← matchArguments wanted args).map (arg :: ·)
  | .type id :: wanted, arg :: args => do
    let (converted, problem) ← convert id arg
    match problem with
    | some d =>
      report (← locationOf arg) d
      return none
    | none => return (← matchArguments wanted args).map (converted :: ·)
  | _, _ => return some []

/-- Builds a library call. -/
def libraryCall (b : Builtin) (result : TypeId) (args : List Handle) (loc : Location) :
    Check Handle :=
  buildExpr .builtin result .value loc [b.number] args

/-! ## Formats -/

/-- What a conversion of a format prints. -/
inductive Printed where
  | integer
  | floating
  | text
deriving DecidableEq, Repr

/-- What the letter of a conversion prints. -/
def printed? (letter : Char) : Option Printed :=
  if letter == 'i' || letter == 'd' || letter == 'c' || letter == 'ц' ||
    letter == 'л' then some .integer
  else if letter == 'f' || letter == 'в' then some .floating
  else if letter == 's' || letter == 'с' then some .text
  else none

/-- A conversion of a format: its letter and what it prints. -/
structure Conversion where
  letter : Char
  printed : Printed
deriving DecidableEq, Repr

/-- The conversions of a format of which `count` were read already, or what is wrong with it. -/
def conversionsFrom (count : Nat) : List Char → Except Diagnostic (List Conversion)
  | [] => .ok []
  | ['%'] => .error (.expected "conversion specifier")
  | '%' :: '%' :: cs => conversionsFrom count cs
  | '%' :: letter :: cs =>
    match printed? letter with
    | none => .error (.lettered .printfSpec letter.toNat)
    | some printed =>
      if count == maxPrinted then .error (.plain .printfTooManyArgs)
      else (conversionsFrom (count + 1) cs).map (⟨letter, printed⟩ :: ·)
  | _ :: cs => conversionsFrom count cs

/-- The conversions of a format, or what is wrong with it. -/
def conversions (format : String) : Except Diagnostic (List Conversion) :=
  conversionsFrom 0 format.toList

/-- The type that a conversion converts its argument to. -/
def Conversion.type (stringType : TypeId) (c : Conversion) : TypeId :=
  match c.printed with
  | .integer => TypeId.int
  | .floating => TypeId.float
  | .text => stringType

/-- A call of `printf`. -/
def printf (args : List Handle) (loc : Location) : Check Handle := do
  match args with
  | [] => refuse loc (.plain .printfFormat)
  | format :: rest =>
    if (← kindOf format) != .string then return ← refuse loc (.plain .printfFormat)
    if maxPrinted < rest.length then return ← refuse loc (.plain .printfTooManyArgs)
    match conversions ((← currentSession).stringAt (← payloadOf format)) with
    | .error d => refuse (← locationOf format) d
    | .ok list =>
      if list.length != rest.length then
        return ← refuse loc (.counted .printfArgCount list.length rest.length)
      let stringType := (← get).stringType
      let wanted := list.map fun c =>
        (c.type stringType, fun (_ : Diagnostic) =>
          Diagnostic.lettered .printfArgType c.letter.toNat)
      match ← convertArguments wanted rest with
      | none => return .broken
      | some rest => libraryCall .printf TypeId.void (format :: rest) loc

/-- Finds the first of some nodes with a property. -/
def firstWith (property : Handle → Check Bool) : List Handle → Check (Option Handle)
  | [] => return none
  | n :: rest => do if ← property n then return some n else firstWith property rest

/-- A call of `print`. -/
def print (args : List Handle) (loc : Location) : Check Handle := do
  if args.isEmpty then return ← refuse loc (.expected "expression")
  match ← firstWith (fun n => do return (← types).isPointer (← typeOf n)) args with
  | some n => refuse (← locationOf n) (.plain .printPointer)
  | none => libraryCall .print TypeId.void args loc

/-- A call of a function that takes identifiers. -/
def identifierCall (b : Builtin) (args : List Handle) (loc : Location) : Check Handle := do
  if args.isEmpty then return ← refuse loc (.plain .identArgExpected)
  match ← firstWith (fun n => do return (← kindOf n) != .identifier || !(← isPlace n)) args with
  | some n => refuse (← locationOf n) (.plain .identArgExpected)
  | none => libraryCall b TypeId.void args loc

/-! ## Calls -/

/-- A library call. The absolute value is an operator. -/
def library (b : Builtin) (args : List Handle) (loc : Location) : Check Handle := do
  if ← anyBroken args then return .broken
  match b, args with
  | .printf, _ => printf args loc
  | .print, _ => print args loc
  | .printid, _ | .getid, _ => identifierCall b args loc
  | .abs, [arg] => unary .absolute arg loc
  | .abs, _ => refuse loc (.counted .wrongArgCount 1 args.length)
  | _, _ =>
    let (result, wanted) := signature (← get).stringType b
    if wanted.length != args.length then
      return ← refuse loc (.counted .wrongArgCount wanted.length args.length)
    match ← matchArguments wanted args with
    | none => return .broken
    | some args => libraryCall b result args loc

end BilingualC.Checker
