/-!
# Library functions

The functions that the compiler knows, each with an English and a Russian name. A node stores the
number of its function; a number that no function has is kept as `unlisted`.
-/

namespace BilingualC

/-- A library function. -/
inductive Builtin where
  | printf
  | print
  | printid
  | getid
  | abs
  | sqrt
  | exp
  | sin
  | cos
  | log
  | log10
  | asin
  | rand
  | round
  | strcpy
  | strncpy
  | strcat
  | strncat
  | strcmp
  | strncmp
  | strstr
  | strlen
  | assert
  | upb
  /-- A number that the table does not list. -/
  | unlisted (number : Int)
deriving DecidableEq, Repr

namespace Builtin

/-- All functions in the order of their numbers, which start at 1. -/
def all : List Builtin := [
  .printf, .print, .printid, .getid, .abs, .sqrt, .exp, .sin, .cos, .log, .log10, .asin, .rand,
  .round, .strcpy, .strncpy, .strcat, .strncat, .strcmp, .strncmp, .strstr, .strlen, .assert,
  .upb]

def number : Builtin → Int
  | .printf => 1
  | .print => 2
  | .printid => 3
  | .getid => 4
  | .abs => 5
  | .sqrt => 6
  | .exp => 7
  | .sin => 8
  | .cos => 9
  | .log => 10
  | .log10 => 11
  | .asin => 12
  | .rand => 13
  | .round => 14
  | .strcpy => 15
  | .strncpy => 16
  | .strcat => 17
  | .strncat => 18
  | .strcmp => 19
  | .strncmp => 20
  | .strstr => 21
  | .strlen => 22
  | .assert => 23
  | .upb => 24
  | .unlisted n => n

def ofNumber (n : Int) : Builtin :=
  if n < 1 then .unlisted n else all.getD (n.toNat - 1) (.unlisted n)

/-- The English and the Russian name of a function. -/
def names? : Builtin → Option (String × String)
  | .printf => some ("printf", "печатьф")
  | .print => some ("print", "печать")
  | .printid => some ("printid", "печатьид")
  | .getid => some ("getid", "читатьид")
  | .abs => some ("abs", "абс")
  | .sqrt => some ("sqrt", "квкор")
  | .exp => some ("exp", "эксп")
  | .sin => some ("sin", "син")
  | .cos => some ("cos", "кос")
  | .log => some ("log", "лог")
  | .log10 => some ("log10", "лог10")
  | .asin => some ("asin", "асин")
  | .rand => some ("rand", "случ")
  | .round => some ("round", "округл")
  | .strcpy => some ("strcpy", "копир_строку")
  | .strncpy => some ("strncpy", "копир_н_симв")
  | .strcat => some ("strcat", "конкат_строки")
  | .strncat => some ("strncat", "конкат_н_симв")
  | .strcmp => some ("strcmp", "сравн_строк")
  | .strncmp => some ("strncmp", "сравн_н_симв")
  | .strstr => some ("strstr", "нач_подстрок")
  | .strlen => some ("strlen", "длина")
  | .assert => some ("assert", "проверить")
  | .upb => some ("upb", "кол_во")
  | .unlisted _ => none

/-- How a function is named in messages. -/
def name (b : Builtin) : String :=
  match b.names? with
  | some (english, _) => english
  | none => "builtin"

end Builtin

end BilingualC
