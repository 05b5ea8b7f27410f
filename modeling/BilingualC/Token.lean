import BilingualC.Binary64
import BilingualC.Text.Case

/-!
# Tokens

The tokens of the language, their spellings in messages and the two sets of keywords. A keyword is
written wholly in small or wholly in capital letters.
-/

namespace BilingualC

/-! ## Locations -/

/-- A range of character offsets. Every source file has its own window of offsets, so one number
places a character in the whole compilation. -/
structure Location where
  start : Int
  stop : Int
deriving DecidableEq, Repr, Inhabited

namespace Location

/-- The location of something that was never written. -/
def none : Location := ⟨0, 0⟩

/-- The range from the start of one location to the end of another. -/
def span (first last : Location) : Location := ⟨first.start, last.stop⟩

end Location

/-! ## Kinds -/

/-- The kinds of tokens, in the order of their numbers. -/
inductive TokenKind where
  | endOfInput
  | identifier
  | intLiteral
  | charLiteral
  | floatLiteral
  | stringLiteral
  | intWord
  | charWord
  | floatWord
  | longWord
  | doubleWord
  | voidWord
  | structWord
  | typedefWord
  | ifWord
  | elseWord
  | whileWord
  | doWord
  | forWord
  | switchWord
  | caseWord
  | defaultWord
  | breakWord
  | continueWord
  | gotoWord
  | returnWord
  | leftParen
  | rightParen
  | leftBrace
  | rightBrace
  | leftBracket
  | rightBracket
  | semicolon
  | comma
  | colon
  | question
  | dot
  | arrow
  | assign
  | plusAssign
  | minusAssign
  | starAssign
  | slashAssign
  | percentAssign
  | andAssign
  | orAssign
  | xorAssign
  | shiftLeftAssign
  | shiftRightAssign
  | plus
  | minus
  | star
  | slash
  | percent
  | ampersand
  | bar
  | caret
  | shiftLeft
  | shiftRight
  | equal
  | notEqual
  | less
  | greater
  | greaterEqual
  | lessEqual
  | andAnd
  | orOr
  | not
  | tilde
  | increment
  | decrement
deriving DecidableEq, Repr, Inhabited

namespace TokenKind

/-- All kinds in the order of their numbers, which start at zero. -/
def all : List TokenKind := [
  .endOfInput, .identifier, .intLiteral, .charLiteral, .floatLiteral, .stringLiteral, .intWord,
  .charWord, .floatWord, .longWord, .doubleWord, .voidWord, .structWord, .typedefWord, .ifWord,
  .elseWord, .whileWord, .doWord, .forWord, .switchWord, .caseWord, .defaultWord, .breakWord,
  .continueWord, .gotoWord, .returnWord, .leftParen, .rightParen, .leftBrace, .rightBrace,
  .leftBracket, .rightBracket, .semicolon, .comma, .colon, .question, .dot, .arrow, .assign,
  .plusAssign, .minusAssign, .starAssign, .slashAssign, .percentAssign, .andAssign, .orAssign,
  .xorAssign, .shiftLeftAssign, .shiftRightAssign, .plus, .minus, .star, .slash, .percent,
  .ampersand, .bar, .caret, .shiftLeft, .shiftRight, .equal, .notEqual, .less, .greater,
  .greaterEqual, .lessEqual, .andAnd, .orOr, .not, .tilde, .increment, .decrement]

/-- The number of a kind. -/
def number (k : TokenKind) : Nat := k.ctorIdx

/-- The kind with a given number. -/
def ofNumber? (n : Int) : Option TokenKind := if n < 0 then none else all[n.toNat]?

/-- How a kind is named in messages. -/
def spelling : TokenKind → String
  | .endOfInput => "end of file"
  | .identifier => "identifier"
  | .intLiteral => "integer constant"
  | .charLiteral => "character constant"
  | .floatLiteral => "floating constant"
  | .stringLiteral => "string literal"
  | .intWord => "int"
  | .charWord => "char"
  | .floatWord => "float"
  | .longWord => "long"
  | .doubleWord => "double"
  | .voidWord => "void"
  | .structWord => "struct"
  | .typedefWord => "typedef"
  | .ifWord => "if"
  | .elseWord => "else"
  | .whileWord => "while"
  | .doWord => "do"
  | .forWord => "for"
  | .switchWord => "switch"
  | .caseWord => "case"
  | .defaultWord => "default"
  | .breakWord => "break"
  | .continueWord => "continue"
  | .gotoWord => "goto"
  | .returnWord => "return"
  | .leftParen => "("
  | .rightParen => ")"
  | .leftBrace => "\x7b"
  | .rightBrace => "\x7d"
  | .leftBracket => "["
  | .rightBracket => "]"
  | .semicolon => ";"
  | .comma => ","
  | .colon => ":"
  | .question => "?"
  | .dot => "."
  | .arrow => "->"
  | .assign => "="
  | .plusAssign => "+="
  | .minusAssign => "-="
  | .starAssign => "*="
  | .slashAssign => "/="
  | .percentAssign => "%="
  | .andAssign => "&="
  | .orAssign => "|="
  | .xorAssign => "^="
  | .shiftLeftAssign => "<<="
  | .shiftRightAssign => ">>="
  | .plus => "+"
  | .minus => "-"
  | .star => "*"
  | .slash => "/"
  | .percent => "%"
  | .ampersand => "&"
  | .bar => "|"
  | .caret => "^"
  | .shiftLeft => "<<"
  | .shiftRight => ">>"
  | .equal => "=="
  | .notEqual => "!="
  | .less => "<"
  | .greater => ">"
  | .greaterEqual => ">="
  | .lessEqual => "<="
  | .andAnd => "&&"
  | .orOr => "||"
  | .not => "!"
  | .tilde => "~"
  | .increment => "++"
  | .decrement => "--"

/-- Says whether the token starts the name of a type. -/
def isTypeSpecifier : TokenKind → Bool
  | .intWord | .charWord | .floatWord | .longWord | .doubleWord | .voidWord | .structWord => true
  | _ => false

end TokenKind

/-! ## Keywords -/

/-- A keyword with its English and its Russian spelling in small letters. -/
structure Keyword where
  english : String
  russian : String
  kind : TokenKind
deriving Repr

namespace Keyword

/-- The keywords of the language. -/
def all : List Keyword := [
  ⟨"int", "цел", .intWord⟩,
  ⟨"char", "литера", .charWord⟩,
  ⟨"float", "вещ", .floatWord⟩,
  ⟨"long", "длин", .longWord⟩,
  ⟨"double", "двойной", .doubleWord⟩,
  ⟨"void", "пусто", .voidWord⟩,
  ⟨"struct", "структура", .structWord⟩,
  ⟨"typedef", "опртипа", .typedefWord⟩,
  ⟨"if", "если", .ifWord⟩,
  ⟨"else", "иначе", .elseWord⟩,
  ⟨"while", "пока", .whileWord⟩,
  ⟨"do", "цикл", .doWord⟩,
  ⟨"for", "для", .forWord⟩,
  ⟨"switch", "выбор", .switchWord⟩,
  ⟨"case", "случай", .caseWord⟩,
  ⟨"default", "умолчание", .defaultWord⟩,
  ⟨"break", "выход", .breakWord⟩,
  ⟨"continue", "продолжить", .continueWord⟩,
  ⟨"goto", "переход", .gotoWord⟩,
  ⟨"return", "возврат", .returnWord⟩]

/-- Says whether a text is a spelling in small or in capital letters. -/
def spells (small text : String) : Bool := text == small || text == Text.upper small

/-- The keyword that a text spells in one of the admitted languages. -/
def find? (english russian : Bool) (text : String) : Option TokenKind :=
  let inEnglish := if english then all.find? fun k => spells k.english text else none
  let inRussian := if russian then all.find? fun k => spells k.russian text else none
  (inEnglish <|> inRussian).map (·.kind)

end Keyword

/-! ## Tokens -/

/-- A token of a source. The value fields that its kind does not use are zero or empty. -/
structure Token where
  kind : TokenKind
  loc : Location
  /-- The spelling of an identifier or a number, or the text of a character or a string. -/
  text : String
  intValue : Int
  floatValue : Binary64
  /-- The interned spelling of an identifier. -/
  spelling : Int
  /-- The place of a string in the string table. -/
  stringIndex : Int
deriving DecidableEq, Repr, Inhabited

namespace Token

/-- A token that carries nothing but its kind. -/
def bare (kind : TokenKind) (loc : Location) : Token := ⟨kind, loc, "", 0, ⟨0⟩, 0, 0⟩

end Token

end BilingualC
