import BilingualC.Text.Template

/-!
# Diagnostics

A diagnostic is a code of the catalogue together with the values that its message shows. Messages
are written in Russian or in English; `Diagnostic.message` is the only place where a diagnostic
becomes a text.
-/

namespace BilingualC

/-- The language of the messages. -/
inductive Language where
  | russian
  | english
deriving DecidableEq, Repr, Inhabited

/-- What a diagnostic is about. -/
inductive Code where
  | badCharacter
  | unterminatedComment
  | unterminatedString
  | emptyCharConst
  | unterminatedChar
  | badEscape
  | exponentDigits
  | badDigit
  | intOverflow
  | expected
  | undeclared
  | redeclared
  | mainRedefined
  | noMain
  | voidVariable
  | boundNotInteger
  | emptyBoundNoInit
  | arrayMember
  | unknownStruct
  | notTypeName
  | prototypeMismatch
  | functionNotDefined
  | nestedFunction
  | subscriptNotArray
  | indexNotInteger
  | callNotFunction
  | wrongArgCount
  | notStruct
  | notStructPointer
  | noSuchMember
  | notLvalue
  | incDecNotLvalue
  | addressNotLvalue
  | notPointer
  | notArithmetic
  | notInteger
  | notScalar
  | arrayAssignment
  | floatToInt
  | typeMismatch
  | incompatibleCondOperands
  | wrongInit
  | wrongInitCount
  | emptyInit
  | functionValue
  | floatEquality
  | foldOverflow
  | assignInCond
  | printfFormat
  | printfSpec
  | printfArgCount
  | printfArgType
  | printfTooManyArgs
  | printPointer
  | identArgExpected
  | conditionNotScalar
  | switchNotInteger
  | caseNotInteger
  | caseOutsideSwitch
  | breakOutside
  | continueOutside
  | labelRedefined
  | labelUndefined
  | returnValueInVoid
  | returnNoValue
  /-- A number that the catalogue does not list. -/
  | unlisted (number : Int)
deriving DecidableEq, Repr

namespace Code

/-- The catalogue in the order of its numbers, which start at one. -/
def catalogue : List Code := [
  .badCharacter, .unterminatedComment, .unterminatedString, .emptyCharConst, .unterminatedChar,
  .badEscape, .exponentDigits, .badDigit, .intOverflow, .expected, .undeclared, .redeclared,
  .mainRedefined, .noMain, .voidVariable, .boundNotInteger, .emptyBoundNoInit, .arrayMember,
  .unknownStruct, .notTypeName, .prototypeMismatch, .functionNotDefined, .nestedFunction,
  .subscriptNotArray, .indexNotInteger, .callNotFunction, .wrongArgCount, .notStruct,
  .notStructPointer, .noSuchMember, .notLvalue, .incDecNotLvalue, .addressNotLvalue, .notPointer,
  .notArithmetic, .notInteger, .notScalar, .arrayAssignment, .floatToInt, .typeMismatch,
  .incompatibleCondOperands, .wrongInit, .wrongInitCount, .emptyInit, .functionValue,
  .floatEquality, .foldOverflow, .assignInCond, .printfFormat, .printfSpec, .printfArgCount,
  .printfArgType, .printfTooManyArgs, .printPointer, .identArgExpected, .conditionNotScalar,
  .switchNotInteger, .caseNotInteger, .caseOutsideSwitch, .breakOutside, .continueOutside,
  .labelRedefined, .labelUndefined, .returnValueInVoid, .returnNoValue]

/-- The number of a code. -/
def number : Code → Int
  | .badCharacter => 1
  | .unterminatedComment => 2
  | .unterminatedString => 3
  | .emptyCharConst => 4
  | .unterminatedChar => 5
  | .badEscape => 6
  | .exponentDigits => 7
  | .badDigit => 8
  | .intOverflow => 9
  | .expected => 10
  | .undeclared => 11
  | .redeclared => 12
  | .mainRedefined => 13
  | .noMain => 14
  | .voidVariable => 15
  | .boundNotInteger => 16
  | .emptyBoundNoInit => 17
  | .arrayMember => 18
  | .unknownStruct => 19
  | .notTypeName => 20
  | .prototypeMismatch => 21
  | .functionNotDefined => 22
  | .nestedFunction => 23
  | .subscriptNotArray => 24
  | .indexNotInteger => 25
  | .callNotFunction => 26
  | .wrongArgCount => 27
  | .notStruct => 28
  | .notStructPointer => 29
  | .noSuchMember => 30
  | .notLvalue => 31
  | .incDecNotLvalue => 32
  | .addressNotLvalue => 33
  | .notPointer => 34
  | .notArithmetic => 35
  | .notInteger => 36
  | .notScalar => 37
  | .arrayAssignment => 38
  | .floatToInt => 39
  | .typeMismatch => 40
  | .incompatibleCondOperands => 41
  | .wrongInit => 42
  | .wrongInitCount => 43
  | .emptyInit => 44
  | .functionValue => 45
  | .floatEquality => 46
  | .foldOverflow => 47
  | .assignInCond => 48
  | .printfFormat => 49
  | .printfSpec => 50
  | .printfArgCount => 51
  | .printfArgType => 52
  | .printfTooManyArgs => 53
  | .printPointer => 54
  | .identArgExpected => 55
  | .conditionNotScalar => 56
  | .switchNotInteger => 57
  | .caseNotInteger => 58
  | .caseOutsideSwitch => 59
  | .breakOutside => 60
  | .continueOutside => 61
  | .labelRedefined => 62
  | .labelUndefined => 63
  | .returnValueInVoid => 64
  | .returnNoValue => 65
  | .unlisted number => number

/-- The code with a given number. -/
def ofNumber (n : Int) : Code :=
  if n ≤ 0 then .unlisted n else catalogue.getD (n.toNat - 1) (.unlisted n)

/-- The message of a code with holes for its values, first in Russian and then in English. -/
def templates : Code → Option (String × String)
  | .badCharacter =>
    some ("неизвестный символ %q", "unknown character %q")
  | .unterminatedComment =>
    some ("комментарий не закрыт", "unterminated block comment")
  | .unterminatedString =>
    some ("строка не заканчивается символом \"", "missing terminating \" character")
  | .emptyCharConst =>
    some ("пустая символьная константа", "empty character constant")
  | .unterminatedChar =>
    some ("символьная константа не заканчивается символом '", "missing terminating ' character")
  | .badEscape =>
    some ("неизвестный служебный символ %q", "unknown escape sequence %q")
  | .exponentDigits =>
    some ("должна быть цифра после e", "exponent has no digits")
  | .badDigit =>
    some ("недопустимая цифра %q в числе", "invalid digit %q in number")
  | .intOverflow =>
    some ("слишком большая целая константа, преобразована в ДЛИН",
      "integer constant is too large, converted to floating")
  | .expected =>
    some ("ожидалось %s", "expected %s")
  | .undeclared =>
    some ("не описан идентификатор %s", "use of undeclared identifier %s")
  | .redeclared =>
    some ("повторное описание идентификатора %s", "redeclaration of %s")
  | .mainRedefined =>
    some ("в программе может быть только 1 идентификатор ГЛАВНАЯ",
      "only one main function is allowed")
  | .noMain =>
    some ("в каждой программе должна быть ГЛАВНАЯ функция", "program has no main function")
  | .voidVariable =>
    some ("только функции могут иметь тип ПУСТО", "only functions may have type void")
  | .boundNotInteger =>
    some ("размер массива может иметь тип только ЦЕЛ или ЛИТЕРА",
      "array bound must have integer type")
  | .emptyBoundNoInit =>
    some ("в описании массива границы не указаны, а инициализации нет",
      "array bound is missing and there is no initializer")
  | .arrayMember =>
    some ("поле структуры не может быть массивом",
      "structure members of array type are not supported")
  | .unknownStruct =>
    some ("не описана структура %s", "unknown structure %s")
  | .notTypeName =>
    some ("%s не является именем типа", "%s is not a type name")
  | .prototypeMismatch => some ("описание функции %s не соответствует прототипу",
      "definition of %s does not match its prototype")
  | .functionNotDefined => some ("функция %s описана, но не определена",
      "function %s is declared but never defined")
  | .nestedFunction =>
    some ("функции нельзя определять внутри блока", "functions cannot be defined inside a block")
  | .subscriptNotArray =>
    some ("попытка вырезки элемента не из массива", "subscripted value is not an array")
  | .indexNotInteger =>
    some ("индекс элемента массива должен иметь тип ЦЕЛ", "array index must have integer type")
  | .callNotFunction =>
    some ("попытка вызова не функции", "called object is not a function")
  | .wrongArgCount =>
    some ("неправильное количество фактических параметров: ожидалось %d, передано %d",
      "wrong number of arguments: expected %d, got %d")
  | .notStruct =>
    some ("операция . применяется не к структуре", "member reference base is not a structure")
  | .notStructPointer =>
    some ("операция -> применяется не к указателю на структуру",
      "member reference base is not a pointer to a structure")
  | .noSuchMember =>
    some ("нет такого поля %s", "no member named %s")
  | .notLvalue =>
    some ("в левой части присваивания стоит что-то, чему нельзя присваивать",
      "expression is not assignable")
  | .incDecNotLvalue =>
    some ("++ и -- применимы только к переменным и элементам массива",
      "operand of ++ or -- is not assignable")
  | .addressNotLvalue =>
    some ("операция получения адреса & применима только к переменным",
      "cannot take the address of an rvalue")
  | .notPointer =>
    some ("операция * применяется не к указателю", "indirection requires a pointer operand")
  | .notArithmetic =>
    some ("операнд должен иметь арифметический тип", "operand must have arithmetic type")
  | .notInteger =>
    some ("операнд должен иметь тип ЦЕЛ или ЛИТЕРА", "operand must have integer type")
  | .notScalar =>
    some ("операнд должен иметь скалярный тип", "operand must have scalar type")
  | .arrayAssignment =>
    some ("присваивание в массив запрещено", "array assignment forbidden")
  | .floatToInt =>
    some ("нельзя присваивать целому вещественное значение",
      "cannot assign a floating value to an integer")
  | .typeMismatch => some ("несоответствие типов: ожидался %s, получен %s",
      "type mismatch: expected %s, got %s")
  | .incompatibleCondOperands =>
    some ("несовместимые типы операндов условной операции",
      "incompatible operand types in conditional expression")
  | .wrongInit =>
    some ("переменные такого типа нельзя инициализировать списком",
      "initializer list used for a non-aggregate type")
  | .wrongInitCount =>
    some ("неправильное количество элементов инициализации: ожидалось %d, передано %d",
      "wrong number of initializers: expected %d, got %d")
  | .emptyInit =>
    some ("пустая инициализация", "empty initializer list")
  | .functionValue => some ("функцию можно только вызывать",
      "a function can only be called")
  | .floatEquality =>
    some ("сравнение вещественных чисел на равенство",
      "comparing floating values with == or != is unreliable")
  | .foldOverflow =>
    some ("переполнение при вычислении константного выражения",
      "integer overflow in constant expression")
  | .assignInCond =>
    some ("результат присваивания используется как условие",
      "result of an assignment used as a condition")
  | .printfFormat =>
    some ("первый параметр ПЕЧАТЬФ должен быть строковой константой",
      "the format of printf must be a string literal")
  | .printfSpec =>
    some ("неизвестная спецификация %%%c в формате", "unknown conversion specifier %%%c")
  | .printfArgCount =>
    some ("неправильное количество параметров ПЕЧАТЬФ: ожидалось %d, передано %d",
      "wrong number of printf arguments: expected %d, got %d")
  | .printfArgType =>
    some ("тип параметра не соответствует спецификации %%%c",
      "argument does not match conversion %%%c")
  | .printfTooManyArgs =>
    some ("слишком много параметров ПЕЧАТЬФ", "too many printf arguments")
  | .printPointer =>
    some ("указатели нельзя печатать", "pointers cannot be printed")
  | .identArgExpected =>
    some ("параметром должен быть идентификатор", "argument must be an identifier")
  | .conditionNotScalar =>
    some ("условие должно иметь тип ЦЕЛ или ЛИТЕРА", "condition must have scalar type")
  | .switchNotInteger =>
    some ("значение в операторе ВЫБОР должно иметь тип ЦЕЛ", "switch value must have integer type")
  | .caseNotInteger =>
    some ("значение в СЛУЧАЙ должно иметь тип ЦЕЛ", "case value must have integer type")
  | .caseOutsideSwitch =>
    some ("СЛУЧАЙ или УМОЛЧАНИЕ вне оператора ВЫБОР", "case or default label outside of a switch")
  | .breakOutside =>
    some ("оператор ВЫХОД не в цикле и не в операторе ВЫБОР",
      "break statement not within a loop or switch")
  | .continueOutside =>
    some ("оператор ПРОДОЛЖИТЬ не в цикле", "continue statement not within a loop")
  | .labelRedefined =>
    some ("повторное описание метки %s", "redefinition of label %s")
  | .labelUndefined =>
    some ("метка %s не описана", "use of undeclared label %s")
  | .returnValueInVoid =>
    some ("в функции типа ПУСТО не должно быть выражения в ВОЗВРАТ",
      "void function should not return a value")
  | .returnNoValue =>
    some ("в функции не типа ПУСТО ВОЗВРАТ должен иметь выражение",
      "non-void function should return a value")
  | .unlisted _ => none

end Code

/-- The values that a message shows. -/
inductive Detail where
  | none
  | name (text : String)
  | counts (wanted got : Int)
  | letter (code : Int)
  | mismatch (wanted got : String)
  | expected (what : String)
deriving DecidableEq, Repr

namespace Detail

/-- The values of a detail in the order of the holes. -/
def fillers : Detail → List Text.Filler
  | .none => []
  | .name text => [.text text]
  | .counts wanted got => [.number wanted, .number got]
  | .letter code => [.letter code]
  | .mismatch wanted got => [.text wanted, .text got]
  | .expected what => [.text what]

end Detail

/-- One finding about a program. -/
structure Diagnostic where
  code : Code
  detail : Detail
deriving DecidableEq, Repr

namespace Diagnostic

def plain (code : Code) : Diagnostic := ⟨code, .none⟩
def named (code : Code) (text : String) : Diagnostic := ⟨code, .name text⟩
def counted (code : Code) (wanted got : Int) : Diagnostic := ⟨code, .counts wanted got⟩
def lettered (code : Code) (letter : Int) : Diagnostic := ⟨code, .letter letter⟩
def mismatch (wanted got : String) : Diagnostic := ⟨.typeMismatch, .mismatch wanted got⟩
def expected (what : String) : Diagnostic := ⟨.expected, .expected what⟩

/-- The text of a diagnostic. A code outside the catalogue is shown by its number. -/
def message (d : Diagnostic) (language : Language) : String :=
  match d.code.templates with
  | none => "diagnostic " ++ toString d.code.number
  | some (russian, english) =>
    Text.fillTemplate (match language with | .russian => russian | .english => english)
      d.detail.fillers

end Diagnostic

end BilingualC
