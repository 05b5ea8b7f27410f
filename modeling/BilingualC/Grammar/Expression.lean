import BilingualC.Grammar

/-!
# Grammar of expressions

Binary operators are read by precedence, with equal ones grouped to the left. Assignments and
conditional expressions group to the right, and the comma binds least.
-/

namespace BilingualC.Grammar

/-! ## Operators -/

/-- The binary operator of a token with its precedence; a higher one binds closer. -/
def binaryOp? : TokenKind → Option (BinaryOp × Nat)
  | .star => some (.mul, 13)
  | .slash => some (.div, 13)
  | .percent => some (.rem, 13)
  | .plus => some (.add, 12)
  | .minus => some (.sub, 12)
  | .shiftLeft => some (.shl, 11)
  | .shiftRight => some (.shr, 11)
  | .less => some (.less, 10)
  | .greater => some (.greater, 10)
  | .lessEqual => some (.lessEqual, 10)
  | .greaterEqual => some (.greaterEqual, 10)
  | .equal => some (.equal, 9)
  | .notEqual => some (.notEqual, 9)
  | .ampersand => some (.and, 8)
  | .caret => some (.xor, 7)
  | .bar => some (.or, 6)
  | .andAnd => some (.logicalAnd, 5)
  | .orOr => some (.logicalOr, 4)
  | _ => none

/-- The assignment operator of a token. -/
def assignOp? : TokenKind → Option BinaryOp
  | .assign => some .assign
  | .starAssign => some .mulAssign
  | .slashAssign => some .divAssign
  | .percentAssign => some .remAssign
  | .plusAssign => some .addAssign
  | .minusAssign => some .subAssign
  | .shiftLeftAssign => some .shlAssign
  | .shiftRightAssign => some .shrAssign
  | .andAssign => some .andAssign
  | .xorAssign => some .xorAssign
  | .orAssign => some .orAssign
  | _ => none

/-- The operator of a token in front of an operand. -/
def unaryOp? : TokenKind → Option UnaryOp
  | .increment => some .preIncrement
  | .decrement => some .preDecrement
  | .ampersand => some .address
  | .star => some .indirection
  | .minus => some .minus
  | .not => some .logicalNot
  | .tilde => some .complement
  | _ => none

/-! ## Rules -/

mutual

/-- Comma-separated expressions. -/
def expression : Nat → Parse Handle
  | 0 => throw .endless
  | depth + 1 => within .expression do expressionTail depth (← assignmentExpression depth)

/-- The rest of comma-separated expressions. -/
def expressionTail : Nat → Handle → Parse Handle
  | 0, _ => throw .endless
  | depth + 1, left => within .expressionTail do
    let tok ← current
    if !(← accept .comma) then return left
    let right ← assignmentExpression depth
    expressionTail depth (← Checker.binary .comma left right tok.loc)

/-- An assignment or a conditional expression. -/
def assignmentExpression : Nat → Parse Handle
  | 0 => throw .endless
  | depth + 1 => within .assignmentExpression do
    let left ← conditionalExpression depth
    let tok ← current
    match assignOp? tok.kind with
    | none => return left
    | some op =>
      advance
      let right ← assignmentExpression depth
      Checker.binary op left right tok.loc

/-- A conditional expression or a binary one. -/
def conditionalExpression : Nat → Parse Handle
  | 0 => throw .endless
  | depth + 1 => within .conditionalExpression do
    let cond ← binaryExpression depth 0
    let tok ← current
    if !(← accept .question) then return cond
    let yes ← expression depth
    want .colon ":"
    let no ← conditionalExpression depth
    Checker.ternary cond yes no tok.loc

/-- Operands joined by binary operators of at least a precedence. -/
def binaryExpression : Nat → Nat → Parse Handle
  | 0, _ => throw .endless
  | depth + 1, least => within .binaryExpression do binaryTail depth least (← unaryExpression depth)

/-- The rest of operands joined by binary operators of at least a precedence. -/
def binaryTail : Nat → Nat → Handle → Parse Handle
  | 0, _, _ => throw .endless
  | depth + 1, least, left => within .binaryTail do
    let tok ← current
    match binaryOp? tok.kind with
    | none => return left
    | some (op, precedence) =>
      if precedence < least then return left
      advance
      let right ← binaryExpression depth (precedence + 1)
      binaryTail depth least (← Checker.binary op left right tok.loc)

/-- An operand with operators in front of it. -/
def unaryExpression : Nat → Parse Handle
  | 0 => throw .endless
  | depth + 1 => within .unaryExpression do
    let tok ← current
    match unaryOp? tok.kind with
    | some op =>
      advance
      let operand ← unaryExpression depth
      Checker.unary op operand tok.loc
    | none =>
      if ← accept .plus then unaryExpression depth else postfixExpression depth

/-- An operand with selections and steps after it. -/
def postfixExpression : Nat → Parse Handle
  | 0 => throw .endless
  | depth + 1 => within .postfixExpression do postfixTail depth (← primaryExpression depth)

/-- The rest of an operand with selections and steps after it. -/
def postfixTail : Nat → Handle → Parse Handle
  | 0, _ => throw .endless
  | depth + 1, operand => within .postfixTail do
    let tok ← current
    match tok.kind with
    | .leftBracket =>
      advance
      let index ← expression depth
      let closing := (← current).loc
      want .rightBracket "]"
      postfixTail depth (← Checker.subscript operand index tok.loc closing)
    | .dot | .arrow =>
      advance
      let name ← current
      if !(← expect .identifier "member name") then return .broken
      postfixTail depth
        (← Checker.member operand name.spelling (tok.kind == .arrow) tok.loc name.loc)
    | .increment =>
      advance
      postfixTail depth (← Checker.unary .postIncrement operand tok.loc)
    | .decrement =>
      advance
      postfixTail depth (← Checker.unary .postDecrement operand tok.loc)
    | _ => return operand

/-- A constant, a name, a call or an expression in parentheses. -/
def primaryExpression : Nat → Parse Handle
  | 0 => throw .endless
  | depth + 1 => within .primaryExpression do
    let tok ← current
    match tok.kind with
    | .intLiteral | .charLiteral | .floatLiteral | .stringLiteral =>
      advance
      Checker.constant tok
    | .identifier =>
      advance
      if !(← check .leftParen) then
        return ← Checker.value (← Checker.identifier tok.spelling tok.loc)
      let opening := (← current).loc
      advance
      let args ← arguments depth
      let closing := (← current).loc
      want .rightParen ")"
      match ← Checker.builtin? tok.spelling with
      | some b => Checker.library b args (Location.span tok.loc closing)
      | none => Checker.call (← Checker.identifier tok.spelling tok.loc) args opening closing
    | .leftParen =>
      advance
      let inner ← expression depth
      want .rightParen ")"
      return inner
    | _ =>
      reportMissing "expression"
      return .broken

/-- The arguments of a call. -/
def arguments : Nat → Parse (List Handle)
  | 0 => throw .endless
  | depth + 1 => within .arguments do if ← check .rightParen then return [] else argumentList depth

/-- One or more arguments. -/
def argumentList : Nat → Parse (List Handle)
  | 0 => throw .endless
  | depth + 1 => within .argumentList do
    let first ← assignmentExpression depth
    if ← accept .comma then return first :: (← argumentList depth) else return [first]

end

/-- The expression in parentheses that controls a statement. -/
def controlExpression (depth : Nat) : Parse Handle := within .controlExpression do
  want .leftParen "("
  let cond ← Checker.condition (← expression depth)
  want .rightParen ")"
  return cond

mutual

/-- An initializer: an expression or a list in braces. -/
def initializer : Nat → Parse Handle
  | 0 => throw .endless
  | depth + 1 => within .initializer do
    if !(← check .leftBrace) then return ← assignmentExpression depth
    let opening := (← current).loc
    advance
    let elements ← initializerElements depth
    let closing := (← current).loc
    want .rightBrace "\x7d"
    Checker.initializerList elements opening closing

/-- The elements of a list; a comma may follow the last one. -/
def initializerElements : Nat → Parse (List Handle)
  | 0 => throw .endless
  | depth + 1 => within .initializerElements do
    if (← check .rightBrace) || (← check .endOfInput) then return []
    let first ← initializer depth
    if ← accept .comma then return first :: (← initializerElements depth) else return [first]

end

end BilingualC.Grammar
