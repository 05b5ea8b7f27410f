import BilingualC.Grammar.Declaration

/-!
# Grammar of statements

Statements, blocks with their scopes, functions and the program.
-/

namespace BilingualC.Grammar

/-- Moves on if a rule has not passed any token. -/
def ensureProgress (before : Nat) : Parse Unit := do
  if (← position) == before then advance

mutual

/-- A statement. -/
def statement : Nat → Parse Handle
  | 0 => throw .endless
  | depth + 1 => within .statement do
    let tok ← current
    match tok.kind with
    | .leftBrace => scopedBlock depth
    | .semicolon =>
      advance
      Checker.null tok.loc
    | .ifWord =>
      advance
      let cond ← controlExpression depth
      let yes ← statement depth
      let hasElse ← accept .elseWord
      let no ← if hasElse then statement depth else pure .broken
      Checker.ifElse cond yes no hasElse (← spanFrom tok.loc)
    | .whileWord =>
      advance
      let cond ← controlExpression depth
      let body ← loopBody depth
      Checker.whileLoop cond body (← spanFrom tok.loc)
    | .doWord =>
      advance
      let body ← loopBody depth
      want .whileWord "while"
      let cond ← controlExpression depth
      want .semicolon ";"
      Checker.doWhile body cond (← spanFrom tok.loc)
    | .forWord =>
      advance
      forStatement depth tok.loc
    | .switchWord =>
      advance
      want .leftParen "("
      let cond ← expression depth
      want .rightParen ")"
      Checker.enterSwitch
      let body ← statement depth
      Checker.exitSwitch
      Checker.switching cond body (← spanFrom tok.loc)
    | .caseWord =>
      advance
      let value ← conditionalExpression depth
      want .colon ":"
      let body ← statement depth
      Checker.caseLabel value body (← spanFrom tok.loc)
    | .defaultWord =>
      advance
      want .colon ":"
      let body ← statement depth
      Checker.defaultLabel body (← spanFrom tok.loc)
    | .gotoWord =>
      advance
      let name ← current
      if !(← expect .identifier "label name") then return .broken
      want .semicolon ";"
      Checker.jump name.spelling (← spanFrom tok.loc)
    | .returnWord =>
      advance
      let hasValue := !(← check .semicolon)
      let value ← if hasValue then expression depth else pure .broken
      want .semicolon ";"
      Checker.returning value hasValue (← spanFrom tok.loc)
    | .breakWord =>
      advance
      want .semicolon ";"
      Checker.breaking (← spanFrom tok.loc)
    | .continueWord =>
      advance
      want .semicolon ";"
      Checker.continuing (← spanFrom tok.loc)
    | _ =>
      if tok.kind == .identifier && (← peek).kind == .colon then
        advance
        advance
        let body ← statement depth
        Checker.labelled tok.spelling body (← spanFrom tok.loc)
      else
        let value ← expression depth
        want .semicolon ";"
        return value

/-- A statement inside a loop. -/
def loopBody : Nat → Parse Handle
  | 0 => throw .endless
  | depth + 1 => within .loopBody do
    Checker.enterLoop
    let body ← statement depth
    Checker.exitLoop
    return body

/-- A `for` statement after its keyword. A declaration in its first clause is visible in the whole
statement. -/
def forStatement : Nat → Location → Parse Handle
  | 0, _ => throw .endless
  | depth + 1, start => within .forStatement do
    want .leftParen "("
    let scope ← Checker.openScope
    let init ← firstClause depth
    let hasCond := !(← check .semicolon)
    let cond ← if hasCond then Checker.condition (← expression depth) else pure .broken
    want .semicolon ";"
    let hasStep := !(← check .rightParen)
    let step ← if hasStep then expression depth else pure .broken
    want .rightParen ")"
    let body ← loopBody depth
    let node ← Checker.forLoop init ⟨cond, hasCond⟩ ⟨step, hasStep⟩ body (← spanFrom start)
    Checker.closeScope scope
    return node

/-- The first clause of a `for` statement with its semicolon. -/
def firstClause : Nat → Parse Checker.Clause
  | 0 => throw .endless
  | depth + 1 => within .firstClause do
    if ← accept .semicolon then return ⟨.broken, false⟩
    if ← startsDeclaration then return ⟨← declaration depth, true⟩
    let node ← expression depth
    want .semicolon ";"
    return ⟨node, true⟩

/-- A block with a scope of its own. -/
def scopedBlock : Nat → Parse Handle
  | 0 => throw .endless
  | depth + 1 => within .scopedBlock do
    let scope ← Checker.openScope
    let node ← blockBody depth
    Checker.closeScope scope
    return node

/-- A block in the current scope. -/
def blockBody : Nat → Parse Handle
  | 0 => throw .endless
  | depth + 1 => within .blockBody do
    let start := (← current).loc
    want .leftBrace "\x7b"
    let statements ← blockItems depth
    want .rightBrace "\x7d"
    Checker.block statements (← spanFrom start)

/-- The declarations and statements of a block. -/
def blockItems : Nat → Parse (List Handle)
  | 0 => throw .endless
  | depth + 1 => within .blockItems do
    if (← check .rightBrace) || (← check .endOfInput) then return []
    let before ← position
    let first ← if ← startsDeclaration then declaration depth else statement depth
    synchronize
    ensureProgress before
    return first :: (← blockItems depth)

end

/-! ## The program -/

/-- A function after its type specifier and stars: a declaration or a definition. -/
def function (depth : Nat) (result : TypeId) (start : Location) : Parse Unit := within .function do
  let name ← current
  advance
  advance
  let parameters ← parameters depth
  want .rightParen ")"
  let (s, type) := (← Checker.currentSession).functionType result (parameters.map (·.type))
  Checker.setSession s
  let id ← Checker.declareFunction name.spelling type name.loc
  if ← accept .semicolon then return
  if !(← check .leftBrace) then
    reportMissing "\x7b"
    return
  let scope ← Checker.beginFunction id parameters name.loc
  let body ← blockBody depth
  let _ ← Checker.functionDefinition id scope body (← spanFrom start)

/-- A declaration outside of functions, or a function. -/
def externalDeclaration (depth : Nat) : Parse Unit := within .externalDeclaration do
  let start := (← current).loc
  if ← check .typedefWord then
    let _ ← declaration depth
    return
  match ← typeSpecifier depth with
  | none => reportMissing "declaration"
  | some base =>
    if ← isFunctionAhead then function depth (← stars depth base) start
    else
      let _ ← restOfDeclaration depth base start

/-- The declarations of a program; at most so many of them. -/
def externalDeclarations (depth : Nat) : Nat → Parse Unit
  | 0 => throw .endless
  | left + 1 => within .externalDeclarations do
    if ← check .endOfInput then return
    let before ← position
    externalDeclaration depth
    synchronize
    ensureProgress before
    externalDeclarations depth left

/-- A program of at most so many declarations, with rules that nest at most so deep. -/
def programOf (depth count : Nat) : Parse Handle := do
  externalDeclarations depth count
  Checker.unit (← current).loc

/-- A whole program. -/
def program : Parse Handle := do
  let r ← get
  programOf (depthBound r) (r.tokens.size + 1)

/-- Reads and checks a program; the result is the root of its tree. -/
def parse (c : Checker) (tokens : List Token) : Guarded (Checker × Handle) := do
  let ((root, _), c) ← (program.run (reader tokens unwatched)).run c
  return (c, root)

end BilingualC.Grammar
