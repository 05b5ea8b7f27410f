import BilingualC.Checker.Expression

/-!
# Rules for statements

The rules of statements, the nesting of loops and switches, and the labels of a function.
-/

namespace BilingualC.Checker

/-! ## Scopes and nesting -/

def openScope : Check Scope := do
  let (s, scope) := (← currentSession).enterBlock
  setSession s
  return scope

def closeScope (scope : Scope) : Check Unit := do
  setSession (← (← currentSession).exitBlock scope)

def enterLoop : Check Unit := modify fun c => { c with loops := c.loops + 1 }
def exitLoop : Check Unit := modify fun c => { c with loops := c.loops - 1 }
def enterSwitch : Check Unit := modify fun c => { c with switches := c.switches + 1 }
def exitSwitch : Check Unit := modify fun c => { c with switches := c.switches - 1 }

/-! ## Simple statements -/

def block (statements : List Handle) (loc : Location) : Check Handle :=
  build .block loc [] statements

def null (loc : Location) : Check Handle := build .null loc [] []

/-- The expression that controls a statement. -/
def condition (cond : Handle) : Check Handle := do
  if ← isBroken cond then return cond
  if !(← types).isScalar (← typeOf cond) then
    return ← refuse (← locationOf cond) (.plain .conditionNotScalar)
  if (← kindOf cond) == .assignment then
    warn .assignInCondition (← locationOf cond) (.plain .assignInCond)
  return cond

def ifElse (cond yes no : Handle) (hasElse : Bool) (loc : Location) : Check Handle := do
  if ← anyBroken [cond, yes] then return .broken
  if hasElse then
    if ← isBroken no then return .broken
  build .ifElse loc [flagWord hasElse] [cond, yes, no]

def whileLoop (cond body : Handle) (loc : Location) : Check Handle := do
  if ← anyBroken [cond, body] then return .broken
  build .whileLoop loc [] [cond, body]

def doWhile (body cond : Handle) (loc : Location) : Check Handle := do
  if ← anyBroken [body, cond] then return .broken
  build .doWhile loc [] [body, cond]

/-- The optional clauses of a `for` statement: the node and whether it was written. -/
structure Clause where
  node : Handle
  written : Bool
deriving Repr, Inhabited

/-- Says whether a clause was written and is broken. -/
def isBrokenClause (c : Clause) : Check Bool := do return c.written && (← isBroken c.node)

def forLoop (init cond step : Clause) (body : Handle) (loc : Location) : Check Handle := do
  if ← isBroken body then return .broken
  if ← isBrokenClause init then return .broken
  if ← isBrokenClause cond then return .broken
  if ← isBrokenClause step then return .broken
  build .forLoop loc [flagWord init.written, flagWord cond.written, flagWord step.written]
    [init.node, cond.node, step.node, body]

/-! ## Switches -/

def switching (cond body : Handle) (loc : Location) : Check Handle := do
  if ← isBroken cond then return .broken
  if !TypeId.isInteger (← typeOf cond) then
    return ← refuse (← locationOf cond) (.plain .switchNotInteger)
  if ← isBroken body then return .broken
  build .switching loc [] [cond, body]

def caseLabel (value body : Handle) (loc : Location) : Check Handle := do
  if (← get).switches == 0 then return ← refuse loc (.plain .caseOutsideSwitch)
  if ← isBroken value then return .broken
  if !TypeId.isInteger (← typeOf value) then
    return ← refuse (← locationOf value) (.plain .caseNotInteger)
  if !(← isLiteral value)
    then return ← refuse (← locationOf value) (.expected "constant expression")
  if ← isBroken body then return .broken
  build .caseLabel loc [] [value, body]

def defaultLabel (body : Handle) (loc : Location) : Check Handle := do
  if (← get).switches == 0 then return ← refuse loc (.plain .caseOutsideSwitch)
  if ← isBroken body then return .broken
  build .defaultLabel loc [] [body]

/-! ## Jumps -/

def breaking (loc : Location) : Check Handle := do
  let c ← get
  if c.loops == 0 && c.switches == 0 then return ← refuse loc (.plain .breakOutside)
  build .breaking loc [] []

def continuing (loc : Location) : Check Handle := do
  if (← get).loops == 0 then return ← refuse loc (.plain .continueOutside)
  build .continuing loc [] []

/-- A return statement: a function without a result returns nothing, any other returns a value of
its result type. -/
def returning (value : Handle) (hasValue : Bool) (loc : Location) : Check Handle := do
  let result := (← get).resultType
  if TypeId.isVoid result then
    if hasValue then return ← refuse loc (.plain .returnValueInVoid)
    return ← build .returning loc [] []
  if !hasValue then return ← refuse loc (.plain .returnNoValue)
  if ← isBroken value then return .broken
  let (value, problem) ← convert result value
  match problem with
  | some d => refuse (← locationOf value) d
  | none => build .returning loc [] [value]

/-! ## Labels -/

/-- The label of a spelling, which its first mention declares. -/
def labelOf (labels : Array Label) (spelling : Int) (loc : Location) : Check Label := do
  match labels.find? fun l => l.spelling == spelling with
  | some label => return label
  | none =>
    let identifier := match ← declare spelling .label TypeId.undefined with
      | .ok id => id
      | .error _ => 0
    let label : Label :=
      ⟨identifier, spelling, (← currentSession).spellingText spelling, false, loc⟩
    modify fun c => { c with labels := some (labels.push label) }
    return label

/-- Marks a label as placed. -/
def placeLabel (spelling : Int) : Check Unit :=
  let place (l : Label) : Label := if l.spelling == spelling then { l with defined := true } else l
  modify fun c => { c with labels := c.labels.map (·.map place) }

def jump (spelling : Int) (loc : Location) : Check Handle := do
  match (← get).labels with
  | none => refuse loc (.named .labelUndefined ((← currentSession).spellingText spelling))
  | some labels => build .jump loc [(← labelOf labels spelling loc).identifier] []

/-- A labelled statement. Outside of functions the label is passed over. -/
def labelled (spelling : Int) (body : Handle) (loc : Location) : Check Handle := do
  match (← get).labels with
  | none => return body
  | some labels =>
    let label ← labelOf labels spelling loc
    if label.defined then return ← refuse loc (.named .labelRedefined label.name)
    placeLabel spelling
    if ← isBroken body then return .broken
    build .label loc [label.identifier] [body]

end BilingualC.Checker
