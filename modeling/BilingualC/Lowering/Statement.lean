import BilingualC.Lowering.Expression

/-!
# Code of statements

Statements, declarations of variables and functions. The value of a switch stays on the stack during
its body: every case duplicates it for its test, and all exits meet where it is dropped.
-/

namespace BilingualC.Lowering

/-! ## Variables -/

/-- Pushes an initializer. The list of an array is announced by its length, the list of a structure
is the values of its members. -/
def initializer : Nat → Handle → Lower Unit
  | 0, _ => throw .endless
  | depth + 1, n => do
    if (← kindOf n) != .initializer then return ← value depth n
    let all ← childNumbers n 0
    if (← types).isArray (← typeOf n) then emitOp .beginInit [(← tree).amount n]
    all.forM fun i => do initializer depth (← child n i)

/-- Initializes a variable that is no array. -/
def scalarVariable (depth : Nat) (n init : Handle) (entry : Identifier) : Lower Unit := do
  if ← isStructure entry.type then
    initializer depth init
    emit (← derive n .toVoid (.store .record .base)) [entry.displacement, ← sizeOf entry.type]
  else
    value depth init
    let i ← deriveIf (TypeId.isFloating entry.type) n .toFloat (.store .assign .base)
    emit (← derive n .toVoid i) [entry.displacement]

/-- The type of the innermost elements of an array, at most so many levels deep. -/
def innermostElement (types : TypeTable) : Nat → TypeId → Guarded TypeId
  | 0, _ => throw .endless
  | depth + 1, id => do
    if types.isArray id then innermostElement types depth (← types.element id) else return id

/-- Pushes the bounds of an array and says whether all of them are written. -/
def bounds (depth : Nat) (n : Handle) : List Int → Lower Bool
  | [] => return true
  | i :: rest => do
    let bound ← child n i
    if (← kindOf bound) == .emptyBound then
      let _ ← bounds depth n rest
      return false
    value depth bound
    bounds depth n rest

/-- Defines an array and initializes it. -/
def arrayVariable (depth : Nat) (n init : Handle) (entry : Identifier) (dims : Int)
    (hasInit : Bool) : Lower Unit :=
  do
  let written ← bounds depth n ((List.range dims.toNat).map Int.ofNat)
  let types ← types
  let size ← sizeOf (← innermostElement types (types.cells.size + 1) entry.type)
  emitOp .defineArray [dims, size, entry.displacement, 0, flagWord written, flagWord hasInit]
  if !hasInit then return
  if (← kindOf init) == .string then
    value depth init
    emitOp .initString [entry.displacement]
  else
    initializer depth init
    emitOp .initArray [dims, size, entry.displacement, flagWord written]

/-- The declaration of a variable. -/
def variableDeclaration (depth : Nat) (n : Handle) : Lower Unit := do
  let t ← tree
  let entry := (← get).session.identifier (← t.arg n 0)
  let init ← t.initializer n
  let dims ← t.boundCount n
  let hasInit ← t.hasInitializer n
  if dims != 0 then arrayVariable depth n init entry dims hasInit
  else if hasInit then scalarVariable depth n init entry

/-- A part of a declaration. -/
def declared (depth : Nat) (part : Handle) : Lower Unit := do
  match ← kindOf part with
  | .variable => variableDeclaration depth part
  | .typeDefinition => pure ()
  | _ => fail part none

/-- A declaration. -/
def declaration (depth : Nat) (n : Handle) : Lower Unit := do
  (← childNumbers n 0).forM fun i => do declared depth (← child n i)

/-! ## Jumps -/

/-- Leaves the innermost loop or switch. -/
def breaking (n : Handle) : Lower Unit := do
  if (← get).frames.isEmpty then return ← fail n none
  addBreak (← jump .branch)

/-- Goes on with the innermost loop; the values of the switches in between are dropped. -/
def continuing (n : Handle) : Lower Unit := do
  let frames := (← get).frames
  if !frames.any (·.isLoop) then return ← fail n none
  (frames.takeWhile fun f => !f.isLoop).forM fun _ => drop
  addContinue (← jump .branch)

/-- Jumps to a label. -/
def labelJump (identifier : Int) : Lower Unit := do
  let l ← labelState identifier
  match l.address with
  | some address => emitOp .branch [address]
  | none =>
    let s ← jump .branch
    setLabelState { l with waiting := l.waiting ++ [s] }

/-- Places a label here. -/
def placeLabel (identifier : Int) : Lower Unit := do
  let l ← labelState identifier
  let here ← pc
  patch l.waiting here
  setLabelState { l with address := some here, waiting := [] }
  let s ← (← get).session.setDisplacement identifier here
  modify fun g => { g with session := s }

/-! ## Cases -/

/-- Says whether a frame belongs to a switch. -/
def isSwitch (f : JumpFrame) : Bool := !f.isLoop

/-- The innermost switch. -/
def innermostSwitch? : Lower (Option JumpFrame) := return (← get).frames.find? isSwitch

/-- The place of the default label: a failed test goes on here. -/
def enterDefault (f : JumpFrame) : Lower Unit := do
  patchHere (f.caseSlot.toList ++ f.fallThrough)
  changeFrame isSwitch fun f => { f with caseSlot := none, fallThrough := [] }

/-- The start of a case: control from the body before it jumps over the test, a failed test goes on
here. -/
def enterCase (f : JumpFrame) : Lower (List Nat) := do
  match f.caseSlot with
  | none => return f.fallThrough
  | some failed =>
    let skip ← jump .branch
    patchHere [failed]
    return f.fallThrough ++ [skip]

/-! ## Statements -/

mutual

/-- A statement. -/
def statement : Nat → Handle → Lower Unit
  | 0, _ => throw .endless
  | depth + 1, n => do
    let kind ← kindOf n
    match kind with
    | .block => (← childNumbers n 0).forM fun i => do statement depth (← child n i)
    | .null | .typeDefinition => pure ()
    | .declaration => declaration depth n
    | .ifElse =>
      value depth (← child n 0)
      let no ← jump .branchIfZero
      statement depth (← child n 1)
      if ← (← tree).flagAt n 0 then
        let stop ← jump .branch
        patchHere [no]
        statement depth (← child n 2)
        patchHere [stop]
      else patchHere [no]
    | .whileLoop =>
      pushFrame .loop
      let start ← pc
      value depth (← child n 0)
      addBreak (← jump .branchIfZero)
      statement depth (← child n 1)
      patch (← topFrame).continues start
      emitOp .branch [start]
      patchHere (← topFrame).breaks
      let _ ← popFrame
    | .doWhile =>
      pushFrame .loop
      let start ← pc
      statement depth (← child n 0)
      patchHere (← topFrame).continues
      value depth (← child n 1)
      emitOp .branchUnlessZero [start]
      patchHere (← topFrame).breaks
      let _ ← popFrame
    | .forLoop => forLoop depth n
    | .switching =>
      pushFrame .switch
      value depth (← child n 0)
      statement depth (← child n 1)
      let f ← topFrame
      patchHere (f.caseSlot.toList ++ f.fallThrough ++ f.breaks)
      drop
      let _ ← popFrame
    | .caseLabel =>
      match ← innermostSwitch? with
      | none => fail n none
      | some f =>
        let fallThrough ← enterCase f
        emitOp .duplicate []
        value depth (← child n 0)
        emitOp .equal []
        let failed ← jump .branchIfZero
        patchHere fallThrough
        changeFrame isSwitch fun f => { f with caseSlot := some failed, fallThrough := [] }
        statement depth (← child n 1)
    | .defaultLabel =>
      match ← innermostSwitch? with
      | none => fail n none
      | some f =>
        enterDefault f
        statement depth (← child n 0)
    | .breaking => breaking n
    | .continuing => continuing n
    | .jump => labelJump (← (← tree).arg n 0)
    | .label =>
      placeLabel (← (← tree).arg n 0)
      statement depth (← child n 0)
    | .returning =>
      if (← tree).amount n == 0 then return ← emitOp .returnVoid []
      let result ← child n 0
      value depth result
      emitOp .returnValue [← sizeOf (← typeOf result)]
    | _ => if kind.isExpression then effect depth n else fail n none

/-- A `for` statement: first clause, test, body, step and the jump back to the test. Clauses that
were not written have no child. -/
def forLoop : Nat → Handle → Lower Unit
  | 0, _ => throw .endless
  | depth + 1, n => do
    let t ← tree
    let hasInit ← t.flagAt n 0
    let hasCond ← t.flagAt n 1
    let hasStep ← t.flagAt n 2
    let condAt := flagWord hasInit
    let stepAt := condAt + flagWord hasCond
    let init ← if hasInit then child n 0 else pure .broken
    let cond ← if hasCond then child n condAt else pure .broken
    let step ← if hasStep then child n stepAt else pure .broken
    let body ← child n (stepAt + flagWord hasStep)
    if !(← isBroken init) then
      if (← kindOf init) == .declaration then declaration depth init else effect depth init
    pushFrame .loop
    let start ← pc
    if !(← isBroken cond) then
      value depth cond
      addBreak (← jump .branchIfZero)
    statement depth body
    patchHere (← topFrame).continues
    if !(← isBroken step) then effect depth step
    emitOp .branch [start]
    patchHere (← topFrame).breaks
    let _ ← popFrame

end

/-! ## Functions and programs -/

/-- Sets the address of a function and fills the slots that wait for it. -/
def startFunction (number : Int) : Lower Unit := do
  let here ← pc
  let s ← (← get).session.setFunctionAddress number here
  modify fun g => { g with session := s }
  patch (((← get).pendingCalls.lookup number).getD []) here
  modify fun g => { g with pendingCalls := g.pendingCalls.filter fun entry => entry.1 != number }

/-- The definition of a function. -/
def functionDefinition (depth : Nat) (n : Handle) : Lower Unit := do
  let t ← tree
  startFunction ((← get).session.identifier (← t.arg n 0)).displacement
  emitOp .functionStart [← t.arg n 1]
  let stop ← slot
  modify fun g => { g with labels := [] }
  statement depth (← child n 0)
  emitOp .returnVoid []
  patchHere [stop]

/-- Lowers the parts of a program in order; a failure ends the walk. -/
def parts (depth : Nat) (root : Handle) : List Int → Lower Unit
  | [] => pure ()
  | i :: rest => do
    if (← get).failure.isSome then return
    let n ← child root i
    match ← kindOf n with
    | .functionDefinition => functionDefinition depth n
    | .declaration => declaration depth n
    | _ => fail n none
    parts depth root rest

/-- Why no image is made. -/
inductive GenerationError where
  | internal (e : InternalError)
  | noMain
  | neverDefined (number : Int)
deriving Repr

def GenerationError.message : GenerationError → String
  | .internal e => e.message
  | .noMain => "codegen: program has no main function"
  | .neverDefined number =>
    "codegen: function " ++ toString number ++ " is called but never defined"

/-- The image of what was emitted. -/
def image (g : Lowering) : Image where
  memory := g.memory.toList
  functions := g.session.functions.toList
  identifiers := g.session.identifierTable
  representations := g.session.spellings.table
  types := g.session.types.table
  maxGlobal := g.session.globalDisplacement
  maxThreads :=
    match g.session.options with
    | some o => if 0 < o.maxThreads then o.maxThreads else 1
    | none => 1

/-- Lowers a program: its parts in order, then a call of the entry point and the end. -/
def program (root : Handle) : Lower (Except GenerationError Image) := do
  let t ← tree
  parts (8 * t.walkBound) root (← childNumbers root 0)
  if let some e := (← get).failure then return .error (.internal e)
  let s := (← get).session
  if s.main == 0 then return .error .noMain
  emitOp .callStart []
  emitCall (s.identifier s.main).displacement
  emitOp .stop []
  match (← get).pendingCalls with
  | (number, _) :: _ => return .error (.neverDefined number)
  | [] => return .ok (← get).image

/-- Makes the image of a checked program. The session learns the addresses of functions and
labels. -/
def generate (s : Session) (root : Handle) : Guarded (Session × Except GenerationError Image) := do
  let (result, g) ← (program root).run (.new s)
  return (g.session, result)

end BilingualC.Lowering
