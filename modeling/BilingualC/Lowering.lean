import BilingualC.Image
import BilingualC.Instruction.Selection
import BilingualC.Node
import BilingualC.Session

/-!
# Emitting code

The generator walks the checked tree and appends instructions to the memory of the image. A jump to
an address that is not known yet gets a slot, and the slot is filled when the address is known.

A node that the generator does not know how to lower is a disagreement with the checker. The first
one is remembered, and no image is made.
-/

namespace BilingualC

/-- A node that cannot be lowered. -/
structure InternalError where
  index : Int
  kind : Kind
  cause : Option SelectionError
deriving Repr

def InternalError.message (e : InternalError) : String :=
  match e.cause with
  | some cause =>
    "codegen: node " ++ toString e.index ++ " (" ++ e.kind.name ++ "): " ++ cause.message
  | none => "codegen: unexpected " ++ e.kind.name ++ " node " ++ toString e.index

/-- What is known about a label: its address, or the slots that wait for it. -/
structure LabelState where
  identifier : Int
  address : Option Int
  waiting : List Nat
deriving Repr

/-- The open jumps of a loop or a switch. -/
structure JumpFrame where
  isLoop : Bool
  breaks : List Nat
  continues : List Nat
  /-- The slot of the last case test that failed. -/
  caseSlot : Option Nat
  /-- The slots of jumps into the body of the next case. -/
  fallThrough : List Nat
deriving Repr

namespace JumpFrame

def loop : JumpFrame := ⟨true, [], [], none, []⟩
def switch : JumpFrame := ⟨false, [], [], none, []⟩

end JumpFrame

/-- The state of the generator. -/
structure Lowering where
  session : Session
  memory : Array Int
  /-- The slots that wait for the address of a function. -/
  pendingCalls : List (Int × List Nat)
  /-- The labels of the current function. -/
  labels : List LabelState
  /-- The open loops and switches, innermost first. -/
  frames : List JumpFrame
  failure : Option InternalError

/-- A step of the generator. -/
abbrev Lower (α : Type) := StateT Lowering (Except Fault) α

namespace Lowering

/-- A generator that has emitted nothing. -/
def new (s : Session) : Lowering := ⟨s, Array.replicate Image.codeStart 0, [], [], [], none⟩

/-! ## Reading -/

def tree : Lower Arena := return (← get).session.tree
def types : Lower TypeTable := return (← get).session.types
def kindOf (n : Handle) : Lower Kind := return (← tree).kind n
def typeOf (n : Handle) : Lower TypeId := do (← tree).exprType n
def isBroken (n : Handle) : Lower Bool := return (← tree).isBroken n
def child (n : Handle) (i : Int) : Lower Handle := do (← tree).child n i
def payloadOf (n : Handle) : Lower Int := do (← tree).payload n
def sizeOf (id : TypeId) : Lower Int := do (← types).sizeOf id
def isStructure (id : TypeId) : Lower Bool := return (← types).isStructure id
def isFloat (n : Handle) : Lower Bool := return TypeId.isFloating (← typeOf n)

/-- The numbers of the children of a node from a number on. -/
def childNumbers (n : Handle) (first : Nat) : Lower (List Int) := do
  return ((List.range ((← tree).amount n).toNat).drop first).map Int.ofNat

/-- The displacement of the declaration that an identifier node mentions. -/
def displacementOf (n : Handle) : Lower Int := do
  return ((← get).session.identifier (← payloadOf n)).displacement

/-! ## Failures -/

/-- Remembers that a node cannot be lowered, unless one was met before. -/
def fail (n : Handle) (cause : Option SelectionError) : Lower Unit := do
  let t ← tree
  modify fun g => { g with failure := g.failure <|> some ⟨t.save n, t.kind n, cause⟩ }

/-- Takes a step from an instruction; an instruction without that step is kept, and the node
fails. -/
def derive (n : Handle) (d : Derivation) (i : Instruction) : Lower Instruction := do
  match i.derive d with
  | .ok out => return out
  | .error cause =>
    fail n (some cause)
    return i

/-- Takes a step from an instruction if a condition holds. -/
def deriveIf (condition : Bool) (n : Handle) (d : Derivation) (i : Instruction) :
    Lower Instruction :=
  if condition then derive n d i else pure i

/-! ## Emission -/

/-- The address of the next cell. -/
def pc : Lower Int := return (← get).memory.size

/-- Appends cells. -/
def append (cells : List Int) : Lower Unit := modify fun g => { g with memory := g.memory ++ cells }

def emit (i : Instruction) (operands : List Int) : Lower Unit := append (i.code :: operands)

/-- Emits an instruction that belongs to no family. -/
def emitOp (op : Operation) (operands : List Int) : Lower Unit := emit (.single op) operands

/-- Reserves a cell and gives its address. -/
def slot : Lower Nat := do
  let address := (← get).memory.size
  append [0]
  return address

/-- Emits a jump to an unknown address and gives its slot. -/
def jump (op : Operation) : Lower Nat := do
  emitOp op []
  slot

/-- Fills slots with an address. -/
def patch (slots : List Nat) (target : Int) : Lower Unit :=
  modify fun g => { g with memory := slots.foldl (fun m s => m.setIfInBounds s target) g.memory }

/-- Fills slots with the address of the next cell. -/
def patchHere (slots : List Nat) : Lower Unit := do patch slots (← pc)

/-- Drops the value on top of the stack: a test whose both outcomes go on with the next
instruction. -/
def drop : Lower Unit := do emitOp .branchIfZero [(← pc) + 2]

/-- Emits the address of a function; an unknown address gets a slot. -/
def emitTarget (number : Int) : Lower Unit := do
  let address := (← get).session.functionAddress number
  if address != 0 then return ← append [address]
  let s ← slot
  modify fun g =>
    match g.pendingCalls.lookup number with
    | none => { g with pendingCalls := g.pendingCalls ++ [(number, [s])] }
    | some slots =>
      { g with
        pendingCalls := g.pendingCalls.map fun (k, old) =>
          if k == number then (k, slots ++ [s]) else (k, old) }

/-- Emits the call of a function after its arguments. -/
def emitCall (number : Int) : Lower Unit := do
  emitOp .callTarget []
  emitTarget number

/-! ## Frames -/

def pushFrame (f : JumpFrame) : Lower Unit := modify fun g => { g with frames := f :: g.frames }

/-- Closes the innermost frame and gives it. -/
def popFrame : Lower JumpFrame :=
  modifyGet fun g => (g.frames.headD .loop, { g with frames := g.frames.tail })

/-- The innermost frame. -/
def topFrame : Lower JumpFrame := return (← get).frames.headD .loop

/-- Changes the first frame of some kind. -/
def changeFirst (p : JumpFrame → Bool) (change : JumpFrame → JumpFrame) : List JumpFrame →
    List JumpFrame
  | [] => []
  | f :: rest => if p f then change f :: rest else f :: changeFirst p change rest

/-- Changes the innermost frame of some kind. -/
def changeFrame (p : JumpFrame → Bool) (change : JumpFrame → JumpFrame) : Lower Unit :=
  modify fun g => { g with frames := changeFirst p change g.frames }

def addBreak (s : Nat) : Lower Unit :=
  changeFrame (fun _ => true) fun f => { f with breaks := f.breaks ++ [s] }

def addContinue (s : Nat) : Lower Unit :=
  changeFrame (·.isLoop) fun f => { f with continues := f.continues ++ [s] }

/-! ## Labels -/

/-- What is known about a label. -/
def labelState (identifier : Int) : Lower LabelState := do
  return ((← get).labels.find? fun l => l.identifier == identifier).getD ⟨identifier, none, []⟩

/-- Replaces what is known about a label. -/
def setLabelState (l : LabelState) : Lower Unit :=
  modify fun g => { g with labels := l :: g.labels.filter fun k => k.identifier != l.identifier }

end Lowering

end BilingualC
