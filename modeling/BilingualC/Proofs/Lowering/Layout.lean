import Mathlib
import BilingualC.Instruction

/-!
# Pieces of code and their place in memory

A `Piece` is code by its structure, as the generator emits it: single instructions, inline texts,
calls, and the forms of control flow. `Lay` says that a finished memory holds a piece of code
between two addresses. It speaks of memory in which every slot is filled, so a jump is known by its
target, and a piece of code that leaves its surroundings does so through an `Exit` or a link.

The tests of a switch are chained through the slot of the last test. `Lay` passes that slot along
the code: the slot that is open before a piece of code and the one that is open after it.
-/

namespace BilingualC

/-- A piece of code by its structure. -/
inductive Piece where
  | skip
  | plain (i : Instruction) (operands : List Int)
  | text (s : String)
  | call (number : Int)
  | seq (first second : Piece)
  /-- A test with two ways that meet again. -/
  | choose (test yes no : Piece)
  /-- A test with one way. -/
  | only (test yes : Piece)
  /-- A left operand that decides whether the right one is needed. -/
  | short (test last : Operation) (left right : Piece)
  | whileLoop (test body : Piece)
  | doWhile (body test : Piece)
  | forLoop (test body step : Piece)
  | endlessLoop (body step : Piece)
  | switch (value body : Piece)
  | caseLabel (value body : Piece)
  | defaultLabel (body : Piece)
  | breaking
  | continuing
  | goto (identifier : Int)
  | label (identifier : Int) (body : Piece)
deriving Repr, Inhabited

namespace Piece

/-- Pieces of code one after the other. -/
def all : List Piece → Piece
  | [] => .skip
  | c :: cs => .seq c (all cs)

/-- An operation that belongs to no family. -/
def op (o : Operation) (operands : List Int) : Piece := .plain (.single o) operands

/-- The labels that are placed in a piece of code. -/
def labels : Piece → List Int
  | .seq c d | .only c d | .short _ _ c d | .whileLoop c d | .doWhile c d | .endlessLoop c d
  | .switch c d | .caseLabel c d => c.labels ++ d.labels
  | .choose c d e | .forLoop c d e => c.labels ++ d.labels ++ e.labels
  | .defaultLabel c => c.labels
  | .label id c => id :: c.labels
  | _ => []

/-- The labels that a piece of code jumps to. -/
def gotos : Piece → List Int
  | .seq c d | .only c d | .short _ _ c d | .whileLoop c d | .doWhile c d | .endlessLoop c d
  | .switch c d | .caseLabel c d => c.gotos ++ d.gotos
  | .choose c d e | .forLoop c d e => c.gotos ++ d.gotos ++ e.gotos
  | .defaultLabel c => c.gotos
  | .label _ c => c.gotos
  | .goto id => [id]
  | _ => []

/-- The functions that a piece of code calls. -/
def callees : Piece → List Int
  | .seq c d | .only c d | .short _ _ c d | .whileLoop c d | .doWhile c d | .endlessLoop c d
  | .switch c d | .caseLabel c d => c.callees ++ d.callees
  | .choose c d e | .forLoop c d e => c.callees ++ d.callees ++ e.callees
  | .defaultLabel c => c.callees
  | .label _ c => c.callees
  | .call number => [number]
  | _ => []

end Piece

/-! ## Memory -/

namespace Operation

def code (o : Operation) : Int := Instruction.code (.single o)

/-- Says whether control may pass to another address than the next one, or needs a link. -/
def isControl : Operation → Bool
  | .branch | .branchIfZero | .branchUnlessZero | .functionStart | .callTarget | .stop => true
  | _ => false

end Operation

/-- Says whether an instruction exists and transfers no control, apart from leaving the function. -/
def Instruction.isPlain : Instruction → Bool
  | .single o => !o.isControl
  | .store f m => f.hasFloat || !m.float

/-- A memory has the given cells from an address on. -/
def CellsAt (M : List Int) : Nat → List Int → Prop
  | _, [] => True
  | a, x :: xs => M[a]? = some x ∧ CellsAt M (a + 1) xs

/-- Where a loop or a switch is left to, and where a loop goes on. -/
structure Exit where
  isLoop : Bool
  breakTo : Int
  continueTo : Int

/-- The addresses of labels and functions. -/
structure Links where
  label : Int → Int
  function : Int → Int

/-- A chain of tests that drop a value each, whatever it is. -/
def DropsAt (M : List Int) (a : Nat) : Nat → Prop
  | 0 => True
  | n + 1 => CellsAt M a [Operation.code .branchIfZero, (a + 2 : Nat)] ∧ DropsAt M (a + 2) n

/-- `Lay M L X s c a b s'`: between the addresses `a` and `b` the memory `M` holds the code `c`,
surrounded by the exits `X`, innermost first. The slot of the last case test is `s` before the code
and `s'` after it. -/
inductive Lay (M : List Int) (L : Links) :
    List Exit → Option Nat → Piece → Nat → Nat → Option Nat → Prop
  | skip {X s} {a : Nat} : Lay M L X s .skip a a s
  | plain {X s i operands} {a : Nat} (cells : CellsAt M a (i.code :: operands))
      (count : operands.length = i.operands) (plain : i.isPlain = true) :
      Lay M L X s (.plain i operands) a (a + 1 + operands.length) s
  | text {X s} {a : Nat} {t : String}
      (cells : CellsAt M a ([Operation.code .loadConstant, (a + 5 : Nat), Operation.code .branch,
        (a + 5 + t.length : Nat), t.length] ++ t.toList.map fun c => (c.toNat : Int))) :
      Lay M L X s (.text t) a (a + 5 + t.length) s
  | call {X s number} {a : Nat}
      (cells : CellsAt M a [Operation.code .callTarget, L.function number]) :
      Lay M L X s (.call number) a (a + 2) s
  | seq {X s c d s₁ s₂} {a m b : Nat} (first : Lay M L X s c a m s₁)
      (second : Lay M L X s₁ d m b s₂) : Lay M L X s (.seq c d) a b s₂
  | choose {X s t y n s₁ s₂ s₃} {a m k b : Nat} (test : Lay M L X s t a m s₁)
      (branch : CellsAt M m [Operation.code .branchIfZero, (k + 2 : Nat)])
      (yes : Lay M L X s₁ y (m + 2) k s₂) (across : CellsAt M k [Operation.code .branch, b])
      (no : Lay M L X s₂ n (k + 2) b s₃) : Lay M L X s (.choose t y n) a b s₃
  | only {X s t y s₁ s₂} {a m b : Nat} (test : Lay M L X s t a m s₁)
      (branch : CellsAt M m [Operation.code .branchIfZero, b])
      (yes : Lay M L X s₁ y (m + 2) b s₂) : Lay M L X s (.only t y) a b s₂
  | short {X s test last l r s₁ s₂} {a m n : Nat}
      (kind : test = .branchIfZero ∨ test = .branchUnlessZero)
      (ends : last = .logicalAnd ∨ last = .logicalOr) (left : Lay M L X s l a m s₁)
      (skip : CellsAt M m [Operation.code .duplicate, test.code, (n + 1 : Nat)])
      (right : Lay M L X s₁ r (m + 3) n s₂) (final : CellsAt M n [last.code]) :
      Lay M L X s (.short test last l r) a (n + 1) s₂
  | whileLoop {X s t body s₁ s₂} {a m n : Nat}
      (test : Lay M L (⟨true, (n + 2 : Nat), a⟩ :: X) s t a m s₁)
      (leave : CellsAt M m [Operation.code .branchIfZero, (n + 2 : Nat)])
      (inside : Lay M L (⟨true, (n + 2 : Nat), a⟩ :: X) s₁ body (m + 2) n s₂)
      (back : CellsAt M n [Operation.code .branch, a]) :
      Lay M L X s (.whileLoop t body) a (n + 2) s₂
  | doWhile {X s t body s₁ s₂} {a m n : Nat}
      (inside : Lay M L (⟨true, (n + 2 : Nat), m⟩ :: X) s body a m s₁)
      (test : Lay M L (⟨true, (n + 2 : Nat), m⟩ :: X) s₁ t m n s₂)
      (back : CellsAt M n [Operation.code .branchUnlessZero, a]) :
      Lay M L X s (.doWhile body t) a (n + 2) s₂
  | forLoop {X s t body step s₁ s₂ s₃} {a m n k : Nat}
      (test : Lay M L (⟨true, (k + 2 : Nat), n⟩ :: X) s t a m s₁)
      (leave : CellsAt M m [Operation.code .branchIfZero, (k + 2 : Nat)])
      (inside : Lay M L (⟨true, (k + 2 : Nat), n⟩ :: X) s₁ body (m + 2) n s₂)
      (next : Lay M L (⟨true, (k + 2 : Nat), n⟩ :: X) s₂ step n k s₃)
      (back : CellsAt M k [Operation.code .branch, a]) :
      Lay M L X s (.forLoop t body step) a (k + 2) s₃
  | endlessLoop {X s body step s₁ s₂} {a n k : Nat}
      (inside : Lay M L (⟨true, (k + 2 : Nat), n⟩ :: X) s body a n s₁)
      (next : Lay M L (⟨true, (k + 2 : Nat), n⟩ :: X) s₁ step n k s₂)
      (back : CellsAt M k [Operation.code .branch, a]) :
      Lay M L X s (.endlessLoop body step) a (k + 2) s₂
  | switch {X s v body s₁} {a m e : Nat} (value : Lay M L (⟨false, e, 0⟩ :: X) none v a m none)
      (inside : Lay M L (⟨false, e, 0⟩ :: X) none body m e s₁)
      (fails : ∀ p ∈ s₁, M[p]? = some (e : Int))
      (drop : CellsAt M e [Operation.code .branchIfZero, (e + 2 : Nat)]) :
      Lay M L X s (.switch v body) a (e + 2) s
  | caseFirst {X v body s₁} {a m b : Nat} (double : CellsAt M a [Operation.code .duplicate])
      (value : Lay M L X none v (a + 1) m none)
      (test : CellsAt M m [Operation.code .equal, Operation.code .branchIfZero])
      (inside : Lay M L X (some (m + 2)) body (m + 3) b s₁) :
      Lay M L X none (.caseLabel v body) a b s₁
  | caseNext {X v body s₁} {p a m b : Nat}
      (across : CellsAt M a [Operation.code .branch, (m + 3 : Nat)])
      (fails : M[p]? = some ((a + 2 : Nat) : Int))
      (double : CellsAt M (a + 2) [Operation.code .duplicate])
      (value : Lay M L X none v (a + 3) m none)
      (test : CellsAt M m [Operation.code .equal, Operation.code .branchIfZero])
      (inside : Lay M L X (some (m + 2)) body (m + 3) b s₁) :
      Lay M L X (some p) (.caseLabel v body) a b s₁
  | defaultLabel {X s body s₁} {a b : Nat} (fails : ∀ p ∈ s, M[p]? = some (a : Int))
      (inside : Lay M L X none body a b s₁) : Lay M L X s (.defaultLabel body) a b s₁
  | breaking {e X s} {a : Nat} (cells : CellsAt M a [Operation.code .branch, e.breakTo]) :
      Lay M L (e :: X) s .breaking a (a + 2) s
  | continuing {switches e X s} {a : Nat} (inner : ∀ x ∈ switches, Exit.isLoop x = false)
      (loop : e.isLoop = true) (drops : DropsAt M a switches.length)
      (cells : CellsAt M (a + 2 * switches.length) [Operation.code .branch, e.continueTo]) :
      Lay M L (switches ++ e :: X) s .continuing a (a + 2 * switches.length + 2) s
  | goto {X s id} {a : Nat} (cells : CellsAt M a [Operation.code .branch, L.label id]) :
      Lay M L X s (.goto id) a (a + 2) s
  | label {X s id body s₁} {a b : Nat} (here : L.label id = a) (inside : Lay M L X s body a b s₁) :
      Lay M L X s (.label id body) a b s₁

/-! ## What laid out code looks like -/

namespace Lay

variable {M : List Int} {L : Links} {X : List Exit} {s s' : Option Nat}
    {c d t y n body step v : Piece} {a b : Nat}

theorem skip_inv (lay : Lay M L X s .skip a b s') : b = a ∧ s' = s := by
  cases lay
  exact ⟨rfl, rfl⟩

theorem plain_inv {i : Instruction} {operands : List Int}
    (lay : Lay M L X s (.plain i operands) a b s') :
    CellsAt M a (i.code :: operands) ∧ operands.length = i.operands ∧ i.isPlain = true ∧
    b = a + 1 + operands.length ∧ s' = s := by
  cases lay with
  | plain cells count plain => exact ⟨cells, count, plain, rfl, rfl⟩

theorem seq_inv (lay : Lay M L X s (.seq c d) a b s') : ∃ m s₁, Lay M L X s c a m s₁ ∧
    Lay M L X s₁ d m b s' := by
  cases lay with
  | seq first second => exact ⟨_, _, first, second⟩

theorem choose_inv (lay : Lay M L X s (.choose t y n) a b s') :
    ∃ m k s₁ s₂, Lay M L X s t a m s₁ ∧ CellsAt M m [Operation.code .branchIfZero, (k + 2 : Nat)] ∧
    Lay M L X s₁ y (m + 2) k s₂ ∧ CellsAt M k [Operation.code .branch, b] ∧
    Lay M L X s₂ n (k + 2) b s' := by
  cases lay with
  | choose test branch yes across no => exact ⟨_, _, _, _, test, branch, yes, across, no⟩

theorem only_inv (lay : Lay M L X s (.only t y) a b s') :
    ∃ m s₁, Lay M L X s t a m s₁ ∧ CellsAt M m [Operation.code .branchIfZero, b] ∧
      Lay M L X s₁ y (m + 2) b s' := by
  cases lay with
  | only test branch yes => exact ⟨_, _, test, branch, yes⟩

theorem whileLoop_inv (lay : Lay M L X s (.whileLoop t body) a b s') :
    ∃ m k s₁, b = k + 2 ∧ Lay M L (⟨true, (k + 2 : Nat), a⟩ :: X) s t a m s₁ ∧
    CellsAt M m [Operation.code .branchIfZero, (k + 2 : Nat)] ∧
    Lay M L (⟨true, (k + 2 : Nat), a⟩ :: X) s₁ body (m + 2) k s' ∧
    CellsAt M k [Operation.code .branch, a] := by
  cases lay with
  | whileLoop test leave inside back => exact ⟨_, _, _, rfl, test, leave, inside, back⟩

theorem doWhile_inv (lay : Lay M L X s (.doWhile body t) a b s') :
    ∃ (m k : Nat) (s₁ : Option Nat), b = k + 2 ∧
    Lay M L (⟨true, (k + 2 : Nat), m⟩ :: X) s body a m s₁ ∧
    Lay M L (⟨true, (k + 2 : Nat), m⟩ :: X) s₁ t m k s' ∧
    CellsAt M k [Operation.code .branchUnlessZero, a] := by
  cases lay with
  | doWhile inside test back => exact ⟨_, _, _, rfl, inside, test, back⟩

theorem forLoop_inv (lay : Lay M L X s (.forLoop t body step) a b s') :
    ∃ (m n k : Nat) (s₁ s₂ : Option Nat), b = k + 2 ∧
    Lay M L (⟨true, (k + 2 : Nat), n⟩ :: X) s t a m s₁ ∧
    CellsAt M m [Operation.code .branchIfZero, (k + 2 : Nat)] ∧
    Lay M L (⟨true, (k + 2 : Nat), n⟩ :: X) s₁ body (m + 2) n s₂ ∧
    Lay M L (⟨true, (k + 2 : Nat), n⟩ :: X) s₂ step n k s' ∧
    CellsAt M k [Operation.code .branch, a] := by
  cases lay with
  | forLoop test leave inside next back =>
    exact ⟨_, _, _, _, _, rfl, test, leave, inside, next, back⟩

theorem endlessLoop_inv (lay : Lay M L X s (.endlessLoop body step) a b s') :
    ∃ (n k : Nat) (s₁ : Option Nat), b = k + 2 ∧
    Lay M L (⟨true, (k + 2 : Nat), n⟩ :: X) s body a n s₁ ∧
    Lay M L (⟨true, (k + 2 : Nat), n⟩ :: X) s₁ step n k s' ∧
    CellsAt M k [Operation.code .branch, a] := by
  cases lay with
  | endlessLoop inside next back => exact ⟨_, _, _, rfl, inside, next, back⟩

theorem switch_inv (lay : Lay M L X s (.switch v body) a b s') :
    ∃ m e s₁, b = e + 2 ∧ s' = s ∧ Lay M L (⟨false, e, 0⟩ :: X) none v a m none ∧
      Lay M L (⟨false, e, 0⟩ :: X) none body m e s₁ ∧ (∀ p ∈ s₁, M[p]? = some (e : Int)) ∧
      CellsAt M e [Operation.code .branchIfZero, (e + 2 : Nat)] := by
  cases lay with
  | switch value inside fails drop => exact ⟨_, _, _, rfl, rfl, value, inside, fails, drop⟩

theorem caseFirst_inv (lay : Lay M L X none (.caseLabel v body) a b s') :
    ∃ m, CellsAt M a [Operation.code .duplicate] ∧ Lay M L X none v (a + 1) m none ∧
      CellsAt M m [Operation.code .equal, Operation.code .branchIfZero] ∧
      Lay M L X (some (m + 2)) body (m + 3) b s' := by
  cases lay with
  | caseFirst double value test inside => exact ⟨_, double, value, test, inside⟩

theorem caseNext_inv {p : Nat} (lay : Lay M L X (some p) (.caseLabel v body) a b s') :
    ∃ m, CellsAt M a [Operation.code .branch, (m + 3 : Nat)] ∧ M[p]? = some ((a + 2 : Nat) : Int) ∧
      CellsAt M (a + 2) [Operation.code .duplicate] ∧ Lay M L X none v (a + 3) m none ∧
      CellsAt M m [Operation.code .equal, Operation.code .branchIfZero] ∧
      Lay M L X (some (m + 2)) body (m + 3) b s' := by
  cases lay with
  | caseNext across fails double value test inside =>
    exact ⟨_, across, fails, double, value, test, inside⟩

theorem defaultLabel_inv (lay : Lay M L X s (.defaultLabel body) a b s') :
    (∀ p ∈ s, M[p]? = some (a : Int)) ∧ Lay M L X none body a b s' := by
  cases lay with
  | defaultLabel fails inside => exact ⟨fails, inside⟩

theorem breaking_inv (lay : Lay M L X s .breaking a b s') :
    ∃ e Y, X = e :: Y ∧ CellsAt M a [Operation.code .branch, e.breakTo] ∧ b = a + 2 ∧ s' = s := by
  cases lay with
  | breaking cells => exact ⟨_, _, rfl, cells, rfl, rfl⟩

theorem continuing_inv (lay : Lay M L X s .continuing a b s') :
    ∃ switches e Y, X = switches ++ e :: Y ∧ (∀ x ∈ switches, Exit.isLoop x = false) ∧
    e.isLoop = true ∧ DropsAt M a switches.length ∧
    CellsAt M (a + 2 * switches.length) [Operation.code .branch, e.continueTo] ∧
    b = a + 2 * switches.length + 2 ∧ s' = s := by
  cases lay with
  | continuing inner loop drops cells => exact ⟨_, _, _, rfl, inner, loop, drops, cells, rfl, rfl⟩

end Lay

end BilingualC
