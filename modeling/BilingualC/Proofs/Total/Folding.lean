import Mathlib
import BilingualC.Proofs.Arena.Refinement
import BilingualC.Proofs.Lexeme.Partition
import BilingualC.Proofs.Total.Operator

/-!
# What constants are folded to

An operator on integer constants gives the constant of its exact result. The result of a binary
operator that does not fit an integer is cut to one with a warning, as long as it is exact in a
word: a shift by more than 32 places may lose what the warning is about. The result of a unary
operator is neither cut nor reported, so the opposite of the least integer becomes a constant that
is no integer.

Main result: `Checker.fold_exact`.
-/

namespace BilingualC

open Guarded Rose

/-! ## Exact results -/

namespace UnaryOp

/-- The exact result of an operator on an integer. -/
def result? (op : UnaryOp) (v : Int) : Option Int :=
  match op with
  | .minus => some (-v)
  | .complement => some (-v - 1)
  | .logicalNot => some (flagWord (v == 0))
  | .absolute => some (max v (-v))
  | _ => none

theorem onInt_exact {v : Int} (small : fitsInt v = true) (op : UnaryOp) :
    op.onInt v = op.result? v := by
  obtain ⟨low, high⟩ := (fitsInt_iff v).mp small
  have negated : wrap64 (-v) = -v := wrap64_of_range (by omega) (by omega)
  cases op with
  | minus => rw [onInt, result?, negated]
  | absolute =>
    rw [onInt, result?, negated]
    split <;> congr 1 <;> omega
  | _ => rfl

/-- The exact result is an integer but for the opposite of the least one. -/
theorem result?_fits {op : UnaryOp} {v w : Int} (small : fitsInt v = true)
    (exact : op.result? v = some w) : fitsInt w = true ∨ v = -2147483648 ∧ w = 2147483648 := by
  simp only [fitsInt_iff] at small ⊢
  cases op <;> simp only [result?, Option.some.injEq, reduceCtorEq, flagWord] at exact <;> omega

end UnaryOp

/-- The bits of an integer in a word are those in 32 bits, with the sign repeated. -/
theorem wordBits_eq {v : Int} (small : fitsInt v = true) :
    wordBits v = (BitVec.ofInt 32 v).signExtend 64 := by
  obtain ⟨low, high⟩ := (fitsInt_iff v).mp small
  refine BitVec.eq_of_toInt_eq ?_
  rw [BitVec.toInt_signExtend_of_le (by decide), wordBits, BitVec.toInt_ofInt, BitVec.toInt_ofInt]
  simp only [Int.bmod]
  split <;> split <;> omega

namespace BinaryOp

/-- The exact result of an operator on two integers. Operators on bits take the 32 bits of each. -/
def result? (op : BinaryOp) (l r : Int) : Option Int :=
  match op with
  | .mul => some (l * r)
  | .div => if r = 0 then none else some (l.tdiv r)
  | .rem => if r = 0 then none else some (l.tmod r)
  | .add => some (l + r)
  | .sub => some (l - r)
  | .shl => some (l * 2 ^ r.toNat)
  | .shr => some (l / 2 ^ r.toNat)
  | .less => some (flagWord (l < r))
  | .greater => some (flagWord (r < l))
  | .lessEqual => some (flagWord (l ≤ r))
  | .greaterEqual => some (flagWord (r ≤ l))
  | .equal => some (flagWord (l == r))
  | .notEqual => some (flagWord (l != r))
  | .and => some (BitVec.ofInt 32 l &&& BitVec.ofInt 32 r).toInt
  | .xor => some (BitVec.ofInt 32 l ^^^ BitVec.ofInt 32 r).toInt
  | .or => some (BitVec.ofInt 32 l ||| BitVec.ofInt 32 r).toInt
  | .logicalAnd => some (flagWord (l != 0 && r != 0))
  | .logicalOr => some (flagWord (l != 0 || r != 0))
  | _ => none

theorem shiftCount_small {r : Int} (low : 0 ≤ r) (high : r < 64) : shiftCount r = r.toNat := by
  rw [shiftCount, Int.emod_eq_of_lt low high]

/-- Says that a shift loses nothing but what does not fit: 33 places to the left take the least
integer to zero. -/
structure ShiftsExactly (op : BinaryOp) (places : Int) : Prop where
  left : op = .shl → 0 ≤ places ∧ places ≤ 32
  right : op = .shr → 0 ≤ places ∧ places < 64

/-- An operator on words is exact on integers. -/
theorem onInts_exact {op : BinaryOp} {l r : Int} (left : fitsInt l = true)
    (right : fitsInt r = true) (shifts : op.ShiftsExactly r) : op.onInts l r = op.result? l r := by
  have both := And.intro ((fitsInt_iff l).mp left) ((fitsInt_iff r).mp right)
  obtain ⟨⟨lowL, highL⟩, lowR, highR⟩ := both
  have bits (f : BitVec 64 → BitVec 64 → BitVec 64) (g : BitVec 32 → BitVec 32 → BitVec 32)
      (same : ∀ a b, f (a.signExtend 64) (b.signExtend 64) = (g a b).signExtend 64) :
      (f (wordBits l) (wordBits r)).toInt = (g (BitVec.ofInt 32 l) (BitVec.ofInt 32 r)).toInt := by
    rw [wordBits_eq left, wordBits_eq right, same, BitVec.toInt_signExtend_of_le (by decide)]
  cases op with
  | mul =>
    have product : |l * r| ≤ 2147483648 * 2147483648 := by
      rw [abs_mul]
      exact mul_le_mul (abs_le.mpr ⟨lowL, by omega⟩) (abs_le.mpr ⟨lowR, by omega⟩)
        (abs_nonneg r) (by decide)
    obtain ⟨low, high⟩ := abs_le.mp product
    rw [onInts, result?, wrap64_of_range (by omega) (by omega)]
  | div =>
    have quotient : |l.tdiv r| ≤ 2147483648 := by
      refine le_trans ?_ (abs_le.mpr ⟨lowL, by omega⟩ : |l| ≤ 2147483648)
      rw [Int.abs_eq_natAbs, Int.abs_eq_natAbs, Int.natAbs_tdiv]
      exact Int.ofNat_le.mpr (Nat.div_le_self _ _)
    obtain ⟨low, high⟩ := abs_le.mp quotient
    simp only [onInts, result?, beq_iff_eq,
      wrap64_of_range (show -9223372036854775808 ≤ l.tdiv r by omega) (by omega)]
  | rem => simp only [onInts, result?, beq_iff_eq]
  | add => rw [onInts, result?, wrap64_of_range (by omega) (by omega)]
  | sub => rw [onInts, result?, wrap64_of_range (by omega) (by omega)]
  | shl =>
    obtain ⟨low, high⟩ := shifts.left rfl
    have power : (2 : Int) ^ r.toNat ≤ 2 ^ 32 := pow_le_pow_right₀ (by decide) (by omega)
    have pos : 0 < (2 : Int) ^ r.toNat := by positivity
    have inside : -9223372036854775808 ≤ l * 2 ^ r.toNat ∧
      l * 2 ^ r.toNat < 9223372036854775808 := by
      constructor <;> nlinarith
    rw [onInts, result?, shiftCount_small low (by omega)]
    exact congrArg some (wrap64_of_range inside.1 inside.2)
  | shr =>
    obtain ⟨low, high⟩ := shifts.right rfl
    rw [onInts, result?, shiftCount_small low high]
    rfl
  | and => exact congrArg some (bits (· &&& ·) (· &&& ·) fun _ _ => BitVec.signExtend_and.symm)
  | xor => exact congrArg some (bits (· ^^^ ·) (· ^^^ ·) fun _ _ => BitVec.signExtend_xor.symm)
  | or => exact congrArg some (bits (· ||| ·) (· ||| ·) fun _ _ => BitVec.signExtend_or.symm)
  | _ => rfl

end BinaryOp

namespace Checker

variable {c : Checker} {rest : List Rose} {l r x : Rose} {type : TypeId} {loc : Location}

/-! ## Constants -/

/-- An integer constant as a node. -/
def constantNode (i : Int) (type : TypeId) (word : Int) (loc : Location) : Rose :=
  .node i Kind.literal.number [type, Category.value.word, word, loc.start, loc.stop] []

/-- Says that a node is an integer constant. -/
structure IsInteger (x : Rose) : Prop where
  literal : x.kind = .literal
  discrete : TypeId.isFloating x.exprType = false
  small : fitsInt (x.arg 2) = true

theorem buildConstant_run (carries : c.session.tree.Carries rest) (type : TypeId) (word : Int)
    (loc : Location) : ∃ t i, buildConstant type word loc c = .ok (t.handle i, c.withTree t) ∧
    t.Carries (constantNode i type word loc :: rest) := by
  obtain ⟨t, i, run, done, -⟩ :=
    build_ends (show c.session.tree.Carries ([] ++ rest) from carries) .literal loc (type ::
      Category.value.word :: [word]) (show ([] : List Handle).filter (· ≠ .broken) = _ from rfl)
  exact ⟨t, i, run, done⟩

theorem unaryConstant_run (on : folding c = .ok (true, c))
    (has : c.session.tree.Has x) (integer : IsInteger x) (op : UnaryOp)
    (type : TypeId) : unaryConstant? op type (c.session.tree.handle x.index) c =
    .ok ((op.result? (x.arg 2)).map fun v => (type, v), c) := by
  rw [unaryConstant?, bind_run on, bind_run (isLiteral_run has), integer.literal,
    ← UnaryOp.onInt_exact integer.small]
  simp only [Bool.not_true, Bool.or_self, beq_self_eq_true, Bool.false_eq_true, if_false]
  rw [bind_run (tree_run c), bind_run (typeOf_run has), integer.discrete]
  simp only [Bool.false_eq_true, if_false]
  rw [bind_run (lift_run has.payload)]
  rfl

theorem binaryConstant_run (on : folding c = .ok (true, c)) (hasL : c.session.tree.Has l)
    (hasR : c.session.tree.Has r) (left : IsInteger l) (right : IsInteger r)
    {op : BinaryOp} (shifts : op.ShiftsExactly (r.arg 2)) (type : TypeId) :
    binaryConstant? op type (c.session.tree.handle l.index) (c.session.tree.handle r.index) c =
    .ok ((op.result? (l.arg 2) (r.arg 2)).map fun v =>
        if fitsInt v then (type, v, false) else (type, wrap32 v, true), c) := by
  rw [binaryConstant?, bind_run on, bind_run (isLiteral_run hasL), bind_run (isLiteral_run hasR),
    left.literal, right.literal, ← BinaryOp.onInts_exact left.small right.small shifts]
  simp only [Bool.not_true, Bool.or_self, beq_self_eq_true, Bool.false_eq_true, if_false]
  rw [bind_run (tree_run c), bind_run (typeOf_run hasL), left.discrete]
  simp only [Bool.false_eq_true, if_false]
  rw [bind_run (lift_run hasL.payload), bind_run (lift_run hasR.payload)]
  rfl

/-- Says whether a warning is given. -/
def warns (c : Checker) (w : Warning) : Bool := (c.session.options.map (·.warnings.get w)).getD true

theorem warn_run (roomy : c.session.journal.Roomy) (near : loc.Near) (w : Warning)
    (d : Diagnostic) : ∃ j, warn w loc d c = .ok ((), c.withJournal j) ∧
    c.session.journal.Adds j (if c.warns w then [⟨.warning, loc, d⟩] else []) := by
  obtain ⟨j, taken, adds⟩ := Session.takeNote_ok (s := c.session) (n := ⟨some w, loc, d⟩) roomy near
  refine ⟨j, ?_, ?_⟩
  · have warned : c.session.warn w loc d = .ok { c.session with journal := j } := taken
    rw [warn, bind_run (currentSession_run c), bind_run (lift_run warned)]
    rfl
  · have same : (Note.report? c.session.journal.options ⟨some w, loc, d⟩).toList =
        if c.warns w then [⟨.warning, loc, d⟩] else [] := by
      change (if c.warns w then some (Report.mk .warning loc d) else none).toList = _
      by_cases on : c.warns w = true <;> simp [on]
    rwa [same] at adds

/-- Integer constants are folded to the exact result of their operator. A result of a unary operator
is kept as it is; one of a binary operator that is no integer is cut to one, and a warning is
given. -/
theorem fold_exact (c : Checker) (rest : List Rose) (type : TypeId) (loc : Location)
    (on : folding c = .ok (true, c)) (roomy : c.session.journal.Roomy) (near : loc.Near) :
    (∀ (op : UnaryOp) (x : Rose) (v : Int), c.session.tree.Carries (x :: rest) → IsInteger x →
      op.result? (x.arg 2) = some v → ∃ t i, foldUnary op type (c.session.tree.handle x.index) loc c
      = .ok (t.handle i, c.withTree t) ∧ t.Carries (constantNode i type v loc :: rest) ∧
      (fitsInt v = true ∨ x.arg 2 = -2147483648 ∧ v = 2147483648)) ∧
    ∀ (op : BinaryOp) (l r : Rose) (v : Int), c.session.tree.Carries (l :: r :: rest) →
    IsInteger l → IsInteger r →
    op.ShiftsExactly (r.arg 2) → op.result? (l.arg 2) (r.arg 2) = some v →
    ∃ t i j w, foldBinary op type (c.session.tree.handle l.index)
    (c.session.tree.handle r.index) loc c = .ok (t.handle i, (c.withJournal j).withTree t) ∧
    t.Carries (constantNode i type w loc :: rest) ∧ fitsInt w = true ∧
    (if fitsInt v then w = v ∧ j = c.session.journal
          else c.session.journal.Adds j
              (if c.warns .overflow then [⟨.warning, loc, .plain .foldOverflow⟩] else [])) := by
  constructor
  · intro op x v carries integer exact
    have constant := unaryConstant_run on (carries.has List.mem_cons_self) integer op type
    rw [exact] at constant
    obtain ⟨t, removed, left, -⟩ := discard_run carries
    obtain ⟨u, i, built, done⟩ := buildConstant_run (c := c.withTree t) left type v loc
    refine ⟨u, i, ?_, done, UnaryOp.result?_fits integer.small exact⟩
    rw [foldUnary, bind_run constant]
    exact (bind_run removed).trans built
  · intro op l r v carries left right shifts exact
    have constant :=
      binaryConstant_run on (carries.has (by simp)) (carries.has (by simp)) left right shifts type
    rw [exact] at constant
    -- Both ways lead to the removal of the operands, with another journal.
    have replaced (j : Journal) (w : Int) : ∃ t i, (do
        discard (c.session.tree.handle r.index)
        discard (c.session.tree.handle l.index)
        buildConstant type w loc : Check Handle) (c.withJournal j) =
          .ok (t.handle i, (c.withJournal j).withTree t) ∧
        t.Carries (constantNode i type w loc :: rest) := by
      obtain ⟨t, removedR, leftL, keepsL⟩ :=
        discard_run (c := c.withJournal j) (carries.perm (.swap r l rest))
      obtain ⟨u, removedL, remains, -⟩ := discard_run (c := (c.withJournal j).withTree t) leftL
      rw [show ((c.withJournal j).withTree t).session.tree.handle l.index = _
        from keepsL l List.mem_cons_self] at removedL
      obtain ⟨v, i, built, done⟩ :=
        buildConstant_run (c := ((c.withJournal j).withTree t).withTree u) remains type w loc
      exact ⟨v, i, (bind_run removedR).trans ((bind_run removedL).trans built), done⟩
    by_cases fits : fitsInt v = true
    · rw [Option.map_some, if_pos fits] at constant
      obtain ⟨t, i, run, done⟩ := replaced c.session.journal v
      refine ⟨t, i, c.session.journal, v, ?_, done, fits, by simp [fits]⟩
      rw [foldBinary, bind_run constant]
      exact run
    · rw [Option.map_some, if_neg fits] at constant
      obtain ⟨j, warned, adds⟩ := warn_run roomy near .overflow (.plain .foldOverflow)
      obtain ⟨t, i, run, done⟩ := replaced j (wrap32 v)
      refine ⟨t, i, j, wrap32 v, ?_, done, ?_, by simpa [fits] using adds⟩
      · rw [foldBinary, bind_run constant]
        exact (bind_run warned).trans run
      · simp only [fitsInt_iff, wrap32, Int.bmod]
        split <;> omega

/-- A state of a program without text. -/
def blank : Checker := ⟨.new Kind.unit.number (.new none false), 0, [], 0, 0, none, 0, 0⟩

/-- The opposite of the least integer is folded to a constant that is no integer, without a
report. -/
theorem fold_exact_least : ∃ c x t i, c.session.tree.Carries [x] ∧ x.arg 2 = -2147483648 ∧
    IsInteger x ∧ folding c = .ok (true, c) ∧ c.session.journal.Roomy ∧ Location.Near ⟨0, 1⟩ ∧
    foldUnary .minus TypeId.int (c.session.tree.handle x.index) ⟨0, 1⟩ c =
    .ok (t.handle i, c.withTree t) ∧
    t.Carries [constantNode i TypeId.int 2147483648 ⟨0, 1⟩] ∧ fitsInt 2147483648 = false := by
  have empty : blank.session.tree.Carries [] := (Arena.holds_new _).carries
  obtain ⟨t, i, -, done⟩ := buildConstant_run empty TypeId.int (-2147483648) ⟨0, 1⟩
  have roomy : (blank.withTree t).session.journal.Roomy :=
    .inr (by simp [blank, withTree, Session.new, Journal.new])
  have near : Location.Near ⟨0, 1⟩ := ⟨by decide, by decide⟩
  have integer : IsInteger (constantNode i TypeId.int (-2147483648) ⟨0, 1⟩) := ⟨rfl, rfl, rfl⟩
  obtain ⟨u, j, run, left, -⟩ :=
    (fold_exact (blank.withTree t) [] TypeId.int ⟨0, 1⟩ rfl roomy near).1
      .minus _ 2147483648 done integer rfl
  exact ⟨_, _, u, j, done, rfl, integer, rfl, roomy, near, run, left, by decide⟩

end Checker

end BilingualC
