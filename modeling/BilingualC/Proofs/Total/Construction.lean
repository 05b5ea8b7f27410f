import Mathlib
import BilingualC.Proofs.Arena.Refinement
import BilingualC.Proofs.Total.Library
import BilingualC.Proofs.Total.Start

/-!
# One diagnostic for each refused expression

`Construction` is a call of a rule for expressions. In a state that holds some expressions under the
root (`Checker.Stocked`), every call comes to an end in such a state. With a broken operand it gives
a broken node and changes nothing; otherwise it gives an expression and reports no error, or a
broken node and reports one.
-/

namespace BilingualC

open Guarded Rose

/-! ## Calls -/

/-- A call of a rule for expressions. -/
inductive Construction where
  | identifier (spelling : Int) (loc : Location)
  | value (n : Handle)
  | constant (tok : Token)
  | subscript (base index : Handle) (opening close : Location)
  | call (callee : Handle) (args : List Handle) (opening close : Location)
  | member (base : Handle) (name : Int) (arrow : Bool) (opLoc nameLoc : Location)
  | unary (op : UnaryOp) (operand : Handle) (opLoc : Location)
  | binary (op : BinaryOp) (l r : Handle) (opLoc : Location)
  | ternary (cond l r : Handle) (opLoc : Location)
  | list (elements : List Handle) (opening close : Location)
  | library (b : Builtin) (args : List Handle) (loc : Location)

namespace Construction

/-- The rule with its operands. -/
def run : Construction → Check Handle
  | .identifier spelling loc => Checker.identifier spelling loc
  | .value n => Checker.value n
  | .constant tok => Checker.constant tok
  | .subscript base index opening close => Checker.subscript base index opening close
  | .call callee args opening close => Checker.call callee args opening close
  | .member base name arrow opLoc nameLoc => Checker.member base name arrow opLoc nameLoc
  | .unary op operand opLoc => Checker.unary op operand opLoc
  | .binary op l r opLoc => Checker.binary op l r opLoc
  | .ternary cond l r opLoc => Checker.ternary cond l r opLoc
  | .list elements opening close => Checker.initializerList elements opening close
  | .library b args loc => Checker.library b args loc

def operands : Construction → List Handle
  | .identifier _ _ | .constant _ => []
  | .value n | .member n _ _ _ _ | .unary _ n _ => [n]
  | .subscript l r _ _ | .binary _ l r _ => [l, r]
  | .call callee args _ _ => callee :: args
  | .ternary cond l r _ => [cond, l, r]
  | .list ns _ _ | .library _ ns _ => ns

/-- The places in the source that a call is told about. -/
def locations : Construction → List Location
  | .identifier _ loc | .unary _ _ loc | .binary _ _ _ loc | .ternary _ _ _ loc
  | .library _ _ loc =>
    [loc]
  | .constant tok => [tok.loc]
  | .value _ => []
  | .subscript _ _ a b | .call _ _ a b | .member _ _ _ a b | .list _ a b => [a, b]

/-- The location of the expression that a call gives for some operands. -/
def place (k : Construction) (xs : List Rose) : Location :=
  let first := (xs.headD default).location
  let last := (xs.getLastD default).location
  match k with
  | .identifier _ loc => loc
  | .constant tok => tok.loc
  | .value _ => first
  | .subscript _ _ _ close | .call _ _ _ close | .member _ _ _ _ close => Location.span first close
  | .unary op _ opLoc => Checker.unaryPlace op (xs.headD default) opLoc
  | .binary _ _ _ _ | .ternary _ _ _ _ => Location.span first last
  | .list _ opening close => Location.span opening close
  | .library b _ loc => Checker.libraryPlace b xs loc

/-- The operator or the function of a call is one of the tables. -/
def Listed : Construction → Prop
  | .unary op _ _ => ∀ n, op ≠ .unlisted n
  | .binary op _ _ _ => ∀ n, op ≠ .unlisted n
  | .library b _ _ => b.isListed = true
  | _ => True

/-- The name of a field ends where the call is told that it stands. -/
def Named (names : Session.NameEnds) : Construction → Prop
  | .member _ name _ _ nameLoc => names nameLoc.stop name
  | _ => True

theorem named_always (k : Construction) : k.Named fun _ _ => True := by
  cases k <;> trivial

end Construction

namespace Checker

variable {c c' : Checker} {rest pool : List Rose} {n : Handle} {k : Construction}
    {names : Session.NameEnds}

/-! ## Broken operands -/

theorem anyBroken_of_mem {ns : List Handle} (mem : n ∈ ns)
    (broken : c.session.tree.isBroken n = true) : anyBroken ns c = .ok (true, c) := by
  have any : ns.any c.session.tree.isBroken = true := List.any_eq_true.mpr ⟨n, mem, broken⟩
  show Except.ok (List.any _ _, c) = _
  rw [any]

/-- A broken operand is passed on: nothing changes and nothing is reported. -/
theorem construction_broken (given : n ∈ k.operands) (broken : c.session.tree.isBroken n = true) :
    ∃ m, k.run c = .ok (m, c) ∧ (m = .broken ∨ m = n) := by
  have passed {ns : List Handle} {next : Check Handle} (mem : n ∈ ns) :
      ((do if ← anyBroken ns then return .broken else next) : Check Handle) c = .ok (.broken, c) :=
      by
    rw [bind_run (anyBroken_of_mem mem broken)]
    rfl
  cases k with
  | identifier _ _ | constant _ => cases given
  | value m =>
    obtain rfl := List.mem_singleton.mp given
    refine ⟨n, ?_, .inr rfl⟩
    rw [Construction.run, value, bind_run (isBroken_run n c), broken]
    rfl
  | subscript _ _ _ _ | call _ _ _ _ | binary _ _ _ _ | ternary _ _ _ _ =>
    exact ⟨_, passed given, .inl rfl⟩
  | library _ _ _ =>
    refine ⟨.broken, ?_, .inl rfl⟩
    unfold Construction.run library
    exact passed given
  | member m _ _ _ _ | unary _ m _ =>
    obtain rfl := List.mem_singleton.mp given
    refine ⟨.broken, ?_, .inl rfl⟩
    simp only [Construction.run, member, unary]
    rw [bind_run (isBroken_run n c), broken]
    rfl
  | list elements _ _ =>
    refine ⟨.broken, ?_, .inl rfl⟩
    have some : elements.isEmpty = false := by
      rw [List.isEmpty_eq_false_iff]
      exact List.ne_nil_of_mem given
    simp only [Construction.run, initializerList, some, Bool.false_eq_true, if_false]
    exact passed given

/-! ## Operands under the root -/

/-- A state of the checker that holds some expressions under the root. -/
structure Stocked (c : Checker) (pool : List Rose) : Prop where
  fine : c.Fine fun _ => False
  carries : ∃ others, c.session.tree.Carries (pool ++ others)
  operands : ∀ x ∈ pool, c.session.types.Operand (fun _ => False) x

theorem handles_one {xs : List Rose} (same : [n] = c.handles xs) : ∃ x, xs = [x] ∧
    n = c.session.tree.handle x.index := by
  obtain ⟨x, rfl, rfl⟩ := List.map_eq_singleton_iff.mp same.symm
  exact ⟨x, rfl, rfl⟩

theorem handles_cons {xs : List Rose} {ns : List Handle} (same : n :: ns = c.handles xs) :
    ∃ x rest, xs = x :: rest ∧ n = c.session.tree.handle x.index ∧ ns = c.handles rest := by
  obtain ⟨x, rest, rfl, rfl, rfl⟩ := List.map_eq_cons_iff.mp same.symm
  exact ⟨x, rest, rfl, rfl, rfl⟩

/-- A call with operands under the root gives an expression or one error. -/
theorem construction_gives {ok : Fault → Prop} {xs : List Rose}
    (fine : c.Fine ok) (carries : c.session.tree.Carries (xs ++ rest))
    (operands : ∀ x ∈ xs, c.session.types.Operand ok x) (listed : k.Listed) (named : k.Named names)
    (near : Loose ok ∨ ∀ loc ∈ k.locations, loc.Near) (given : k.operands = c.handles xs) :
    Ends ok k.run c (c.Gives ok rest (c.Typed names (k.place xs) xs)) := by
  have one {a : Location} (mem : k.locations = [a]) : Loose ok ∨ a.Near :=
    near.imp_right fun near => near a (by simp [mem])
  have two {a b : Location} (mem : k.locations = [a, b]) : Loose ok ∨ (a.Near ∧ b.Near) :=
    near.imp_right fun near => ⟨near a (by simp [mem]), near b (by simp [mem])⟩
  cases k with
  | identifier spelling loc =>
    obtain rfl : xs = [] := List.map_eq_nil_iff.mp given.symm
    exact identifier_ends fine carries (one rfl) spelling
  | constant tok =>
    obtain rfl : xs = [] := List.map_eq_nil_iff.mp given.symm
    exact constant_ends fine carries tok (one rfl)
  | value n =>
    obtain ⟨x, rfl, rfl⟩ := handles_one given
    exact value_ends fine carries (operands x (by simp))
  | subscript base index opening close =>
    obtain ⟨x, _, rfl, rfl, others⟩ := handles_cons given
    obtain ⟨y, rfl, rfl⟩ := handles_one others
    exact subscript_ends fine carries (operands x (by simp)) (operands y (by simp)) (two rfl)
  | call callee args opening close =>
    obtain ⟨x, xs, rfl, rfl, rfl⟩ := handles_cons given
    exact call_ends fine carries (operands x (by simp)) (fun a mem =>
      operands a (by simp [mem])) (two rfl)
  | member base name arrow opLoc nameLoc =>
    obtain ⟨x, rfl, rfl⟩ := handles_one given
    exact member_ends fine carries (operands x (by simp)) name arrow (two rfl) named
  | unary op operand opLoc =>
    obtain ⟨x, rfl, rfl⟩ := handles_one given
    exact unary_ends fine carries (operands x (by simp)) listed (one rfl)
  | binary op l r opLoc =>
    obtain ⟨x, _, rfl, rfl, others⟩ := handles_cons given
    obtain ⟨y, rfl, rfl⟩ := handles_one others
    exact binary_ends fine carries (operands x (by simp)) (operands y (by simp)) listed (one rfl)
  | ternary cond l r opLoc =>
    obtain ⟨x, _, rfl, rfl, others⟩ := handles_cons given
    obtain ⟨y, _, rfl, rfl, last⟩ := handles_cons others
    obtain ⟨z, rfl, rfl⟩ := handles_one last
    exact ternary_ends fine carries (operands x (by simp)) (operands y (by simp))
      (operands z (by simp)) (one rfl)
  | list elements opening close =>
    obtain rfl : elements = c.handles xs := given
    exact initializerList_ends fine carries operands (two rfl)
  | library b args loc =>
    obtain rfl : args = c.handles xs := given
    exact library_ends fine carries listed operands (one rfl)

/-- What a call of a rule does to a state that holds some expressions. -/
structure Reports (c : Checker) (pool : List Rose) (k : Construction) (n : Handle) (c' : Checker)
    (pool' : List Rose) : Prop where
  stocked : c'.Stocked pool'
  kept : ∀ x ∈ pool, c.session.tree.handle x.index ∉ k.operands →
    x ∈ pool' ∧ c'.session.tree.handle x.index = c.session.tree.handle x.index
  outcome :
    if k.operands.any c.session.tree.isBroken then c'.session.tree.isBroken n = true ∧ c' = c
    else ((∃ x ∈ pool', n = c'.session.tree.handle x.index) ∧ c'.errors = c.errors) ∨
      (c'.session.tree.isBroken n = true ∧ c'.errors = c.errors + 1)

/-- Operands that are all live are the handles of trees under the root, which can be put in front of
the others. -/
theorem select_handles {ns : List Handle} (distinct : ns.Nodup)
    (given : ∀ n ∈ ns, ∃ x ∈ pool, n = c.session.tree.handle x.index) :
    ∃ xs left, ns = c.handles xs ∧ pool.Perm (xs ++ left) := by
  have chosen : ∃ xs, ns = c.handles xs ∧ ∀ x ∈ xs, x ∈ pool := by
    clear distinct
    induction ns with
    | nil => exact ⟨[], rfl, nofun⟩
    | cons n ns ih =>
      obtain ⟨⟨x, mem, rfl⟩, others⟩ := List.forall_mem_cons.mp given
      obtain ⟨xs, rfl, all⟩ := ih others
      exact ⟨x :: xs, rfl, List.forall_mem_cons.mpr ⟨mem, all⟩⟩
  obtain ⟨xs, rfl, all⟩ := chosen
  have nodup : xs.Nodup := distinct.of_map _
  obtain ⟨ys, same, inside⟩ := nodup.subperm all
  obtain ⟨left, perm⟩ := inside.exists_perm_append
  exact ⟨xs, left, rfl, perm.trans (same.append_right left)⟩

/-- **Each refused expression is reported once.** In every state of the checker, a call of a rule
for expressions whose operands are broken, or distinct expressions under the root, comes to an end
in such a state. With a broken operand it gives a broken node, and nothing is reported or changed.
Otherwise it gives an expression and reports no error, or it gives a broken node and reports exactly
one. -/
theorem construction_reports_once (stocked : c.Stocked pool)
    (listed : k.Listed) (near : ∀ loc ∈ k.locations, loc.Near)
    (given : ∀ n ∈ k.operands, c.session.tree.isBroken n = true ∨
      ∃ x ∈ pool, n = c.session.tree.handle x.index)
    (distinct : (k.operands.filter fun n => !c.session.tree.isBroken n).Nodup) :
    ∃ n c' pool', k.run c = .ok (n, c') ∧ c.Reports pool k n c' pool' := by
  by_cases broken : k.operands.any c.session.tree.isBroken
  · obtain ⟨n, mem, isBroken⟩ := List.any_eq_true.mp broken
    obtain ⟨m, run, passed⟩ := construction_broken mem isBroken
    refine ⟨m, c, pool, run, stocked, fun x mem _ => ⟨mem, rfl⟩, ?_⟩
    rw [if_pos broken]
    refine ⟨?_, rfl⟩
    rcases passed with rfl | rfl
    · exact Arena.isBroken_broken _
    · exact isBroken
  · have live : ∀ n ∈ k.operands, c.session.tree.isBroken n = false := by simpa using broken
    have whole : (k.operands.filter fun n => !c.session.tree.isBroken n) = k.operands :=
      List.filter_eq_self.mpr fun n mem => by simp [live n mem]
    -- the operands are taken from the pool, and what is left of it is not touched
    obtain ⟨xs, left, same, perm⟩ := select_handles (whole ▸ distinct) fun n mem =>
      (given n mem).resolve_left (by simp [live n mem])
    obtain ⟨others, carries⟩ := stocked.carries
    have chosen : c.session.tree.Carries (xs ++ (left ++ others)) := by
      rw [← List.append_assoc]
      exact carries.perm (perm.append_right others)
    obtain ⟨⟨n, c'⟩, run, (gives : c.Gives _ _ _ n c')⟩ :=
      (construction_gives stocked.fine chosen (fun x mem => stocked.operands x (perm.mem_iff.mpr
        (List.mem_append_left left mem))) listed k.named_always (.inr near) same).answer
    have remains : ∀ x ∈ left, c'.session.types.Operand (fun _ => False) x := fun x mem =>
      (stocked.operands x (perm.mem_iff.mpr (List.mem_append_right xs mem))).continue
        gives.onward.types gives.fine.regular.types
    have stay : ∀ x ∈ pool, c.session.tree.handle x.index ∉ k.operands →
        x ∈ left ∧ c'.session.tree.handle x.index = c.session.tree.handle x.index := by
      intro x mem unused
      have inLeft : x ∈ left := by
        refine (List.mem_append.mp (perm.mem_iff.mp mem)).resolve_left fun used => unused ?_
        rw [same]
        exact List.mem_map_of_mem used
      exact ⟨inLeft, gives.keeps x (List.mem_append_left others inLeft)⟩
    obtain ⟨rfl, one, junk, after⟩ | ⟨none, x, rfl, after, operand, -⟩ : _ ∨ _ := gives.outcome
    · have order : (junk ++ (left ++ others)).Perm (left ++ (junk ++ others)) := by
        rw [← List.append_assoc, ← List.append_assoc]
        exact List.perm_append_comm.append_right others
      refine ⟨.broken, c', left, run, ⟨gives.fine, ⟨_, after.perm order⟩, remains⟩, stay, ?_⟩
      rw [if_neg broken]
      exact .inr ⟨Arena.isBroken_broken _, one⟩
    · refine ⟨_, c', x :: left, run,
        ⟨gives.fine, ⟨others, by simpa using after⟩, List.forall_mem_cons.mpr ⟨operand, remains⟩⟩,
        fun y mem unused => (stay y mem unused).imp_left (List.mem_cons_of_mem x), ?_⟩
      rw [if_neg broken]
      exact .inl ⟨⟨x, List.mem_cons_self, rfl⟩, none⟩

/-- A checker that starts on an empty session holds no expressions. -/
theorem stocked_new (options : Option Options) (silent : Bool) :
    ∃ c, Checker.new (Session.new Kind.unit.number (.new options silent)) = .ok c ∧
    c.Stocked [] := by
  generalize fresh : Session.new Kind.unit.number (.new options silent) = s
  have regular : s.Regular := fresh ▸ Session.regular_new _ _
  have linked : s.Linked := fresh ▸ Session.linked_new _ _
  have tight : s.types.Short ∧ s.journal.Roomy := fresh ▸ ⟨Session.short_new _ _, .inr nofun⟩
  obtain ⟨c, started, begins⟩ := (new_ends regular (.inr linked) (.inr tight)).answer
  refine ⟨c, started, begins.fine, ⟨[], ?_⟩, nofun⟩
  rw [begins.tree, ← fresh]
  exact (Arena.holds_new _).carries

/-- A constant is made and negated. -/
theorem construction_reports_once_minus : ∃ c one c₁ p₁ minus c₂ p₂,
    Checker.new (Session.new Kind.unit.number (.new none true)) = .ok c ∧ Construction.run
    (.constant { Token.bare .intLiteral ⟨0, 1⟩ with intValue := 1 }) c = .ok (one, c₁) ∧
    c.Reports [] (.constant { Token.bare .intLiteral ⟨0, 1⟩ with intValue := 1 }) one c₁ p₁ ∧
    Construction.run (.unary .minus one ⟨0, 1⟩) c₁ = .ok (minus, c₂) ∧
    c₁.Reports p₁ (.unary .minus one ⟨0, 1⟩) minus c₂ p₂ := by
  obtain ⟨c, started, stocked⟩ := stocked_new none true
  have near : Location.Near ⟨0, 1⟩ := ⟨by decide, by decide⟩
  obtain ⟨one, c₁, p₁, made, first⟩ := construction_reports_once stocked
    (k := .constant { Token.bare .intLiteral ⟨0, 1⟩ with intValue := 1 }) trivial
    (List.forall_mem_singleton.mpr near) nofun List.nodup_nil
  have given : c₁.session.tree.isBroken one = true ∨
    ∃ x ∈ p₁, one = c₁.session.tree.handle x.index :=
    first.outcome.elim (fun live => .inr live.1) fun broken => .inl broken.1
  obtain ⟨minus, c₂, p₂, negated, second⟩ :=
    construction_reports_once first.stocked (k := .unary .minus one ⟨0, 1⟩) nofun
      (List.forall_mem_singleton.mpr near) (by simpa [Construction.operands] using given)
      ((List.nodup_singleton one).filter _)
  exact ⟨c, one, c₁, p₁, minus, c₂, p₂, started, made, first, negated, second⟩

end Checker

end BilingualC
