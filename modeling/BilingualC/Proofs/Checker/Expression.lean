import Mathlib
import BilingualC.Checker.Expression
import BilingualC.Proofs.Checker.Conversion

/-!
# Rules for expressions, checked

Every rule for expressions takes the slots of its operands from the stack and leaves the slot of an
expression, or reports an error.
-/

namespace BilingualC

open Std.Do

set_option mvcgen.warning false

theorem UnaryOp.ofNumber_number {op : UnaryOp} (listed : ∀ n, op ≠ .unlisted n) :
    ofNumber op.number = op := by
  cases op <;> first | rfl | exact absurd rfl (listed _)

theorem BinaryOp.ofNumber_number {op : BinaryOp} (listed : ∀ n, op ≠ .unlisted n) :
    ofNumber op.number = op := by
  cases op <;> first | rfl | exact absurd rfl (listed _)

namespace Checker

open Rose

variable {c₀ c : Checker}

/-! ## Expressions that are built -/

section Built

variable {kind : Kind} {type : TypeId} {category : Int} {args : List Int} {operands : List Handle}
    {a b n : Handle}

theorem Built.expr {ins : List Slot} (built : c₀.Built kind (type :: category :: args) operands n c)
    (named : operands = (ins.map (·.handle)).reverse) (plain : kind.isPlain = true)
    (anonymous : kind.isAnonymous = true) (good : ∀ w trees rest, c₀.Stands w (trees ++ rest) →
      c₀.Fits ins trees → ∀ node : Rose, node.kind = kind → node.args = type :: category :: args →
      node.children = trees.reverse → IsExpr node ∧ c₀.session.types.Valid type) :
    c₀.Effect ins [.expr n] c := by
  refine built.effect (by rw [named]) plain fun w trees rest stands fits node isKind isArgs kids =>
    ?_
  obtain ⟨expr, valid⟩ := good w trees rest stands fits node isKind isArgs kids
  refine ⟨expr, Session.refers_anonymous isKind anonymous fun _ => ?_⟩
  rwa [exprType, arg, isArgs]

theorem Built.expr₁ (built : c₀.Built kind (type :: category :: args) [a] n c)
    (plain : kind.isPlain = true) (anonymous : kind.isAnonymous = true)
    (good : ∀ w x rest, c₀.Stands w (x :: rest) → a = c₀.session.tree.handle x.index → IsExpr x →
      ∀ node : Rose, node.kind = kind → node.args = type :: category :: args → node.children = [x] →
      IsExpr node ∧ c₀.session.types.Valid type) : c₀.Effect [.expr a] [.expr n] c := by
  refine built.expr rfl plain anonymous fun w trees rest stands fits node isKind isArgs kids => ?_
  obtain ⟨x, rfl, handle, expr⟩ := fits_one.mp fits
  exact good w x rest stands handle expr node isKind isArgs kids

theorem Built.expr₂ (built : c₀.Built kind (type :: category :: args) [a, b] n c)
    (plain : kind.isPlain = true) (anonymous : kind.isAnonymous = true)
    (good : ∀ w x y rest, c₀.Stands w (y :: x :: rest) → a = c₀.session.tree.handle x.index →
      IsExpr x → b = c₀.session.tree.handle y.index → IsExpr y → ∀ node : Rose, node.kind = kind →
      node.args = type :: category :: args → node.children = [x, y] → IsExpr node ∧
      c₀.session.types.Valid type) : c₀.Effect [.expr b, .expr a] [.expr n] c := by
  refine built.expr rfl plain anonymous fun w trees rest stands fits node isKind isArgs kids => ?_
  obtain ⟨y, x, rfl, handleY, exprY, handleX, exprX⟩ := fits_two.mp fits
  exact good w x y rest stands handleX exprX handleY exprY node isKind isArgs kids

end Built

/-- A rule whose operands are broken gives a broken node. -/
theorem Effect.of_anyBroken {ins outs : List Slot}
    {ns : List Handle} (inside : ∀ n ∈ ns, n ∈ ins.map (·.handle))
    (broken : ns.any c.session.tree.isBroken = true) : c.Effect ins outs c := by
  obtain ⟨n, mem, broken⟩ := List.any_eq_true.mp broken
  exact .of_broken (inside n mem) broken

/-! ## Names and constants -/

@[spec] theorem buildExpr_spec (kind : Kind) (type : TypeId) (category : Category)
    (loc : Location) (args : List Int) (operands : List Handle) :
    ⦃fun c => ⌜c = c₀⌝⦄ buildExpr kind type category loc args operands ⦃⇓? n c =>
    ⌜c₀.Built kind (type :: category.word :: (args ++ [loc.start, loc.stop])) operands n c⌝⦄ := by
  mvcgen [buildExpr]
  next same _ _ => exact fun built => same ▸ built

/-- A name of a variable or a function. -/
theorem Built.name {id category : Int} {loc : List Int} {n : Handle}
    (built : c₀.Built .identifier ((c₀.session.identifier id).type :: category :: id :: loc) [] n c)
    (known : c₀.session.Tables → id < c₀.session.identifiers.size ∧
      ((c₀.session.identifier id).kind = .variable ∨ (c₀.session.identifier id).kind = .function)) :
    c₀.Effect [] [.expr n] c := by
  refine built.effect (by simp) rfl fun w trees rest stands fits node isKind isArgs kids => ?_
  obtain rfl := fits_nil.mp fits
  have valid := (stands.tables.entries id).type
  obtain ⟨declared, kind⟩ := known stands.tables
  refine ⟨.identifier isKind kids, ?_⟩
  constructor
  case toNodeOk =>
    constructor
    case type =>
      intro _
      rwa [exprType, arg, isArgs]
    case named =>
      intro _
      rw [arg, isArgs]
      rcases kind with same | same <;> simp [same]
    all_goals
      intro other
      cases isKind.symm.trans other
  case name =>
    intro _
    rw [exprType, arg, arg, isArgs]
    exact ⟨declared, rfl, kind⟩
  case place =>
    intro other
    cases isKind.symm.trans other

@[spec] theorem identifier_spec (spelling : Int) (loc : Location) :
    ⦃fun c => ⌜c = c₀⌝⦄ identifier spelling loc ⦃⇓? n c => ⌜c₀.Effect [] [.expr n] c⌝⦄ := by
  mvcgen [identifier, lookup, currentSession]
  all_goals subst_vars
  case vc4 function _ _ =>
    exact fun built => built.name fun tables => ⟨(tables.lookup _).1, .inr function⟩
  case vc5 notBuiltin notType notFunction =>
    exact fun built => built.name fun tables =>
      ⟨(tables.lookup _).1, .inl (tables.lookup_variable notBuiltin notType notFunction)⟩
  all_goals exact Effect.of_dirty

@[spec] theorem value_spec (n : Handle) :
    ⦃fun c => ⌜c = c₀⌝⦄ value n ⦃⇓? m c => ⌜c₀.Effect [.expr n] [.expr m] c⌝⦄ := by
  mvcgen [value, isBroken, tree, types, typeOf, locationOf]
  all_goals subst_vars
  case vc1 | vc2 => exact .refl
  case vc3 => exact Effect.of_dirty

/-- A type without components is valid. -/
theorem valid_scalar {types : TypeTable} {type : TypeId} (low : type ≤ 0) : types.Valid type :=
  .scalar low

/-- A constant or a string. -/
theorem Built.leaf {kind : Kind} {type : TypeId} {args : List Int} {n : Handle}
    (built : c₀.Built kind (type :: Category.value.word :: args) [] n c)
    (leaf : kind = .literal ∨ kind = .string)
    (valid : ∀ w trees, c₀.Stands w trees → c₀.session.types.Valid type) :
    c₀.Effect [] [.expr n] c := by
  have plain : kind.isPlain = true ∧ kind.isAnonymous = true := by
    rcases leaf with rfl | rfl <;> exact ⟨rfl, rfl⟩
  refine built.expr rfl plain.1 plain.2 fun w trees rest stands fits node isKind isArgs kids =>
    ⟨?_, valid w _ stands⟩
  obtain rfl := fits_nil.mp fits
  have notPlace : node.isPlace = false := by rw [Rose.isPlace, arg, isArgs]; rfl
  rcases leaf with rfl | rfl
  · exact .literal isKind notPlace kids
  · exact .string isKind notPlace kids

@[spec] theorem constant_spec (tok : Token) :
    ⦃fun c => ⌜c = c₀⌝⦄ constant tok ⦃⇓? n c => ⌜c₀.Effect [] [.expr n] c⌝⦄ := by
  mvcgen [constant, buildConstant]
  all_goals subst_vars
  case vc3 => exact fun built => built.leaf (.inr rfl) fun _ _ stands => stands.string
  all_goals exact fun built => built.leaf (.inl rfl) fun _ _ _ => valid_scalar (by decide)

/-! ## Discarded operands -/

/-- The expression on top of the stack is removed. -/
theorem Stands.discard {w : World} {r : Rose} {rest : List Rose} {answer : Answer Arena}
    (stands : c₀.Stands w (r :: rest)) (expr : IsExpr r)
    (removed : c₀.session.tree.remove (c₀.session.tree.handle r.index) = .ok answer) :
    ∃ t, answer = .ok t ∧ (c₀.withTree t).Stands w rest ∧
      ∀ x ∈ rest, t.generation x.index = c₀.session.tree.generation x.index := by
  have holds := stands.holds
  rw [List.reverse_cons, ← List.append_assoc] at holds
  obtain ⟨t, rfl, left, kept⟩ := holds.remove_waiting removed
  rw [List.append_nil] at left kept
  have none (k : Kind) (other : k.isExpression = false) :
      rest.flatMap (collect k) = (r :: rest).flatMap (collect k) := by
    rw [List.flatMap_cons, collect_expr expr other, List.nil_append]
  refine ⟨t, rfl, stands.withTree left (fun x mem =>
    stands.covers x (List.mem_cons_of_mem r mem)) ?_ ?_, fun x mem => ?_⟩
  · rw [labelsIn, none .label rfl]
    rfl
  · rw [jumpsIn, none .jump rfl]
    exact fun _ => id
  · exact kept _ (index_mem_unit (by simp [mem]))

/-- A constant operand that was evaluated is taken from the stack. -/
@[spec] theorem discard_spec (n : Handle) :
    ⦃fun c => ⌜c = c₀⌝⦄ discard n ⦃⇓? _ c => ⌜c₀.Effect [.expr n] [] c⌝⦄ := by
  mvcgen [discard, tree]
  all_goals subst_vars
  case vc1 removed _ _ =>
    rintro rfl w base (dirty | ⟨_, stands, fits⟩)
    · exact .inl dirty
    · obtain ⟨r, rest, rfl, rfl, expr, lower⟩ := fits_cons.mp fits
      obtain ⟨t, same, after, kept⟩ := stands.discard expr removed
      cases same
      exact .inr ⟨rest, after, lower.keep kept⟩
  case vc2 removed =>
    rintro w base (dirty | ⟨_, stands, fits⟩)
    · exact .inl dirty
    · obtain ⟨r, rest, rfl, rfl, expr, lower⟩ := fits_cons.mp fits
      obtain ⟨t, same, -⟩ := stands.discard expr removed
      cases same

/-! ## Selections and calls -/

@[spec] theorem subscript_spec (base index : Handle) (opening close : Location) :
    ⦃fun c => ⌜c = c₀⌝⦄ subscript base index opening close
    ⦃⇓? n c => ⌜c₀.Effect [.expr index, .expr base] [.expr n] c⌝⦄ := by
  mvcgen [subscript, anyBroken, tree, typeOf, types, locationOf]
  all_goals subst_vars
  case vc1 broken => exact .of_anyBroken (by simp [Slot.expr]) broken
  case vc4 type _ _ _ _ _ _ _ _ element _ _ =>
    refine fun built =>
      built.expr₂ rfl rfl fun w x y rest stands handle base handle' index node kind args kids => ?_
    refine ⟨.subscript kind kids base index, ?_⟩
    rw [← stands.type (by simp) handle type] at element
    exact (stands.valid (by simp) base).element element
  all_goals exact Effect.of_dirty


/-- Arguments were converted in their places, or one of them was reported. -/
def ArgumentsConverted (c₀ : Checker) (valid : Prop) (count : Nat) (args : List Handle)
    (out : Option (List Handle)) (c : Checker) : Prop :=
  match out with
  | none => c.Dirty
  | some args' =>
    ∃ t, c = c₀.withTree t ∧ ∀ w upper trees lower, c₀.Stands w (upper ++ trees ++ lower) →
      c₀.Fits (exprs args) trees → valid → count = args.length →
      ∃ trees', c.Stands w (upper ++ trees' ++ lower) ∧ c.Fits (exprs args') trees' ∧
      ∀ i, t.generation i = c₀.session.tree.generation i

theorem argumentsConverted_nil (valid : Prop) {count : Nat} {args : List Handle}
    (none : count = 0 ∨ args = []) : c.ArgumentsConverted valid count args (some []) c := by
  refine ⟨c.session.tree, rfl, fun _ _ trees _ stands fits _ length =>
    ⟨trees, stands, ?_, fun _ => rfl⟩⟩
  obtain rfl : args = [] := by
    rcases none with rfl | rfl
    · exact List.eq_nil_of_length_eq_zero length.symm
    · rfl
  exact fits

/-- The first argument is converted, then the others. -/
theorem ArgumentsConverted.cons {c₁ : Checker} {valid later : Prop} {arg arg' : Handle}
    {args : List Handle} {count : Nat} {out : Option (List Handle)}
    (first : ∃ t, c₁ = c₀.withTree t ∧ ∀ w upper x lower, c₀.Stands w (upper ++ x :: lower) →
      arg = c₀.session.tree.handle x.index → IsExpr x → valid →
      ∃ x', c₀.Swapped w upper lower arg' x' c₁ ∧ IsExpr x')
    (rest : c₁.ArgumentsConverted later count args out c) (sound : valid → later) :
    c₀.ArgumentsConverted valid (count + 1) (arg :: args) (out.map (arg' :: ·)) c := by
  cases out with
  | none => exact rest
  | some args' =>
    obtain ⟨t₁, rfl, first⟩ := first
    obtain ⟨t, rfl, rest⟩ := rest
    refine ⟨t, rfl, fun w upper trees lower stands fits good length => ?_⟩
    rw [exprs_cons] at fits
    obtain ⟨above, one, rfl, fitsAbove, fitsOne⟩ := fits_append.mp fits
    obtain ⟨x, rfl, named, expr⟩ := fits_one.mp fitsOne
    rw [← List.append_assoc, List.append_assoc _ [x], List.singleton_append] at stands
    obtain ⟨x', swapped, expr'⟩ := first w (upper ++ above) x lower stands named expr good
    obtain ⟨above', after, fitsAfter, kept⟩ := rest w upper above (x' :: lower) swapped.stands
      (fitsAbove.keep fun r _ => swapped.kept r.index) (sound good) (by simpa using length)
    refine ⟨above' ++ [x'], by simpa using after, ?_, fun i => (kept i).trans (swapped.kept i)⟩
    rw [exprs_cons]
    refine fits_append.mpr ⟨above', [x'], rfl, fitsAfter, fits_one.mpr ⟨x', rfl, ?_, expr'⟩⟩
    exact swapped.handle.trans (Arena.handle_kept kept _).symm

theorem Converted.first {c₁ : Checker} {valid : Prop} {type : TypeId} {arg arg' : Handle}
    (converted : c₀.Converted type arg arg' none c₁) (sound : valid → c₀.session.types.Valid type) :
    ∃ t, c₁ = c₀.withTree t ∧ ∀ w upper x lower, c₀.Stands w (upper ++ x :: lower) →
    arg = c₀.session.tree.handle x.index → IsExpr x → valid →
    ∃ x', c₀.Swapped w upper lower arg' x' c₁ ∧ IsExpr x' := by
  obtain ⟨t, same, -⟩ := id converted
  refine ⟨t, same, fun w upper x lower stands named expr good => ?_⟩
  obtain ⟨x', swapped, _, keeps, _⟩ := converted.swapped stands named (.expr expr) (sound good)
  exact ⟨x', swapped, keeps expr⟩

@[spec] theorem convertArguments_spec (wanted : List (TypeId × (Diagnostic → Diagnostic)))
    (args : List Handle) : ⦃fun c => ⌜c = c₀⌝⦄ convertArguments wanted args ⦃⇓? out c =>
    ⌜c₀.ArgumentsConverted (∀ p ∈ wanted, c₀.session.types.Valid p.1) wanted.length args out c⌝⦄ :=
    by
  induction wanted generalizing args c₀ with
  | nil =>
    mvcgen [convertArguments]
    subst_vars
    exact argumentsConverted_nil _ (.inl rfl)
  | cons want wanted ih =>
    cases args with
    | nil =>
      mvcgen [convertArguments]
      subst_vars
      exact argumentsConverted_nil _ (.inr rfl)
    | cons arg args =>
      mvcgen [convertArguments, locationOf, tree, ih]
      all_goals subst_vars
      next fine _ converted _ _ rest =>
        rw [fine] at converted
        obtain ⟨t, rfl, -⟩ := id converted
        exact .cons (converted.first fun valid =>
          valid want List.mem_cons_self) rest fun valid p mem =>
          valid p (List.mem_cons_of_mem want mem)

/-- A name has no children. -/
theorem identifier_inv {r : Rose} (expr : IsExpr r) (kind : r.kind = .identifier) :
    r.children = [] := by
  cases expr with
  | identifier _ kids => exact kids
  | _ => simp_all

/-- A name that has the type of a function names a function. -/
theorem isFunction_of_name {s : Session} {f : Rose} (tables : s.Tables)
    (refers : s.Refers f) (kind : f.kind = .identifier)
    (isFunction : s.types.isFunction f.exprType = true) : s.IsFunction (f.arg 2) := by
  obtain ⟨_, type, known⟩ := refers.name kind
  have entry := tables.entries (f.arg 2)
  rcases known with isVariable | function
  · rw [← type, entry.value (.inl isVariable)] at isFunction
    cases isFunction
  · exact ⟨function, (entry.function function).2⟩

/-- The node of a call demands that its callee is a function. -/
theorem refers_call {s : Session} {node f : Rose} {args : List Rose} (kind : node.kind = .call)
    (kids : node.children = f :: args) (valid : s.types.Valid node.exprType)
    (isFunction : s.IsFunction (f.arg 2)) : s.Refers node := by
  constructor
  case toNodeOk =>
    constructor
    case type => exact fun _ => valid
    case callee =>
      intro _
      rwa [kids]
    all_goals
      intro other
      cases kind.symm.trans other
  all_goals
    intro other
    cases kind.symm.trans other

/-- A call takes in its callee, which is on top of the stack, and then its arguments. -/
theorem Built.call {c₁ : Checker} {callee n : Handle} {args args' : List Handle}
    {type result : TypeId} {loc : List Int} {valid : Prop} {count : Nat}
    (built : c₁.Built .call (result :: Category.value.word :: loc) (callee :: args') n c)
    (converted : c₀.ArgumentsConverted valid count args (some args') c₁)
    (length : count = args.length) (read : c₀.session.tree.exprType callee = .ok type)
    (kind : c₀.session.tree.kind callee = .identifier)
    (isFunction : c₀.session.types.isFunction type = true)
    (sound : c₀.session.types.Valid type → valid)
    (gives : c₁.session.types.result type = .ok result) :
    c₀.Effect (.expr callee :: exprs args) [.expr n] c := by
  obtain ⟨t₁, rfl, converted⟩ := converted
  rintro w base (dirty | ⟨_, stands, fits⟩)
  · obtain ⟨t, rfl, -⟩ := built
    exact .inl dirty
  rw [List.cons_append] at fits
  obtain ⟨f, _, rfl, named, expr, fits⟩ := fits_cons.mp fits
  obtain ⟨trees, rest, rfl, fitsArgs, lower⟩ := fits_append.mp fits
  have isType := stands.type List.mem_cons_self named read
  have kind : f.kind = .identifier := (stands.kind List.mem_cons_self named).trans kind
  have good := isType ▸ stands.valid List.mem_cons_self expr
  obtain ⟨trees', after, fitsAfter, kept⟩ :=
    converted w [f] trees rest stands fitsArgs (sound good) length
  obtain ⟨rfl, exprs⟩ := fits_each.mp fitsAfter
  have top : f ∈ [f] ++ trees' ++ rest := by simp
  have handle : callee = t₁.handle f.index := named.trans (Arena.handle_kept kept _).symm
  have live : (callee :: trees'.reverse.map fun r => t₁.handle r.index).filter (· ≠ .broken) =
      (f :: trees'.reverse).map fun r => t₁.handle r.index := by
    rw [handle]
    have inside : ∀ r ∈ f :: trees'.reverse, r ∈ [f] ++ trees' ++ rest := by
      intro r mem
      rcases List.mem_cons.mp mem with rfl | mem
      · exact top
      · exact List.mem_append_left _ (List.mem_append_right _ (List.mem_reverse.mp mem))
    exact after.filter_handles inside
  have function :=
    isFunction_of_name after.tables (after.covers f top).self kind (isType ▸ isFunction)
  obtain ⟨node, isKind, isArgs, kids, last, isHandle, keptLower⟩ :=
    after.build built (.cons f trees'.reverse_perm) live rfl fun node isKind isArgs kids =>
      refers_call isKind kids (by rw [exprType, arg, isArgs]; exact good.result gives) function
  refine .inr ⟨node :: rest, last, fits_cons.mpr ⟨node, rest, rfl, isHandle, ?_, ?_⟩⟩
  · refine .call isKind (by rw [Rose.isPlace, arg, isArgs]; rfl) kids kind
      (identifier_inv expr kind) fun x mem => ?_
    exact exprs x (List.mem_reverse.mp mem)
  · exact lower.keep fun r mem => (keptLower r mem).trans (kept r.index)

@[spec] theorem call_spec (callee : Handle) (args : List Handle) (opening close : Location) :
    ⦃fun c => ⌜c = c₀⌝⦄ call callee args opening close
    ⦃⇓? n c => ⌜c₀.Effect (.expr callee :: exprs args) [.expr n] c⌝⦄ := by
  mvcgen [call, anyBroken, tree, typeOf, types, kindOf, locationOf]
  all_goals subst_vars
  case vc1 broken =>
    exact .of_anyBroken (by simp [Slot.expr, handles_each]) broken
  case vc4 dirty => exact .of_dirty dirty
  case vc5 read callable _ length parameters _ _ converted _ _ _ _ result _ _ =>
    rw [Bool.not_eq_true, Bool.or_eq_false_iff, bne_eq_false_iff_eq, Bool.not_eq_false'] at callable
    refine fun built => built.call converted (by simpa using length) read callable.1 callable.2
      (fun valid p mem => ?_) result
    obtain ⟨type, inside, rfl⟩ := List.mem_map.mp mem
    exact valid.parameters parameters type inside
  all_goals exact Effect.of_dirty

/-- The structure that a member is selected from has a valid type, and the member is a place only if
the structure is one or is reached through a pointer. -/
@[spec] theorem memberBase_spec (base : Handle) (arrow : Bool) (opLoc : Location) :
    ⦃fun c => ⌜c = c₀⌝⦄ memberBase base arrow opLoc
    ⦃⇓? out c => ⌜match out with
      | none => c.Dirty
      | some (owner, category) =>
        c = c₀ ∧ ∀ w x rest, c₀.Stands w (x :: rest) →
          base = c₀.session.tree.handle x.index → IsExpr x → c₀.session.types.Valid owner ∧
          (category = Category.place.word → arrow = true ∨ x.isPlace = true)⌝⦄ := by
  mvcgen [memberBase, types, tree, typeOf]
  all_goals subst_vars
  case vc1 read _ _ element =>
    refine ⟨rfl, fun w x rest stands named expr => ⟨?_, .inl rfl⟩⟩
    rw [← stands.type List.mem_cons_self named read] at element
    exact (stands.valid List.mem_cons_self expr).element element
  case vc2 read _ category =>
    refine ⟨rfl, fun w x rest stands named expr => ⟨?_, fun place => .inr ?_⟩⟩
    · rw [← stands.type List.mem_cons_self named read]
      exact stands.valid List.mem_cons_self expr
    · refine stands.place List.mem_cons_self named ?_
      rw [Arena.isPlace, show Arena.arg _ base 1 = .ok _ from category, place]
      rfl

@[spec] theorem member_spec (base : Handle) (name : Int) (arrow : Bool) (opLoc nameLoc : Location) :
    ⦃fun c => ⌜c = c₀⌝⦄ member base name arrow opLoc nameLoc ⦃⇓? n c =>
    ⌜c₀.Effect [.expr base] [.expr n] c⌝⦄ := by
  mvcgen [member, isBroken, types, tree, locationOf, currentSession]
  all_goals subst_vars
  case vc1 broken => exact .of_broken (by simp [Slot.expr]) broken
  case vc2 dirty => exact .of_dirty dirty
  case vc3 => exact Effect.of_dirty
  case vc4 known _ _ found _ _ _ _ _ =>
    obtain ⟨rfl, known⟩ := known
    refine fun built => built.expr₁ rfl rfl fun w x rest stands named expr node kind args kids => ?_
    obtain ⟨valid, place⟩ := known w x rest stands named expr
    refine ⟨.member kind kids expr fun isPlace => ?_, valid.member found⟩
    rw [Rose.isPlace, arg, args] at isPlace
    rcases place (by simpa using isPlace) with rfl | below
    · exact .inl (by rw [arg, args]; exact one_ne_zero)
    · exact .inr below

/-! ## Unary operators -/

@[spec] theorem folding_spec : ⦃fun c => ⌜c = c₀⌝⦄ folding ⦃⇓? _ c => ⌜c = c₀⌝⦄ := by
  mvcgen [folding, currentSession]

/-- A constant that an operator gives has a scalar type. -/
@[spec] theorem unaryConstant_spec (op : UnaryOp) (type : TypeId) (operand : Handle) :
    ⦃fun c => ⌜c = c₀⌝⦄ unaryConstant? op type operand
    ⦃⇓? out c => ⌜c = c₀ ∧ ∀ p ∈ out, p.1 = TypeId.float ∨ p.1 = type⌝⦄ := by
  mvcgen [unaryConstant?, isLiteral, kindOf, tree, typeOf]
  all_goals subst_vars
  all_goals exact ⟨rfl, by simp⟩

/-- An operand of a unary operator that gives a value. -/
def Slot.operand (op : UnaryOp) (n : Handle) : Slot :=
  ⟨n, fun x => IsExpr x ∧ (op = .complement → TypeId.isFloating x.exprType = false)⟩

theorem scalar_of_folded {type type' : TypeId} (low : type ≤ 0)
    (same : type' = TypeId.float ∨ type' = type) : type' ≤ 0 := by
  rcases same with rfl | rfl
  · decide
  · exact low

@[spec] theorem foldUnary_spec (op : UnaryOp) (type : TypeId) (operand : Handle) (loc : Location) :
    ⦃fun c => ⌜c = c₀⌝⦄ foldUnary op type operand loc ⦃⇓? n c => ⌜op.givesValue = true → type ≤ 0 →
    c₀.Effect [.operand op operand] [.expr n] c⌝⦄ := by
  mvcgen [foldUnary, buildConstant]
  all_goals subst_vars
  case vc1 folded _ _ discarded _ _ =>
    obtain ⟨rfl, types⟩ := folded
    intro built _ low
    have made := built.leaf (.inl rfl) fun _ _ _ =>
      valid_scalar (scalar_of_folded low (types _ rfl))
    refine .trans ?_ (discarded.trans made)
    exact .weaken (.cons ⟨rfl, fun _ known => known.1⟩ .nil)
  case vc2 same _ _ =>
    obtain ⟨rfl, -⟩ := same
    intro built gives low
    refine built.expr rfl rfl rfl fun w trees rest stands fits node kind args kids =>
      ⟨?_, valid_scalar low⟩
    obtain ⟨x, rfl, named, expr, integer⟩ := fits_one.mp fits
    have isOp : node.unaryOp = op := by
      rw [Rose.unaryOp, arg, args]
      exact UnaryOp.ofNumber_number fun m unlisted => by
        simp [unlisted, UnaryOp.givesValue] at gives
    exact .unary kind (by rw [Rose.isPlace, arg, args]; rfl) kids (isOp ▸ gives) expr
      (isOp ▸ integer)

theorem scalar_of_arithmetic {type : TypeId} (arithmetic : TypeId.isArithmetic type = true) :
    type ≤ 0 := by
  simp only [TypeId.isArithmetic, TypeId.isInteger, TypeId.isFloating, Bool.or_eq_true, beq_iff_eq]
    at arithmetic
  rcases arithmetic with (rfl | rfl) | rfl <;> decide

theorem not_floating_of_integer {type : TypeId} (integer : TypeId.isInteger type = true) :
    TypeId.isFloating type = false := by
  simp only [TypeId.isInteger, Bool.or_eq_true, beq_iff_eq] at integer
  rcases integer with rfl | rfl <;> rfl

section Unary

variable {op : UnaryOp} {operand n : Handle} {type : TypeId} {loc : List Int}

theorem unaryOp_of_args {node : Rose} {category : Int} (listed : ∀ m, op ≠ .unlisted m)
    (args : node.args = type :: category :: op.number :: loc) : node.unaryOp = op := by
  rw [Rose.unaryOp, arg, args]
  exact UnaryOp.ofNumber_number listed

theorem not_place_of_args {node : Rose} {rest : List Int}
    (args : node.args = type :: Category.value.word :: rest) : node.isPlace = false := by
  rw [Rose.isPlace, arg, args]
  rfl

/-- A step changes a place. -/
theorem Built.step
    (built : c₀.Built .unary (type :: Category.value.word :: op.number :: loc) [operand] n c)
    (steps : op.steps = true) (read : c₀.session.tree.exprType operand = .ok type)
    (place : c₀.session.tree.isPlace operand = .ok true) :
    c₀.Effect [.expr operand] [.expr n] c := by
  refine built.expr₁ rfl rfl fun w x rest stands named expr node kind args kids => ⟨?_, ?_⟩
  · have isOp := unaryOp_of_args (fun m unlisted => by simp [unlisted, UnaryOp.steps] at steps) args
    exact .step kind (not_place_of_args args) kids (isOp ▸ steps) expr
      (stands.place List.mem_cons_self named place)
  · rw [← stands.type List.mem_cons_self named read]
    exact stands.valid List.mem_cons_self expr

/-- The address of a place has a pointer type, which may be new. -/
theorem Built.address {c₁ : Checker} {loc : List Int}
    (built : c₁.Built .unary ((c₀.session.pointerType type).2 ::
      Category.value.word :: UnaryOp.address.number :: loc) [operand] n c)
    (typed : c₁ = c₀.withSession (c₀.session.pointerType type).1)
    (read : c₀.session.tree.exprType operand = .ok type)
    (place : c₀.session.tree.isPlace operand = .ok true) :
    c₀.Effect [.expr operand] [.expr n] c := by
  subst typed
  have known : c₀.Effect [.expr operand] [⟨operand, fun x => IsExpr x ∧ x.isPlace = true ∧
      c₀.session.types.Sound ∧ c₀.session.types.Valid type⟩] c₀ :=
    .learn₁ fun w x rest stands named expr =>
      ⟨expr, stands.place List.mem_cons_self named place, stands.tables.types,
      stands.type List.mem_cons_self named read ▸ stands.valid List.mem_cons_self expr⟩
  have typed : c₀.Effect [⟨operand, fun x => IsExpr x ∧ x.isPlace = true ∧
      c₀.session.types.Sound ∧ c₀.session.types.Valid type⟩] [⟨operand, fun x => IsExpr x ∧
      x.isPlace = true ∧ c₀.session.types.Sound ∧ c₀.session.types.Valid type⟩]
      (c₀.withSession (c₀.session.pointerType type).1) := by
    refine .update (fun dirty => dirty) fun w trees rest stands fits => ?_
    obtain ⟨x, rfl, _, _, _, _, valid⟩ := fits_one.mp fits
    exact stands.tables.updates_types (.pointer valid)
  refine known.trans (typed.trans (built.expr ?_ rfl rfl ?_))
  · rfl
  · intro w trees rest stands fits node kind args kids
    obtain ⟨x, rfl, _, expr, isPlace, sound, valid⟩ := fits_one.mp fits
    refine ⟨.address kind (not_place_of_args args) kids
      (unaryOp_of_args (by simp) args) expr isPlace, ?_⟩
    exact (TypeTable.added_pointer sound valid).valid

theorem Built.indirection {element : TypeId} (built : c₀.Built .unary
      (element :: Category.place.word :: UnaryOp.indirection.number :: loc) [operand] n c)
    (read : c₀.session.tree.exprType operand = .ok type)
    (found : c₀.session.types.element type = .ok element) :
    c₀.Effect [.expr operand] [.expr n] c := by
  refine built.expr₁ rfl rfl fun w x rest stands named expr node kind args kids => ⟨?_, ?_⟩
  · exact .indirection kind kids (unaryOp_of_args (by simp) args) expr
  · rw [← stands.type List.mem_cons_self named read] at found
    exact (stands.valid List.mem_cons_self expr).element found

/-- An operator that gives a value finds out about its operand first. -/
theorem Effect.folded (effect : c₀.Effect [.operand op operand] [.expr n] c)
    (read : c₀.session.tree.exprType operand = .ok type)
    (integer : op = .complement → TypeId.isInteger type = true) :
    c₀.Effect [.expr operand] [.expr n] c := by
  refine .trans (.learn₁ fun w x rest stands named expr => ⟨expr, fun complement => ?_⟩) effect
  rw [stands.type List.mem_cons_self named read]
  exact not_floating_of_integer (integer complement)

end Unary

@[spec] theorem unary_spec (op : UnaryOp) (operand : Handle) (opLoc : Location) :
    ⦃fun c => ⌜c = c₀⌝⦄ unary op operand opLoc
    ⦃⇓? n c => ⌜(∀ m, op ≠ .unlisted m) → c₀.Effect [.expr operand] [.expr n] c⌝⦄ := by
  mvcgen [unary, isBroken, tree, types, typeOf, locationOf, isPlace, currentSession]
  all_goals subst_vars
  case vc1 broken => exact fun _ => .of_broken (by simp [Slot.expr]) broken
  case vc4 | vc7 | vc10 | vc13 =>
    rename_i read _ _ _ isPlace _ place _ _ _
    simp only [Bool.not_eq_true', Bool.not_eq_false] at isPlace
    exact fun built _ => built.step rfl read (isPlace ▸ place)
  case vc15 read _ _ _ isPlace place _ _ _ _ =>
    simp only [Bool.not_eq_true', Bool.not_eq_false] at isPlace
    exact fun built _ => built.address rfl read (isPlace ▸ place)
  case vc17 read _ _ _ _ element _ _ _ => exact fun built _ => built.indirection read element
  case vc19 | vc21 =>
    rename_i read _ arithmetic _ _ _ _
    exact fun effect _ =>
      (effect rfl (scalar_of_arithmetic (by simpa using arithmetic))).folded read (by simp)
  case vc23 read _ integer _ _ _ _ =>
    exact fun effect _ => (effect rfl (by decide)).folded read fun _ => by simpa using integer
  case vc25 read _ _ _ _ _ _ => exact fun effect _ => (effect rfl (by decide)).folded read (by simp)
  case vc26 => exact fun listed => absurd rfl (listed _)
  all_goals exact fun dirty _ => .of_dirty dirty

/-! ## Binary operators -/

/-- What is known of the two expressions on top of the stack. -/
theorem Effect.learn₂ {l r : Handle} {left right : Rose → Prop}
    (known : ∀ w x y rest, c.Stands w (y :: x :: rest) → l = c.session.tree.handle x.index →
      x.IsExpr → r = c.session.tree.handle y.index → y.IsExpr → left x ∧ right y) :
    c.Effect [.expr r, .expr l] [⟨r, right⟩, ⟨l, left⟩] c := by
  refine .learn fun w trees rest stands fits => ?_
  obtain ⟨y, x, rfl, namedY, exprY, namedX, exprX⟩ := fits_two.mp fits
  obtain ⟨first, second⟩ := known w x y rest stands namedX exprX namedY exprY
  exact fits_two.mpr ⟨y, x, rfl, namedY, second, namedX, first⟩

/-- Two expressions whose types were read. -/
theorem Effect.read₂ {l r : Handle} {lt rt : TypeId} {left right : TypeId → Bool}
    (readL : c.session.tree.exprType l = .ok lt) (readR : c.session.tree.exprType r = .ok rt)
    (hasL : left lt = true) (hasR : right rt = true) :
    c.Effect [.expr r, .expr l] [.typed right r, .typed left l] c := by
  refine .learn₂ fun w x y rest stands namedX exprX namedY exprY => ⟨⟨exprX, ?_⟩, exprY, ?_⟩
  · rw [stands.type (by simp) namedX readL, hasL]
  · rw [stands.type (by simp) namedY readR, hasR]

theorem integer_of_not_floating {type : TypeId} (arithmetic : TypeId.isArithmetic type = true)
    (other : TypeId.isFloating type = false) : TypeId.isInteger type = true := by
  simpa [TypeId.isArithmetic, other] using arithmetic

/-- More is known of two expressions once their types were read. -/
theorem Effect.sharpen {l r : Handle} {lt rt : TypeId} {left right left' right' : TypeId → Bool}
    (readL : c.session.tree.exprType l = .ok lt) (readR : c.session.tree.exprType r = .ok rt)
    (hasL : left lt = true → left' lt = true) (hasR : right rt = true → right' rt = true) :
    c.Effect [.typed right r, .typed left l] [.typed right' r, .typed left' l] c := by
  refine .learn fun w trees rest stands fits => ?_
  obtain ⟨y, x, rfl, namedY, ⟨exprY, knownY⟩, namedX, exprX, knownX⟩ := fits_two.mp fits
  have typeX := stands.type (r := x) (by simp) namedX readL
  have typeY := stands.type (r := y) (by simp) namedY readR
  refine fits_two.mpr ⟨y, x, rfl, namedY, ⟨exprY, ?_⟩, namedX, exprX, ?_⟩
  · exact typeY ▸ hasR (typeY ▸ knownY)
  · exact typeX ▸ hasL (typeX ▸ knownX)

/-- Two arithmetic operands are brought to a common type. -/
@[spec] theorem unify_spec (l r : Handle) : ⦃fun c => ⌜c = c₀⌝⦄ unify l r ⦃⇓? out c =>
    ⌜out.2.2 ≤ 0 ∧ c₀.Effect [.typed TypeId.isArithmetic r, .typed TypeId.isArithmetic l]
    [.expr out.2.1, .expr out.1] c⌝⦄ := by
  mvcgen [unify, typeOf, tree]
  all_goals subst_vars
  case vc1 readL _ _ apart readR _ _ cast =>
    refine ⟨by decide, (Effect.sharpen readL readR id fun arith =>
      integer_of_not_floating arith ?_).trans (((cast.effect rfl []).frame [_]).trans
      (.weaken (.cons ⟨rfl, fun _ => id⟩ (.cons ⟨rfl, fun _ known => known.1⟩ .nil))))⟩
    simpa using (Bool.and_eq_true_iff.mp apart).2
  case vc2 readL _ _ _ apart readR _ _ cast =>
    refine ⟨by decide, (Effect.sharpen readL readR (fun arith =>
      integer_of_not_floating arith ?_) id).trans ((cast.effect rfl [_]).trans
      (.weaken (.cons ⟨rfl, fun _ known => known.1⟩ (.cons ⟨rfl, fun _ => id⟩ .nil))))⟩
    simpa using (Bool.and_eq_true_iff.mp apart).2
  case vc3 =>
    refine ⟨by split <;> decide, .weaken ?_⟩
    exact .cons ⟨rfl, fun _ known => known.1⟩ (.cons ⟨rfl, fun _ known => known.1⟩ .nil)

@[spec] theorem binaryConstant_spec (op : BinaryOp) (type : TypeId) (l r : Handle) :
    ⦃fun c => ⌜c = c₀⌝⦄ binaryConstant? op type l r
    ⦃⇓? out c => ⌜c = c₀ ∧ ∀ p ∈ out, type ≤ 0 → p.1 ≤ 0⌝⦄ := by
  mvcgen [binaryConstant?, isLiteral, kindOf, tree, typeOf]
  all_goals
    subst_vars
    refine ⟨rfl, fun p mem low => ?_⟩
  case vc1 => cases mem
  case vc4 =>
    obtain ⟨v, _, rfl⟩ := Option.mem_map.mp mem
    split <;> exact low
  all_goals
    obtain ⟨v, _, rfl⟩ := Option.mem_map.mp mem
    exact Int.negSucc_le_zero _

/-- The left operand of a binary operator that gives a value. -/
def Slot.left (op : BinaryOp) (n : Handle) : Slot :=
  ⟨n, fun x => IsExpr x ∧ (op.isIntegerOnly = true → TypeId.isFloating x.exprType = false)⟩

section Binary

variable {op : BinaryOp} {type : TypeId} {l r n : Handle} {loc : List Int}

theorem binaryOp_of_args {node : Rose} {category : Int} (listed : ∀ m, op ≠ .unlisted m)
    (args : node.args = type :: category :: op.number :: loc) : node.binaryOp = op := by
  rw [Rose.binaryOp, arg, args]
  exact BinaryOp.ofNumber_number listed

/-- Two constants give way to their value. -/
theorem Effect.constant {c₁ c₂ : Checker} {word : List Int}
    (first : c₀.Effect [.expr r] [] c₁) (second : c₁.Effect [.expr l] [] c₂)
    (built : c₂.Built .literal (type :: Category.value.word :: word) [] n c) (low : type ≤ 0) :
    c₀.Effect [.expr r, .left op l] [.expr n] c := by
  have known : c₀.Effect [.expr r, .left op l] [.expr r, .expr l] c₀ :=
    .weaken (.cons ⟨rfl, fun _ => id⟩ (.cons ⟨rfl, fun _ known => known.1⟩ .nil))
  exact known.trans ((first.frame [.expr l]).trans
    (second.trans (built.leaf (.inl rfl) fun _ _ _ => valid_scalar low)))

theorem Built.binary
    (built : c₀.Built .binary (type :: Category.value.word :: op.number :: loc) [l, r] n c)
    (gives : op.givesValue = true ∨ op.isLogical = true) (low : type ≤ 0) :
    c₀.Effect [.expr r, .left op l] [.expr n] c := by
  refine built.expr rfl rfl rfl fun w trees rest stands fits node kind args kids =>
    ⟨?_, valid_scalar low⟩
  obtain ⟨y, x, rfl, _, right, _, left, integer⟩ := fits_two.mp fits
  have isOp := binaryOp_of_args (fun m unlisted => by
    rcases gives with h | h <;> simp [unlisted, BinaryOp.givesValue, BinaryOp.isLogical] at h) args
  rcases gives with gives | logical
  · exact .binary kind (not_place_of_args args) kids (isOp ▸ gives) left right (isOp ▸ integer)
  · exact .logical kind (not_place_of_args args) kids (isOp ▸ logical) left right

/-- The value is converted to the type of the target. -/
theorem Built.assignment {c₁ : Checker} {target value value' : Handle} (stores : op.stores = true)
    (converted : c₀.Converted type value value' none c₁) (built :
      c₁.Built .assignment (type :: Category.value.word :: op.number :: loc) [target, value'] n c)
    (read : c₀.session.tree.exprType target = .ok type)
    (place : c₀.session.tree.isPlace target = .ok true)
    (integer : op.isIntegerOnly = true → TypeId.isInteger type = true) :
    c₀.Effect [.expr value, .expr target] [.expr n] c := by
  have known : c₀.Effect [.expr value,
      .expr target] [⟨value, fun x => IsExpr x ∧ c₀.session.types.Valid type⟩,
      ⟨target, fun x => IsExpr x ∧ x.isPlace = true ∧ c₀.session.types.Valid type⟩] c₀ :=
    .learn₂ fun w x y rest stands namedX exprX namedY exprY => by
      have valid := stands.type (by simp) namedX read ▸ stands.valid (by simp) exprX
      exact ⟨⟨exprX, stands.place (by simp) namedX place, valid⟩, exprY, valid⟩
  obtain ⟨t, rfl, -⟩ := id converted
  refine known.trans (((converted.effect []).frame [_]).trans
    (built.expr rfl rfl rfl fun w trees rest stands fits node kind args kids => ?_))
  obtain ⟨y, x, rfl, _, right, _, left, isPlace, valid⟩ := fits_two.mp fits
  have isOp :=
    binaryOp_of_args (fun m unlisted => by simp [unlisted, BinaryOp.stores] at stores) args
  refine ⟨.assignment kind (not_place_of_args args) kids (isOp
    ▸ stores) left right isPlace fun only => ?_, valid⟩
  rw [exprType, arg, args]
  exact not_floating_of_integer (integer (isOp ▸ only))

end Binary

@[spec] theorem foldBinary_spec (op : BinaryOp) (type : TypeId) (l r : Handle) (loc : Location) :
    ⦃fun c => ⌜c = c₀⌝⦄ foldBinary op type l r loc ⦃⇓? n c => ⌜op.givesValue = true ∨
    op.isLogical = true → type ≤ 0 → c₀.Effect [.expr r, .left op l] [.expr n] c⌝⦄ := by
  mvcgen [foldBinary, buildConstant]
  all_goals subst_vars
  case vc1 warned _ _ first _ _ second _ _ folded =>
    obtain ⟨rfl, types⟩ := folded
    exact fun built _ low =>
      (warned.frame [_, _]).trans (.constant first second built (types _ rfl low))
  case vc2 folded _ _ first _ _ second _ _ =>
    obtain ⟨rfl, types⟩ := folded
    exact fun built _ low => .constant first second built (types _ rfl low)
  case vc3 same _ _ =>
    obtain ⟨rfl, -⟩ := same
    exact fun built gives low => built.binary gives low

@[spec] theorem assignment_spec (op : BinaryOp) (target value : Handle) (opLoc : Location) :
    ⦃fun c => ⌜c = c₀⌝⦄ assignment op target value opLoc
    ⦃⇓? n c => ⌜op.stores = true → c₀.Effect [.expr value, .expr target] [.expr n] c⌝⦄ := by
  mvcgen [assignment, tree, types, typeOf, isPlace, locationOf]
  all_goals subst_vars
  case vc6 read _ _ _ _ isPlace _ _ only _ place _ fine _ converted _ _ _ _ _ _ _ =>
    simp only [Bool.not_eq_true', Bool.not_eq_false] at isPlace
    refine fun built stores =>
      Built.assignment stores (fine ▸ converted) built read (isPlace ▸ place) fun integer => ?_
    simp only [integer, Bool.true_and, Bool.or_eq_true, Bool.not_eq_true', not_or,
      Bool.not_eq_false] at only
    exact only.1
  case vc8 read _ _ _ _ isPlace _ assign place _ fine _ converted _ _ _ _ _ _ _ =>
    simp only [Bool.not_eq_true', Bool.not_eq_false] at isPlace
    refine fun built stores =>
      Built.assignment stores (fine ▸ converted) built read (isPlace ▸ place) fun integer => ?_
    obtain rfl : op = .assign := by simpa using assign
    cases integer
  all_goals exact fun dirty _ => .of_dirty dirty

/-- An operator for all values takes any left operand. -/
theorem Effect.left {op : BinaryOp} {l r : Handle} (all : op.isIntegerOnly = false) :
    c.Effect [.expr r, .expr l] [.expr r, .left op l] c :=
  .weaken (.cons ⟨rfl, fun _ => id⟩
    (.cons ⟨rfl, fun _ expr => ⟨expr, fun only => by simp [all] at only⟩⟩ .nil))

@[spec] theorem equality_spec (op : BinaryOp) (l r : Handle) (opLoc loc : Location) :
    ⦃fun c => ⌜c = c₀⌝⦄ equality op l r opLoc loc
    ⦃⇓? n c => ⌜op.isEquality = true → c₀.Effect [.expr r, .expr l] [.expr n] c⌝⦄ := by
  have facts (equality : op.isEquality = true) : op.givesValue = true ∧
    op.isIntegerOnly = false := by
    cases op <;> first | exact ⟨rfl, rfl⟩ | cases equality
  mvcgen [equality, tree, types, typeOf, typeName, currentSession]
  all_goals subst_vars
  case vc1 readL _ _ _ readR _ arith _ warned _ _ unified _ _ =>
    obtain ⟨arithL, arithR⟩ := Bool.and_eq_true_iff.mp arith
    intro folded equality
    exact (Effect.read₂ readL readR arithL arithR).trans
      ((warned.frame [_, _]).trans (unified.2.trans
      ((Effect.left (facts equality).2).trans (folded (.inl (facts equality).1) (by decide)))))
  case vc5 readL _ _ _ arith readR _ _ unified _ _ =>
    obtain ⟨arithL, arithR⟩ := Bool.and_eq_true_iff.mp arith
    intro folded equality
    exact (Effect.read₂ readL readR arithL arithR).trans (unified.2.trans
      ((Effect.left (facts equality).2).trans (folded (.inl (facts equality).1) (by decide))))
  case vc2 warned _ _ _ _ _ =>
    intro built equality
    exact (warned.frame [_, _]).trans
      ((Effect.left (facts equality).2).trans (built.binary (.inl (facts equality).1) (by decide)))
  case vc6 =>
    exact fun built equality =>
      (Effect.left (facts equality).2).trans (built.binary (.inl (facts equality).1) (by decide))
  all_goals exact fun dirty _ => .of_dirty dirty

/-- An operator that neither stores nor drops its left operand gives a value. -/
theorem gives_of_listed {op : BinaryOp} (listed : ∀ m, op ≠ .unlisted m)
    (assignment : ¬op.isAssignment = true)
    (comma : ¬(op == .comma) = true) : op.givesValue = true ∨ op.isLogical = true := by
  cases op <;> first
    | exact .inl rfl
    | exact .inr rfl
    | exact absurd rfl assignment
    | exact absurd rfl comma
    | exact absurd rfl (listed _)

/-- The left operand of a comma is dropped. -/
theorem Built.comma {l r n : Handle} {type : TypeId} {loc : List Int} (built :
      c₀.Built .binary (type :: Category.value.word :: BinaryOp.comma.number :: loc) [l, r] n c)
    (read : c₀.session.tree.exprType r = .ok type) : c₀.Effect [.expr r, .expr l] [.expr n] c := by
  refine built.expr₂ rfl rfl fun w x y rest stands namedX exprX namedY exprY node kind args kids =>
    ?_
  refine ⟨.comma kind (not_place_of_args args) kids (binaryOp_of_args (by simp) args) exprX exprY,
    ?_⟩
  rw [← stands.type (by simp) namedY read]
  exact stands.valid (by simp) exprY

@[spec] theorem binary_spec (op : BinaryOp) (l r : Handle) (opLoc : Location) :
    ⦃fun c => ⌜c = c₀⌝⦄ binary op l r opLoc
    ⦃⇓? n c => ⌜(∀ m, op ≠ .unlisted m) → c₀.Effect [.expr r, .expr l] [.expr n] c⌝⦄ := by
  mvcgen [binary, anyBroken, tree, types, typeOf, locationOf]
  all_goals subst_vars
  case vc1 broken => exact fun _ => .of_anyBroken (by simp [Slot.expr]) broken
  case vc2 stores _ _ =>
    refine fun effect listed => effect ?_
    cases op <;> first | exact stores | exact absurd rfl (listed _)
  case vc3 readR _ _ _ _ comma _ _ _ =>
    obtain rfl : op = .comma := by simpa using comma
    exact fun built _ => built.comma readR
  case vc5 assignment _ readL _ _ _ _ _ _ comma only integers _ _ _ =>
    simp only [Bool.or_eq_true, Bool.not_eq_true', not_or, Bool.not_eq_false] at integers
    intro folded listed
    refine .trans ?_ (folded (gives_of_listed listed assignment comma) (by decide))
    refine .learn₂ fun w x y rest stands namedX exprX namedY exprY => ⟨⟨exprX, fun _ => ?_⟩, exprY⟩
    rw [stands.type (by simp) namedX readL]
    exact not_floating_of_integer integers.1
  case vc7 only logical _ _ _ _ =>
    exact fun folded _ =>
      (Effect.left (by simpa using only)).trans (folded (.inr logical) (by decide))
  case vc8 equality _ _ _ => exact fun effect _ => effect equality
  case vc10 assignment _ readL _ readR _ _ _ _ comma only _ _ arith _ _ _ unified _ _ =>
    simp only [Bool.or_eq_true, Bool.not_eq_true', not_or, Bool.not_eq_false] at arith
    intro folded listed
    refine (Effect.read₂ readL readR arith.1 arith.2).trans (unified.2.trans ((Effect.left
      (by simpa using only)).trans (folded (gives_of_listed listed assignment comma) ?_)))
    split
    · decide
    · exact unified.1
  all_goals exact fun dirty _ => .of_dirty dirty

/-! ## Other expressions -/

theorem Built.ternary {cond l r n : Handle} {type : TypeId} {loc : List Int}
    (built : c₀.Built .ternary (type :: Category.value.word :: loc) [cond, l, r] n c)
    (valid : ∀ w trees x, c₀.Stands w trees → x ∈ trees →
      l = c₀.session.tree.handle x.index → IsExpr x → c₀.session.types.Valid type) :
    c₀.Effect [.expr r, .expr l, .expr cond] [.expr n] c := by
  refine built.expr rfl rfl rfl fun w trees rest stands fits node kind args kids => ?_
  obtain ⟨z, _, rfl, _, third, fits⟩ := fits_cons.mp fits
  obtain ⟨y, x, rfl, named, second, _, first⟩ := fits_two.mp fits
  exact ⟨.ternary kind (not_place_of_args args) kids first second third,
    valid w _ y stands (by simp) named second⟩

@[spec] theorem ternary_spec (cond l r : Handle) (opLoc : Location) :
    ⦃fun c => ⌜c = c₀⌝⦄ ternary cond l r opLoc
    ⦃⇓? n c => ⌜c₀.Effect [.expr r, .expr l, .expr cond] [.expr n] c⌝⦄ := by
  mvcgen [ternary, anyBroken, tree, types, typeOf, locationOf]
  all_goals subst_vars
  case vc1 broken => exact .of_anyBroken (by simp [Slot.expr]) broken
  case vc3 readL _ _ arith readR _ _ unified _ _ _ _ _ _ =>
    obtain ⟨arithL, arithR⟩ := Bool.and_eq_true_iff.mp arith
    exact fun built => (((Effect.read₂ readL readR arithL arithR).trans unified.2).frame [_]).trans
      (built.ternary fun _ _ _ _ _ _ _ => valid_scalar unified.1)
  case vc4 readL _ _ _ _ _ _ _ _ _ _ _ =>
    refine fun built => built.ternary fun w trees x stands mem named expr => ?_
    rw [← stands.type mem named readL]
    exact stands.valid mem expr
  all_goals exact Effect.of_dirty

/-- An initializer that waits. -/
def Slot.initializer (n : Handle) : Slot := ⟨n, IsInitializer⟩

@[spec] theorem initializerList_spec (elements : List Handle) (opening close : Location) :
    ⦃fun c => ⌜c = c₀⌝⦄ initializerList elements opening close
    ⦃⇓? n c => ⌜c₀.Effect (Slot.each IsInitializer elements) [.initializer n] c⌝⦄ := by
  mvcgen [initializerList, anyBroken, tree]
  all_goals subst_vars
  case vc1 => exact Effect.of_dirty
  case vc2 broken => exact .of_anyBroken (by simp [handles_each]) broken
  case vc3 =>
    refine fun built => built.effect (by rw [handles_each, List.reverse_reverse]) rfl ?_
    intro w trees rest stands fits node kind args kids
    refine ⟨.list kind fun x mem => (fits_each.mp fits).2 x (by simpa [kids] using mem), ?_⟩
    exact Session.refers_anonymous kind rfl fun _ => by
      rw [exprType, arg, args]
      exact valid_scalar (le_refl 0)

/-- A bound of an array that waits. -/
def Slot.bound (n : Handle) : Slot := ⟨n, IsBound⟩

@[spec] theorem emptyBound_spec (loc : Location) :
    ⦃fun c => ⌜c = c₀⌝⦄ emptyBound loc ⦃⇓? n c => ⌜c₀.Effect [] [.bound n] c⌝⦄ := by
  mvcgen [emptyBound]
  all_goals subst_vars
  refine fun built => built.effect rfl rfl fun w trees rest stands fits node kind args kids => ?_
  obtain rfl := fits_nil.mp fits
  refine ⟨.inl ⟨kind, kids⟩, Session.refers_anonymous kind rfl fun _ => ?_⟩
  rw [exprType, arg, args]
  exact valid_scalar (Int.negSucc_le_zero 0)

end Checker

end BilingualC
