import Mathlib
import BilingualC.Proofs.Arena.Reading
import BilingualC.Proofs.Total.Steps

/-!
# Conversions that come to an end

A conversion changes one tree in its place: a constant is rewritten, a cast is put above an
expression, and a list takes on the type that it is matched with, after its elements. It gives an
expression that suits the wanted type, or it says what is wrong; in either case the tree is one of
expressions and all handles stay the same. It says what is wrong exactly when the expression does
not fit the type (`TypeTable.Fits`), and a tree that fits becomes another one of the same shape
(`TypeTable.Becomes`).
-/

namespace BilingualC

open Guarded Rose

variable {ok : Fault → Prop}

namespace Arena

variable {t t' : Arena} {fs : List Frame} {f : Frame} {r : Rose}

theorem Holds.putArg_ok (h : t.Holds (fill fs r)) (k : Nat) (value : Int) :
    ∃ t', t.putArg (t.handle r.index) k value = .ok t' ∧
    t'.Holds (fill fs (r.withArgs (r.args.set k value))) ∧
    ∀ i, t'.generation i = t.generation i := by
  have done : ∃ t', t.putArg (t.handle r.index) k value = .ok t' := by
    by_cases inside : k < r.args.length
    · obtain ⟨u, set, -⟩ := h.setArg inside value
      exact ⟨u, by rw [Arena.putArg, set]; rfl⟩
    · refine ⟨t, ?_⟩
      have out : (t.argc (t.handle r.index) ≤ k) := by
        rw [h.subtree.argc]
        omega
      simp [Arena.putArg, Arena.setArg, h.subtree.isBroken, out, pure, Except.pure, bind,
        Except.bind]
  obtain ⟨t', done⟩ := done
  exact ⟨t', done, h.putArg done⟩

theorem Holds.setLocation_ok (h : t.Holds (fill fs r)) (loc : Location) :
    ∃ t', t.setLocation (t.handle r.index) loc = .ok t' := by
  rw [Arena.setLocation, h.subtree.argc]
  by_cases short : r.args.length < 2
  · exact ⟨t, by rw [if_pos (by omega)]; rfl⟩
  · obtain ⟨t₁, first, h₁, kept⟩ := h.putArg_ok (r.args.length - 2) loc.start
    obtain ⟨t₂, second, -⟩ := h₁.putArg_ok (r.args.length - 1) loc.stop
    rw [index_withArgs, handle_kept kept] at second
    refine ⟨t₂, ?_⟩
    rw [if_neg (by omega), show (r.args.length : Int) - 2 = ((r.args.length - 2 : Nat) : Int)
      by omega, show (r.args.length : Int) - 1 = ((r.args.length - 1 : Nat) : Int) by omega, first]
    exact second

end Arena

namespace Checker

variable {c c' : Checker} {rest : List Rose} {x x' y : Rose} {n : Handle} {f : Frame}
    {fs : List Frame} {want : TypeId} {names : Session.NameEnds} {str : TypeId}

/-- What an integer expression becomes when it is converted to floating: a constant with another
value, or the operand of a cast. -/
inductive Recast (want : TypeId) (x : Rose) : Rose → Prop
  | constant (word : Int) (kind : x.kind = .literal) :
      Recast want x (x.withArgs ((x.args.set 2 word).set 0 want))
  | cast (i : Int) (kind : x.kind ≠ .literal) : Recast want x (.node i Kind.cast.number [want,
        Category.value.word, x.exprType, x.location.start, x.location.stop] [x])

theorem cast_run (h : c.session.tree.Holds (fill (f :: fs) x)) (want : TypeId) :
    ∃ t x', cast want (c.session.tree.handle x.index) c = .ok (t.handle x'.index, c.withTree t) ∧
      Replaces c.session.tree t (f :: fs) x' (t.handle x'.index) ∧ Recast want x x' := by
  have has := h.subtree
  by_cases literal : x.kind = .literal
  · obtain ⟨t₁, (value : c.session.tree.putArg _ 2 _ = _), h₁, k₁⟩ :=
      h.putArg_ok 2 (Binary64.ofInt (x.arg 2)).toWord
    obtain ⟨t₂, (typed : t₁.putArg _ 0 _ = _), h₂, k₂⟩ := h₁.putArg_ok 0 want
    rw [index_withArgs, Arena.handle_kept k₁] at typed
    have replaces := replaces_literal h value typed
    refine ⟨t₂, _, ?_, ⟨replaces.holds, rfl, replaces.kept⟩, .constant _ literal⟩
    rw [cast, bind_run (typeOf_run has), bind_run (tree_run c), bind_run (isLiteral_run has),
      if_pos (by simpa using literal), bind_run (lift_run has.payload), bind_run (lift_run value),
      bind_run (lift_run typed), bind_run (setTree_run t₂ c)]
    exact congrArg Except.ok (Prod.ext replaces.handle rfl)
  · obtain ⟨t₁, (made : c.session.tree.insert _ _ 5 = _), h₁, k₁⟩ :=
      h.insert Kind.cast.number (show ((5 : Nat) : Int) ≤ largestBlock by decide)
    obtain ⟨t₂, (typed : t₁.putArg (t₁.handle c.session.tree.freshIndex) 0 _ = _), h₂, k₂⟩ :=
      h₁.putArg_ok 0 want
    obtain ⟨t₃, (category : t₂.putArg (t₂.handle c.session.tree.freshIndex) 1 _ = _), h₃, k₃⟩ :=
      h₂.putArg_ok 1 Category.value.word
    obtain ⟨t₄, (origin : t₃.putArg (t₃.handle c.session.tree.freshIndex) 2 _ = _), h₄, k₄⟩ :=
      h₃.putArg_ok 2 x.exprType
    obtain ⟨t₅, (located : t₄.setLocation (t₄.handle c.session.tree.freshIndex) _ = _)⟩ :=
      h₄.setLocation_ok x.location
    rw [Arena.handle_kept k₂] at category
    rw [Arena.handle_kept k₃, Arena.handle_kept k₂] at origin
    rw [Arena.handle_kept k₄, Arena.handle_kept k₃, Arena.handle_kept k₂] at located
    obtain ⟨i, replaces⟩ := replaces_cast h made typed category origin located
    refine ⟨t₅, _, ?_, ⟨replaces.holds, rfl, replaces.kept⟩, .cast i literal⟩
    rw [cast, bind_run (typeOf_run has), bind_run (tree_run c), bind_run (isLiteral_run has),
      if_neg (by simpa using literal), bind_run (lift_run has.location), bind_run (lift_run made)]
    simp only
    rw [bind_run (lift_run typed), bind_run (lift_run category), bind_run (lift_run origin),
      bind_run (lift_run located), bind_run (setTree_run t₅ c)]
    exact congrArg Except.ok (Prod.ext replaces.handle rfl)

section Recast

variable {s : Session} (recast : Recast want x x')

include recast

theorem Recast.exprType (node : s.types.ExprNode ok x) : x'.exprType = want := by
  cases recast with
  | constant word kind =>
    have long := node.long
    simp only [Rose.exprType, Rose.arg, withArgs, args_node, List.getD_eq_getElem?_getD]
    rw [List.getElem?_set_self (by rw [List.length_set]; omega)]
    rfl
  | cast i _ => rfl

theorem Recast.location (node : s.types.ExprNode ok x) : x'.location = x.location := by
  cases recast with
  | constant word kind =>
    have long := node.word kind
    simp only [Rose.location, Rose.arg, withArgs, args_node, List.length_set,
      List.getD_eq_getElem?_getD]
    rw [List.getElem?_set_ne (by omega), List.getElem?_set_ne (by omega),
      List.getElem?_set_ne (by omega), List.getElem?_set_ne (by omega)]
  | cast i _ =>
    have written : (Rose.node i Kind.cast.number [want, Category.value.word,
        x.exprType, x.location.start, x.location.stop] [x]).args =
        [want, Category.value.word, x.exprType] ++ [x.location.start, x.location.stop] :=
      rfl
    exact location_of_args written

theorem Recast.inPlace (node : s.types.ExprNode ok x) : x.InPlaceOf x' := by
  have located := recast.location node
  cases recast with
  | constant word kind =>
    exact inPlaceOf_of_children located (List.forall₂_same.mpr fun y _ => inPlaceOf_self y)
  | cast i _ =>
    refine ⟨located, fun ruler nested => ?_⟩
    obtain ⟨i, j, lies, -⟩ := nested x x.mem_nodes_self
    exact nested_of_node (located ▸ lies) (.single (le_refl i) lies (Nat.lt_succ_self j))
      (List.forall_mem_singleton.mpr nested)

theorem Recast.operand (operand : s.types.Operand ok x) (floating : TypeId.isFloating want = true) :
    s.types.Operand ok x' := by
  have node := operand.node
  have type := recast.exprType node
  have location := recast.location node
  have named : s.types.Named want := by
    obtain rfl : want = TypeId.float := by simpa [TypeId.isFloating] using floating
    exact TypeTable.named_scalar node.type.tiled (by decide) (by decide)
  have near : Loose ok ∨ x'.location.Near := location ▸ node.near
  have named : s.types.Named x'.exprType := type ▸ named
  cases recast with
  | constant word kind =>
    exact TypeTable.operand_of_node ⟨node.kind, by simpa [withArgs] using node.long,
      fun _ => by simpa [withArgs] using node.word kind, named, near⟩ fun y mem => operand.child mem
  | cast i _ =>
    refine TypeTable.operand_of_node ⟨rfl, by simp, by simp, named, near⟩ fun y mem => ?_
    exact List.mem_singleton.mp mem ▸ operand

theorem Recast.ruled (node : s.types.ExprNode ok x)
    (ruled : s.Ruled names str x) (integer : TypeId.isInteger x.exprType = true)
    (floating : TypeId.isFloating want = true) : s.Ruled names str x' := by
  have type := recast.exprType node
  cases recast with
  | constant word kind =>
    obtain ⟨leaf, arithmetic, notPlace⟩ := (ruled x x.mem_nodes_self).literal kind
    refine Session.ruled_of_node ?_ fun y mem => ruled.child mem
    have kids : (x.withArgs ((x.args.set 2 word).set 0 want)).children = [] := leaf
    have same : (x.withArgs ((x.args.set 2 word).set 0 want)).kind = .literal := kind
    unfold Session.Rule
    rw [kids, same]
    refine ⟨by rw [type]; simp [TypeId.isArithmetic, floating], ?_⟩
    rw [Rose.isPlace, Rose.arg, List.getD_eq_getElem?_getD] at *
    simpa [withArgs] using notPlace
  | cast i _ =>
    refine Session.ruled_of_node ?_ fun y mem => List.mem_singleton.mp mem ▸ ruled
    exact ⟨floating, integer, rfl, rfl⟩

end Recast

end Checker

/-! ## Initializers and the types that they are for -/

/-- The types of the values that can be stored in a place of a type. A floating place takes
arithmetic values, a place for integers takes integers, and any other place takes values of its own
type. -/
def TypeId.Takes (want got : TypeId) : Prop :=
  if isFloating want then isArithmetic got = true else if isInteger want then isInteger got = true
    else want = got

namespace TypeId

variable {want got : TypeId}

theorem takes_self (want : TypeId) : Takes want want := by
  rw [Takes]
  split
  next floating => simp [isArithmetic, floating]
  next => split <;> simp [*]

theorem takes_integer (both : isInteger want = true ∧ isInteger got = true) : Takes want got := by
  rw [Takes]
  split
  next => simp [isArithmetic, both.2]
  next => rw [if_pos both.1]; exact both.2

/-- A place for integers takes no floating value. -/
theorem not_takes_floating (lossy : isInteger want = true ∧ isFloating got = true) :
    ¬ Takes want got := by
  obtain ⟨integer, floating⟩ := lossy
  obtain rfl : got = float := by simpa [isFloating] using floating
  obtain rfl | rfl : want = int ∨ want = char := by simpa [isInteger] using integer
  all_goals simp [Takes, isFloating, isInteger, int, char, float]

/-- A value that a place takes is widened, it is one integer in the place of another, or it has the
type of the place. -/
theorem Takes.cases (takes : Takes want got) : (isFloating want = true ∧ isInteger got = true) ∨
    (isInteger want = true ∧ isInteger got = true) ∨ want = got := by
  rw [Takes] at takes
  split at takes
  next floating =>
    rcases Bool.or_eq_true_iff.mp takes with integer | same
    · exact .inl ⟨floating, integer⟩
    · exact .inr (.inr (by simp_all [isFloating]))
  next =>
    split at takes
    next integer => exact .inr (.inl ⟨integer, takes⟩)
    next => exact .inr (.inr takes)

end TypeId

namespace TypeTable

variable {types : TypeTable} {want : TypeId} {count : Nat} {wanted more : List TypeId} {x x' : Rose}

/-- The types that the elements of a list of some length are matched with, if the list can be one
for a type: the types of the fields of a structure, if there is one for each element, and the
element type of an array again and again. -/
inductive Elements (types : TypeTable) (want : TypeId) (count : Nat) : List TypeId → Prop
  | struct {fields : List Field} (isStructure : types.isStructure want = true)
      (read : types.fields want = .ok fields)
      (all : fields.length = count) : Elements types want count (fields.map (·.type))
  | array {element : TypeId} (isArray : types.isArray want = true)
      (read : types.element want = .ok element) :
      Elements types want count (List.replicate count element)

/-- An initializer matches a type: a value is one that a place of the type takes, and each element
of a list matches the type that is for it. -/
inductive Fits (types : TypeTable) : TypeId → Rose → Prop
  | value {want : TypeId} {x : Rose} (single : x.kind ≠ .initializer)
      (takes : TypeId.Takes want x.exprType) : Fits types want x
  | list {want : TypeId} {x : Rose} {wanted : List TypeId} (list : x.kind = .initializer)
      (elements : types.Elements want x.children.length wanted)
      (each : List.Forall₂ (Fits types) wanted x.children) : Fits types want x

/-- What an initializer that matches a type becomes. An integer for a floating place is converted,
any other value stays as it is. A list takes on the type that it is for, and each of its elements
becomes one of the new list. -/
inductive Becomes (types : TypeTable) : TypeId → Rose → Rose → Prop
  | kept {want : TypeId} {x : Rose} (single : x.kind ≠ .initializer)
      (same : ¬ (TypeId.isFloating want = true ∧ TypeId.isInteger x.exprType = true)) :
      Becomes types want x x
  | widened {want : TypeId} {x x' : Rose} (single : x.kind ≠ .initializer)
      (floating : TypeId.isFloating want = true) (integer : TypeId.isInteger x.exprType = true)
      (recast : Checker.Recast want x x') : Becomes types want x x'
  | list {want : TypeId} {x : Rose} {wanted : List TypeId} {kids : List Rose}
      (list : x.kind = .initializer) (elements : types.Elements want x.children.length wanted)
      (each : List.Forall₂ (fun (p : TypeId × Rose) y =>
        Becomes types p.1 p.2 y) (wanted.zip x.children) kids) :
      Becomes types want x (.node x.index x.type (x.args.set 0 want) kids)

theorem Elements.length (elements : types.Elements want count wanted) : wanted.length = count := by
  cases elements with
  | struct _ _ all => simpa using all
  | array => simp

theorem forall_of_replicate {α β : Type} {R : α → β → Prop} {n : Nat} {a : α} {l : List β}
    (all : List.Forall₂ R (List.replicate n a) l) : ∀ b ∈ l, R a b := by
  intro b mem
  obtain ⟨i, low, rfl⟩ := List.mem_iff_getElem.mp mem
  have inside : i < (List.replicate n a).length := all.length_eq ▸ low
  simpa using (List.forall₂_iff_get.mp all).2 i inside low

/-- Elements that match the types that are for them make a list of a structure or of an array. -/
theorem Elements.matching {ks : List Rose} (elements : types.Elements want count wanted)
    (matching : List.Forall₂ Session.Matches wanted ks) :
    (types.isStructure want = true ∧ ∃ fields, types.fields want = .ok fields ∧
      List.Forall₂ (fun f k => Session.Matches f.type k) fields ks) ∨ (types.isArray want = true ∧
      ∃ element, types.element want = .ok element ∧ ∀ k ∈ ks, Session.Matches element k) := by
  cases elements with
  | struct isStructure read _ =>
    exact .inl ⟨isStructure, _, read, List.forall₂_map_left_iff.mp matching⟩
  | array isArray read => exact .inr ⟨isArray, _, read, forall_of_replicate matching⟩

/-- No type is both a structure and an array. -/
theorem not_isArray_of_isStructure (isStructure : types.isStructure want = true) :
    types.isArray want = false := by
  rw [TypeTable.isStructure, beq_iff_eq] at isStructure
  rw [isArray, isStructure]
  rfl

theorem Elements.unique (first : types.Elements want count wanted)
    (second : types.Elements want count more) : wanted = more := by
  cases first with
  | struct isStructure read all =>
    cases second with
    | struct _ again _ => cases read.symm.trans again; rfl
    | array isArray _ => simp [not_isArray_of_isStructure isStructure] at isArray
  | array isArray read =>
    cases second with
    | struct isStructure _ _ => simp [not_isArray_of_isStructure isStructure] at isArray
    | array _ again => cases read.symm.trans again; rfl

theorem fits_list (list : x.kind = .initializer)
    (elements : types.Elements want x.children.length wanted) :
    types.Fits want x ↔ List.Forall₂ types.Fits wanted x.children := by
  refine ⟨fun fits => ?_, .list list elements⟩
  cases fits with
  | value single _ => exact absurd list single
  | list _ others each => exact elements.unique others ▸ each

theorem fits_value (single : x.kind ≠ .initializer) : types.Fits want x ↔
    TypeId.Takes want x.exprType := by
  refine ⟨fun fits => ?_, .value single⟩
  cases fits with
  | value _ takes => exact takes
  | list list _ _ => exact absurd list single

end TypeTable

namespace Checker

variable {c c' : Checker} {rest : List Rose} {x x' y : Rose} {n : Handle} {f : Frame}
    {fs : List Frame} {want : TypeId} {names : Session.NameEnds} {str : TypeId}

/-! ## Values -/

/-- What a conversion does to the tree in a place. -/
def Converts (ok : Fault → Prop) (c : Checker) (fs : List Frame) (x : Rose) (want : TypeId)
    (out : Handle × Option Diagnostic) (c' : Checker) : Prop :=
  ∃ t x', c' = c.withTree t ∧ Replaces c.session.tree t fs x' out.1 ∧
    c.session.types.Operand ok x' ∧ (out.2 ≠ none → x'.index = x.index) ∧
    (out.2 = none → Session.Matches want x' ∧
    (∀ names str, c.session.Ruled names str x → c.session.Ruled names str x') ∧ x.InPlaceOf x') ∧
    (out.2 = none ↔ c.session.types.Fits want x) ∧
    (out.2 = none → c.session.types.Becomes want x x')

/-- A value is kept as it is. -/
theorem converts_kept (h : c.session.tree.Holds (fill (f :: fs) x))
    (operand : c.session.types.Operand ok x) (single : x.kind ≠ .initializer)
    (same : ¬ (TypeId.isFloating want = true ∧ TypeId.isInteger x.exprType = true))
    (good : Session.Matches want x) (takes : TypeId.Takes want x.exprType) :
    c.Converts ok (f :: fs) x want (c.session.tree.handle x.index, none) c :=
  ⟨c.session.tree, x, rfl, ⟨h, rfl, fun _ => rfl⟩, operand, fun _ => rfl,
    fun _ => ⟨good, fun _ _ ruled => ruled, inPlaceOf_self x⟩,
    iff_of_true rfl (.value single takes), fun _ => .kept single same⟩

/-- An initializer is refused before anything is changed. -/
theorem converts_refused (h : c.session.tree.Holds (fill (f :: fs) x))
    (operand : c.session.types.Operand ok x)
    (unfit : ¬ c.session.types.Fits want x) (d : Diagnostic) :
    c.Converts ok (f :: fs) x want (c.session.tree.handle x.index, some d) c :=
  ⟨c.session.tree, x, rfl, ⟨h, rfl, fun _ => rfl⟩, operand, fun _ => rfl, nofun,
    iff_of_false nofun unfit, nofun⟩

theorem matches_value (single : x.kind ≠ .initializer) (suits : TypeId.Suits want x.exprType) :
    Session.Matches want x := by
  rwa [Session.Matches, if_neg single]

theorem Recast.kind (recast : Recast want x x') (single : x.kind ≠ .initializer) :
    x'.kind ≠ .initializer := by
  cases recast with
  | constant word kind => exact single
  | cast i _ => exact nofun

theorem convertValue_ends (fine : c.Fine ok) (named : c.session.types.Named want)
    (h : c.session.tree.Holds (fill (f :: fs) x)) (operand : c.session.types.Operand ok x)
    (single : x.kind ≠ .initializer) : Ends ok (convertValue want (c.session.tree.handle x.index)) c
    (c.Converts ok (f :: fs) x want) := by
  have room := fine.short
  rw [convertValue]
  refine .step (typeOf_run h.subtree) ?_
  split
  next widen =>
    obtain ⟨floating, integer⟩ : TypeId.isFloating want = true ∧
        TypeId.isInteger x.exprType = true := by
      simpa using widen
    obtain ⟨t, x', run, replaces, recast⟩ := cast_run h want
    refine .step run (.pure ⟨t, x', rfl, replaces, recast.operand operand floating, fun some =>
      (some rfl).elim, fun _ => ⟨?_, fun names str ruled => ?_, recast.inPlace operand.node⟩,
      iff_of_true rfl (.value single ?_), fun _ => .widened single floating integer recast⟩)
    · exact matches_value (recast.kind single) (.inr (.inr (recast.exprType operand.node).symm))
    · exact recast.ruled operand.node ruled integer floating
    · simp [TypeId.Takes, floating, TypeId.isArithmetic, integer]
  next narrow =>
  have same : ¬ (TypeId.isFloating want = true ∧ TypeId.isInteger x.exprType = true) := by
    simpa using narrow
  have unfit (out : ¬ TypeId.Takes want x.exprType) : ¬ c.session.types.Fits want x :=
    fun fits => out ((TypeTable.fits_value single).mp fits)
  split
  next lossy =>
    exact .pure
      (converts_refused h operand (unfit (TypeId.not_takes_floating (by simpa using lossy))) _)
  next exact =>
  split
  next both =>
    have both : TypeId.isInteger want = true ∧ TypeId.isInteger x.exprType = true := by
      simpa using both
    exact .pure (converts_kept h operand single same (matches_value single (.inr (.inl both)))
      (TypeId.takes_integer both))
  next mixed =>
  refine .step (types_run c)
    (.lift (TypeTable.equal_ends room named operand.node.type) fun equal known => ?_)
  subst known
  split
  next equal =>
    have equal : want = x.exprType := by simpa using equal
    exact .pure (converts_kept h operand single same (matches_value single (.inr (.inr equal)))
      (equal ▸ TypeId.takes_self want))
  next differ =>
    refine (typeName_ends fine named).bind fun _ _ same => ?_
    subst same
    refine (typeName_ends fine operand.node.type).bind fun _ _ same => ?_
    subst same
    refine .pure (converts_refused h operand (unfit fun takes => ?_) _)
    rcases takes.cases with ⟨wide, narrow⟩ | both | equal
    · exact same ⟨wide, narrow⟩
    · exact mixed (by simpa using both)
    · exact differ (by simpa using equal)

/-! ## Lists -/

/-- What checking the elements of a list does to those that are left. -/
def ConvertsAll (ok : Fault → Prop) (c : Checker) (fs : List Frame)
    (x : Rose) (done todo : List Rose) (wanted : List TypeId)
    (problem : Option Diagnostic) (c' : Checker) : Prop :=
  ∃ t todo', c' = c.withTree t ∧ t.Holds (fill fs (.node x.index x.type x.args (done ++ todo'))) ∧
    (∀ i, t.generation i = c.session.tree.generation i) ∧
    (∀ y ∈ todo', c.session.types.Operand ok y) ∧
    (problem = none → List.Forall₂ Session.Matches wanted todo' ∧
    (∀ names str, (∀ y ∈ todo, c.session.Ruled names str y) →
    ∀ y ∈ todo', c.session.Ruled names str y) ∧ List.Forall₂ InPlaceOf todo todo') ∧
    (problem = none ↔ List.Forall₂ c.session.types.Fits wanted todo) ∧
    (problem = none → List.Forall₂ (fun (p : TypeId × Rose) y => c.session.types.Becomes p.1 p.2 y)
    (wanted.zip todo) todo')

theorem convertElements_ends {depth : Nat}
    (ih : ∀ {c : Checker} {x : Rose} {f : Frame} {fs : List Frame} {want : TypeId}, c.Fine ok →
      c.session.types.Named want → c.session.tree.Holds (fill (f :: fs) x) →
      c.session.types.Operand ok x → x.height ≤ depth → Ends ok
      (convertAt depth want (c.session.tree.handle x.index)) c (c.Converts ok (f :: fs) x want))
    {done todo : List Rose} {wanted : List TypeId} (fine : c.Fine ok)
    (named : ∀ w ∈ wanted, c.session.types.Named w) (h : c.session.tree.Holds (fill (f :: fs) x))
    (kids : x.children = done ++ todo) (count : todo.length = wanted.length)
    (operands : ∀ y ∈ todo, c.session.types.Operand ok y) (low : ∀ y ∈ todo, y.height ≤ depth) :
    Ends ok (convertAt.convertElements depth (c.session.tree.handle x.index) done.length wanted) c
    (c.ConvertsAll ok (f :: fs) x done todo wanted) := by
  -- by induction on the types that are wanted; the elements before `todo` were checked, and the
  -- list stands in the tree with them as they are now
  induction wanted generalizing c x done todo with
  | nil =>
    obtain rfl := List.length_eq_zero_iff.mp count
    rw [convertAt.convertElements]
    refine .pure ⟨c.session.tree, [], rfl, ?_, fun _ => rfl, by simp,
      fun _ => ⟨.nil, fun _ _ => by simp, .nil⟩, iff_of_true rfl .nil, fun _ => .nil⟩
    rw [← kids, eta]
    exact h
  | cons want wanted more =>
    obtain ⟨y, todo, rfl⟩ := List.exists_cons_of_length_eq_add_one count
    have place : fill (f :: fs) x = fill (⟨x.index, x.type, x.args, done, todo⟩ :: f :: fs) y := by
      rw [fill_cons _ (f :: fs), Frame.plug, ← kids, eta]
    have child : c.session.tree.child (c.session.tree.handle x.index) done.length =
      .ok (c.session.tree.handle y.index) := by
      rw [h.subtree.child_at (by simp [kids])]
      simp [kids]
    rw [convertAt.convertElements]
    refine .step (lift_run child) ((ih fine (named want List.mem_cons_self) (place ▸ h)
      (operands y List.mem_cons_self) (low y List.mem_cons_self)).bind ?_)
    rintro ⟨_, problem⟩ _ ⟨t, y', rfl, replaces, operand, -, good, fits, becomes⟩
    cases problem with
    -- the first element that does not fit ends the round, and then the list does not fit either
    | some d =>
      have operands' : ∀ z ∈ y' :: todo, c.session.types.Operand ok z :=
        List.forall_mem_cons.mpr ⟨operand, fun z mem => operands z (List.mem_cons_of_mem y mem)⟩
      have unfit : ¬ List.Forall₂ c.session.types.Fits (want :: wanted) (y :: todo) := by
        rintro (_ | ⟨first, _⟩)
        cases fits.mpr first
      exact .pure ⟨t, y' :: todo, rfl, replaces.holds, replaces.kept, operands', by simp,
        iff_of_false (by simp) unfit, by simp⟩
    | none =>
      obtain ⟨suits, rules, spot⟩ := good rfl
      have count : todo.length = wanted.length := by simpa using count
      have named := (List.forall_mem_cons.mp named).2
      have operands := (List.forall_mem_cons.mp operands).2
      have low := (List.forall_mem_cons.mp low).2
      -- the list with the checked element in it is the one that the rest is checked in
      have later := @more (c.withTree t) (.node x.index x.type x.args (done ++ y' :: todo))
        (done ++ [y']) todo (fine.withTree t) named replaces.holds (by simp) count operands low
      have same : t.handle x.index = c.session.tree.handle x.index :=
        Arena.handle_kept replaces.kept _
      have place : ((done ++ [y']).length : Int) = done.length + 1 := by simp
      rw [place, show (c.withTree t).session.tree.handle
        (node x.index x.type x.args (done ++ y' :: todo)).index = _ from same]
        at later
      refine later.mono ?_
      rintro problem _ ⟨u, todo', rfl, held, kept, operands', goods, allFit, allBecome⟩
      refine ⟨u, y' :: todo', rfl, by simpa using held, ?_,
        List.forall_mem_cons.mpr ⟨operand, operands'⟩, ?_, ?_, ?_⟩
      · exact fun i => (kept i).trans (replaces.kept i)
      · intro none
        obtain ⟨all, ruled, places⟩ := goods none
        refine ⟨.cons suits all, ?_, .cons spot places⟩
        intro names str before
        obtain ⟨first, others⟩ := List.forall_mem_cons.mp before
        exact List.forall_mem_cons.mpr ⟨rules names str first, ruled names str others⟩
      · rw [List.forall₂_cons, and_iff_right (fits.mp rfl)]
        exact allFit
      · exact fun none => .cons (becomes rfl) (allBecome none)

/-- A list has the type that it is given. -/
theorem exprType_retyped (long : 4 ≤ x.args.length) (i type : Int) (ks : List Rose) :
    (Rose.node i type (x.args.set 0 want) ks).exprType = want := by
  simp only [Rose.exprType, Rose.arg, args_node, List.getD_eq_getElem?_getD]
  rw [List.getElem?_set_self (by omega)]
  rfl

theorem location_retyped (long : 4 ≤ x.args.length) (i type : Int) (ks : List Rose) :
    (Rose.node i type (x.args.set 0 want) ks).location = x.location := by
  simp only [Rose.location, Rose.arg, args_node, List.length_set, List.getD_eq_getElem?_getD]
  rw [List.getElem?_set_ne (by omega), List.getElem?_set_ne (by omega)]

/-- A list whose elements were checked takes on its type. -/
theorem ConvertsAll.finish {wanted : List TypeId}
    {problem : Option Diagnostic} (named : c.session.types.Named want)
    (operand : c.session.types.Operand ok x) (list : x.kind = .initializer)
    (elements : c.session.types.Elements want x.children.length wanted)
    (all : c.ConvertsAll ok (f :: fs) x [] x.children wanted problem c') :
    ∃ t, (if problem.isNone then c'.session.tree.putArg (c.session.tree.handle x.index) 0 want
      else pure c'.session.tree) = .ok t ∧
    c.Converts ok (f :: fs) x want (c.session.tree.handle x.index, problem) (c'.withTree t) := by
  obtain ⟨u, ks, rfl, held, kept, operands, good, fits, become⟩ := all
  have fits : problem = none ↔ c.session.types.Fits want x :=
    fits.trans (TypeTable.fits_list list elements).symm
  have node := operand.node
  cases problem with
  | some d =>
    have operand' : c.session.types.Operand ok (.node x.index x.type x.args ks) :=
      TypeTable.operand_of_node ⟨node.kind, node.long, node.word, node.type, node.near⟩ operands
    exact ⟨u, rfl, u, .node x.index x.type x.args ks, rfl,
      ⟨held, (Arena.handle_kept kept _).symm, kept⟩, operand', fun _ => rfl, nofun, fits, nofun⟩
  | none =>
    obtain ⟨matching, ruled, places⟩ := good rfl
    obtain ⟨t, (run : u.putArg (u.handle x.index) 0 want = _), placed, more⟩ :=
      held.putArg_ok 0 want
    have keeps (i : Int) := (more i).trans (kept i)
    rw [Arena.handle_kept kept] at run
    have type : (Rose.node x.index x.type (x.args.set 0 want) ks).exprType = want :=
      exprType_retyped node.long _ _ _
    have location : (Rose.node x.index x.type (x.args.set 0 want) ks).location = x.location :=
      location_retyped node.long _ _ _
    refine ⟨t, run, t, .node x.index x.type (x.args.set 0 want) ks, rfl,
      ⟨placed, (Arena.handle_kept keeps _).symm, keeps⟩, ?operand, fun _ => rfl, ?good, fits,
      ?becomes⟩
    case operand =>
      refine TypeTable.operand_of_node ⟨node.kind, by simpa using node.long, fun literal => ?_,
        type.symm ▸ named, location.symm ▸ node.near⟩ operands
      cases list.symm.trans literal
    case becomes => exact fun _ => .list list elements (become rfl)
    intro _
    refine ⟨(if_pos list).mpr type, ?_, inPlaceOf_of_children location places⟩
    · intro names str before
      refine Session.ruled_of_node ?_ (ruled names str fun y mem => before.child mem)
      obtain ⟨notPlace, -⟩ := (Session.rule_list list).mp (before x x.mem_nodes_self)
      have same : (Rose.node x.index x.type (x.args.set 0 want) ks).kind = .initializer := list
      refine (Session.rule_list same).mpr ⟨?_, .inr ?_⟩
      · rw [Rose.isPlace, Rose.arg, List.getD_eq_getElem?_getD] at *
        simpa using notPlace
      · rw [type]
        exact elements.matching matching

theorem convertAt_ends {depth : Nat} (fine : c.Fine ok) (named : c.session.types.Named want)
    (h : c.session.tree.Holds (fill (f :: fs) x)) (operand : c.session.types.Operand ok x)
    (low : x.height ≤ depth) : Ends ok (convertAt depth want (c.session.tree.handle x.index)) c
    (c.Converts ok (f :: fs) x want) := by
  induction depth generalizing c x f fs want with
  | zero =>
    cases x
    simp [Rose.height] at low
  | succ depth ih =>
    have room := fine.short
    have below : ∀ y ∈ x.children, y.height ≤ depth := fun y mem => by
      have := Rose.height_child mem
      omega
    rw [convertAt]
    refine .step (kindOf_run h.subtree) ?_
    split
    next single => exact convertValue_ends fine named h operand (by simpa using single)
    next list =>
      have list : x.kind = .initializer := by simpa using list
      refine .step (types_run c) (.step (tree_run c) ?_)
      rw [h.subtree.amount]
      -- The elements are checked against types that are known, then the list takes on its type.
      have matched {wanted : List TypeId} (elements : c.session.types.Elements want
          x.children.length wanted) (all : ∀ w ∈ wanted, c.session.types.Named w) : Ends ok (do
            let problem ← convertAt.convertElements depth (c.session.tree.handle x.index) 0 wanted
            if problem.isNone
              then setTree (← (← tree).putArg (c.session.tree.handle x.index) 0 want)
            return (c.session.tree.handle x.index, problem)) c
              (c.Converts ok (f :: fs) x want) := by
        refine (convertElements_ends ih fine all h (List.nil_append _).symm elements.length.symm
          (fun y mem => operand.child mem) below).bind ?_
        intro problem c' done
        obtain ⟨t, run, converts⟩ := done.finish named operand list elements
        cases problem with
        | some d =>
          cases run
          exact .pure converts
        | none =>
          refine .step (tree_run c')
            (.step (lift_run run) (.step (setTree_run t c') (.pure converts)))
      split
      next isStructure =>
        refine .lift ((TypeTable.fields_ends named room).learn
          (Q := fun fields => c.session.types.fields want = .ok fields ∧
          ∀ g ∈ fields, c.session.types.Named g.type) fun fields read all => ⟨read, all⟩) ?_
        rintro fields ⟨read, all⟩
        split
        next differ =>
          refine .pure (converts_refused h operand (fun fits => ?_) _)
          rcases fits with ⟨single, -⟩ | ⟨-, ⟨-, again, count⟩ | ⟨isArray, -⟩, -⟩
          · exact single list
          · cases read.symm.trans again
            simp [count] at differ
          · simp [TypeTable.not_isArray_of_isStructure isStructure] at isArray
        next count =>
          refine matched (.struct isStructure read (by simpa using count)) fun w mem => ?_
          obtain ⟨g, inside, rfl⟩ := List.mem_map.mp mem
          exact all g inside
      next other =>
        split
        next isArray =>
          obtain ⟨element, read, namedElement, -⟩ := named.element
          exact .step (lift_run read) (matched (.array isArray read) fun w mem =>
            List.eq_of_mem_replicate mem ▸ namedElement)
        next neither =>
          refine .pure (converts_refused h operand (fun fits => ?_) _)
          rcases fits with ⟨single, -⟩ | ⟨-, ⟨isStructure, -, -⟩ | ⟨isArray, -⟩, -⟩
          · exact single list
          · exact other isStructure
          · exact neither isArray

/-! ## Trees under the root -/

/-- One of the trees under the root gave way to another one, and all handles were kept. -/
structure Swaps (t t' : Arena) (rest : List Rose) (x' : Rose) (n : Handle) : Prop where
  carries : t'.Carries (x' :: rest)
  handle : n = t'.handle x'.index
  kept : ∀ i, t'.generation i = t.generation i

variable {t t' : Arena}

theorem Swaps.same (swaps : Swaps t t' rest x' n) (i : Int) : t'.handle i = t.handle i :=
  Arena.handle_kept swaps.kept i

theorem Swaps.keeps (swaps : Swaps t t' rest x' n) : t.Keeps t' rest :=
  fun r _ => swaps.same r.index

/-- A constant is converted, or a cast is put above an expression. -/
theorem cast_swaps (carries : c.session.tree.Carries (x :: rest)) (want : TypeId) :
    ∃ t x', cast want (c.session.tree.handle x.index) c = .ok (t.handle x'.index, c.withTree t) ∧
      Swaps c.session.tree t rest x' (t.handle x'.index) ∧ Recast want x x' := by
  obtain ⟨f, place, put⟩ := carries.place
  obtain ⟨t, x', run, replaces, recast⟩ := cast_run place want
  exact ⟨t, x', run, ⟨put t x' replaces.holds, rfl, replaces.kept⟩, recast⟩

/-- An initializer becomes one of the type that it matches, or it is said why it does not match. -/
theorem convert_fits_ends (fine : c.Fine ok) (named : c.session.types.Named want)
    (carries : c.session.tree.Carries (x :: rest)) (operand : c.session.types.Operand ok x) :
    Ends ok (convert want (c.session.tree.handle x.index)) c fun out c' => ∃ t x', c' =
    c.withTree t ∧ Swaps c.session.tree t rest x' out.1 ∧ c.session.types.Operand ok x' ∧
    (out.2 ≠ none → x'.index = x.index) ∧ (out.2 = none → Session.Matches want x' ∧
      (∀ names str, c.session.Ruled names str x → c.session.Ruled names str x') ∧ x.InPlaceOf x') ∧
    (out.2 = none ↔ c.session.types.Fits want x) ∧
    (out.2 = none → c.session.types.Becomes want x x') := by
  obtain ⟨f, place, put⟩ := carries.place
  have low : x.height ≤ c.session.tree.walkBound :=
    (Rose.height_le_of_mem_nodes (Rose.mem_nodes_fill [f] x.mem_nodes_self)).trans place.height_le
  rw [convert]
  refine .step (tree_run c) ((convertAt_ends fine named place operand low).mono ?_)
  rintro out _ ⟨t, x', rfl, replaces, operand', same, good⟩
  exact ⟨t, x', rfl, ⟨put t x' replaces.holds, replaces.handle, replaces.kept⟩,
    operand', same, good⟩

/-- An expression is converted to a type, or it is said why it cannot be. -/
theorem convert_ends (fine : c.Fine ok) (named : c.session.types.Named want)
    (carries : c.session.tree.Carries (x :: rest)) (operand : c.session.types.Operand ok x) :
    Ends ok (convert want (c.session.tree.handle x.index)) c fun out c' =>
    ∃ t x', c' = c.withTree t ∧ Swaps c.session.tree t rest x' out.1 ∧
    c.session.types.Operand ok x' ∧ (out.2 ≠ none → x'.index = x.index) ∧
    (out.2 = none → Session.Matches want x' ∧ (∀ names str, c.session.Ruled names str x →
      c.session.Ruled names str x') ∧ x.InPlaceOf x') := by
  refine (convert_fits_ends fine named carries operand).mono ?_
  rintro out _ ⟨t, x', rfl, swaps, operand', same, good, -⟩
  exact ⟨t, x', rfl, swaps, operand', same, good⟩

end Checker

end BilingualC
