import Mathlib
import BilingualC.Proofs.Checker.Building
import BilingualC.Proofs.TypeTable.Components

/-!
# Conversions

A conversion changes a constant in its place or puts a node above an expression, at any depth of a
list of initializers. The tree around the converted one stays as it is, and what comes out is an
expression or an initializer again.
-/

namespace BilingualC

open Std.Do

set_option mvcgen.warning false

namespace Arena

open Rose

variable {t t' : Arena} {f : Frame} {fs : List Frame} {r : Rose}

theorem Has.exprType (h : t.Has r) : t.exprType (t.handle r.index) = .ok r.exprType := h.arg 0

theorem handle_kept (kept : ∀ i, t'.generation i = t.generation i) (i : Int) :
    t'.handle i = t.handle i := by
  rw [handle, handle, kept]

/-- Writing an argument that is missing changes nothing. -/
theorem Holds.putArg (h : t.Holds (fill fs r)) {k : Nat} {value : Int}
    (done : t.putArg (t.handle r.index) k value = .ok t') :
    t'.Holds (fill fs (r.withArgs (r.args.set k value))) ∧
    ∀ i, t'.generation i = t.generation i := by
  by_cases inside : k < r.args.length
  · obtain ⟨u, set, holds, -, kept⟩ := h.setArg inside value
    rw [Arena.putArg, set] at done
    cases done
    exact ⟨holds, kept⟩
  · have refused : t.setArg (t.handle r.index) k value =
      .ok (.error (.noArgument k (t.handle r.index).index)) := by
      have out : (t.argc (t.handle r.index) ≤ k) := by
        rw [h.subtree.argc]
        omega
      simp [Arena.setArg, h.subtree.isBroken, out, pure, Except.pure]
    rw [Arena.putArg, refused] at done
    cases done
    rw [List.set_eq_of_length_le (by omega), withArgs, eta]
    exact ⟨h, fun _ => rfl⟩

/-- Writing the location of a node changes its last two arguments. -/
theorem Holds.setLocation {i type a b : Int} {args : List Int} {kids : List Rose} {loc : Location}
    (h : t.Holds (fill fs (.node i type (args ++ [a, b]) kids)))
    (done : t.setLocation (t.handle i) loc = .ok t') :
    t'.Holds (fill fs (.node i type (args ++ [loc.start, loc.stop]) kids)) ∧
    ∀ j, t'.generation j = t.generation j := by
  have argc : t.argc (t.handle i) = args.length + 2 := by simpa using h.subtree.argc
  rw [Arena.setLocation, argc, if_neg (by omega)] at done
  obtain ⟨u, first, second⟩ := Guarded.bind_eq_ok.mp done
  have start : t.putArg (t.handle i) args.length loc.start = .ok u := by simpa using first
  obtain ⟨middle, keptFirst⟩ := h.putArg start
  rw [show ((args.length : Int) + 2 - 1) = (args.length + 1 : Nat) by push_cast; omega,
    ← handle_kept keptFirst] at second
  obtain ⟨last, keptSecond⟩ := middle.putArg second
  refine ⟨?_, fun j => (keptSecond j).trans (keptFirst j)⟩
  simpa [withArgs] using last

end Arena

namespace Checker

open Rose

variable {c₀ c : Checker}

/-- A subtree gave way to another one, and all handles were kept. -/
structure Replaces (t t' : Arena) (fs : List Frame) (r' : Rose) (n' : Handle) : Prop where
  holds : t'.Holds (fill fs r')
  handle : n' = t'.handle r'.index
  kept : ∀ i, t'.generation i = t.generation i

/-- A constant is rewritten in its place. -/
theorem replaces_literal {t t₁ t₂ : Arena} {fs : List Frame} {r : Rose} {word type : Int}
    (h : t.Holds (fill fs r)) (value : t.putArg (t.handle r.index) 2 word = .ok t₁)
    (typed : t₁.putArg (t.handle r.index) 0 type = .ok t₂) :
    Replaces t t₂ fs (r.withArgs ((r.args.set 2 word).set 0 type)) (t.handle r.index) := by
  obtain ⟨middle, first⟩ := h.putArg (k := 2) value
  rw [← Arena.handle_kept first] at typed
  obtain ⟨last, second⟩ := middle.putArg (k := 0) typed
  have kept (i : Int) := (second i).trans (first i)
  exact ⟨last, (Arena.handle_kept kept _).symm, kept⟩

/-- A node is put above an expression. -/
theorem replaces_cast {t t₁ t₂ t₃ t₄ t₅ : Arena} {n : Handle} {f : Frame} {fs : List Frame}
    {r : Rose} {type source : Int} {loc : Location} (h : t.Holds (fill (f :: fs) r))
    (inserted : t.insert (t.handle r.index) Kind.cast.number 5 = .ok (t₁, n))
    (typed : t₁.putArg n 0 type = .ok t₂)
    (category : t₂.putArg n 1 Category.value.word = .ok t₃) (origin : t₃.putArg n 2 source = .ok t₄)
    (located : t₄.setLocation n loc = .ok t₅) : ∃ i, Replaces t t₅ (f :: fs)
    (.node i Kind.cast.number [type, Category.value.word, source, loc.start, loc.stop] [r]) n := by
  obtain ⟨_, made, h₁, -, k₁⟩ :=
    h.insert Kind.cast.number (show ((5 : Nat) : Int) ≤ largestBlock by decide)
  cases made.symm.trans inserted
  obtain ⟨h₂, k₂⟩ := h₁.putArg (k := 0) typed
  rw [← Arena.handle_kept k₂] at category
  obtain ⟨h₃, k₃⟩ := h₂.putArg (k := 1) category
  rw [← Arena.handle_kept k₂, ← Arena.handle_kept k₃] at origin
  obtain ⟨h₄, k₄⟩ := h₃.putArg (k := 2) origin
  rw [← Arena.handle_kept k₂, ← Arena.handle_kept k₃, ← Arena.handle_kept k₄] at located
  have placed : t₄.Holds (fill (f :: fs) (.node t.freshIndex Kind.cast.number
      ([type, Category.value.word, source] ++ [0, 0]) [r])) := by
    simpa [withArgs] using h₄
  obtain ⟨h₅, k₅⟩ := placed.setLocation located
  have later (i : Int) := ((k₅ i).trans ((k₄ i).trans ((k₃ i).trans (k₂ i))))
  exact ⟨t.freshIndex, h₅, (Arena.handle_kept later _).symm, fun i => (later i).trans (k₁ i)⟩

/-- A constant has no children. -/
theorem literal_inv {r : Rose} (expr : IsExpr r) (kind : r.kind = .literal) : r.isPlace = false ∧
    r.children = [] := by
  cases expr with
  | literal _ value kids => exact ⟨value, kids⟩
  | _ => simp_all

theorem valid_floating {types : TypeTable} {type : TypeId}
    (floating : TypeId.isFloating type = true) : types.Valid type := by
  obtain rfl : type = TypeId.float := by simpa [TypeId.isFloating] using floating
  exact .scalar (by decide)

/-- A node whose type was written has a valid type. -/
theorem valid_retyped {types : TypeTable} {type : TypeId} {r : Rose} (args : List Int)
    (valid : types.Valid type) : types.Valid (r.withArgs (args.set 0 type)).exprType := by
  cases args with
  | nil => exact .scalar (le_refl 0)
  | cons a rest => exact valid

/-- An integer expression was converted to floating. -/
def Cast (c₀ : Checker) (type : TypeId) (n n' : Handle) (c : Checker) : Prop :=
  ∃ t, c = c₀.withTree t ∧ ∀ f fs r, c₀.session.tree.Holds (fill (f :: fs) r) →
    n = c₀.session.tree.handle r.index → IsExpr r → TypeId.isInteger r.exprType = true →
    TypeId.isFloating type = true → c₀.session.Covers r →
    ∃ r', Replaces c₀.session.tree t (f :: fs) r' n' ∧ IsExpr r' ∧ c₀.session.Covers r'

@[spec] theorem cast_spec (type : TypeId) (n : Handle) :
    ⦃fun c => ⌜c = c₀⌝⦄ cast type n ⦃⇓? n' c => ⌜c₀.Cast type n n' c⌝⦄ := by
  mvcgen [cast, typeOf, tree, isLiteral, kindOf]
  next _ same _ _ isLiteral _ _ _ value _ typed _ _ put =>
    subst same put
    refine ⟨_, rfl, fun f fs r holds named expr integer floating covers => ?_⟩
    subst named
    have kind : r.kind = .literal := by simpa [holds.subtree.kind] using isLiteral
    obtain ⟨notPlace, leaf⟩ := literal_inv expr kind
    refine ⟨_, replaces_literal holds value typed, .literal kind ?_ leaf, ?_⟩
    · simpa [Rose.isPlace, arg, withArgs] using notPlace
    · refine Session.covers_node (Session.refers_anonymous kind rfl fun _ => ?_) ?_
      · exact valid_retyped _ (valid_floating floating)
      · exact fun c child => by simp [leaf, withArgs] at child
  next _ same _ source _ _ _ _ inserted _ typed _ category _ origin _ moved _ _ put =>
    subst same put
    refine ⟨_, rfl, fun f fs r holds named expr integer floating covers => ?_⟩
    subst named
    obtain rfl := Except.ok.inj (holds.subtree.exprType.symm.trans source)
    obtain ⟨i, replaces⟩ := replaces_cast holds inserted typed category origin moved
    refine ⟨_, replaces, .cast rfl rfl rfl expr integer floating, ?_⟩
    refine Session.covers_node (Session.refers_anonymous rfl rfl fun _ =>
      valid_floating floating) ?_
    exact fun c child => List.mem_singleton.mp child ▸ covers

/-! ## Lists -/

theorem covers_withTree {t : Arena} {r : Rose} (covers : c.session.Covers r) :
    (c.withTree t).session.Covers r := by
  intro x mem
  have refers := covers x mem
  exact ⟨⟨refers.type, refers.declared, refers.list, refers.callee, refers.named, refers.jump,
    refers.label, refers.function⟩, refers.name, refers.place⟩

theorem covers_of_withTree {t : Arena} {r : Rose} (covers : (c.withTree t).session.Covers r) :
    c.session.Covers r := by
  intro x mem
  have refers := covers x mem
  exact ⟨⟨refers.type, refers.declared, refers.list, refers.callee, refers.named, refers.jump,
    refers.label, refers.function⟩, refers.name, refers.place⟩

/-- An expression is no list. -/
theorem kind_ne_initializer {r : Rose} (expr : IsExpr r) : r.kind ≠ .initializer := by
  intro list
  cases expr <;> simp_all

theorem expr_of_initializer {r : Rose} (init : IsInitializer r) (single : r.kind ≠ .initializer) :
    IsExpr r := by
  cases init with
  | expr expr => exact expr
  | list kind _ => exact absurd kind single

/-- An initializer was converted without a problem. -/
def Converted (c₀ : Checker) (want : TypeId) (n n' : Handle) (problem : Option Diagnostic)
    (c : Checker) : Prop :=
  ∃ t, c = c₀.withTree t ∧ ∀ f fs r, c₀.session.tree.Holds (fill (f :: fs) r) →
    n = c₀.session.tree.handle r.index → IsInitializer r →
    c₀.session.types.Valid want → c₀.session.Covers r → problem = none →
    ∃ r', Replaces c₀.session.tree t (f :: fs) r' n' ∧ IsInitializer r' ∧ c₀.session.Covers r' ∧
    (IsExpr r → IsExpr r') ∧ (r'.kind = .initializer → c₀.session.types.isStructure want = true ∨
    c₀.session.types.isArray want = true)

/-- A value that needs no conversion. -/
theorem converted_self (want : TypeId) {n : Handle} (problem : Option Diagnostic)
    (single : c₀.session.tree.kind n ≠ .initializer) : c₀.Converted want n n problem c₀ := by
  refine ⟨c₀.session.tree, rfl, fun f fs r holds named init valid covers _ => ?_⟩
  rw [named, holds.subtree.kind] at single
  exact ⟨r, ⟨holds, named, fun _ => rfl⟩, init, covers, id, fun list => absurd list single⟩

theorem Cast.converted {want got : TypeId} {n n' : Handle} (cast : c₀.Cast want n n' c)
    (read : c₀.session.tree.exprType n = .ok got) (integer : TypeId.isInteger got = true)
    (floating : TypeId.isFloating want = true) (single : c₀.session.tree.kind n ≠ .initializer) :
    c₀.Converted want n n' none c := by
  obtain ⟨t, rfl, cast⟩ := cast
  refine ⟨t, rfl, fun f fs r holds named init valid covers _ => ?_⟩
  subst named
  rw [holds.subtree.kind] at single
  obtain rfl := Except.ok.inj (holds.subtree.exprType.symm.trans read)
  obtain ⟨r', replaces, expr, covers'⟩ :=
    cast f fs r holds rfl (expr_of_initializer init single) integer floating covers
  exact ⟨r', replaces, .expr expr, covers', fun _ => expr,
    fun list => absurd list (kind_ne_initializer expr)⟩

@[spec] theorem convertValue_spec (want : TypeId) (n : Handle) :
    ⦃fun c => ⌜c = c₀⌝⦄ convertValue want n
    ⦃⇓? out c => ⌜c₀.session.tree.kind n ≠ .initializer → c₀.Converted want n out.1 out.2 c⌝⦄ := by
  mvcgen [convertValue, typeOf, tree, types, typeName, currentSession]
  all_goals
    subst_vars
    intro single
  case vc1 test read _ _ cast =>
    obtain ⟨floating, integer⟩ := Bool.and_eq_true_iff.mp test
    exact cast.converted read integer floating single
  all_goals exact converted_self want _ single

/-- The elements of a list from a number on were converted without a problem. -/
def ElementsConverted (c₀ : Checker) (n : Handle) (i : Int) (wanted : List TypeId)
    (problem : Option Diagnostic) (c : Checker) : Prop :=
  ∃ t, c = c₀.withTree t ∧ ∀ f fs r done todo, c₀.session.tree.Holds (fill (f :: fs) r) →
    n = c₀.session.tree.handle r.index → r.children = done ++ todo →
    i = done.length → todo.length = wanted.length →
    (∀ x ∈ todo, IsInitializer x) → (∀ x ∈ todo, c₀.session.Covers x) →
    (∀ type ∈ wanted, c₀.session.types.Valid type) → problem = none →
    ∃ todo', t.Holds (fill (f :: fs) (.node r.index r.type r.args (done ++ todo'))) ∧
    (∀ i, t.generation i = c₀.session.tree.generation i) ∧
    (∀ x ∈ todo', IsInitializer x) ∧ ∀ x ∈ todo', c₀.session.Covers x

/-- A child keeps its number when the children before it are converted. -/
theorem child_between {t : Arena} {r x : Rose} {done rest : List Rose} {n : Handle} (has : t.Has r)
    (kids : r.children = done ++ x :: rest)
    (read : t.child (t.handle r.index) done.length = .ok n) : n = t.handle x.index := by
  have inside : done.length < r.children.length := by simp [kids]
  rw [has.child_at inside] at read
  cases read
  simp [kids]

theorem Converted.elements {n child n' : Handle} {i : Int} {type : TypeId}
    {wanted : List TypeId} {problem : Option Diagnostic} {c₁ : Checker}
    (read : c₀.session.tree.child n i = .ok child) (first : c₀.Converted type child n' none c₁)
    (later : c₁.ElementsConverted n (i + 1) wanted problem c) :
    c₀.ElementsConverted n i (type :: wanted) problem c := by
  obtain ⟨t₁, rfl, first⟩ := first
  obtain ⟨t, rfl, later⟩ := later
  refine ⟨t, rfl, fun f fs r done todo holds named kids here count inits covers valid fine => ?_⟩
  obtain ⟨x, todo, rfl⟩ := List.exists_cons_of_length_eq_add_one count
  subst named here
  have place : fill (f :: fs) r = fill (⟨r.index, r.type, r.args, done, todo⟩ :: f :: fs) x := by
    rw [fill_cons _ (f :: fs), Frame.plug, ← kids, eta]
  obtain ⟨x', replaces, init, covered, -⟩ :=
    first _ _ x (place ▸ holds) (child_between holds.subtree kids read) (inits x List.mem_cons_self)
      (valid type List.mem_cons_self) (covers x List.mem_cons_self) rfl
  obtain ⟨todo', held, kept, inits', covers'⟩ :=
    later f fs (.node r.index r.type r.args (done ++ x' :: todo)) (done ++ [x']) todo replaces.holds
      (Arena.handle_kept replaces.kept _).symm (by simp) (by simp) (by simpa using count)
      (fun y mem => inits y (List.mem_cons_of_mem x mem)) (fun y mem => covers_withTree (covers y
      (List.mem_cons_of_mem x mem))) (fun y mem => valid y (List.mem_cons_of_mem type mem)) fine
  refine ⟨x' :: todo', by simpa using held, fun i => (kept i).trans (replaces.kept i), ?_, ?_⟩
  · exact List.forall_mem_cons.mpr ⟨init, inits'⟩
  · exact List.forall_mem_cons.mpr ⟨covered, fun y mem => covers_of_withTree (covers' y mem)⟩

theorem convertElements_spec (depth : Nat) (ih : ∀ {c₀ : Checker} (want : TypeId) (n : Handle),
      ⦃fun c => ⌜c = c₀⌝⦄ convertAt depth want n ⦃⇓? out c => ⌜c₀.Converted want n out.1 out.2 c⌝⦄)
    (n : Handle) (i : Int) (wanted : List TypeId) :
    ⦃fun c => ⌜c = c₀⌝⦄ convertAt.convertElements depth n i wanted
    ⦃⇓? problem c => ⌜c₀.ElementsConverted n i wanted problem c⌝⦄ := by
  induction wanted generalizing i c₀ with
  | nil =>
    mvcgen [convertAt.convertElements]
    next same =>
      refine ⟨c₀.session.tree, same,
        fun f fs r done todo holds _ kids _ count inits covers _ _ => ?_⟩
      obtain rfl := List.length_eq_zero_iff.mp count
      exact ⟨[], by rwa [← kids, eta], fun _ => rfl, by simp, by simp⟩
  | cons type rest more =>
    mvcgen [convertAt.convertElements, childOf, tree, ih, more]
    next _ same _ _ _ _ _ _ converted =>
      obtain ⟨t, rfl, -⟩ := converted
      subst same
      exact ⟨t, rfl, fun _ _ _ _ _ _ _ _ _ _ _ _ _ problem => by cases problem⟩
    next _ same _ read _ fine _ converted _ _ =>
      subst same
      exact (fine ▸ converted).elements read

/-- A problem leaves nothing to be said. -/
theorem converted_failed (want : TypeId) (n n' : Handle) {problem : Option Diagnostic}
    (failed : problem ≠ none) (t : Arena) : c₀.Converted want n n' problem (c₀.withTree t) :=
  ⟨t, rfl, fun _ _ _ _ _ _ _ _ fine => absurd fine failed⟩

/-- A list whose elements were converted takes on the type that it matches. -/
theorem ElementsConverted.list {n : Handle} {want : TypeId} {wanted : List TypeId}
    {c₁ : Checker} {t : Arena} (elements : c₀.ElementsConverted n 0 wanted none c₁)
    (list : c₀.session.tree.kind n = .initializer)
    (form : c₀.session.types.isStructure want = true ∨ c₀.session.types.isArray want = true)
    (count : (c₀.session.tree.amount n).toNat = wanted.length)
    (valid : c₀.session.types.Valid want → ∀ type ∈ wanted, c₀.session.types.Valid type)
    (put : c₁.session.tree.putArg n 0 want = .ok t) :
    c₀.Converted want n n none (c₁.withTree t) := by
  obtain ⟨t₁, rfl, elements⟩ := elements
  refine ⟨t, rfl, fun f fs r holds named init good covers _ => ?_⟩
  subst named
  rw [holds.subtree.kind] at list
  rw [holds.subtree.amount] at count
  have kids : ∀ x ∈ r.children, IsInitializer x := by
    cases init with
    | expr expr => exact absurd list (kind_ne_initializer expr)
    | list _ all => exact all
  obtain ⟨todo, held, kept, inits, covered⟩ :=
    elements f fs r [] r.children holds rfl rfl rfl (by omega) kids (fun x mem => covers.child mem)
      (valid good) rfl
  rw [← Arena.handle_kept kept] at put
  obtain ⟨last, same⟩ := held.putArg (k := 0) put
  have still (i : Int) := (same i).trans (kept i)
  refine ⟨_, ⟨last, (Arena.handle_kept still _).symm, still⟩, .list list inits, ?_,
    fun expr => absurd list (kind_ne_initializer expr), fun _ => form⟩
  exact Session.covers_node (Session.refers_anonymous list rfl fun _ =>
    valid_retyped _ good) covered

theorem convertAt_spec (depth : Nat) (want : TypeId) (n : Handle) : ⦃fun c =>
    ⌜c = c₀⌝⦄ convertAt depth want n ⦃⇓? out c => ⌜c₀.Converted want n out.1 out.2 c⌝⦄ := by
  induction depth generalizing want n c₀ with
  | zero =>
    mvcgen [convertAt]
    simp
  | succ depth ih =>
    have elements {c₀ : Checker} := @convertElements_spec c₀ depth ih
    mvcgen [convertAt, kindOf, tree, types, elements]
    all_goals subst_vars
    case vc1 single _ _ => exact fun converted => converted (by simpa using single)
    case vc3 list _ _ isStructure _ same read _ _ fine _ converted _ put _ =>
      obtain rfl := Option.isNone_iff_eq_none.mp fine
      refine converted.list (by simpa using list) (.inl isStructure) ?_
        (fun valid type mem => ?_) put
      · rw [List.length_map, ← show _ = Arena.amount _ n by simpa using same, Int.toNat_natCast]
      · obtain ⟨f, inside, rfl⟩ := List.mem_map.mp mem
        exact valid.fields read f inside
    case vc5 list _ _ _ isArray _ read _ _ fine _ converted _ put _ =>
      obtain rfl := Option.isNone_iff_eq_none.mp fine
      refine converted.list (by simpa using list) (.inr isArray) ?_ (fun valid type mem => ?_) put
      · exact List.length_replicate.symm
      · exact List.eq_of_mem_replicate mem ▸ valid.element read
    case vc4 | vc6 =>
      rename_i failed _ converted
      obtain ⟨t, rfl, -⟩ := converted
      exact converted_failed want n n (by simpa using failed) t
    all_goals exact converted_failed want n n (by simp) _

@[spec] theorem convert_spec (want : TypeId) (n : Handle) :
    ⦃fun c => ⌜c = c₀⌝⦄ convert want n ⦃⇓? out c => ⌜c₀.Converted want n out.1 out.2 c⌝⦄ := by
  mvcgen [convert, tree, convertAt_spec]

/-! ## Converted trees among those that wait -/

section Waiting

variable {w : World} {upper lower : List Rose} {r r' : Rose} {n n' : Handle}

/-- One of the trees that wait was converted. -/
structure Swapped (c₀ : Checker) (w : World) (upper lower : List Rose) (n' : Handle) (r' : Rose)
    (c : Checker) : Prop where
  stands : c.Stands w (upper ++ r' :: lower)
  handle : n' = c.session.tree.handle r'.index
  kept : ∀ i, c.session.tree.generation i = c₀.session.tree.generation i

theorem unit_waiting (w : World) (upper lower : List Rose) (r : Rose) :
    Rose.unit (w.parts ++ (upper ++ r :: lower).reverse) =
    fill [placeUnder (w.parts ++ lower.reverse) upper.reverse] r := by
  rw [fill_placeUnder]
  simp

theorem Stands.swap {t : Arena} (stands : c₀.Stands w (upper ++ r :: lower)) (replaces :
      Replaces c₀.session.tree t [placeUnder (w.parts ++ lower.reverse) upper.reverse] r' n')
    (old : IsInitializer r) (new : IsInitializer r') (covers : c₀.session.Covers r') :
    c₀.Swapped w upper lower n' r' (c₀.withTree t) := by
  have none {x : Rose} (init : IsInitializer x) (k : Kind) (jumps : k = .label ∨ k = .jump) :
    x.collect k = [] := by
    rcases jumps with rfl | rfl <;> exact collect_initializer init rfl nofun
  have same (k : Kind) (jumps : k = .label ∨ k = .jump) :
      (upper ++ r' :: lower).flatMap (collect k) = (upper ++ r :: lower).flatMap (collect k) := by
    simp only [List.flatMap_append, List.flatMap_cons, none old k jumps, none new k jumps]
  refine ⟨stands.withTree (unit_waiting w upper lower r' ▸ replaces.holds) ?_ ?_ ?_,
    replaces.handle, replaces.kept⟩
  · intro x mem
    rcases List.mem_append.mp mem with above | mem
    · exact stands.covers x (List.mem_append_left _ above)
    · rcases List.mem_cons.mp mem with rfl | below
      · exact covers
      · exact stands.covers x (List.mem_append_right _ (List.mem_cons_of_mem r below))
  · rw [labelsIn, same .label (.inl rfl)]
    rfl
  · rw [jumpsIn, same .jump (.inr rfl)]
    exact fun _ => id

theorem Cast.swapped {type : TypeId} (cast : c₀.Cast type n n' c)
    (stands : c₀.Stands w (upper ++ r :: lower)) (named : n = c₀.session.tree.handle r.index)
    (expr : IsExpr r) (integer : TypeId.isInteger r.exprType = true)
    (floating : TypeId.isFloating type = true) : ∃ r', c₀.Swapped w upper lower n' r' c ∧
    IsExpr r' := by
  obtain ⟨t, rfl, cast⟩ := cast
  have holds := stands.holds
  rw [unit_waiting] at holds
  obtain ⟨r', replaces, expr', covers⟩ :=
    cast _ [] r holds named expr integer floating (stands.covers r (by simp))
  exact ⟨r', stands.swap replaces (.expr expr) (.expr expr') covers, expr'⟩

theorem Converted.swapped {want : TypeId} (converted : c₀.Converted want n n' none c)
    (stands : c₀.Stands w (upper ++ r :: lower)) (named : n = c₀.session.tree.handle r.index)
    (init : IsInitializer r) (valid : c₀.session.types.Valid want) :
    ∃ r', c₀.Swapped w upper lower n' r' c ∧ IsInitializer r' ∧ (IsExpr r → IsExpr r') ∧
    (r'.kind = .initializer → c₀.session.types.isStructure want = true ∨
      c₀.session.types.isArray want = true) := by
  obtain ⟨t, rfl, converted⟩ := converted
  have holds := stands.holds
  rw [unit_waiting] at holds
  obtain ⟨r', replaces, init', covers, rest⟩ :=
    converted _ [] r holds named init valid (stands.covers r (by simp)) rfl
  exact ⟨r', stands.swap replaces init init' covers, init', rest⟩

/-- A tree below some others is converted. -/
theorem Effect.swap {slot slot' : Slot} (dirty : c₀.Dirty → c.Dirty) (above : List Slot)
    (swap : ∀ w upper x lower, c₀.Stands w (upper ++ x :: lower) →
      slot.handle = c₀.session.tree.handle x.index →
      slot.form x → ∃ x', c₀.Swapped w upper lower slot'.handle x' c ∧ slot'.form x') :
    c₀.Effect (above ++ [slot]) (above ++ [slot']) c := by
  rintro w base (error | ⟨_, stands, fits⟩)
  · exact .inl (dirty error)
  · obtain ⟨_, lower, rfl, fits, later⟩ := fits_append.mp fits
    obtain ⟨upper, _, rfl, first, one⟩ := fits_append.mp fits
    obtain ⟨x, rfl, named, form⟩ := fits_one.mp one
    rw [List.append_assoc, List.singleton_append] at stands
    obtain ⟨x', swapped, form'⟩ := swap w upper x lower stands named form
    refine .inr ⟨upper ++ x' :: lower, swapped.stands, ?_⟩
    rw [List.append_assoc]
    refine fits_append.mpr ⟨upper, x' :: lower, rfl, first.keep fun r _ => swapped.kept r.index, ?_⟩
    exact fits_cons.mpr ⟨x', lower, rfl, swapped.handle, form',
      later.keep fun r _ => swapped.kept r.index⟩

/-- An expression whose type has a property. -/
def Slot.typed (property : TypeId → Bool) (n : Handle) : Slot :=
  ⟨n, fun x => IsExpr x ∧ property x.exprType = true⟩

/-- An integer expression among those that wait is converted to floating. -/
theorem Cast.effect {type : TypeId} (cast : c₀.Cast type n n' c)
    (floating : TypeId.isFloating type = true) (above : List Slot) :
    c₀.Effect (above ++ [.typed TypeId.isInteger n]) (above ++ [.expr n']) c :=
  .swap (fun dirty => by obtain ⟨t, rfl, -⟩ := cast; exact dirty) above
    fun _ _ _ _ stands named known =>
    cast.swapped stands named known.1 known.2 floating

/-- An expression that is converted to a valid type. -/
theorem Converted.effect {want : TypeId}
    (converted : c₀.Converted want n n' none c) (above : List Slot) : c₀.Effect
    (above ++ [⟨n, fun x => IsExpr x ∧ c₀.session.types.Valid want⟩]) (above ++ [.expr n']) c := by
  refine .swap (fun dirty => by obtain ⟨t, rfl, -⟩ := converted; exact dirty) above
    fun w upper x lower stands named known => ?_
  obtain ⟨x', swapped, _, keeps, _⟩ := converted.swapped stands named (.expr known.1) known.2
  exact ⟨x', swapped, keeps known.1⟩

end Waiting

end Checker

end BilingualC
