import Mathlib
import BilingualC.Proofs.Lowering.Run

/-!
# The code of an initializer, part by part

Generating the code of an expression changes the memory, the waiting calls and the failure only; the
session stays as it is (`Steady`). So an initializer is pushed by the steps that `pushes` lists for
it, and by no others: the length of each list of an array before its elements, and the value of each
leaf, in the order in which they are written.
-/

namespace BilingualC

namespace Lowering

/-! ## Steps that leave the session alone -/

/-- A step of the generator that leaves the session as it is, if it comes to an end. -/
def Steady {α : Type} (m : Lower α) : Prop := ∀ g a h, Yields m g a h → h.session = g.session

variable {α β : Type} {g : Lowering} {n : Handle} {depth : Nat}

namespace Steady

theorem pure (a : α) : Steady (pure a : Lower α) := fun _ _ _ run => by
  cases run
  rfl

theorem get : Steady get := fun _ _ _ run => by
  cases run
  rfl

theorem modify {change : Lowering → Lowering} (keeps : ∀ g, (change g).session = g.session) :
    Steady (modify change) :=
  fun _ _ _ run => by
  cases run
  exact keeps _

theorem lift (x : Guarded α) : Steady (liftM x : Lower α) := fun g a h run => by
  cases x with
  | error e => cases run
  | ok b => cases run; rfl

theorem throw (e : Fault) : Steady (throw e : Lower α) := fun _ _ _ run => by cases run

theorem bind {m : Lower α} {f : α → Lower β} (first : Steady m) (next : ∀ a, Steady (f a)) :
    Steady (m >>= f) := by
  intro g b k run
  cases found : m.run g with
  | error e =>
    rw [Yields, StateT.run_bind, found] at run
    cases run
  | ok p =>
    rw [Yields, StateT.run_bind, found] at run
    exact (next p.1 _ _ _ run).trans (first _ _ _ found)

theorem forM {l : List β} {f : β → Lower Unit} (each : ∀ b, Steady (f b)) : Steady (l.forM f) := by
  induction l with
  | nil => exact pure ()
  | cons b l ih => exact (each b).bind fun _ => ih

theorem mapM {l : List β} {f : β → Lower α} (each : ∀ b, Steady (f b)) : Steady (l.mapM f) := by
  induction l with
  | nil => exact pure []
  | cons b l ih =>
    rw [List.mapM_cons]
    exact (each b).bind fun _ => ih.bind fun _ => pure _

/-! ### Reading -/

theorem tree : Steady tree := get.bind fun _ => pure _
theorem types : Steady types := get.bind fun _ => pure _
theorem kindOf (n : Handle) : Steady (kindOf n) := tree.bind fun _ => pure _
theorem typeOf (n : Handle) : Steady (typeOf n) := tree.bind fun _ => lift _
theorem child (n : Handle) (i : Int) : Steady (child n i) := tree.bind fun _ => lift _
theorem payloadOf (n : Handle) : Steady (payloadOf n) := tree.bind fun _ => lift _
theorem sizeOf (id : TypeId) : Steady (sizeOf id) := types.bind fun _ => lift _
theorem isStructure (id : TypeId) : Steady (isStructure id) := types.bind fun _ => pure _
theorem isFloat (n : Handle) : Steady (isFloat n) := (typeOf n).bind fun _ => pure _
theorem childNumbers (n : Handle) (first : Nat) : Steady (childNumbers n first) :=
  tree.bind fun _ => pure _
theorem displacementOf (n : Handle) : Steady (displacementOf n) :=
  get.bind fun _ => (payloadOf n).bind fun _ => pure _

/-! ### Failing and selecting -/

theorem fail (n : Handle) (cause : Option SelectionError) : Steady (fail n cause) :=
  tree.bind fun _ => modify fun _ => rfl

theorem derive (n : Handle) (d : Derivation) (i : Instruction) : Steady (derive n d i) := by
  rw [Lowering.derive]
  split
  · exact pure _
  · exact (fail n _).bind fun _ => pure _

theorem deriveIf (condition : Bool) (n : Handle) (d : Derivation) (i : Instruction) :
    Steady (deriveIf condition n d i) := by
  rw [Lowering.deriveIf]
  split
  · exact derive n d i
  · exact pure _

theorem withSelected (selected : Except SelectionError Instruction) {go : Instruction → Lower Unit}
    (each : ∀ i, Steady (go i)) : Steady (withSelected n selected go) := by
  cases selected with
  | ok i => exact each i
  | error cause => exact fail n _

/-! ### Emitting -/

theorem append (cells : List Int) : Steady (append cells) := modify fun _ => rfl
theorem emit (i : Instruction) (operands : List Int) : Steady (emit i operands) := append _
theorem emitOp (op : Operation) (operands : List Int) : Steady (emitOp op operands) := emit _ _
theorem slot : Steady slot := get.bind fun _ => (append _).bind fun _ => pure _
theorem jump (op : Operation) : Steady (jump op) := (emitOp op []).bind fun _ => slot
theorem patch (slots : List Nat) (target : Int) : Steady (patch slots target) := modify fun _ => rfl
theorem patchHere (slots : List Nat) : Steady (patchHere slots) :=
  (get.bind fun _ => pure _).bind fun _ => patch slots _

theorem emitCall (number : Int) : Steady (emitCall number) := by
  refine (emitOp _ []).bind fun _ => get.bind fun g => ?_
  show Steady (ite _ _ _)
  split
  · exact append _
  · exact slot.bind fun s => modify fun g => by split <;> rfl

theorem loadFrom (type : TypeId) : Steady (loadFrom type) := by
  refine (isStructure type).bind fun _ => ?_
  split
  · exact (sizeOf type).bind fun _ => emitOp _ _
  · exact emitOp _ _

theorem text (s : String) : Steady (text s) :=
  (emitOp _ _).bind fun _ => slot.bind fun _ => (jump _).bind fun _ => (append _).bind fun _ =>
    (patchHere _).bind fun _ =>
    (append _).bind fun _ => patchHere _

end Steady

/-! ## Expressions -/

/-- The rules for expressions leave the session alone, at most so many levels deep. -/
structure SteadyRules (depth : Nat) : Prop where
  value (n : Handle) : Steady (value depth n)
  address (n : Handle) : Steady (address depth n)
  unary (n : Handle) (void : Bool) : Steady (unary depth n void)
  store (n target : Handle) (i : Instruction) (stored : Option Handle) (extra : List Int) :
    Steady (store depth n target i stored extra)
  assignment (n : Handle) (void : Bool) : Steady (assignment depth n void)
  binary (n : Handle) : Steady (binary depth n)
  library (n : Handle) : Steady (library depth n)
  effect (n : Handle) : Steady (effect depth n)

namespace SteadyRules

variable (rules : SteadyRules depth)

include rules

theorem child_value (n : Handle) (i : Int) {f : Unit → Lower α} (next : Steady (f ())) :
    Steady (Lowering.child n i >>= fun c => Lowering.value depth c >>= f) :=
  (Steady.child n i).bind fun c => (rules.value c).bind fun _ => next

theorem value_succ (n : Handle) : Steady (Lowering.value (depth + 1) n) := by
  rw [Lowering.value]
  refine (Steady.typeOf n).bind fun type => (Steady.kindOf n).bind fun kind => ?_
  split
  next => exact (Steady.payloadOf n).bind fun _ => Steady.emitOp _ _
  next => exact Steady.get.bind fun _ => (Steady.payloadOf n).bind fun _ => Steady.text _
  next =>
    refine (Steady.displacementOf n).bind fun _ => (Steady.isStructure type).bind fun _ => ?_
    split
    · exact (Steady.sizeOf type).bind fun _ => Steady.emitOp _ _
    · exact Steady.emitOp _ _
  next =>
    refine (Steady.payloadOf n).bind fun _ => ?_
    split
    · exact Steady.fail n none
    · exact rules.child_value n 0 (Steady.emitOp _ _)
  next => exact (rules.address n).bind fun _ => Steady.loadFrom type
  next =>
    refine (Steady.child n 0).bind fun base => Steady.tree.bind fun _ =>
      (Steady.lift _).bind fun _ => (Steady.lift _).bind fun _ => ?_
    split
    · exact (rules.value base).bind fun _ => (Steady.payloadOf n).bind fun _ =>
        (Steady.sizeOf type).bind fun _ =>
        (Steady.typeOf base).bind fun _ => (Steady.sizeOf _).bind fun _ => Steady.emitOp _ _
    · exact (rules.address n).bind fun _ => Steady.loadFrom type
  next => exact rules.unary n false
  next => exact rules.binary n
  next => exact rules.assignment n false
  next =>
    exact rules.child_value n 0 ((Steady.jump _).bind fun _ =>
      rules.child_value n 1 ((Steady.jump _).bind fun _ =>
      (Steady.patchHere _).bind fun _ => rules.child_value n 2 (Steady.patchHere _)))
  next =>
    refine (Steady.emitOp _ _).bind fun _ => (Steady.childNumbers n 1).bind fun all =>
      (Steady.forM fun i => ?_).bind fun _ =>
      (Steady.child n 0).bind fun _ => (Steady.displacementOf _).bind fun _ => Steady.emitCall _
    exact (Steady.child n i).bind rules.value
  next => exact rules.library n
  next => exact Steady.fail n none

theorem address_succ (n : Handle) : Steady (Lowering.address (depth + 1) n) := by
  rw [Lowering.address]
  refine (Steady.kindOf n).bind fun kind => ?_
  split
  next => exact (Steady.displacementOf n).bind fun _ => Steady.emitOp _ _
  next =>
    exact rules.child_value n 0 (rules.child_value n 1 ((Steady.typeOf n).bind fun _ =>
      (Steady.sizeOf _).bind fun _ => Steady.emitOp _ _))
  next =>
    refine (Steady.child n 0).bind fun base => Steady.tree.bind fun _ =>
      (Steady.lift _).bind fun _ => ?_
    split
    · exact (rules.value base).bind fun _ => (Steady.payloadOf n).bind fun _ => Steady.emitOp _ _
    · exact (rules.address base).bind fun _ => (Steady.payloadOf n).bind fun _ => Steady.emitOp _ _
  next =>
    refine Steady.tree.bind fun _ => (Steady.lift _).bind fun _ => ?_
    split
    · exact Steady.fail n none
    · exact (Steady.child n 0).bind rules.value
  next => exact Steady.fail n none

theorem unary_succ (n : Handle) (void : Bool) : Steady (Lowering.unary (depth + 1) n void) := by
  rw [Lowering.unary]
  refine Steady.tree.bind fun _ => (Steady.lift _).bind fun op =>
    (Steady.child n 0).bind fun operand => ?_
  split
  · exact rules.address operand
  split
  · exact (rules.value operand).bind fun _ => (Steady.typeOf n).bind fun _ => Steady.loadFrom _
  split
  · exact Steady.withSelected _ fun i => (Steady.isFloat n).bind fun _ =>
      (Steady.deriveIf _ n _ i).bind fun _ =>
      (Steady.deriveIf _ n _ _).bind fun _ => rules.store n operand _ none []
  · exact (rules.value operand).bind fun _ => Steady.withSelected _ fun i =>
      (Steady.isFloat operand).bind fun _ =>
      (Steady.deriveIf _ n _ i).bind fun _ => Steady.emit _ _

theorem store_succ (n target : Handle) (i : Instruction) (stored : Option Handle)
    (extra : List Int) : Steady (Lowering.store (depth + 1) n target i stored extra) := by
  have last (isIdentifier : Bool) :
    Steady (if isIdentifier then do Lowering.emit i ((← Lowering.displacementOf target) :: extra)
      else do Lowering.emit (← Lowering.derive n .toAddress i) extra) := by
    split
    · exact (Steady.displacementOf target).bind fun _ => Steady.emit _ _
    · exact (Steady.derive n _ i).bind fun _ => Steady.emit _ _
  -- What is stored is evaluated after the address, if there is anything to store.
  cases stored with
  | none =>
    rw [Lowering.store]
    refine (Steady.kindOf target).bind fun kind => ?_
    simp only
    split
    · exact (rules.address target).bind fun _ => last _
    · exact last _
  | some v =>
    rw [Lowering.store]
    refine (Steady.kindOf target).bind fun kind => ?_
    simp only
    split
    · exact (rules.address target).bind fun _ => (rules.value v).bind fun _ => last _
    · exact (rules.value v).bind fun _ => last _

theorem assignment_succ (n : Handle) (void : Bool) :
    Steady (Lowering.assignment (depth + 1) n void) := by
  rw [Lowering.assignment]
  refine (Steady.child n 0).bind fun target => (Steady.child n 1).bind fun stored =>
    (Steady.typeOf n).bind fun type =>
    (Steady.isStructure type).bind fun _ => ?_
  split
  · exact (Steady.deriveIf _ n _ _).bind fun i => (Steady.sizeOf type).bind fun _ =>
      rules.store n target i (some stored) _
  · exact Steady.tree.bind fun _ => (Steady.lift _).bind fun _ => Steady.withSelected _ fun i =>
      (Steady.isFloat n).bind fun _ =>
      (Steady.deriveIf _ n _ i).bind fun _ => (Steady.deriveIf _ n _ _).bind fun _ =>
        rules.store n target _ (some stored) []

theorem binary_succ (n : Handle) : Steady (Lowering.binary (depth + 1) n) := by
  rw [Lowering.binary]
  refine Steady.tree.bind fun _ => (Steady.lift _).bind fun op => (Steady.child n 0).bind fun l =>
    (Steady.child n 1).bind fun r => ?_
  have logical (short last : Operation) : Steady (do
      Lowering.value depth l
      Lowering.emitOp .duplicate []
      let skip ← Lowering.jump short
      Lowering.value depth r
      Lowering.emitOp last []
      Lowering.patchHere [skip]) :=
    (rules.value l).bind fun _ => (Steady.emitOp _ _).bind fun _ =>
      (Steady.jump short).bind fun _ => (rules.value r).bind fun _ =>
      (Steady.emitOp last _).bind fun _ => Steady.patchHere _
  simp only
  split
  next => exact (rules.effect l).bind fun _ => rules.value r
  next => exact logical _ _
  next => exact logical _ _
  next =>
    exact (rules.value l).bind fun _ => (rules.value r).bind fun _ => Steady.withSelected _ fun i =>
      (Steady.isFloat l).bind fun _ => (Steady.deriveIf _ n _ i).bind fun _ => Steady.emit _ _

theorem library_succ (n : Handle) : Steady (Lowering.library (depth + 1) n) := by
  rw [Lowering.library]
  refine Steady.tree.bind fun _ => (Steady.lift _).bind fun b =>
    (Steady.childNumbers n 0).bind fun all => ?_
  have values : Steady (all.forM fun i => do Lowering.value depth (← Lowering.child n i)) :=
    Steady.forM fun i => (Steady.child n i).bind rules.value
  split
  next =>
    exact values.bind fun _ => (Steady.mapM fun i => (Steady.child n i).bind fun _ =>
      (Steady.typeOf _).bind fun _ => Steady.sizeOf _).bind fun _ =>
      Steady.emitOp _ _
  next =>
    exact Steady.forM fun i => (Steady.child n i).bind fun arg => (rules.value arg).bind fun _ =>
      (Steady.typeOf arg).bind fun _ => Steady.emitOp _ _
  next =>
    exact Steady.forM fun i => (Steady.child n i).bind fun _ => (Steady.payloadOf _).bind fun _ =>
      Steady.emitOp _ _
  next =>
    exact Steady.forM fun i => (Steady.child n i).bind fun _ => (Steady.payloadOf _).bind fun _ =>
      Steady.emitOp _ _
  next => exact values.bind fun _ => Steady.withSelected _ fun i => Steady.emit i _

theorem effect_succ (n : Handle) : Steady (Lowering.effect (depth + 1) n) := by
  rw [Lowering.effect]
  refine (Steady.kindOf n).bind fun kind => ?_
  split
  next => exact rules.assignment n true
  next =>
    refine Steady.tree.bind fun _ => (Steady.lift _).bind fun _ => ?_
    split
    · exact rules.unary n true
    · exact rules.value n
  next =>
    refine Steady.tree.bind fun _ => (Steady.lift _).bind fun _ => ?_
    split
    · exact (Steady.child n 0).bind fun l => (rules.effect l).bind fun _ =>
        (Steady.child n 1).bind rules.effect
    · exact rules.value n
  next => exact rules.value n

end SteadyRules

theorem steadyRules (depth : Nat) : SteadyRules depth := by
  induction depth with
  | zero =>
    constructor <;> intros <;> exact Steady.throw _
  | succ depth ih =>
    exact ⟨ih.value_succ, ih.address_succ, ih.unary_succ, ih.store_succ, ih.assignment_succ,
      ih.binary_succ, ih.library_succ, ih.effect_succ⟩

/-! ## Initializers -/

/-- A step of the code of an initializer: a list announces its length, or the value of a leaf is
pushed, at most so many levels deep. -/
inductive Part where
  | length (count : Nat)
  | leaf (depth : Nat) (r : Rose)

/-- The step for a part. -/
def Part.push (t : Arena) : Part → Lower Unit
  | .length count => emitOp .beginInit [count]
  | .leaf depth r => Lowering.value depth (t.handle r.index)

/-- The parts of an initializer, in the order in which they are written. The list of an array comes
with its length before its elements, the list of a structure adds nothing to its elements. -/
def pushes (types : TypeTable) : Nat → Rose → List Part
  | 0, _ => []
  | depth + 1, r =>
    if r.kind = .initializer then
      (if types.isArray r.exprType then [.length r.children.length] else []) ++ r.children.flatMap
          (pushes types depth)
    else [.leaf depth r]

theorem Part.steady (t : Arena) (p : Part) : Steady (p.push t) := by
  cases p with
  | length count => exact Steady.emitOp _ _
  | leaf depth r => exact (steadyRules depth).value _

/-- The steps for two lists of parts are taken one after the other. -/
theorem forM_parts (ps qs : List Part) (t : Arena) :
    (ps ++ qs).forM (Part.push t) = ps.forM (Part.push t) >>= fun _ => qs.forM (Part.push t) :=
  List.forM_append

/-- Two steps of the generator do the same in every state with a session. -/
def Agree (s : Session) (m m' : Lower α) : Prop := ∀ g, g.session = s → m.run g = m'.run g

namespace Agree

variable {s : Session} {m m' : Lower α} {f f' : α → Lower β}

theorem refl (s : Session) (m : Lower α) : Agree s m m := fun _ _ => rfl

/-- Steps that agree go on to steps that agree, for the session stays as it is. -/
theorem bind (first : Agree s m m') (steady : Steady m') (next : ∀ a, Agree s (f a) (f' a)) :
    Agree s (m >>= f) (m' >>= f') := by
  intro g same
  rw [StateT.run_bind, StateT.run_bind, first g same]
  cases found : m'.run g with
  | error e => rfl
  | ok p => exact next p.1 p.2 ((steady g p.1 p.2 found).trans same)

/-- A step that only reads the session can be left out. -/
theorem read {a : α} {k : Lower β} (answers : Answers s m a) (next : Agree s (f a) k) :
    Agree s (m >>= f) k := by
  intro g same
  have found : m.run g = .ok (a, g) := answers g (same ▸ .refl _)
  rw [StateT.run_bind, found]
  exact next g same

/-- A walk over the children of a node takes the steps for each of them, one after the other. -/
theorem forM_children {r : Rose} (has : s.tree.Has r) (f : Handle → Lower Unit)
    (steps : Rose → List Part) (each : ∀ c ∈ r.children,
      Agree s (f (s.tree.handle c.index)) ((steps c).forM (Part.push s.tree))) (first : Nat) :
    Agree s ((((List.range r.children.length).drop first).map Int.ofNat).forM fun i =>
      do f (← child (s.tree.handle r.index) i))
    (((r.children.drop first).flatMap steps).forM (Part.push s.tree)) := by
  induction left : r.children.length - first generalizing first with
  | zero =>
    have past : r.children.length ≤ first := by omega
    rw [List.drop_eq_nil_of_le (by simpa using past), List.drop_eq_nil_of_le past]
    exact refl s _
  | succ n ih =>
    have inside : first < r.children.length := by omega
    rw [Answers.numbers_cons inside, List.drop_eq_getElem_cons inside,
      List.flatMap_cons, forM_parts]
    have this := each _ (List.getElem_mem inside)
    refine bind ?_ (Steady.forM (Part.steady s.tree)) fun _ => ih (first + 1) (by omega)
    exact read (Answers.child has (List.getElem?_eq_getElem inside)) this

end Agree

/-- An initializer is pushed by the steps for its parts, where the type table tells arrays as the
given one does. -/
theorem initializer_agrees {s : Session} {types : TypeTable} {r : Rose} (has : s.tree.Has r)
    (arrays : ∀ l ∈ r.nodes, s.types.isArray l.exprType = types.isArray l.exprType)
    (low : r.height ≤ depth) : Agree s (initializer depth (s.tree.handle r.index))
    ((pushes types depth r).forM (Part.push s.tree)) := by
  induction depth generalizing r with
  | zero =>
    cases r
    simp [Rose.height] at low
  | succ depth ih =>
    rw [initializer, pushes]
    refine .read (.kindOf has) ?_
    by_cases list : r.kind = .initializer
    · rw [if_neg (by simp [list]), if_pos list]
      refine .read (.childNumbers has 0) (.read .types (.read (.typeOf has) ?_))
      have rest := Agree.forM_children has (initializer depth) (pushes types depth) (fun c mem =>
        ih (has.child mem) (fun l inside => arrays l (Rose.mem_nodes_child mem inside))
          (by have := Rose.height_child mem; omega)) 0
      rw [arrays r r.mem_nodes_self, forM_parts]
      cases types.isArray r.exprType with
      | true =>
        have announced : Agree s (emitOp .beginInit [s.tree.amount (s.tree.handle r.index)])
            (Part.push s.tree (.length r.children.length) >>= pure) := by
          rw [has.amount, bind_pure]
          exact .refl s _
        exact .read .tree
          (announced.bind ((Part.steady s.tree _).bind fun _ => .pure _) fun _ => rest)
      | false => exact rest
    · rw [if_pos (by simpa using list), if_neg list]
      show Agree s _ (Part.push s.tree (.leaf depth r) >>= pure)
      rw [bind_pure]
      exact .refl s _

end Lowering

end BilingualC
