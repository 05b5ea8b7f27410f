import Mathlib
import BilingualC.Proofs.Lowering.Choice
import BilingualC.Proofs.Lowering.Placement

/-!
# Running the generator

`Yields m g a h` says that a step of the generator goes from the state `g` to the state `h` without
a fault and gives `a`. The reading steps answer as the tree does, and the emitting steps are the
operations on states from which `Piece.put` is made.
-/

namespace BilingualC

/-- A session that agrees with another one on all that code is made from. -/
structure Session.Seen (s t : Session) : Prop where
  tree : t.tree = s.tree
  types : t.types = s.types
  strings : t.strings = s.strings
  identifiers : t.identifiers.size = s.identifiers.size
  functions : t.functions.size = s.functions.size
  main : t.main = s.main
  kind : ∀ id, (t.identifier id).kind = (s.identifier id).kind
  type : ∀ id, (t.identifier id).type = (s.identifier id).type
  displacement : ∀ id, (s.identifier id).kind ≠ .label →
    (t.identifier id).displacement = (s.identifier id).displacement
  entry :
    ∀ id, t.identifier id = { s.identifier id with displacement := (t.identifier id).displacement }
  spellings : t.spellings = s.spellings
  journal : t.journal = s.journal

namespace Session.Seen

variable {s t u : Session} {labels : List Int}

theorem refl (s : Session) : s.Seen s :=
  ⟨rfl, rfl, rfl, rfl, rfl, rfl, fun _ => rfl, fun _ => rfl, fun _ _ => rfl, fun _ => rfl, rfl, rfl⟩

/-- The displacements of labels do not matter. -/
theorem alike (seen : s.Seen t) (same : t.Alike labels u)
    (kinds : ∀ id ∈ labels, (s.identifier id).kind = .label) : s.Seen u where
  tree := same.tree.trans seen.tree
  types := same.types.trans seen.types
  strings := by rw [same.rest]; exact seen.strings
  identifiers := same.size.trans seen.identifiers
  functions := by rw [same.functions]; exact seen.functions
  main := same.main.trans seen.main
  kind id := (same.kind id).trans (seen.kind id)
  type id := (same.type id).trans (seen.type id)
  displacement id named := by
    rw [same.displacement id fun mem => named (kinds id mem)]
    exact seen.displacement id named
  entry id := by rw [same.entry id, seen.entry id]
  spellings := by rw [same.rest]; exact seen.spellings
  journal := by rw [same.rest]; exact seen.journal

end Session.Seen

namespace Lowering

/-- A step goes from one state to another one and gives a value. -/
def Yields {α : Type} (m : Lower α) (g : Lowering) (a : α) (h : Lowering) : Prop :=
  m.run g = .ok (a, h)

section Yields

variable {α β : Type} {m : Lower α} {f : α → Lower β} {g h k : Lowering} {a : α} {b : β}

theorem Yields.bind (first : Yields m g a h) (second : Yields (f a) h b k) :
    Yields (m >>= f) g b k := by
  have run : (m >>= f).run g = m.run g >>= fun p => (f p.1).run p.2 := rfl
  rw [Yields, run, first]
  exact second

theorem yields_pure (a : α) (g : Lowering) : Yields (pure a) g a g := rfl

theorem yields_get (g : Lowering) : Yields get g g g := rfl

theorem yields_lift {x : Guarded α} (found : x = .ok a) (g : Lowering) :
    Yields (liftM x) g a g := by
  rw [found]
  rfl

end Yields

/-! ## Reading -/

/-- A step reads an answer, in every state whose session agrees with the given one. -/
def Answers {α : Type} (s : Session) (x : Lower α) (a : α) : Prop :=
  ∀ g, s.Seen g.session → Yields x g a g

variable {s : Session} {g : Lowering} {r : Rose}

namespace Answers

variable {α β : Type} {x : Lower α} {f : α → Lower β} {a : α} {b : β}

theorem bind (first : Answers s x a) (second : Answers s (f a) b) : Answers s (x >>= f) b :=
  fun g seen => (first g seen).bind (second g seen)

theorem pure (a : α) : Answers s (pure a) a := fun g _ => yields_pure a g

theorem lift {x : Guarded α} (found : x = .ok a) : Answers s (liftM x) a :=
  fun g _ => yields_lift found g

theorem tree : Answers s tree s.tree := fun g seen => by
  rw [← seen.tree]
  rfl

theorem types : Answers s types s.types := fun g seen => by
  rw [← seen.types]
  rfl

theorem kindOf (has : s.tree.Has r) : Answers s (kindOf (s.tree.handle r.index)) r.kind := by
  refine tree.bind ?_
  rw [has.kind]
  exact pure _

theorem typeOf (has : s.tree.Has r) : Answers s (typeOf (s.tree.handle r.index)) r.exprType :=
  tree.bind (lift (has.arg 0))

theorem isBroken (has : s.tree.Has r) : Answers s (isBroken (s.tree.handle r.index)) false := by
  refine tree.bind ?_
  rw [has.isBroken]
  exact pure _

theorem child (has : s.tree.Has r) {k : Nat} {c : Rose} (found : r.children[k]? = some c) :
    Answers s (child (s.tree.handle r.index) k) (s.tree.handle c.index) := by
  obtain ⟨inside, rfl⟩ := List.getElem?_eq_some_iff.mp found
  exact tree.bind (lift (has.child_at inside))

section Kids

variable {b c d : Rose} {rest : List Rose}

theorem first (has : s.tree.Has r) (kids : r.children = c :: rest) :
    Answers s (Lowering.child (s.tree.handle r.index) 0) (s.tree.handle c.index) := by
  have found : r.children[0]? = some c := by rw [kids, List.getElem?_cons_zero]
  exact child has found

theorem second (has : s.tree.Has r) (kids : r.children = b :: c :: rest) :
    Answers s (Lowering.child (s.tree.handle r.index) 1) (s.tree.handle c.index) := by
  have found : r.children[1]? = some c := by
    rw [kids, List.getElem?_cons_succ, List.getElem?_cons_zero]
  exact child has found

theorem third (has : s.tree.Has r) (kids : r.children = b :: d :: c :: rest) :
    Answers s (Lowering.child (s.tree.handle r.index) 2) (s.tree.handle c.index) := by
  have found : r.children[2]? = some c := by
    rw [kids, List.getElem?_cons_succ, List.getElem?_cons_succ, List.getElem?_cons_zero]
  exact child has found

end Kids

theorem payloadOf (has : s.tree.Has r) : Answers s (payloadOf (s.tree.handle r.index)) (r.arg 2) :=
  tree.bind (lift (has.arg 2))

theorem sizeOf {id : Int} (valid : s.types.Valid id) : Answers s (sizeOf id) (s.sizeOf id) := by
  obtain ⟨n, found⟩ := valid.sizeOf
  have same : s.sizeOf id = n := by simp only [Session.sizeOf, found]
  rw [same]
  exact types.bind (lift found)

theorem isStructure (id : Int) : Answers s (isStructure id) (s.types.isStructure id) :=
  types.bind (pure _)

theorem isFloat (has : s.tree.Has r) :
    Answers s (isFloat (s.tree.handle r.index)) (TypeId.isFloating r.exprType) :=
  (typeOf has).bind (pure _)

theorem childNumbers (has : s.tree.Has r) (first : Nat) :
    Answers s (childNumbers (s.tree.handle r.index) first)
      (((List.range r.children.length).drop first).map Int.ofNat) := by
  refine tree.bind ?_
  rw [has.amount]
  exact pure _

theorem displacementOf (has : s.tree.Has r) (named : (s.identifier (r.arg 2)).kind ≠ .label) :
    Answers s (displacementOf (s.tree.handle r.index)) (s.displacementOf (r.arg 2)) := by
  intro g seen
  refine (yields_get g).bind ((payloadOf has g seen).bind ?_)
  rw [Session.displacementOf, ← seen.displacement _ named]
  exact yields_pure _ _

theorem unaryOp (has : s.tree.Has r) :
    Answers s (liftM (s.tree.unaryOp (s.tree.handle r.index))) r.unaryOp :=
  lift (has.unaryOp)

theorem binaryOp (has : s.tree.Has r) :
    Answers s (liftM (s.tree.binaryOp (s.tree.handle r.index))) r.binaryOp :=
  lift (has.binaryOp)

theorem builtinOf (has : s.tree.Has r) :
    Answers s (liftM (s.tree.builtinOf (s.tree.handle r.index))) r.builtin :=
  lift (has.builtinOf)

theorem isPlace (has : s.tree.Has r) :
    Answers s (liftM (s.tree.isPlace (s.tree.handle r.index))) r.isPlace :=
  lift (has.isPlace)

theorem throughPointer (has : s.tree.Has r) :
    Answers s (liftM (s.tree.throughPointer (s.tree.handle r.index))) (r.arg 3 != 0) :=
  lift (has.throughPointer)

theorem arg (has : s.tree.Has r) (k : Nat) :
    Answers s (liftM (s.tree.arg (s.tree.handle r.index) k)) (r.arg k) :=
  lift (has.arg k)

theorem flagAt (has : s.tree.Has r) (k : Nat) :
    Answers s (liftM (s.tree.flagAt (s.tree.handle r.index) k)) (r.arg k != 0) :=
  lift (has.flagAt k)

/-- The numbers of the children from some number on. -/
theorem numbers_cons {n k : Nat} (less : k < n) : ((List.range n).drop k).map Int.ofNat =
    (k : Int) :: ((List.range n).drop (k + 1)).map Int.ofNat := by
  rw [List.drop_eq_getElem_cons (by simpa using less)]
  simp

/-- A walk over the children of a node collects what it reads. -/
theorem mapM_children (has : s.tree.Has r) {f : Handle → Lower β} {val : Rose → β} (first : Nat)
    (each : ∀ c ∈ r.children.drop first, Answers s (f (s.tree.handle c.index)) (val c)) :
    Answers s
      ((((List.range r.children.length).drop first).map Int.ofNat).mapM fun i => do
        f (← Lowering.child (s.tree.handle r.index) i))
      ((r.children.drop first).map val) := by
  induction left : r.children.length - first generalizing first with
  | zero =>
    have past : r.children.length ≤ first := by omega
    rw [List.drop_eq_nil_of_le (by simpa using past), List.drop_eq_nil_of_le past]
    exact pure _
  | succ n ih =>
    have inside : first < r.children.length := by omega
    rw [List.drop_eq_getElem_cons inside] at each
    have rest := ih (first + 1) (fun c mem => each c (List.mem_cons_of_mem _ mem)) (by omega)
    rw [numbers_cons inside, List.drop_eq_getElem_cons inside, List.mapM_cons]
    refine bind ((child has (List.getElem?_eq_getElem inside)).bind (each _ List.mem_cons_self)) ?_
    exact rest.bind (pure _)

/-- An instruction after a step that exists. -/
theorem derive {i : Instruction} {d : Derivation} (can : i.CanStep true d) (n : Handle) :
    Answers s (derive n d i) (i.stepped true d) := by
  obtain ⟨out, found⟩ := can rfl
  have same : i.stepped true d = out := by simp only [Instruction.stepped, found, if_true]
  rw [same, Lowering.derive, found]
  exact pure _

theorem deriveIf {i : Instruction} {d : Derivation} {condition : Bool} (can : i.CanStep condition d)
    (n : Handle) : Answers s (deriveIf condition n d i) (i.stepped condition d) := by
  cases condition
  · exact pure _
  · exact derive can n

end Answers

/-! ## Emitting -/

theorem yields_append (cells : List Int) (g : Lowering) :
    Yields (append cells) g () (g.push cells) :=
  rfl

theorem yields_emit (i : Instruction) (operands : List Int) (g : Lowering) :
    Yields (emit i operands) g () ((Piece.plain i operands).put g) := rfl

theorem yields_emitOp (op : Operation) (operands : List Int) (g : Lowering) :
    Yields (emitOp op operands) g () ((Piece.op op operands).put g) := rfl

theorem yields_pc (g : Lowering) : Yields pc g (g.here : Int) g := rfl

theorem yields_slot (g : Lowering) : Yields slot g g.here (g.push [0]) := rfl

theorem yields_jump (op : Operation) (g : Lowering) :
    Yields (jump op) g (g.here + 1) (g.fork op) := by
  have slot := yields_slot (g.push [op.code])
  rw [here_push, push_push] at slot
  exact (yields_emitOp op [] g).bind slot

theorem yields_patch (slots : List Nat) (target : Int) (g : Lowering) :
    Yields (patch slots target) g () (g.fill slots target) := rfl

theorem yields_patchHere (slots : List Nat) (g : Lowering) :
    Yields (patchHere slots) g () (g.fill slots g.here) := rfl

theorem yields_land (p : Nat) (g : Lowering) : Yields (patchHere [p]) g () (g.land p g.here) := rfl

theorem yields_drop (g : Lowering) :
    Yields drop g () (g.push [Operation.code .branchIfZero, (g.here + 2 : Nat)]) := rfl

theorem yields_emitCall (number : Int) (g : Lowering) :
    Yields (emitCall number) g () (g.callTo number) := by
  refine (yields_emitOp .callTarget [] g).bind ((yields_get _).bind ?_)
  have session : ((Piece.op .callTarget []).put g).session = g.session := rfl
  rw [callTo]
  split
  · next known =>
    dsimp only
    rw [session, if_pos known]
    have pushed :=
      yields_append [g.session.functionAddress number] (g.push [Operation.code .callTarget])
    rw [push_push] at pushed
    exact pushed.bind (yields_pure _ _)
  · next unknown =>
    dsimp only
    rw [session, if_neg unknown]
    have slot := yields_slot (g.push [Operation.code .callTarget])
    rw [here_push, push_push] at slot
    refine slot.bind ?_
    rw [Yields, addPending]
    show Except.ok ((), _) = _
    cases found : List.lookup number g.pendingCalls <;> simp only [calls_push, found] <;> rfl

/-- A slot among new cells is filled as the cell that it is. -/
theorem fill_push (cells : List Int) (k : Nat) (target : Int) :
    (g.push cells).fill [g.here + k] target = g.push (cells.set k target) := by
  have same : (g.memory ++ cells).setIfInBounds (g.memory.size + k) target =
    g.memory ++ cells.set k target := by
    apply Array.ext'
    rw [Array.toList_setIfInBounds, Array.toList_appendList, Array.toList_appendList,
      List.set_append_right _ _ (by simp)]
    simp
  simp only [fill, push, here, List.foldl_cons, List.foldl_nil, same]

/-- The cells of a text come one after the other; the two slots in front of it are filled on the
way. -/
theorem yields_text (t : String) (g : Lowering) : Yields (text t) g () ((Piece.text t).put g) := by
  have address := yields_slot (g.push [Operation.code .loadConstant])
  have stop := yields_jump .branch (g.push [Operation.code .loadConstant, 0])
  have count := yields_append [(t.length : Int)]
    (g.push [Operation.code .loadConstant, 0, Operation.code .branch, 0])
  have first := yields_patchHere [g.here + 1]
    (g.push [Operation.code .loadConstant, 0, Operation.code .branch, 0, t.length])
  have chars := yields_append (t.toList.map fun c => (c.toNat : Int))
    (g.push [Operation.code .loadConstant, (g.here + 5 : Nat), Operation.code .branch, 0, t.length])
  have last :=
    yields_patchHere [g.here + 3] (g.push ([Operation.code .loadConstant, (g.here + 5 : Nat),
    Operation.code .branch, 0, t.length] ++ t.toList.map fun c => (c.toNat : Int)))
  simp only [push_push, here_push, fill_push, fork,
    List.length_cons, List.length_nil, List.length_append,
    List.length_map, String.length_toList] at address stop count first chars last
  rw [show g.here + (0 + 1 + 1 + 1 + 1 + 1 + t.length) = g.here + 5 + t.length by omega] at last
  exact (yields_emitOp .loadConstant [] g).bind
    (address.bind (stop.bind (count.bind (first.bind (chars.bind last)))))

end Lowering

open Lowering

/-- The kinds of the open frames stay as they are. -/
theorem shape_put (c : Piece) (g : Lowering) : (c.put g).shape = g.shape := by
  induction c generalizing g with
  | skip | plain _ _ | text _ => rfl
  | call number => rw [Piece.put, shape, frames_callTo, shape]
  | seq c d first second => rw [Piece.put, second, first]
  | choose t y n test yes no => simp only [Piece.put, shape_land, no, shape_fork, yes, test]
  | only t y test yes => simp only [Piece.put, shape_land, yes, shape_fork, test]
  | short op last l r left right =>
    simp only [Piece.put, shape_land, shape_push, right, shape_fork, left]
  | whileLoop t body test inside =>
    simp only [Piece.put, shape_closeLoop, shape_settle, inside, shape_testLoop, test, shape_enter,
      List.tail_cons]
  | doWhile body t inside test =>
    simp only [Piece.put, shape_closeLoop, test, shape_settle, inside, shape_enter, List.tail_cons]
  | forLoop t body step test inside next =>
    simp only [Piece.put, shape_closeLoop, next, shape_settle, inside, shape_testLoop, test,
      shape_enter, List.tail_cons]
  | endlessLoop body step inside next =>
    simp only [Piece.put, shape_closeLoop, next, shape_settle, inside, shape_enter, List.tail_cons]
  | switch v body value inside =>
    simp only [Piece.put, shape_closeSwitch, inside, value, shape_enter, List.tail_cons]
  | caseLabel v body value inside =>
    simp only [Piece.put, inside, shape_closeCase, value, shape_push, shape_openCase]
  | defaultLabel body inside =>
    rw [Piece.put, inside]
    exact shape_setCase none
  | breaking => rw [Piece.put, shape_breakAt, shape_fork]
  | continuing => rw [Piece.put, shape_continueAt, shape_fork, shape, frames_dropAll, shape]
  | goto id => rw [Piece.put, shape, frames_jumpTo, shape]
  | label id body inside =>
    rw [Piece.put, inside]
    rfl

/-! ## Steps that append a piece of code -/

/-- A step appends a piece of code, wherever the frames that the piece needs are open. -/
structure Makes (s : Session) (inLoop inSwitch : Bool) (m : Lower Unit) (c : Piece) : Prop where
  labels : ∀ id ∈ c.labels, (s.identifier id).kind = .label
  run : ∀ g, s.Seen g.session → Ready g.shape inLoop inSwitch → Yields m g () (c.put g)

namespace Makes

variable {s : Session} {inLoop inSwitch : Bool} {m : Lower Unit} {c : Piece}
    {g : Lowering} {r : Rose}

theorem seen (makes : Makes s inLoop inSwitch m c) (seen : s.Seen g.session) :
    s.Seen (c.put g).session :=
  seen.alike (follows_put c g).session makes.labels

theorem ready (ready : Ready g.shape inLoop inSwitch) : Ready (c.put g).shape inLoop inSwitch :=
  (shape_put c g).symm ▸ ready

/-- The code of expressions needs no frames. -/
theorem anywhere (makes : Makes s false false m c) (inLoop inSwitch : Bool) :
    Makes s inLoop inSwitch m c :=
  ⟨makes.labels, fun g seen _ => makes.run g seen (.nothing _)⟩

theorem ofFlat (flat : c.Flat) (run : ∀ g, s.Seen g.session → Yields m g () (c.put g)) :
    Makes s inLoop inSwitch m c :=
  ⟨by simp [flat.labels], fun g seen _ => run g seen⟩

theorem nothing : Makes s inLoop inSwitch (pure ()) .skip :=
  ofFlat trivial fun g _ => yields_pure () g

/-- A reading step comes before. -/
theorem read {α : Type} {x : Lower α} {f : α → Lower Unit} {a : α}
    (answer : Answers s x a) (next : Makes s inLoop inSwitch (f a) c) :
    Makes s inLoop inSwitch (x >>= f) c :=
  ⟨next.labels, fun g seen ready => (answer g seen).bind (next.run g seen ready)⟩

theorem seq {f : Unit → Lower Unit} {d : Piece} (first : Makes s inLoop inSwitch m c)
    (second : Makes s inLoop inSwitch (f ()) d) : Makes s inLoop inSwitch (m >>= f) (.seq c d) := by
  refine ⟨?_, ?_⟩
  · intro id mem
    rcases List.mem_append.mp mem with left | right
    · exact first.labels id left
    · exact second.labels id right
  · intro g seen ready
    exact (first.run g seen ready).bind (second.run _ (first.seen seen) (Makes.ready ready))

/-- A step that comes after nothing. -/
theorem ofSkip {d : Piece} (makes : Makes s inLoop inSwitch m d) :
    Makes s inLoop inSwitch m (.seq .skip d) :=
  ⟨makes.labels, fun g seen ready => makes.run g seen ready⟩

theorem emit (i : Instruction) (operands : List Int) :
    Makes s inLoop inSwitch (Lowering.emit i operands) (.plain i operands) :=
  ⟨nofun, fun g _ _ => yields_emit i operands g⟩

theorem emitOp (op : Operation) (operands : List Int) :
    Makes s inLoop inSwitch (Lowering.emitOp op operands) (.op op operands) :=
  ⟨nofun, fun g _ _ => yields_emitOp op operands g⟩

/-- A walk over the children of a node appends their pieces one after the other. -/
theorem forM_children (has : s.tree.Has r) {f : Handle → Lower Unit}
    {code : Rose → Piece} (first : Nat) (each : ∀ c ∈ r.children.drop first,
      Makes s inLoop inSwitch (f (s.tree.handle c.index)) (code c)) : Makes s inLoop inSwitch
    ((((List.range r.children.length).drop first).map Int.ofNat).forM fun i => do
        f (← child (s.tree.handle r.index) i))
      (.all ((r.children.drop first).map code)) := by
  induction left : r.children.length - first generalizing first with
  | zero =>
    have past : r.children.length ≤ first := by omega
    rw [List.drop_eq_nil_of_le (by simpa using past), List.drop_eq_nil_of_le past]
    exact nothing
  | succ n ih =>
    have inside : first < r.children.length := by omega
    rw [List.drop_eq_getElem_cons inside] at each
    have this := each _ List.mem_cons_self
    have rest := ih (first + 1) (fun c mem => each c (List.mem_cons_of_mem _ mem)) (by omega)
    rw [Answers.numbers_cons inside, List.drop_eq_getElem_cons inside]
    refine ⟨?_, ?_⟩
    · intro id mem
      rcases List.mem_append.mp mem with here | later
      · exact this.labels id here
      · exact rest.labels id later
    · intro g seen ready
      have number := Answers.child has (List.getElem?_eq_getElem inside) g seen
      refine Yields.bind (number.bind (this.run g seen ready)) ?_
      exact rest.run _ (this.seen seen) (Makes.ready ready)

end Makes

end BilingualC
