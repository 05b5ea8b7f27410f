import Mathlib
import BilingualC.Proofs.Lowering.Expression

/-!
# The generator lowers statements

`makes_statement`: on a statement whose tables are in order, the generator emits the code that
`Rose.codes` gives for it, wherever the loops and switches that the statement needs are open.
-/

namespace BilingualC

open Lowering

variable {s : Session} {r : Rose}

/-! ## Declarations -/

theorem makes_initializer (init : r.IsInitializer) (has : s.tree.Has r) (ok : s.Accepts r) :
    ∀ depth, 5 * r.height ≤ depth + 1 →
      Makes s false false (initializer depth (s.tree.handle r.index)) (r.toInitializer s) := by
  induction init with
  | @expr r expr =>
    refine Lowers.deepen (by decide) fun d deep => ?_
    have kind := (Rose.isExpr_kind expr).2
    rw [initializer, Rose.toInitializer_expr kind]
    refine .read (.kindOf has) ?_
    rw [if_pos (by simpa using kind)]
    exact (lowers_expr expr has ok).value d deep
  | @list r kind _ each =>
    refine Lowers.deepen (by decide) fun d deep => ?_
    rw [initializer, Rose.toInitializer_list kind]
    refine .read (.kindOf has) ?_
    rw [if_neg (by simp [kind])]
    refine .read (.childNumbers has 0) (.read .types (.read (.typeOf has) ?_))
    have walk : Makes s false false
        ((((List.range r.children.length).drop 0).map Int.ofNat).forM fun i => do
          initializer d (← child (s.tree.handle r.index) i))
        (.all (r.children.map (Rose.toInitializer s))) :=
      Makes.forM_children has 0 fun c mem =>
        each c mem (has.child mem) (ok.child mem) d (by have := Rose.height_child mem; omega)
    by_cases isArray : s.types.isArray r.exprType = true
    · simp only [isArray, if_true]
      refine .read .tree ?_
      rw [has.amount]
      exact .seq (.emitOp _ _) walk
    · simp only [isArray]
      exact .ofSkip walk

theorem innermostElement_ok (sound : 0 < s.types.cells.size) {id : Int} (valid : s.types.Valid id) :
    innermostElement s.types (s.types.cells.size + 1) id = .ok (Rose.elementOf s id) ∧
      s.types.Valid (Rose.elementOf s id) := by
  have all : ∀ fuel (id : Int), s.types.Valid id → id.toNat < fuel →
      ∃ e, innermostElement s.types fuel id = .ok e ∧ s.types.Valid e := by
    intro fuel
    induction fuel with
    | zero => intro id _ less; omega
    | succ fuel ih =>
      intro id valid less
      rw [innermostElement]
      by_cases isArray : s.types.isArray id = true
      · obtain ⟨e, found, below, before, pos⟩ := valid.element_of_array isArray
        rw [if_pos isArray, found]
        exact ih e below (by omega)
      · rw [if_neg isArray]
        exact ⟨id, rfl, valid⟩
  have low := valid.lt_size sound
  obtain ⟨e, found, valid⟩ := all (s.types.cells.size + 1) id valid (by omega)
  have same : Rose.elementOf s id = e := by simp only [Rose.elementOf, found]
  rw [same]
  exact ⟨found, valid⟩

/-- The code of the bounds is emitted one after the other, and it is known whether all are
written. -/
theorem yields_bounds {bounds : List Rose} {init : Option Rose} (h : r.IsVariable bounds init)
    (has : s.tree.Has r) (ok : s.Accepts r) {d : Nat} (deep : 5 * r.height ≤ d + 5) (first : Nat) :
    ∀ g, s.Seen g.session → Yields (Lowering.bounds d (s.tree.handle r.index)
      (((List.range bounds.length).drop first).map Int.ofNat)) g ((bounds.drop first).all fun b =>
      b.kind != .emptyBound) ((Piece.all ((bounds.drop first).map (Rose.boundCode s))).put g) := by
  induction left : bounds.length - first generalizing first with
  | zero =>
    have past : bounds.length ≤ first := by omega
    rw [List.drop_eq_nil_of_le (by simpa using past), List.drop_eq_nil_of_le past]
    exact fun g _ => yields_pure _ g
  | succ n ih =>
    have inside : first < bounds.length := by omega
    have rest := ih (first + 1) (by omega)
    have mem : bounds[first] ∈ r.children := by rw [h.kids]; simp
    have at_ : r.children[first]? = some bounds[first] := by
      rw [h.kids, List.getElem?_append_left inside, List.getElem?_eq_getElem inside]
    intro g seen
    rw [Answers.numbers_cons inside, List.drop_eq_getElem_cons inside, Lowering.bounds]
    refine (Answers.child has at_ g seen).bind ((Answers.kindOf (has.child mem) g seen).bind ?_)
    by_cases isOpen : bounds[first].kind = .emptyBound
    · rw [if_pos (by simpa using isOpen)]
      simp only [List.map_cons, Piece.all, Rose.boundCode, isOpen, if_true, List.all_cons,
        bne_self_eq_false, Bool.false_and]
      exact (rest g seen).bind (yields_pure _ _)
    · have expr := (h.bounds _ (List.getElem_mem inside)).resolve_left fun both => isOpen both.1
      have low := Rose.height_child mem
      have value := (lowers_expr expr (has.child mem) (ok.child mem)).value d (by omega)
      rw [if_neg (by simpa using isOpen)]
      have written : (bounds[first].kind != .emptyBound) = true := by simpa using isOpen
      simp only [List.map_cons, Piece.all, Rose.boundCode, isOpen, if_false, List.all_cons, written,
        Bool.true_and]
      exact (value.run g seen (.nothing _)).bind (rest _ (value.seen seen))

theorem makes_scalar {entry : Identifier} {init : Rose} (node : Handle)
    {d : Nat} (valid : s.types.Valid entry.type) (isInit : init.IsInitializer)
    (structured : init.kind = .initializer → s.types.isStructure entry.type = true)
    (has : s.tree.Has init) (ok : s.Accepts init) (deep : 5 * init.height ≤ d + 1) :
    Makes s false false (scalarVariable d node (s.tree.handle init.index) entry)
    (Rose.scalarCode s entry init) := by
  refine .read (.isStructure _) ?_
  rw [Rose.scalarCode]
  by_cases isStructure : s.types.isStructure entry.type = true
  · simp only [isStructure, if_true]
    refine .seq (makes_initializer isInit has ok d deep) ?_
    exact .read (.derive (Instruction.stores_record.toVoid true).1 _)
      (.read (.sizeOf valid) (.emit _ _))
  · simp only [isStructure]
    cases isInit with
    | list kind _ => exact absurd (structured kind) isStructure
    | expr expr =>
      obtain ⟨can, float⟩ := Instruction.stores_assign.toFloat (TypeId.isFloating entry.type)
        fun _ => ⟨_, _, rfl, rfl⟩
      refine .seq ((lowers_expr expr has ok).value d (by omega)) ?_
      exact .read (.deriveIf can _) (.read (.derive (float.toVoid true).1 _) (.emit _ _))

/-- The code of the bounds opens no frames. -/
theorem flat_bounds {bounds : List Rose} (each : ∀ b ∈ bounds, b.IsBound) :
    (Piece.all (bounds.map (Rose.boundCode s))).Flat := by
  refine Rose.flat_all fun c mem => ?_
  obtain ⟨b, there, rfl⟩ := List.mem_map.mp mem
  rw [Rose.boundCode]
  split
  · trivial
  · next written =>
      exact (Rose.flat_expr ((each b there).resolve_left fun both => written both.1) s).1

theorem makes_arrayInit {entry : Identifier} {bounds : List Rose} {init : Rose} {d : Nat}
    (isInit : init.IsInitializer) (has : s.tree.Has init) (ok : s.Accepts init)
    (deep : 5 * init.height ≤ d + 1) : Makes s false false (do
        if (← kindOf (s.tree.handle init.index)) == .string then
          value d (s.tree.handle init.index)
          emitOp .initString [entry.displacement]
        else
          initializer d (s.tree.handle init.index)
          emitOp .initArray [(bounds.length : Int), s.sizeOf (Rose.elementOf s entry.type),
                entry.displacement, Rose.writtenWord bounds])
      (Rose.arrayInitCode s entry bounds init) := by
  refine .read (.kindOf has) ?_
  rw [Rose.arrayInitCode]
  by_cases text : init.kind = .string
  · cases isInit with
    | list kind _ => simp [kind] at text
    | expr expr =>
      rw [if_pos text, if_pos (by simpa using text)]
      exact .seq ((lowers_expr expr has ok).value d (by omega)) (.emitOp _ _)
  · rw [if_neg text, if_neg (by simpa using text)]
    exact .seq (makes_initializer isInit has ok d deep) (.emitOp _ _)

theorem makes_array {entry : Identifier} {bounds : List Rose} {init : Option Rose} {d : Nat}
    (h : r.IsVariable bounds init) (has : s.tree.Has r)
    (ok : s.Accepts r) (sound : 0 < s.types.cells.size)
    (valid : s.types.Valid entry.type) (deep : 5 * r.height ≤ d + 5) : Makes s false false
    (arrayVariable d (s.tree.handle r.index) ((init.map fun i => s.tree.handle i.index).getD
      .broken) entry bounds.length init.isSome) (Rose.arrayCode s entry bounds init) := by
  obtain ⟨element, elementValid⟩ := innermostElement_ok sound valid
  have rest : Makes s false false
      (do
        let types ← types
        let size ← sizeOf (← innermostElement types (types.cells.size + 1) entry.type)
        emitOp .defineArray [(bounds.length : Int), size, entry.displacement, 0,
          Rose.writtenWord bounds, flagWord init.isSome]
        if !init.isSome then return
        if (← kindOf ((init.map fun i => s.tree.handle i.index).getD .broken)) == .string then
          value d ((init.map fun i => s.tree.handle i.index).getD .broken)
          emitOp .initString [entry.displacement]
        else
          initializer d ((init.map fun i => s.tree.handle i.index).getD .broken)
          emitOp .initArray [(bounds.length : Int), size, entry.displacement,
            Rose.writtenWord bounds])
      (.seq (.op .defineArray [bounds.length, s.sizeOf (Rose.elementOf s entry.type),
        entry.displacement, 0, Rose.writtenWord bounds, flagWord init.isSome])
        ((init.map (Rose.arrayInitCode s entry bounds)).getD .skip)) := by
    refine .read .types
      (.read (.lift element) (.read (.sizeOf elementValid) (.seq (.emitOp _ _) ?_)))
    cases init with
    | none => exact .nothing
    | some i =>
      have mem : i ∈ r.children := by simp [h.kids]
      have low := Rose.height_child mem
      exact makes_arrayInit (h.init i rfl) (has.child mem) (ok.child mem) (by omega)
  have flat := flat_bounds (s := s) h.bounds
  refine ⟨?_, fun g seen ready => ?_⟩
  · intro id mem
    rcases List.mem_append.mp mem with left | right
    · simp [flat.labels] at left
    · exact rest.labels id right
  · have walk := yields_bounds h has ok deep 0 g seen
    have after : s.Seen ((Piece.all (bounds.map (Rose.boundCode s))).put g).session :=
      seen.alike (follows_put _ g).session (by simp [flat.labels])
    exact walk.bind (rest.run _ after (.nothing _))

/-- The initializer of a variable is its last child. -/
theorem initializer_of_variable {bounds : List Rose}
    {init : Option Rose} (h : r.IsVariable bounds init)
    (has : s.tree.Has r) : s.tree.initializer (s.tree.handle r.index) =
    .ok ((init.map fun i => s.tree.handle i.index).getD .broken) := by
  have flag : s.tree.hasInitializer (s.tree.handle r.index) = .ok (r.arg 2 != 0) := has.flagAt 2
  have count : s.tree.boundCount (s.tree.handle r.index) = .ok (r.arg 1) := has.arg 1
  rw [Arena.initializer, flag, count, h.flag, h.count]
  cases init with
  | none => rfl
  | some i =>
    have last : r.children[bounds.length]? = some i := by simp [h.kids]
    obtain ⟨inside, same⟩ := List.getElem?_eq_some_iff.mp last
    have found := has.child_at inside
    rw [same] at found
    exact found

theorem makes_variable {bounds : List Rose} {init : Option Rose} {d : Nat}
    (h : r.IsVariable bounds init) (has : s.tree.Has r) (ok : s.Accepts r)
    (sound : 0 < s.types.cells.size) (deep : 5 * r.height ≤ d + 5) :
    Makes s false false (variableDeclaration d (s.tree.handle r.index)) (r.toStatement s) := by
  have flat := Rose.flat_variable h s
  have flag : s.tree.hasInitializer (s.tree.handle r.index) = .ok (r.arg 2 != 0) := has.flagAt 2
  have count : s.tree.boundCount (s.tree.handle r.index) = .ok (r.arg 1) := has.arg 1
  have isSome : (r.arg 2 != 0) = init.isSome := by rw [h.flag]; cases init <;> rfl
  rw [isSome] at flag
  rw [h.count] at count
  obtain ⟨valid, notLabel⟩ := ok.self.declared h.kind
  refine .ofFlat flat fun g seen => ?_
  -- the table may have new addresses of labels, but a variable is none
  have entry : ∃ e, g.session.identifier (r.arg 0) = e ∧ e.type = (s.identifier (r.arg 0)).type ∧
      e.displacement = (s.identifier (r.arg 0)).displacement :=
    ⟨_, rfl, seen.type _, seen.displacement _ notLabel⟩
  obtain ⟨entry, found, type, displacement⟩ := entry
  refine (Answers.tree g seen).bind
    ((yields_get g).bind ((Answers.lift (has.arg 0) g seen).bind ?_))
  refine (Answers.lift (initializer_of_variable h has) g seen).bind
    ((Answers.lift count g seen).bind ((Answers.lift flag g seen).bind ?_))
  rw [found]
  have scalar (i : Rose) :
    Rose.scalarCode s (s.identifier (r.arg 0)) i = Rose.scalarCode s entry i := by
    simp only [Rose.scalarCode, type, displacement]
  have array :
    Rose.arrayCode s (s.identifier (r.arg 0)) bounds init = Rose.arrayCode s entry bounds init := by
    have each (i : Rose) : Rose.arrayInitCode s (s.identifier (r.arg 0)) bounds i =
        Rose.arrayInitCode s entry bounds i := by
      simp only [Rose.arrayInitCode, type, displacement]
    cases init with
    | none => simp only [Rose.arrayCode, type, displacement, Option.map_none]
    | some i => simp only [Rose.arrayCode, type, displacement, Option.map_some, each]
  rw [Rose.toStatement_variable h]
  by_cases none : bounds = []
  · subst none
    cases init with
    | none => exact yields_pure _ g
    | some i =>
      have mem : i ∈ r.children := by simp [h.kids]
      have low := Rose.height_child mem
      have structured : i.kind = .initializer → s.types.isStructure entry.type = true :=
        fun kind => by
        rw [type]
        exact ok.self.list h.kind h.count i mem kind
      have makes := makes_scalar (s.tree.handle r.index) (type ▸ valid) (h.init i rfl) structured
        (has.child mem) (ok.child mem) (d := d) (by omega)
      rw [← scalar] at makes
      exact makes.run g seen (.nothing _)
  · have some : ((bounds.length : Int) != 0) = true := by simpa using none
    rw [if_neg none, array, if_pos some]
    exact (makes_array h has ok sound (type ▸ valid) deep).run g seen (.nothing _)

theorem makes_declaration {d : Nat} (h : r.IsDeclaration) (has : s.tree.Has r) (ok : s.Accepts r)
    (sound : 0 < s.types.cells.size) (deep : 5 * r.height ≤ d + 10) :
    Makes s false false (declaration d (s.tree.handle r.index)) (r.toStatement s) := by
  rw [Rose.toStatement_declaration h.kind]
  refine .read (.childNumbers has 0) ?_
  refine Makes.forM_children has 0 fun c mem => ?_
  have low := Rose.height_child mem
  refine .read (.kindOf (has.child mem)) ?_
  rcases h.all c mem with ⟨kind, _⟩ | ⟨bounds, init, isVariable⟩
  · rw [kind, Rose.toStatement_null (.inr kind)]
    exact .nothing
  · rw [isVariable.kind]
    exact makes_variable isVariable (has.child mem) (ok.child mem) sound (by omega)

/-! ## Loops -/

section Frames

variable {inLoop inSwitch : Bool} {g : Lowering} {t : Piece}

theorem yields_pushFrame (f : JumpFrame) (g : Lowering) : Yields (pushFrame f) g () (g.enter f) :=
  rfl

theorem yields_topFrame (g : Lowering) : Yields topFrame g g.top g := rfl

theorem yields_popFrame (g : Lowering) : Yields popFrame g g.top g.leave := rfl

theorem yields_addBreak (p : Nat) (g : Lowering) : Yields (addBreak p) g () (g.breakAt p) := rfl

theorem yields_addContinue (p : Nat) (g : Lowering) :
    Yields (addContinue p) g () (g.continueAt p) :=
  rfl

/-- The end of a loop. -/
theorem yields_closing (op : Operation) (start : Nat) (g : Lowering) :
    Yields
      (do
        emitOp op [(start : Int)]
        patchHere (← topFrame).breaks
        let _ ← popFrame) g ()
      ((g.push [op.code, start]).fill g.top.breaks (g.here + 2 : Nat)).leave := by
  have filled := yields_patchHere g.top.breaks (g.push [op.code, start])
  rw [here_push] at filled
  exact (yields_emitOp op [(start : Int)] g).bind ((yields_topFrame _).bind
    (filled.bind ((yields_popFrame _).bind (yields_pure _ _))))

/-- The code behind the body does not look at the frames, so they may be closed before or after
it. -/
theorem closeLoop_flat (flat : t.Flat) (g : Lowering) (target start : Nat) (op : Operation) :
    (((t.put (g.fill g.top.continues target)).push [op.code, start]).fill
        (t.put (g.fill g.top.continues target)).top.breaks
        ((t.put (g.fill g.top.continues target)).here + 2 : Nat)).leave =
      (t.put (g.settle target)).closeLoop op start := by
  have settled : g.settle target = (g.fill g.top.continues target).withFrames
      (changeFirst (fun _ => true) (fun f => { f with continues := [] }) g.frames) := rfl
  have frames := flat.frames_put (g.fill g.top.continues target)
  rw [settled, flat.put_withFrames]
  generalize t.put (g.fill g.top.continues target) = k at frames ⊢
  rw [frames_fill] at frames
  cases all : g.frames with
  | nil =>
    simp only [closeLoop, leave, top, frames_fill, frames_push, frames, all]
    rfl
  | cons f rest =>
    simp only [closeLoop, leave, top, frames_fill, frames_push, frames, all]
    rfl

end Frames

/-! ## Statements -/

section Statements

variable {inLoop inSwitch : Bool} {c y n b v : Rose} {d : Nat}

attribute [local simp] statement

/-- What is known of an expression inside a statement. -/
abbrev Valued (s : Session) (d : Nat) (r : Rose) : Prop :=
  Makes s false false (value d (s.tree.handle r.index)) (r.toValue s)

/-- What is known of a statement inside another one. -/
abbrev Stated (s : Session) (inLoop inSwitch : Bool) (d : Nat) (r : Rose) : Prop :=
  Makes s inLoop inSwitch (statement d (s.tree.handle r.index)) (r.toStatement s)

theorem makes_block (has : s.tree.Has r) (kind : r.kind = .block)
    (each : ∀ c ∈ r.children, Stated s inLoop inSwitch d c) :
    Stated s inLoop inSwitch (d + 1) r := by
  rw [Stated, statement, Rose.toStatement_block kind]
  refine .read (.kindOf has) ?_
  rw [kind]
  exact .read (.childNumbers has 0) (.forM_children has 0 each)

theorem makes_ifOnly (has : s.tree.Has r) (kind : r.kind = .ifElse) (flag : r.arg 0 = 0)
    (kids : r.children = [c, y]) (test : Valued s d c) (yes : Stated s inLoop inSwitch d y) :
    Stated s inLoop inSwitch (d + 1) r := by
  rw [Stated, statement, Rose.toStatement_ifOnly kind flag kids]
  refine .read (.kindOf has) ?_
  rw [kind]
  refine .read (.first has kids) ?_
  refine ⟨List.forall_mem_append.mpr ⟨test.labels, yes.labels⟩, fun g seen ready => ?_⟩
  have seen₁ : s.Seen (((c.toValue s).put g).fork .branchIfZero).session := test.seen seen
  have ready₁ : Ready (((c.toValue s).put g).fork .branchIfZero).shape inLoop inSwitch :=
    Makes.ready ready
  refine (test.run g seen (.nothing _)).bind ((yields_jump _ _).bind ?_)
  refine (Answers.second has kids _ seen₁).bind
    ((yes.run _ seen₁ ready₁).bind ?_)
  refine (Answers.tree _ (yes.seen seen₁)).bind ((Answers.flagAt has 0 _ (yes.seen seen₁)).bind ?_)
  rw [if_neg (by simp [flag])]
  exact yields_land _ _

theorem makes_ifElse (has : s.tree.Has r) (kind : r.kind = .ifElse) (flag : r.arg 0 ≠ 0)
    (kids : r.children = [c, y, n]) (test : Valued s d c) (yes : Stated s inLoop inSwitch d y)
    (no : Stated s inLoop inSwitch d n) : Stated s inLoop inSwitch (d + 1) r := by
  rw [Stated, statement, Rose.toStatement_ifElse kind flag kids]
  refine .read (.kindOf has) ?_
  rw [kind]
  refine .read (.first has kids) ?_
  refine ⟨List.forall_mem_append.mpr ⟨List.forall_mem_append.mpr ⟨test.labels, yes.labels⟩,
    no.labels⟩, fun g seen ready => ?_⟩
  have seen₁ : s.Seen (((c.toValue s).put g).fork .branchIfZero).session := test.seen seen
  have ready₁ : Ready (((c.toValue s).put g).fork .branchIfZero).shape inLoop inSwitch :=
    Makes.ready ready
  refine (test.run g seen (.nothing _)).bind ((yields_jump _ _).bind ?_)
  refine (Answers.second has kids _ seen₁).bind
    ((yes.run _ seen₁ ready₁).bind ?_)
  refine (Answers.tree _ (yes.seen seen₁)).bind ((Answers.flagAt has 0 _ (yes.seen seen₁)).bind ?_)
  rw [if_pos (by simpa using flag)]
  have seen₂ (p target : Nat) :
      s.Seen ((((y.toStatement s).put (((c.toValue s).put g).fork .branchIfZero)).fork .branch).land
      p target).session :=
    yes.seen seen₁
  have ready₂ (p target : Nat) :
      Ready ((((y.toStatement s).put (((c.toValue s).put g).fork .branchIfZero)).fork .branch).land
      p target).shape inLoop inSwitch :=
    Makes.ready ready₁
  refine (yields_jump _ _).bind ((yields_land _ _).bind ?_)
  refine (Answers.third has kids _ (seen₂ _ _)).bind ?_
  rw [here_fork]
  exact (no.run _ (seen₂ _ _) (ready₂ _ _)).bind (yields_land _ _)

theorem makes_whileLoop (has : s.tree.Has r) (kind : r.kind = .whileLoop)
    (kids : r.children = [c, b]) (test : Valued s d c) (body : Stated s true inSwitch d b) :
    Stated s inLoop inSwitch (d + 1) r := by
  rw [Stated, statement, Rose.toStatement_whileLoop kind kids]
  refine .read (.kindOf has) ?_
  rw [kind]
  refine ⟨List.forall_mem_append.mpr ⟨test.labels, body.labels⟩, fun g seen ready => ?_⟩
  rw [Piece.put_whileLoop, ← closeLoop_flat (t := .skip) trivial, Piece.put_skip]
  have seen₁ : s.Seen (g.enter .loop).session := seen
  have seen₂ : s.Seen ((c.toValue s).put (g.enter .loop)).testLoop.session := test.seen seen₁
  have ready₂ : Ready ((c.toValue s).put (g.enter .loop)).testLoop.shape true inSwitch := by
    rw [testLoop, shape_breakAt, shape_fork]
    exact Makes.ready ready.enterLoop
  refine (yields_pushFrame _ _).bind ((yields_pc _).bind ?_)
  refine (Answers.first has kids _ seen₁).bind
    ((test.run _ seen₁ (.nothing _)).bind ?_)
  refine (yields_jump _ _).bind ((yields_addBreak _ _).bind ?_)
  refine (Answers.second has kids _ seen₂).bind
    ((body.run _ seen₂ ready₂).bind ?_)
  exact (yields_topFrame _).bind ((yields_patch _ _ _).bind (yields_closing _ _ _))

theorem makes_doWhile (has : s.tree.Has r) (kind : r.kind = .doWhile) (kids : r.children = [b, c])
    (body : Stated s true inSwitch d b) (test : Valued s d c) (flat : (c.toValue s).Flat) :
    Stated s inLoop inSwitch (d + 1) r := by
  rw [Stated, statement, Rose.toStatement_doWhile kind kids]
  refine .read (.kindOf has) ?_
  rw [kind]
  refine ⟨List.forall_mem_append.mpr ⟨body.labels, test.labels⟩, fun g seen ready => ?_⟩
  rw [Piece.put, ← closeLoop_flat flat]
  have seen₁ : s.Seen (g.enter .loop).session := seen
  have ready₁ : Ready (g.enter .loop).shape true inSwitch := ready.enterLoop
  refine (yields_pushFrame _ _).bind ((yields_pc _).bind ?_)
  refine (Answers.first has kids _ seen₁).bind
    ((body.run _ seen₁ ready₁).bind ?_)
  have seen₂ (ps : List Nat) (target : Int) :
      s.Seen (((b.toStatement s).put (g.enter .loop)).fill ps target).session := body.seen seen₁
  refine (yields_topFrame _).bind ((yields_patchHere _ _).bind ?_)
  refine (Answers.second has kids _ (seen₂ _ _)).bind ?_
  exact (test.run _ (seen₂ _ _) (.nothing _)).bind (yields_closing _ _ _)

/-! ### For -/

/-- The node of a clause that may be missing. -/
def clauseNode (s : Session) (o : Option Rose) : Handle :=
  (o.map fun c => s.tree.handle c.index).getD .broken

theorem flagWord_isSome (o : Option Rose) : (flagWord o.isSome != 0) = o.isSome ∧
    flagWord o.isSome = (o.toList.length : Int) := by
  cases o <;> exact ⟨rfl, rfl⟩

theorem answers_clause {o : Option Rose} {k : Nat} {i : Int} (has : s.tree.Has r)
    (number : i = (k : Int)) (found : ∀ c ∈ o, r.children[k]? = some c) : Answers s
    (if o.isSome then child (s.tree.handle r.index) i else pure .broken) (clauseNode s o) := by
  subst number
  cases o with
  | none => exact .pure _
  | some c => exact .child has (found c rfl)

theorem answers_isBroken {o : Option Rose} (has : ∀ c ∈ o, s.tree.Has c) :
    Answers s (isBroken (clauseNode s o)) o.isNone := by
  cases o with
  | none =>
    refine .bind .tree ?_
    rw [show clauseNode s none = Handle.broken from rfl, Arena.isBroken_broken]
    exact .pure _
  | some c => exact .isBroken (has c rfl)

/-- The end of a `for` statement: its step and the jump back. -/
theorem yields_again {step : Option Rose} (has : ∀ e ∈ step, s.tree.Has e)
    (next : ∀ e ∈ step, Makes s false false (effect d (s.tree.handle e.index)) (e.toEffect s))
    (flat : (Rose.clause (Rose.toEffect s) step).Flat) (start : Nat) (g : Lowering)
    (seen : s.Seen g.session) : Yields (do
        patchHere (← topFrame).continues
        if !(← isBroken (clauseNode s step)) then effect d (clauseNode s step)
        emitOp .branch [(start : Int)]
        patchHere (← topFrame).breaks
        let _ ← popFrame) g ()
      (((Rose.clause (Rose.toEffect s) step).put (g.settle g.here)).closeLoop .branch start) := by
  rw [← closeLoop_flat flat]
  have seen₁ : s.Seen (g.fill g.top.continues g.here).session := seen
  refine (yields_topFrame g).bind
    ((yields_patchHere _ _).bind ((answers_isBroken has _ seen₁).bind ?_))
  cases step with
  | none => exact yields_closing _ _ _
  | some e => exact ((next e rfl).run _ seen₁ (.nothing _)).bind (yields_closing _ _ _)

/-- A `for` statement after its first clause. -/
theorem makes_loop {cond step : Option Rose} (hasCond : ∀ c ∈ cond, s.tree.Has c)
    (hasStep : ∀ e ∈ step, s.tree.Has e) (test : ∀ c ∈ cond, Valued s d c)
    (next : ∀ e ∈ step, Makes s false false (effect d (s.tree.handle e.index)) (e.toEffect s))
    (flat : (Rose.clause (Rose.toEffect s) step).Flat) (body : Stated s true inSwitch d b) :
    Makes s inLoop inSwitch
      (do
        pushFrame .loop
        let start ← pc
        if !(← isBroken (clauseNode s cond)) then
          value d (clauseNode s cond)
          addBreak (← jump .branchIfZero)
        statement d (s.tree.handle b.index)
        patchHere (← topFrame).continues
        if !(← isBroken (clauseNode s step)) then effect d (clauseNode s step)
        emitOp .branch [start]
        patchHere (← topFrame).breaks
        let _ ← popFrame)
      (Rose.loopCode (cond.map (Rose.toValue s)) (b.toStatement s)
            (Rose.clause (Rose.toEffect s) step)) := by
  have labels :
    ∀ id ∈ (Rose.clause (Rose.toEffect s) step).labels, (s.identifier id).kind = .label := by
    simp [flat.labels]
  cases cond with
  | none =>
    refine ⟨List.forall_mem_append.mpr ⟨body.labels, labels⟩, fun g seen ready => ?_⟩
    have seen₁ : s.Seen (g.enter .loop).session := seen
    refine (yields_pushFrame _ _).bind
      ((yields_pc _).bind ((answers_isBroken hasCond _ seen₁).bind ?_))
    refine (body.run (g.enter .loop) seen₁ ready.enterLoop).bind ?_
    exact yields_again hasStep next flat _ _ (body.seen seen₁)
  | some c =>
    refine ⟨List.forall_mem_append.mpr ⟨List.forall_mem_append.mpr ⟨(test c rfl).labels,
      body.labels⟩, labels⟩, fun g seen ready => ?_⟩
    have seen₁ : s.Seen (g.enter .loop).session := seen
    have seen₂ : s.Seen ((c.toValue s).put (g.enter .loop)).testLoop.session :=
      (test c rfl).seen seen₁
    have ready₂ : Ready ((c.toValue s).put (g.enter .loop)).testLoop.shape true inSwitch := by
      rw [testLoop, shape_breakAt, shape_fork]
      exact Makes.ready ready.enterLoop
    refine (yields_pushFrame _ _).bind
      ((yields_pc _).bind ((answers_isBroken hasCond _ seen₁).bind ?_))
    refine ((test c rfl).run _ seen₁ (.nothing _)).bind
      ((yields_jump _ _).bind ((yields_addBreak _ _).bind ?_))
    refine (body.run _ seen₂ ready₂).bind ?_
    exact yields_again hasStep next flat _ _ (body.seen seen₂)

/-- A step after one of two readings. -/
theorem Makes.readEither {α : Type} {p : Bool}
    {x y : Lower α} {f : α → Lower Unit} {a : α} {m : Piece}
    (answer : Answers s (if p then x else y) a) (next : Makes s inLoop inSwitch (f a) m) :
    Makes s inLoop inSwitch (if p then x >>= f else y >>= f) m := by
  cases p
  · exact .read answer next
  · exact .read answer next

theorem makes_forLoop {init cond step : Option Rose} (has : s.tree.Has r) (ok : s.Accepts r)
    (sound : 0 < s.types.cells.size) (kind : r.kind = .forLoop)
    (kids : r.children = init.toList ++ cond.toList ++ step.toList ++ [b])
    (hasInit : r.arg 0 = flagWord init.isSome) (hasCond : r.arg 1 = flagWord cond.isSome)
    (hasStep : r.arg 2 = flagWord step.isSome) (isInit : ∀ i ∈ init, i.IsDeclaration ∨ i.IsExpr)
    (isCond : ∀ c ∈ cond, c.IsExpr) (isStep : ∀ e ∈ step, e.IsExpr) (deep : 5 * r.height ≤ d + 5)
    (body : Stated s true inSwitch d b) : Stated s inLoop inSwitch (d + 2) r := by
  have memI : ∀ i ∈ init, i ∈ r.children := fun i mem => by simp [kids, Option.mem_def.mp mem]
  have memC : ∀ c ∈ cond, c ∈ r.children := fun c mem => by simp [kids, Option.mem_def.mp mem]
  have memE : ∀ e ∈ step, e ∈ r.children := fun e mem => by simp [kids, Option.mem_def.mp mem]
  have test : ∀ c ∈ cond, Valued s d c := fun c mem => by
    have low := Rose.height_child (memC c mem)
    exact (lowers_expr (isCond c mem) (has.child (memC c mem)) (ok.child (memC c mem))).value
      d (by omega)
  have next : ∀ e ∈ step, Makes s false false (effect d (s.tree.handle e.index)) (e.toEffect s) :=
    fun e mem => by
    have low := Rose.height_child (memE e mem)
    exact (lowers_expr (isStep e mem) (has.child (memE e mem)) (ok.child (memE e mem))).effect
      d (by omega)
  have flat : (Rose.clause (Rose.toEffect s) step).Flat := by
    cases step with
    | none => trivial
    | some e => exact (Rose.flat_expr (isStep e rfl) s).2.2
  -- the rounds are those of a loop with or without a test, and what comes first is in front
  have loop : Makes s inLoop inSwitch _ _ := makes_loop (fun c mem => has.child (memC c mem))
    (fun e mem => has.child (memE e mem)) test next flat body
  have last :
    r.children[init.toList.length + cond.toList.length + step.toList.length]? = some b := by
    rw [kids, ← List.length_append, ← List.length_append]
    exact List.getElem?_concat_length
  rw [Stated, statement, Rose.toStatement_forLoop kind kids hasInit hasCond hasStep]
  refine .read (.kindOf has) ?_
  rw [kind]
  show Makes s inLoop inSwitch (forLoop (d + 1) _) _
  rw [forLoop]
  refine .read .tree (.read (.flagAt has 0) (.read (.flagAt has 1) (.read (.flagAt has 2) ?_)))
  rw [hasInit, hasCond, hasStep, (flagWord_isSome init).1, (flagWord_isSome cond).1,
    (flagWord_isSome step).1]
  -- the flags of the node say which child is the test, the step and the body
  refine .readEither (answers_clause (k := 0) has rfl fun c mem => ?_) ?_
  · simp [kids, Option.mem_def.mp mem]
  refine .readEither
    (answers_clause (k := init.toList.length) has (flagWord_isSome init).2 fun c mem => ?_) ?_
  · simp [kids, Option.mem_def.mp mem]
  refine .readEither
    (answers_clause (k := init.toList.length + cond.toList.length) has ?_ fun c mem => ?_) ?_
  · rw [(flagWord_isSome init).2, (flagWord_isSome cond).2, Nat.cast_add]
  · simp [kids, Option.mem_def.mp mem]
  rw [(flagWord_isSome init).2, (flagWord_isSome cond).2, (flagWord_isSome step).2, ← Nat.cast_add,
    ← Nat.cast_add]
  refine .read (.child has last) (.read (answers_isBroken fun i mem => has.child (memI i mem)) ?_)
  cases init with
  | none => exact .ofSkip loop
  | some i =>
    have low := Rose.height_child (memI i rfl)
    have hasI := has.child (memI i rfl)
    have okI := ok.child (memI i rfl)
    refine .read (.kindOf hasI) ?_
    rcases isInit i rfl with isDeclaration | expr
    · rw [if_pos (by simp [isDeclaration.kind]), Rose.clause, Rose.initCode,
        if_pos isDeclaration.kind]
      exact .seq ((makes_declaration isDeclaration hasI okI sound (by omega)).anywhere _ _) loop
    · have other : i.kind ≠ .declaration := fun same => by
        have kind := (Rose.isExpr_kind expr).1
        simp [same, Kind.isExpression] at kind
      rw [if_neg (by simpa using other), Rose.clause, Rose.initCode, if_neg other]
      exact .seq (((lowers_expr expr hasI okI).effect d (by omega)).anywhere _ _) loop

/-! ### Switches and jumps -/

theorem makes_switching (has : s.tree.Has r) (kind : r.kind = .switching)
    (kids : r.children = [c, b]) (value : Valued s d c) (body : Stated s inLoop true d b) :
    Stated s inLoop inSwitch (d + 1) r := by
  rw [Stated, statement, Rose.toStatement_switching kind kids]
  refine .read (.kindOf has) ?_
  rw [kind]
  refine ⟨List.forall_mem_append.mpr ⟨value.labels, body.labels⟩, fun g seen ready => ?_⟩
  have seen₁ : s.Seen (g.enter .switch).session := seen
  have seen₂ := value.seen seen₁
  have ready₂ : Ready ((c.toValue s).put (g.enter .switch)).shape inLoop true :=
    Makes.ready ready.enterSwitch
  refine (yields_pushFrame _ _).bind ?_
  refine (Answers.first has kids _ seen₁).bind
    ((value.run _ seen₁ (.nothing _)).bind ?_)
  refine (Answers.second has kids _ seen₂).bind
    ((body.run _ seen₂ ready₂).bind ?_)
  rw [Piece.put, closeSwitch]
  generalize (b.toStatement s).put ((c.toValue s).put (g.enter .switch)) = k
  have dropped :=
    yields_drop (k.fill (k.top.caseSlot.toList ++ k.top.fallThrough ++ k.top.breaks) k.here)
  rw [here_fill] at dropped
  exact (yields_topFrame k).bind ((yields_patchHere _ _).bind (dropped.bind
    ((yields_popFrame _).bind (yields_pure _ _))))

/-- A test that drops the value of a switch, for each of some frames. -/
theorem yields_dropAll (frames : List JumpFrame) (g : Lowering) :
    Yields (frames.forM fun _ => drop) g () (dropAll frames.length g) := by
  induction frames generalizing g with
  | nil => exact yields_pure _ _
  | cons f rest ih => exact (yields_drop g).bind (ih _)

theorem makes_breaking (has : s.tree.Has r) (kind : r.kind = .breaking)
    (inside : inLoop = true ∨ inSwitch = true) : Stated s inLoop inSwitch (d + 1) r := by
  rw [Stated, statement, Rose.toStatement_breaking kind]
  refine .read (.kindOf has) ?_
  rw [kind]
  refine ⟨nofun, fun g seen ready => ?_⟩
  have some : g.frames.isEmpty = false := by
    cases frames : g.frames with
    | cons f rest => rfl
    | nil =>
      rcases inside with loop | switch
      · simpa [shape, frames] using ready.loop loop
      · simpa [shape, frames] using ready.switch switch
  show Yields (Lowering.breaking _) _ _ _
  rw [Lowering.breaking]
  refine (yields_get g).bind ?_
  rw [some]
  exact (yields_jump _ _).bind (yields_addBreak _ _)

theorem makes_continuing (has : s.tree.Has r) (kind : r.kind = .continuing) :
    Stated s true inSwitch (d + 1) r := by
  rw [Stated, statement, Rose.toStatement_continuing kind]
  refine .read (.kindOf has) ?_
  rw [kind]
  refine ⟨nofun, fun g seen ready => ?_⟩
  have some : g.frames.any (·.isLoop) = true := inLoop_iff.mpr (ready.loop rfl)
  show Yields (Lowering.continuing _) _ _ _
  rw [Lowering.continuing]
  refine (yields_get g).bind ?_
  simp only [some, Bool.not_true, Bool.false_eq_true, if_false]
  exact (yields_dropAll _ g).bind ((yields_jump _ _).bind (yields_addContinue _ _))

theorem makes_jump (has : s.tree.Has r) (kind : r.kind = .jump) :
    Stated s inLoop inSwitch (d + 1) r := by
  rw [Stated, statement, Rose.toStatement_jump kind]
  refine .read (.kindOf has) ?_
  rw [kind]
  refine .read .tree (.read (.arg has 0) ⟨nofun, fun g seen ready => ?_⟩)
  rw [Piece.put, labelJump, jumpTo]
  refine (show Yields (labelState (r.arg 0)) g (g.labelOf (r.arg 0)) g from rfl).bind ?_
  rcases g.labelOf (r.arg 0) with ⟨name, address, waiting⟩
  cases address with
  | some address => exact yields_emitOp _ _ _
  | none => exact (yields_jump _ _).bind rfl

theorem makes_label (has : s.tree.Has r) (isLabel : s.IsLabel (r.arg 0)) (kind : r.kind = .label)
    (kids : r.children = [b]) (body : Stated s inLoop inSwitch d b) :
    Stated s inLoop inSwitch (d + 1) r := by
  rw [Stated, statement, Rose.toStatement_label kind kids]
  refine .read (.kindOf has) ?_
  rw [kind]
  refine .read .tree (.read (.arg has 0) ⟨?_, fun g seen ready => ?_⟩)
  · exact List.forall_mem_cons.mpr ⟨isLabel.2.2, body.labels⟩
  have placed : Yields (placeLabel (r.arg 0)) g () (g.place (r.arg 0)) := by
    have inside : r.arg 0 < g.session.identifiers.size := by
      rw [seen.identifiers]
      exact isLabel.2.1
    have set : g.session.setDisplacement (r.arg 0) g.here =
        .ok (g.session.changed (r.arg 0) fun e => { e with displacement := (g.here : Int) }) :=
      Session.changeIdentifier_of_lt (Int.le_of_lt isLabel.1) inside _
    have same : sessionWith g.session (r.arg 0) g.here =
        g.session.changed (r.arg 0) fun e => { e with displacement := (g.here : Int) } := by
      rw [sessionWith, set]
    rw [place, same, placeLabel]
    refine (show Yields (labelState (r.arg 0)) g (g.labelOf (r.arg 0)) g from rfl).bind
      ((yields_pc g).bind ?_)
    refine (yields_patch _ _ _).bind (Yields.bind (a := ()) rfl ((yields_get _).bind ?_))
    exact (yields_lift set _).bind rfl
  have seen₁ : s.Seen (g.place (r.arg 0)).session :=
    seen.alike (alike_sessionWith _ _ _) (by simpa using isLabel.2.2)
  refine placed.bind ((Answers.first has kids _ seen₁).bind ?_)
  exact body.run _ seen₁ ready

/-! ### Cases -/

/-- A change of the first frame of a kind, after another one that keeps the kind. -/
theorem changeFirst_changeFirst {p : JumpFrame → Bool} {first second : JumpFrame → JumpFrame}
    (keeps : ∀ f, p (first f) = p f) (frames : List JumpFrame) :
    changeFirst p second (changeFirst p first frames) =
    changeFirst p (fun f => second (first f)) frames := by
  induction frames with
  | nil => rfl
  | cons f rest ih =>
    by_cases here : p f = true
    · rw [changeFirst_here here, changeFirst_here here, changeFirst_here ((keeps f).trans here)]
    · rw [changeFirst_later here, changeFirst_later here, changeFirst_later here, ih]

/-- The slot of the last case test does not matter to a later one. -/
theorem closeCase_forgotten (g : Lowering) (slot : Option Nat) (jumps : List Nat) :
    (g.setCase slot).closeCase jumps = g.closeCase jumps := by
  have twice (second : JumpFrame → JumpFrame) : changeFirst isSwitch second
      (changeFirst isSwitch (fun f => { f with caseSlot := slot, fallThrough := [] }) g.frames) =
      changeFirst isSwitch (fun f =>
      second { f with caseSlot := slot, fallThrough := [] }) g.frames := by
    rw [changeFirst_changeFirst]
    exact fun _ => rfl
  simp only [closeCase, setCase, frames_fill, frames_push, frames_withFrames, twice]
  rfl

/-- The end of a case test. -/
theorem yields_closeCase {m : Unit → Lower Unit} {h : Lowering} (jumps : List Nat) (g : Lowering)
    (next : Yields (m ()) (g.closeCase jumps) () h) :
    Yields
      (do
        emitOp .equal []
        let failed ← jump .branchIfZero
        patchHere jumps
        m (← changeFrame isSwitch fun f => { f with caseSlot := some failed, fallThrough := [] }))
            g () h := by
  have forked := yields_jump .branchIfZero (g.push [Operation.code .equal])
  have filled :=
    yields_patchHere jumps (g.push [Operation.code .equal, Operation.code .branchIfZero, 0])
  rw [fork, push_push, here_push] at forked
  rw [here_push] at filled
  exact (yields_emitOp .equal [] g).bind
    (forked.bind (filled.bind (Yields.bind (a := ()) rfl next)))

/-- What the start of a case does: it gives the jumps into the body. -/
theorem yields_enterCase {f : JumpFrame} (g : Lowering) (found : g.frames.find? isSwitch = some f) :
    ∃ k, Yields (enterCase f) g g.caseJumps k ∧ k.session = g.session ∧
      (g.openCase = k ∨ g.openCase = k.setCase none) := by
  have slot : g.caseSlot = f.caseSlot := caseSlot_of_find found
  have falls : g.fallThrough = f.fallThrough := by simp [fallThrough, found]
  rw [enterCase, caseJumps, openCase, slot, falls]
  cases f.caseSlot with
  | none => exact ⟨g, yields_pure _ _, rfl, .inl rfl⟩
  | some failed =>
    have landed := yields_patchHere [failed] (g.fork .branch)
    rw [here_fork] at landed
    exact ⟨(g.fork .branch).land failed (g.here + 2),
      (yields_jump _ _).bind (landed.bind (yields_pure _ _)), rfl, .inr rfl⟩

theorem makes_caseLabel (has : s.tree.Has r)
    (kind : r.kind = .caseLabel) (kids : r.children = [v, b])
    (value : Valued s d v) (flat : (v.toValue s).Flat) (body : Stated s inLoop true d b) :
    Stated s inLoop true (d + 1) r := by
  rw [Stated, statement, Rose.toStatement_caseLabel kind kids]
  refine .read (.kindOf has) ?_
  rw [kind]
  refine ⟨List.forall_mem_append.mpr ⟨value.labels, body.labels⟩, fun g seen ready => ?_⟩
  obtain ⟨f, found⟩ := find_of_any (inSwitch_iff.mpr (ready.switch rfl))
  obtain ⟨k, entered, session, opened⟩ := yields_enterCase g found
  -- the value of a case is emitted as if the test before it had been forgotten already
  have closed :
      ((v.toValue s).put (g.openCase.push [Operation.code .duplicate])).closeCase g.caseJumps =
      ((v.toValue s).put (k.push [Operation.code .duplicate])).closeCase g.caseJumps := by
    rcases opened with same | forgotten
    · rw [same]
    · have frames := flat.frames_put (k.push [Operation.code .duplicate])
      have later : (v.toValue s).put ((k.setCase none).push [Operation.code .duplicate]) =
          ((v.toValue s).put (k.push [Operation.code .duplicate])).setCase none := by
        rw [setCase, setCase, frames, ← flat.put_withFrames]
        rfl
      rw [forgotten, later, closeCase_forgotten]
  have seen₁ : s.Seen (k.push [Operation.code .duplicate]).session := by
    rw [session_push, session]
    exact seen
  have seen₂ : s.Seen
    (((v.toValue s).put (k.push [Operation.code .duplicate])).closeCase g.caseJumps).session :=
    value.seen seen₁
  have ready₂ :
      Ready (((v.toValue s).put (k.push [Operation.code .duplicate])).closeCase g.caseJumps).shape
      inLoop true := by
    rw [← closed, shape_closeCase, shape_put, shape_push, shape_openCase]
    exact ready
  refine (show Yields innermostSwitch? g (some f) g by rw [← found]; rfl).bind ?_
  refine entered.bind ((yields_emitOp _ _ _).bind ?_)
  refine (Answers.first has kids _ seen₁).bind
    ((value.run _ seen₁ (.nothing _)).bind ?_)
  rw [Piece.put, closed]
  refine yields_closeCase (m := fun _ => do statement d (← child (s.tree.handle r.index) 1)) _ _ ?_
  refine (Answers.second has kids _ seen₂).bind ?_
  exact body.run _ seen₂ ready₂

theorem makes_defaultLabel (has : s.tree.Has r)
    (kind : r.kind = .defaultLabel) (kids : r.children = [b])
    (body : Stated s inLoop true d b) : Stated s inLoop true (d + 1) r := by
  rw [Stated, statement, Rose.toStatement_defaultLabel kind kids]
  refine .read (.kindOf has) ?_
  rw [kind]
  refine ⟨body.labels, fun g seen ready => ?_⟩
  obtain ⟨f, found⟩ := find_of_any (inSwitch_iff.mpr (ready.switch rfl))
  have slot : g.caseSlot = f.caseSlot := caseSlot_of_find found
  have falls : g.fallThrough = f.fallThrough := by simp [fallThrough, found]
  have opened : Yields (enterDefault f) g () g.openDefault := by
    rw [openDefault, slot, falls]
    rfl
  have seen₁ : s.Seen g.openDefault.session := seen
  have ready₁ : Ready g.openDefault.shape inLoop true := by
    rw [openDefault, shape_fill, shape_setCase]
    exact ready
  refine (show Yields innermostSwitch? g (some f) g by rw [← found]; rfl).bind ?_
  refine opened.bind ((Answers.first has kids _ seen₁).bind ?_)
  exact body.run _ seen₁ ready₁

theorem makes_null (has : s.tree.Has r) (kind : r.kind = .null) :
    Stated s inLoop inSwitch (d + 1) r := by
  rw [Stated, statement, Rose.toStatement_null (.inl kind)]
  refine .read (.kindOf has) ?_
  rw [kind]
  show Makes s inLoop inSwitch (pure ()) .skip
  exact .nothing

theorem makes_declared (has : s.tree.Has r) (kind : r.kind = .declaration)
    (makes : Makes s false false (declaration d (s.tree.handle r.index)) (r.toStatement s)) :
    Stated s inLoop inSwitch (d + 1) r := by
  rw [Stated, statement]
  refine .read (.kindOf has) ?_
  rw [kind]
  exact makes.anywhere _ _

theorem makes_returnVoid (has : s.tree.Has r) (kind : r.kind = .returning)
    (kids : r.children = []) : Stated s inLoop inSwitch (d + 1) r := by
  rw [Stated, statement, Rose.toStatement_returnVoid kind kids]
  refine .read (.kindOf has) ?_
  rw [kind]
  refine .read .tree ?_
  rw [has.amount, kids, if_pos (by rfl)]
  exact .emitOp _ _

theorem makes_returnValue (has : s.tree.Has r) (kind : r.kind = .returning)
    (kids : r.children = [c]) (valid : s.types.Valid c.exprType) (value : Valued s d c) :
    Stated s inLoop inSwitch (d + 1) r := by
  have result : s.tree.Has c := has.child (by simp [kids])
  rw [Stated, statement, Rose.toStatement_returnValue kind kids]
  refine .read (.kindOf has) ?_
  rw [kind]
  refine .read .tree ?_
  rw [has.amount, kids, if_neg (by simp)]
  refine .read (.first has kids) ?_
  exact .seq (value.anywhere _ _) (.read (.typeOf result) (.read (.sizeOf valid) (.emitOp _ _)))

theorem makes_effect (has : s.tree.Has r) (kind : r.kind.isExpression = true)
    (effect : Makes s false false (effect d (s.tree.handle r.index)) (r.toEffect s)) :
    Stated s inLoop inSwitch (d + 1) r := by
  rw [Stated, statement, Rose.toStatement_expr kind]
  refine .read (.kindOf has) ?_
  split <;> first
    | (next same => simp [same, Kind.isExpression] at kind)
    | (rw [if_pos kind]; exact effect.anywhere _ _)

/-! ### All statements -/

/-- The generator emits the code of a statement. -/
theorem makes_statement (form : r.IsStatement inLoop inSwitch) (has : s.tree.Has r)
    (ok : s.Accepts r) (sound : 0 < s.types.cells.size) : ∀ depth, 5 * r.height ≤ depth →
    Stated s inLoop inSwitch depth r := by
  -- an expression below a node is lowered two levels deeper than the node
  have valued {r e : Rose} {d : Nat} (has : s.tree.Has r) (ok : s.Accepts r) (mem : e ∈ r.children)
      (expr : e.IsExpr) (deep : 5 * r.height ≤ d + 2) : Valued s d e := by
    have low := Rose.height_child mem
    exact (lowers_expr expr (has.child mem) (ok.child mem)).value d (by omega)
  have below {r c : Rose} {d : Nat} (mem : c ∈ r.children) (deep : 5 * r.height ≤ d + 5) :
    5 * c.height ≤ d := by
    have low := Rose.height_child mem
    omega
  induction form with
  | @block _ _ r kind all each =>
    refine Lowers.deepen (k := 0) (by decide) fun d deep => ?_
    exact makes_block has kind fun c mem =>
      each c mem (has.child mem) (ok.child mem) d (below mem (by omega))
  | null kind _ => exact Lowers.deepen (k := 0) (by decide) fun d _ => makes_null has kind
  | declaration isDeclaration =>
    refine Lowers.deepen (k := 0) (by decide) fun d deep => ?_
    exact makes_declared has isDeclaration.kind
      (makes_declaration isDeclaration has ok sound (by omega))
  | @ifOnly _ _ r c y kind flag kids test yes ih =>
    refine Lowers.deepen (k := 0) (by decide) fun d deep => ?_
    have memC : c ∈ r.children := by simp [kids]
    have memY : y ∈ r.children := by simp [kids]
    exact makes_ifOnly has kind flag kids (valued has ok memC test (by omega))
      (ih (has.child memY) (ok.child memY) d (below memY (by omega)))
  | @ifElse _ _ r c y n kind flag kids test yes no first second =>
    refine Lowers.deepen (k := 0) (by decide) fun d deep => ?_
    have memC : c ∈ r.children := by simp [kids]
    have memY : y ∈ r.children := by simp [kids]
    have memN : n ∈ r.children := by simp [kids]
    exact makes_ifElse has kind flag kids (valued has ok memC test (by omega))
      (first (has.child memY) (ok.child memY) d (below memY (by omega)))
      (second (has.child memN) (ok.child memN) d (below memN (by omega)))
  | @whileLoop _ _ r c b kind kids test body ih =>
    refine Lowers.deepen (k := 0) (by decide) fun d deep => ?_
    have memC : c ∈ r.children := by simp [kids]
    have memB : b ∈ r.children := by simp [kids]
    exact makes_whileLoop has kind kids (valued has ok memC test (by omega))
      (ih (has.child memB) (ok.child memB) d (below memB (by omega)))
  | @doWhile _ _ r b c kind kids body test ih =>
    refine Lowers.deepen (k := 0) (by decide) fun d deep => ?_
    have memB : b ∈ r.children := by simp [kids]
    have memC : c ∈ r.children := by simp [kids]
    exact makes_doWhile has kind kids (ih (has.child memB) (ok.child memB) d
      (below memB (by omega))) (valued has ok memC test (by omega)) (Rose.flat_expr test s).1
  | @forLoop _ _ r b init cond step kind kids hasInit hasCond hasStep isInit isCond
      isStep body ih =>
    intro depth deep
    have memB : b ∈ r.children := by simp [kids]
    have high := Lowers.height_pos r
    obtain ⟨d, rfl⟩ : ∃ d, depth = d + 2 := ⟨depth - 2, by omega⟩
    exact makes_forLoop has ok sound kind kids hasInit hasCond hasStep isInit isCond isStep
      (by omega) (ih (has.child memB) (ok.child memB) d (below memB (by omega)))
  | @switching _ _ r c b kind kids value body ih =>
    refine Lowers.deepen (k := 0) (by decide) fun d deep => ?_
    have memC : c ∈ r.children := by simp [kids]
    have memB : b ∈ r.children := by simp [kids]
    exact makes_switching has kind kids (valued has ok memC value (by omega))
      (ih (has.child memB) (ok.child memB) d (below memB (by omega)))
  | @caseLabel _ r v b kind kids value body ih =>
    refine Lowers.deepen (k := 0) (by decide) fun d deep => ?_
    have memV : v ∈ r.children := by simp [kids]
    have memB : b ∈ r.children := by simp [kids]
    exact makes_caseLabel has kind kids (valued has ok memV value (by omega))
      (Rose.flat_expr value s).1 (ih (has.child memB) (ok.child memB) d (below memB (by omega)))
  | @defaultLabel _ r b kind kids body ih =>
    refine Lowers.deepen (k := 0) (by decide) fun d deep => ?_
    have memB : b ∈ r.children := by simp [kids]
    exact makes_defaultLabel has kind kids
      (ih (has.child memB) (ok.child memB) d (below memB (by omega)))
  | breaking kind inside _ =>
    exact Lowers.deepen (k := 0) (by decide) fun d _ => makes_breaking has kind inside
  | continuing kind _ =>
    exact Lowers.deepen (k := 0) (by decide) fun d _ => makes_continuing has kind
  | jump kind _ => exact Lowers.deepen (k := 0) (by decide) fun d _ => makes_jump has kind
  | @label _ _ r b kind kids body ih =>
    refine Lowers.deepen (k := 0) (by decide) fun d deep => ?_
    have memB : b ∈ r.children := by simp [kids]
    exact makes_label has (ok.self.label kind) kind kids
      (ih (has.child memB) (ok.child memB) d (below memB (by omega)))
  | returnVoid kind kids =>
    exact Lowers.deepen (k := 0) (by decide) fun d _ => makes_returnVoid has kind kids
  | @returnValue _ _ r e kind kids value =>
    refine Lowers.deepen (k := 0) (by decide) fun d deep => ?_
    have memE : e ∈ r.children := by simp [kids]
    exact makes_returnValue has kind kids ((ok.child memE).valid value)
      (valued has ok memE value (by omega))
  | expr expr =>
    refine Lowers.deepen (k := 0) (by decide) fun d deep => ?_
    exact makes_effect has (Rose.isExpr_kind expr).1 ((lowers_expr expr has ok).effect d (by omega))

end Statements

end BilingualC
